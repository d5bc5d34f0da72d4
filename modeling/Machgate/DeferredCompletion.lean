import Machgate.DylibBounds

namespace Machgate.DeferredCompletion

open ByteMemory SymbolIndex SymbolNames DylibTable SlotPool ResolverState ImportResolver
open Option List Nat
open ResolverFrames ChainedFixups FixupPass DylibBounds ResolverState.State

/-- An address of a library before the library is loaded: nothing the resolver could bind to
instead lies there. -/
structure Fresh (base : Pool → Addr) (w : World) (pageSize : Nat) (main : MainImage)
    (addr target : Addr) : Prop where
  ne_null : target ≠ 0
  outside : ∀ p : Pool, ¬ InRange (base p) (p.capacity pageSize) target
  own : ∀ f, w.own f ≠ addr ∧ w.own f ≠ target
  unloaded : ∀ name, w.dlsym rtldDefault name ≠ addr
  image : ∀ name result, lookupMachoSymbolResult main.image main.index name = some result →
    result.addr ≠ addr

theorem toAddr_place_ne {base : Pool → Addr} {p : Pool} {offset capacity : Nat} {target : Addr}
    (hlt : offset < capacity) (hout : ¬ InRange (base p) capacity target) :
    (Address.place p offset).toAddr base ≠ target := by
  rintro rfl
  apply hout
  rw [InRange, Address.toAddr, add_sub_cancel_left, BitVec.toNat_ofNat]
  exact (mod_le _ _).trans_lt hlt

theorem slotOr_toAddr_ne {base : Pool → Addr} {w : World} {s : State} {p : Pool} {size : Nat}
    {other : Address} {target : Addr} (hsize : 0 < size) (hother : other.toAddr base ≠ target)
    (hout : ¬ InRange (base p) (p.capacity w.pageSize) target) :
    (slotOr w s p size other).2.toAddr base ≠ target := by
  by_cases hserves : ServesPool w s p size
  · rw [slotOr_of_serves other hserves]
    have hroom := hserves.2
    exact toAddr_place_ne (by omega) hout
  · rwa [slotOr_of_not_serves other hserves]

section

variable {base : Pool → Addr} {w : World} {pageSize : Nat} {main : MainImage} {addr addend target : Addr}

theorem Fresh.return0_ne (hfresh : Fresh base w pageSize main addr target) (v : World) (s : State) :
    (allocReturn0Stub v s).2.toAddr base ≠ target :=
  slotOr_toAddr_ne (by decide) hfresh.ne_null.symm (hfresh.outside .return0)

theorem Fresh.chainedStub_ne (hfresh : Fresh base w pageSize main addr target) (symName : Name)
    (s : State) : (chainedStub w symName s).2.toAddr base ≠ target := by
  rw [chainedStub_snd]
  split_ifs
  · exact toAddr_place_ne (zero_lt_succ 4095) (hfresh.outside .zeroData)
  · exact hfresh.ne_null.symm
  · exact hfresh.return0_ne w s

theorem resolveNonGuiFrameworkData_cases (w : World) (s : State) (de : DylibEntry) (symName : Name) :
    let addr := (resolveNonGuiFrameworkData w s de symName).2
    addr = 0 ∨ (∃ f, w.own f = addr) ∨ ∃ name, w.dlsym rtldDefault name = addr := by
  rw [resolveNonGuiFrameworkData, resolveAsanDataSymbol, resolveShimObjcClassSymbol]
  split_ifs
  all_goals first
    | exact Or.inl rfl
    | exact Or.inr (Or.inl ⟨_, rfl⟩)
    | exact Or.inr (Or.inr ⟨_, rfl⟩)

theorem Fresh.bindDylib_ne (hfresh : Fresh base w pageSize main addr (addr + addend)) {s : State}
    {de : DylibEntry} {imp : Import} (haction : de.action = .deferred) {a : Address}
    (ha : (bindDylib w s de imp addend).2 = some a) : a.toAddr base ≠ addr + addend := by
  rw [bindDylib] at ha
  split at ha
  · rename_i hfound
    obtain rfl := some.inj ha
    intro heq
    have hdata := add_right_cancel heq
    rcases resolveNonGuiFrameworkData_cases w s de imp.symName with hzero | ⟨f, hown⟩ | ⟨name, hsym⟩
    · exact hfound hzero
    · exact (hfresh.own f).1 (hown.trans hdata)
    · exact hfresh.unloaded name (hsym.trans hdata)
  · rw [bindAction, haction] at ha
    exact absurd ha (by simp)

theorem orStub_cases (stub : State → State × Address) (r : State × Option Address) :
    r.2 = some (orStub stub r).2 ∨ orStub stub r = stub r.1 := by
  obtain ⟨t, a | a⟩ := r
  · exact Or.inr rfl
  · exact Or.inl rfl

/-- `resolve_import` never binds to a library that is still to be opened. -/
theorem Fresh.resolveChained_ne (hfresh : Fresh base w pageSize main addr (addr + addend))
    {s : State} {imp : Import} {de : DylibEntry} (hrange : s.dylibs.InRange imp.libOrdinal)
    (hentry : s.dylibs.entryAt? imp.libOrdinal = some de) (haction : de.action = .deferred)
    {r : State × Address} (hr : resolveChained w s imp addend = some r) :
    r.2.toAddr base ≠ addr + addend := by
  have hlow := hrange.1
  rcases chainedRoute_of_resolveChained hr with
    _ | ⟨hmain⟩ | ⟨hflat⟩ | ⟨-, hweak⟩ | ⟨-, hfound⟩ | ⟨-, hnot⟩
  · exact (hfresh.own _).2
  · omega
  · omega
  · omega
  · obtain rfl := some.inj (hentry.symm.trans hfound)
    rcases orStub_cases (chainedStub w imp.symName) (bindDylib w s de imp addend) with hsome | hnone
    · exact hfresh.bindDylib_ne haction hsome
    · rw [hnone]
      exact hfresh.chainedStub_ne imp.symName _
  · exact absurd hrange hnot

end

/-- The completion gives the bind a constructor adapter in place of the function. -/
def WrapsCtor (w : World) (s : State) (symName : Name) : Prop :=
  (isCtorOrDtor symName && !ctorHasStackParams symName) = true ∧ ServesPool w s .ctorTramp 32

/-- What the completion stores for a symbol that its library has at `addr`. -/
def completedAddress (w : World) (main : MainImage) (s : State) (symName : Name) (addr : Addr)
    (addend : BitVec 64) : Address :=
  let cxxOverride := resolveMainCxxOperatorOverride w main symName addr addend
  (ctorAdapter w s symName (.value (if cxxOverride ≠ 0 then cxxOverride else addr + addend))).2

variable {base : Pool → Addr} {w : World} {dylibs : Dylibs} {main : MainImage} {m m' : Machine}
  {b : DeferredBind} {binds : List DeferredBind}

theorem mem_completeOne (h : completeOne base w dylibs main m b = some m') {byte : Addr}
    (hout : ¬ InRange b.gotSlot 8 byte) : m'.mem byte = m.mem byte := by
  obtain ⟨de, -, rfl⟩ := map_eq_some_iff.mp h
  dsimp only
  split
  · rfl
  · split
    · rfl
    · exact writeMem_of_not_inRange hout

theorem mem_completeAll (h : completeAll base w dylibs main m binds = some m') {byte : Addr}
    (hout : ∀ b ∈ binds, ¬ InRange b.gotSlot 8 byte) : m'.mem byte = m.mem byte := by
  induction binds generalizing m with
  | nil =>
    obtain rfl := some.inj h
    rfl
  | cons b rest ih =>
    obtain ⟨next, hone, hrest⟩ := bind_eq_some_iff.mp h
    rw [ih hrest fun b' hb' => hout b' (mem_cons_of_mem _ hb')]
    exact mem_completeOne hone (hout b mem_cons_self)

theorem completeAll_append (m : Machine) (xs ys : List DeferredBind) :
    completeAll base w dylibs main m (xs ++ ys) =
      (completeAll base w dylibs main m xs).bind fun next =>
        completeAll base w dylibs main next ys := by
  induction xs generalizing m with
  | nil => rfl
  | cons b rest ih =>
    rw [cons_append, completeAll, completeAll, bind_assoc]
    exact congrArg _ (funext fun next => ih next)

theorem deferredTarget_of_found {de : DylibEntry} {addr : Addr}
    (haddr : lookupMapped w de (lookupName b.symName) = addr) (hfound : addr ≠ 0) :
    deferredTarget w main de b =
      some (if resolveMainCxxOperatorOverride w main b.symName addr b.addend ≠ 0 then
        resolveMainCxxOperatorOverride w main b.symName addr b.addend else addr + b.addend) := by
  simp only [deferredTarget, haddr]
  split_ifs
  · rfl
  · rfl

theorem readMem_completeOne {de : DylibEntry} {addr : Addr}
    (h : completeOne base w dylibs main m b = some m')
    (hentry : dylibs.entryAt? b.libOrdinal = some de) (hopen : de.handle ≠ 0)
    (haddr : lookupMapped w de (lookupName b.symName) = addr) (hfound : addr ≠ 0) :
    readMem m'.mem b.gotSlot 8 =
      (completedAddress w main m.rs b.symName addr b.addend).toAddr base := by
  rw [completeOne, hentry, map_some, if_neg hopen, deferredTarget_of_found haddr hfound] at h
  obtain rfl := some.inj h
  exact readMem_writeMem m.mem b.gotSlot _ (by decide)

variable {s : State} {symName : Name}

theorem ctorAdapter_of_not_wraps (h : ¬ WrapsCtor w s symName)
    (result : Address) : (ctorAdapter w s symName result).2 = result := by
  rw [ctorAdapter]
  split
  · exact slotOr_of_not_serves result fun hserves => h ⟨‹_›, hserves⟩
  · rfl

theorem Fresh.override_ne {v : World} {pageSize : Nat} {addr addend : Addr}
    (hfresh : Fresh base v pageSize main addr (addr + addend))
    (h : resolveMainCxxOperatorOverride w main symName addr addend ≠ 0) :
    resolveMainCxxOperatorOverride w main symName addr addend ≠ addr + addend := by
  rw [resolveMainCxxOperatorOverride] at h ⊢
  split_ifs at h ⊢
  · exact absurd rfl h
  · exact absurd rfl h
  · split at h
    · exact absurd rfl h
    · rename_i result hresult
      split_ifs at h ⊢
      · exact absurd rfl h
      · exact absurd rfl h
      · exact fun heq => hfresh.image symName result hresult (add_right_cancel heq)

theorem completedAddress_of_not_wraps {addr addend : Addr}
    (hoverride : resolveMainCxxOperatorOverride w main symName addr addend = 0)
    (hwraps : ¬ WrapsCtor w s symName) :
    completedAddress w main s symName addr addend = .value (addr + addend) := by
  rw [completedAddress, ctorAdapter_of_not_wraps hwraps, if_neg (not_not.mpr hoverride)]

/-- With an adapter or an override the slot holds another address than the library's. -/
theorem Fresh.completedAddress_eq_iff {v : World} {addr addend : Addr}
    (hfresh : Fresh base v w.pageSize main addr (addr + addend)) :
    (completedAddress w main s symName addr addend).toAddr base = addr + addend ↔
      resolveMainCxxOperatorOverride w main symName addr addend = 0 ∧ ¬ WrapsCtor w s symName := by
  rw [completedAddress]
  by_cases hwraps : WrapsCtor w s symName
  · rw [ctorAdapter, if_pos hwraps.1, wrapCtorForAppleAbi, slotOr_of_serves _ hwraps.2]
    have hroom := hwraps.2.2
    exact iff_of_false (toAddr_place_ne (by omega) (hfresh.outside .ctorTramp)) fun h => h.2 hwraps
  · rw [ctorAdapter_of_not_wraps hwraps, Address.toAddr, and_iff_left hwraps]
    split_ifs with hoverride
    · exact iff_of_false (hfresh.override_ne hoverride) hoverride
    · exact iff_of_true rfl (not_not.mp hoverride)

end Machgate.DeferredCompletion
