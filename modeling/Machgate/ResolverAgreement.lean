import Machgate.ResolverFrames

namespace Machgate.ResolverAgreement

open ByteMemory RecordBuffer SymbolIndex SymbolNames DylibTable SlotPool ResolverState ImportResolver
open Option Prod
open ResolverFrames ResolverState.State

/-- Two answers of the resolvers are one address, wherever the regions of the resolver lie. -/
def SameTarget (r r' : Option (State × Address)) : Prop :=
  ∀ base, (r.map fun x => x.2.toAddr base) = r'.map fun x => x.2.toAddr base

theorem sameTarget_some_iff {x y : State × Address} :
    SameTarget (some x) (some y) ↔ ∀ base, x.2.toAddr base = y.2.toAddr base := by
  simp only [SameTarget, map_some, some.injEq]

def SameStubs (s t : State) : Prop :=
  t.pools .return0 = s.pools .return0 ∧ t.pools .zeroData = s.pools .zeroData

section

variable {w : World} {s t t' : State} {symName : Name}

theorem sameStubs_countUnresolved (weak : Bool) : SameStubs s (s.countUnresolved weak) := by
  rw [SameStubs, pools_countUnresolved]
  exact ⟨rfl, rfl⟩

theorem stub_eq_value_iff (h : SameStubs s t) (v : Addr) :
    (∀ base, (chainedStub w symName t).2.toAddr base = v) ↔ v = 0 ∧ StubFails w s symName := by
  rw [chainedStub_snd, StubFails]
  by_cases hdata : isLikelyDataSymbol symName
  · rw [if_pos hdata, if_pos hdata, ← hasZeroPage_congr h.2]
    split
    · simp only [Address.not_forall_toAddr_place_eq, not_true, and_false, *]
    · simp only [Address.forall_toAddr_null_eq_iff, not_false_iff, and_true, *]
  · rw [if_neg hdata, if_neg hdata, ← servesPool_congr h.1, allocReturn0Stub]
    by_cases hserves : ServesPool w t .return0 128
    · rw [slotOr_of_serves _ hserves]
      simp only [Address.not_forall_toAddr_place_eq, hserves, not_true, and_false]
    · rw [slotOr_of_not_serves _ hserves]
      simp only [Address.forall_toAddr_null_eq_iff, hserves, not_false_iff, and_true]

theorem stubs_agree_iff (h : SameStubs s t) (h' : SameStubs s t') :
    (∀ base, (chainedStub w symName t).2.toAddr base = (allocReturn0Stub w t').2.toAddr base) ↔
      StubsAgree w s symName := by
  rw [chainedStub_snd, allocReturn0Stub_congr h'.1, allocReturn0Stub_congr h.1, StubsAgree]
  by_cases hdata : isLikelyDataSymbol symName
  · rw [if_pos hdata, ← hasZeroPage_congr h.2]
    simp only [hdata, true_imp_iff]
    rw [allocReturn0Stub]
    by_cases hserves : ServesPool w s .return0 128
    · rw [slotOr_of_serves _ hserves]
      constructor
      · intro hall
        have hpool := Address.pool?_eq_of_forall_toAddr_eq hall
        split at hpool <;> exact absurd hpool (by simp [Address.pool?, Address.null])
      · rintro ⟨-, hno⟩
        exact absurd hserves hno
    · rw [slotOr_of_not_serves _ hserves]
      split
      · constructor
        · intro hall
          exact absurd (Address.eq_of_forall_toAddr_value hall) (by simp)
        · rintro ⟨hno, -⟩
          exact absurd ‹HasZeroPage w t› hno
      · simp [hserves, ‹¬ HasZeroPage w t›]
  · simp [hdata]

/-- Past the same case of both resolvers the answers differ at most in the stub. -/
theorem sameTarget_orStub_iff {r : State × Option Address} (h : r.2 = none → SameStubs s r.1) :
    SameTarget (some (orStub (chainedStub w symName) r)) (some (orStub (allocReturn0Stub w) r)) ↔
      (r.2 = none → StubsAgree w s symName) := by
  rw [sameTarget_some_iff]
  obtain ⟨t, a | a⟩ := r
  · simp only [orStub, true_imp_iff]
    exact stubs_agree_iff (h rfl) (h rfl)
  · simp [orStub]

end

section

variable (w : World) (s : State) (lookupName : Name) (result : Address)

def MakesThunk : Prop :=
  ∃ vName, lookupVariadic lookupName = some vName ∧ w.dlsym rtldDefault vName ≠ 0 ∧
    ServesPool w s .variadic 56

variable {w s lookupName}

theorem makesThunk_congr {t : State} (h : t.pools .variadic = s.pools .variadic) :
    MakesThunk w t lookupName ↔ MakesThunk w s lookupName := by
  simp only [MakesThunk, servesPool_congr h]

theorem variadicAdapter_of_makesThunk (h : MakesThunk w s lookupName) :
    (variadicAdapter w s lookupName result).2.pool? = some .variadic := by
  obtain ⟨vName, hname, haddr, hserves⟩ := h
  simp only [variadicAdapter, hname, if_neg haddr, slotOr_of_serves _ hserves, Address.pool?]

theorem variadicAdapter_of_not_makesThunk (h : ¬ MakesThunk w s lookupName) :
    (variadicAdapter w s lookupName result).2 = result := by
  rw [variadicAdapter]
  split
  · rfl
  · rename_i vName hname
    split
    · rfl
    · exact slotOr_of_not_serves _ fun hserves => h ⟨vName, hname, ‹_›, hserves⟩

end

/-- Where `resolve_import` is left with the stub, the other resolver asks `RTLD_DEFAULT` first. -/
def DefaultAgrees (w : World) (s : State) (imp : Import) (addend : BitVec 64) : Prop :=
  if w.dlsym rtldDefault (lookupName imp.symName) = 0 then StubsAgree w s imp.symName
  else w.dlsym rtldDefault (lookupName imp.symName) + addend = 0 ∧ StubFails w s imp.symName

/-- Where a weak lookup misses the image, `resolve_import` alone has a pool and a thunk. -/
def WeakAgrees (w : World) (s : State) (imp : Import) : Prop :=
  if w.dlsym rtldDefault (lookupName imp.symName) = 0 then
    ¬ ServesPool w s .weak 128 ∧ StubsAgree w s imp.symName
  else ¬ MakesThunk w s (lookupName imp.symName)

/-- The entry of the library table gives the bind an address. -/
def DylibBinds (w : World) (s : State) (de : DylibEntry) (imp : Import) (addend : BitVec 64) :
    Prop :=
  (resolveNonGuiFrameworkData w s de imp.symName).2 ≠ 0 ∨
    (de.action = .map ∧
      (lookupMapped w de (lookupName imp.symName) ≠ 0 ∨
        resolveMainCxxOperatorOverride w s.main imp.symName 0 addend ≠ 0 ∨
        resolveCxxOperatorFallback w imp.symName ≠ 0 ∨
        w.dlsym rtldDefault (lookupName imp.symName) ≠ 0)) ∨
    (de.action = .macho ∧ lookupMacho de imp.symName ≠ 0)

/-- What has to hold of an import, by its ordinal, for the two resolvers to agree on it. -/
def Agrees (w : World) (s : State) (imp : Import) (addend : BitVec 64) : Prop :=
  if (luaHook imp.symName).isSome then True
  else if imp.libOrdinal = 0 then
    if lookupMachoSymbol s.main imp.symName = 0 then DefaultAgrees w s imp addend
    else lookupMachoSymbol s.main imp.symName + addend = 0 ∧ StubFails w s imp.symName
  else if imp.libOrdinal = -1 then
    lookupMachoSymbol s.main imp.symName = 0 → DefaultAgrees w s imp addend
  else if imp.libOrdinal = -2 then
    lookupFlatSymbol w s (lookupName imp.symName) = 0 → StubsAgree w s imp.symName
  else if imp.libOrdinal = -3 then
    lookupMachoSymbol s.main imp.symName = 0 → WeakAgrees w s imp
  else if s.dylibs.InRange imp.libOrdinal then
    ∀ de, s.dylibs.entryAt? imp.libOrdinal = some de →
      DylibBinds w s de imp addend ∨ StubsAgree w s imp.symName
  else StubsAgree w s imp.symName

section

variable (w : World) (s : State) (imp : Import) (addend : BitVec 64)

theorem self_agree_iff :
    SameTarget (some (chainedStub w imp.symName s.countFailed))
        (some (orStub (allocReturn0Stub w) (infoSelf w s imp addend))) ↔
      if lookupMachoSymbol s.main imp.symName = 0 then DefaultAgrees w s imp addend
      else lookupMachoSymbol s.main imp.symName + addend = 0 ∧ StubFails w s imp.symName := by
  rw [sameTarget_some_iff, infoSelf, DefaultAgrees]
  rcases eq_or_ne (lookupMachoSymbol s.main imp.symName) 0 with hself | hself
  · simp only [hself, ne_eq, not_true, if_false, if_true, orStub]
    rcases eq_or_ne (w.dlsym rtldDefault (lookupName imp.symName)) 0 with hdefault | hdefault
    · simp only [hdefault, not_true, if_false, if_true]
      exact stubs_agree_iff ⟨rfl, rfl⟩ (sameStubs_countUnresolved _)
    · simp only [hdefault, not_false_iff, if_true, if_false]
      exact stub_eq_value_iff ⟨rfl, rfl⟩ _
  · simp only [hself, ne_eq, not_false_iff, if_true, if_false, orStub]
    exact stub_eq_value_iff ⟨rfl, rfl⟩ _

theorem main_agree_iff :
    SameTarget (some (orStub (chainedStub w imp.symName) (chainedMain s imp addend)))
        (some (orStub (allocReturn0Stub w) (infoSelf w s imp addend))) ↔
      (lookupMachoSymbol s.main imp.symName = 0 → DefaultAgrees w s imp addend) := by
  rcases eq_or_ne (lookupMachoSymbol s.main imp.symName) 0 with hself | hself
  · have hmain : chainedMain s imp addend = (s.countFailed, none) := by
      rw [chainedMain, if_neg (not_not_intro hself)]
    rw [hmain, orStub, self_agree_iff, if_pos hself, forall_prop_of_true hself]
  · rw [sameTarget_some_iff, chainedMain, infoSelf]
    simp only [hself, ne_eq, not_false_iff, if_true, orStub, false_imp_iff, implies_true]

/-- An unresolved weak bind: the slot of the weak pool against the stub. -/
theorem weakSlot_agree_iff :
    (∀ base, (orStub (chainedStub w imp.symName) ((takeSlot w s .weak 128).1.countStubbed,
          (takeSlot w s .weak 128).2.map (Address.place .weak))).2.toAddr base =
        (orStub (allocReturn0Stub w) (s.countStubbed, none)).2.toAddr base) ↔
      ¬ ServesPool w s .weak 128 ∧ StubsAgree w s imp.symName := by
  by_cases hserves : ServesPool w s .weak 128
  · simp only [takeSlot, take_of_serves hserves, map_some, orStub, hserves, not_true,
      false_and, iff_false]
    intro hall
    have hpool := Address.pool?_eq_of_forall_toAddr_eq hall
    rcases slotOr_eq_or w s.countStubbed .return0 128 .null with h | h
    · rw [allocReturn0Stub, h] at hpool
      exact absurd hpool (by simp [Address.pool?, Address.null])
    · rw [allocReturn0Stub, h] at hpool
      exact absurd hpool (by simp [Address.pool?])
  · have hpools : SameStubs s (takeSlot w s .weak 128).1.countStubbed :=
      ⟨pools_takeSlot_of_ne w s .weak 128 (q := .return0) (by decide),
        pools_takeSlot_of_ne w s .weak 128 (q := .zeroData) (by decide)⟩
    simp only [orStub, show (takeSlot w s .weak 128).2 = none from (take_of_not_serves hserves).1,
      map_none, hserves, not_false_iff, true_and]
    exact stubs_agree_iff hpools ⟨rfl, rfl⟩

/-- A weak bind that `RTLD_DEFAULT` resolves: `resolve_import` puts a thunk around it. -/
theorem thunk_agree_iff (addr : Addr) :
    (∀ base, (variadicAdapter w
          (wrapFixedStackArgSymbol w (ctorAdapter w s imp.symName (.value addr)).1
            (lookupName imp.symName) (ctorAdapter w s imp.symName (.value addr)).2 0).1
          (lookupName imp.symName)
          (wrapFixedStackArgSymbol w (ctorAdapter w s imp.symName (.value addr)).1
            (lookupName imp.symName) (ctorAdapter w s imp.symName (.value addr)).2 0).2).2.toAddr
          base =
        (wrapFixedStackArgSymbol w (ctorAdapter w s imp.symName (.value addr)).1
          (lookupName imp.symName) (ctorAdapter w s imp.symName (.value addr)).2 0).2.toAddr base) ↔
      ¬ MakesThunk w s (lookupName imp.symName) := by
  have hadapters := avoids_adapters w s imp .variadic addr 0 (by decide) (by decide)
  rw [← makesThunk_congr hadapters.pools]
  constructor
  · intro hall hthunk
    have hpool := Address.pool?_eq_of_forall_toAddr_eq hall
    rw [variadicAdapter_of_makesThunk _ hthunk] at hpool
    exact hadapters.answer _ rfl hpool.symm
  · intro hthunk base
    rw [variadicAdapter_of_not_makesThunk _ hthunk]

theorem weak_agree_iff :
    SameTarget (some (orStub (chainedStub w imp.symName) (chainedWeak w s imp addend)))
        (some (orStub (allocReturn0Stub w) (infoWeak w s imp addend))) ↔
      (lookupMachoSymbol s.main imp.symName = 0 → WeakAgrees w s imp) := by
  rw [sameTarget_some_iff, chainedWeak, infoWeak, WeakAgrees]
  rcases eq_or_ne (lookupMachoSymbol s.main imp.symName) 0 with hself | hself
  · simp only [hself, ne_eq, not_true, if_false, true_imp_iff]
    rcases eq_or_ne (w.dlsym rtldDefault (lookupName imp.symName)) 0 with hdefault | hdefault
    · simp only [hdefault, not_true, if_false, if_true]
      exact weakSlot_agree_iff w s imp
    · simp only [hdefault, not_false_iff, if_true, if_false, orStub]
      exact thunk_agree_iff w s imp _
  · simp only [hself, ne_eq, not_false_iff, if_true, orStub, false_imp_iff, implies_true]

theorem bindFlat_eq_none_iff :
    (bindFlat w s imp addend).2 = none ↔ lookupFlatSymbol w s (lookupName imp.symName) = 0 := by
  rw [bindFlat]
  rcases eq_or_ne (lookupFlatSymbol w s (lookupName imp.symName)) 0 with h | h
  · simp only [h, ne_eq, not_true, if_false]
  · simp only [h, ne_eq, not_false_iff, if_true, reduceCtorEq]

theorem flat_agree_iff :
    SameTarget (some (orStub (chainedStub w imp.symName) (bindFlat w s imp addend)))
        (some (orStub (allocReturn0Stub w) (bindFlat w s imp addend))) ↔
      (lookupFlatSymbol w s (lookupName imp.symName) = 0 → StubsAgree w s imp.symName) := by
  rw [sameTarget_orStub_iff, bindFlat_eq_none_iff]
  rw [bindFlat_eq_none_iff]
  intro h
  simp only [bindFlat, h, ne_eq, not_true, if_false]
  split <;> exact ⟨rfl, rfl⟩

variable (de : DylibEntry)

theorem bindMapped_eq_none_iff :
    (bindMapped w s de imp addend).2 = none ↔
      lookupMapped w de (lookupName imp.symName) = 0 ∧
        resolveMainCxxOperatorOverride w s.main imp.symName 0 addend = 0 ∧
        resolveCxxOperatorFallback w imp.symName = 0 ∧
        w.dlsym rtldDefault (lookupName imp.symName) = 0 := by
  rw [bindMapped]
  rcases eq_or_ne (lookupMapped w de (lookupName imp.symName)) 0 with haddr | haddr
  · simp only [haddr, ne_eq, not_true, if_false, true_and]
    split_ifs <;> simp_all
  · simp only [haddr, ne_eq, not_false_iff, if_true, false_and, iff_false]
    split_ifs <;> simp

theorem sameStubs_bindMapped (h : (bindMapped w s de imp addend).2 = none) :
    SameStubs s (bindMapped w s de imp addend).1 := by
  obtain ⟨haddr, hoverride, hoperator, hdefault⟩ := (bindMapped_eq_none_iff w s imp addend de).mp h
  simp only [bindMapped, haddr, hoverride, hoperator, hdefault, ne_eq, not_true, if_false]
  exact sameStubs_countUnresolved _

theorem bindMacho_eq_none_iff :
    (bindMacho s de imp addend).2 = none ↔ lookupMacho de imp.symName = 0 := by
  rw [bindMacho]
  rcases eq_or_ne (lookupMacho de imp.symName) 0 with haddr | haddr
  · simp only [haddr, ne_eq, not_true, if_false]
  · simp only [haddr, ne_eq, not_false_iff, if_true, reduceCtorEq]

theorem bindAction_eq_none_iff :
    (bindAction w s de imp addend).2 = none ↔
      (de.action = .map → (bindMapped w s de imp addend).2 = none) ∧
        (de.action = .macho → lookupMacho de imp.symName = 0) := by
  rw [bindAction]
  split <;> simp [*, bindMacho_eq_none_iff]

theorem sameStubs_bindAction (h : (bindAction w s de imp addend).2 = none) :
    SameStubs s (bindAction w s de imp addend).1 := by
  rw [bindAction] at h ⊢
  split at h
  · exact sameStubs_bindMapped w s imp addend de h
  · have haddr := (bindMacho_eq_none_iff s imp addend de).mp h
    simp only [bindMacho, haddr, ne_eq, not_true, if_false]
    exact sameStubs_countUnresolved _
  · exact ⟨rfl, rfl⟩
  · exact sameStubs_countUnresolved _
  · exact ⟨rfl, rfl⟩

theorem bindDylib_eq_none_iff :
    (bindDylib w s de imp addend).2 = none ↔ ¬ DylibBinds w s de imp addend := by
  rw [bindDylib, DylibBinds]
  have hmain := (frame_resolveNonGuiFrameworkData w s de imp.symName).main
  rcases eq_or_ne (resolveNonGuiFrameworkData w s de imp.symName).2 0 with hdata | hdata
  · simp only [hdata, ne_eq, not_true, if_false, false_or, bindAction_eq_none_iff,
      bindMapped_eq_none_iff, hmain]
    tauto
  · simp only [hdata, ne_eq, not_false_iff, if_true, reduceCtorEq, true_or, not_true]

theorem sameStubs_bindDylib (h : (bindDylib w s de imp addend).2 = none) :
    SameStubs s (bindDylib w s de imp addend).1 := by
  have hpools : SameStubs s (resolveNonGuiFrameworkData w s de imp.symName).1 :=
    ⟨pools_resolveNonGuiFrameworkData_of_ne w s de imp.symName (p := .return0) (by decide),
      pools_resolveNonGuiFrameworkData_of_ne w s de imp.symName (p := .zeroData) (by decide)⟩
  rw [bindDylib] at h ⊢
  split at h
  · exact absurd h (by simp)
  · rename_i hdata
    rw [if_neg hdata]
    have hstubs := sameStubs_bindAction w _ imp addend de h
    exact ⟨hstubs.1.trans hpools.1, hstubs.2.trans hpools.2⟩

theorem dylib_agree_iff :
    SameTarget (some (orStub (chainedStub w imp.symName) (bindDylib w s de imp addend)))
        (some (orStub (allocReturn0Stub w) (bindDylib w s de imp addend))) ↔
      DylibBinds w s de imp addend ∨ StubsAgree w s imp.symName := by
  rw [sameTarget_orStub_iff (sameStubs_bindDylib w s imp addend de), bindDylib_eq_none_iff]
  tauto

end

theorem sameTarget_iff_agrees (w : World) (s : State) (imp : Import) (addend : BitVec 64) :
    SameTarget (resolveChained w s imp addend) (resolveBindByName w s imp addend) ↔
      Agrees w s imp addend := by
  rw [resolveChained, resolveBindByName, Agrees]
  rcases hhook : luaHook imp.symName with _ | f
  · simp only [isSome_none, Bool.false_eq_true, if_false]
    by_cases hzero : imp.libOrdinal = 0
    · have hrange : ¬ s.dylibs.InRange imp.libOrdinal := by
        rintro ⟨hlow, -⟩
        omega
      rw [if_pos hzero, if_pos (Or.inl hzero), if_neg (by omega), if_neg (by omega),
        if_neg (by omega), if_neg hrange]
      exact self_agree_iff w s imp addend
    rw [if_neg hzero]
    by_cases hmain : imp.libOrdinal = -1
    · rw [if_pos hmain, if_pos hmain, if_pos (Or.inr hmain)]
      exact main_agree_iff w s imp addend
    rw [if_neg hmain, if_neg hmain, if_neg (not_or.mpr ⟨hzero, hmain⟩)]
    split_ifs with hflat hweak hrange
    · exact flat_agree_iff w s imp addend
    · exact weak_agree_iff w s imp addend
    · rcases hentry : s.dylibs.entryAt? imp.libOrdinal with _ | de
      · simp [SameTarget]
      · simp only [map_some, some.injEq, forall_eq']
        exact dylib_agree_iff w s imp addend de
    · rw [sameTarget_some_iff]
      exact stubs_agree_iff ⟨rfl, rfl⟩ ⟨rfl, rfl⟩
  · simp [SameTarget]

/-- Whatever the image, `resolve_import` gives an import the address `resolve_bind_by_name` gives it
exactly if its lookups and the state of the pools are such that no case has a fallback or a stub of
its own. -/
theorem resolvers_agree_iff (w : World) (s : State) (imports : ImportTable) (ordinal : BitVec 32)
    (addend : BitVec 64) (imp : Import × BitVec 64) (himp : imports.import? ordinal = some imp) :
    SameTarget (resolveImport w s imports ordinal addend)
        (resolveBindByName w s imp.1 (addend + imp.2)) ↔
      Agrees w s imp.1 (addend + imp.2) := by
  rw [resolveImport, himp]
  exact sameTarget_iff_agrees w s imp.1 (addend + imp.2)

def cocoaImports : ImportTable where
  array := .imports [⟨1, false, 0⟩, ⟨1, false, 5⟩]
  symbols := text "_NSd" ++ [0] ++ text "_nop" ++ [0]

theorem functionImport_binds_alike :
    SameTarget (resolveImport emptyWorld skippedState cocoaImports 1 0)
      (resolveBindByName emptyWorld skippedState ⟨1, false, text "_nop"⟩ 0) := by
  have himp : cocoaImports.import? 1 = some (⟨1, false, text "_nop"⟩, 0) := by
    simp [ImportTable.import?, cocoaImports, symbolAt, cString, text, octet]
  have hdata : isLikelyDataSymbol (text "_nop") = false := by decide
  have hhook : luaHook (text "_nop") = none := by decide
  refine (resolvers_agree_iff emptyWorld skippedState cocoaImports 1 0 _ himp).mpr ?_
  simp [Agrees, hhook, StubsAgree, hdata]

/-- The data symbol of the same library: the zero page in one format, code in the other. -/
theorem dataImport_binds_apart :
    ((resolveImport emptyWorld skippedState cocoaImports 0 0).map Prod.snd =
        some (.place .zeroData 0)) ∧
      ((resolveBindByName emptyWorld skippedState ⟨1, false, text "_NSd"⟩ 0).map Prod.snd =
        some (.place .return0 0)) ∧
      cocoaImports.import? 0 = some (⟨1, false, text "_NSd"⟩, 0) ∧
      ¬ SameTarget (resolveImport emptyWorld skippedState cocoaImports 0 0)
        (resolveBindByName emptyWorld skippedState ⟨1, false, text "_NSd"⟩ 0) := by
  have hchained : (resolveImport emptyWorld skippedState cocoaImports 0 0).map snd =
      some (.place .zeroData 0) := by decide +kernel
  have hinfo : (resolveBindByName emptyWorld skippedState ⟨1, false, text "_NSd"⟩ 0).map snd =
      some (.place .return0 0) := by decide +kernel
  refine ⟨hchained, hinfo, ?_, ?_⟩
  · simp [ImportTable.import?, cocoaImports, symbolAt, cString, text, octet]
  · intro hsame
    have hbase := hsame fun p => if p = .return0 then 1 else 0
    obtain ⟨x, hx, hx'⟩ := map_eq_some_iff.mp hchained
    obtain ⟨y, hy, hy'⟩ := map_eq_some_iff.mp hinfo
    simp only [hx, hy, map_some, hx', hy', Address.toAddr] at hbase
    exact absurd hbase (by decide)

end Machgate.ResolverAgreement
