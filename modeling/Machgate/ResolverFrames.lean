import Machgate.ImportResolver

namespace Machgate.ResolverFrames

open ByteMemory RecordBuffer SymbolIndex SymbolNames DylibTable SlotPool ResolverState ImportResolver
open Option
open ResolverState.State

/-- The ways of `resolve_import` to an answer. -/
inductive ChainedRoute (w : World) (s : State) (imp : Import) (addend : BitVec 64) :
    State × Address → Prop
  | hook {f : Own} (hhook : luaHook imp.symName = some f) :
      ChainedRoute w s imp addend (s.countResolved, .value (w.own f))
  | main (hmain : imp.libOrdinal = -1) :
      ChainedRoute w s imp addend (orStub (chainedStub w imp.symName) (chainedMain s imp addend))
  | flat (hflat : imp.libOrdinal = -2) :
      ChainedRoute w s imp addend (orStub (chainedStub w imp.symName) (bindFlat w s imp addend))
  | weak (hhook : luaHook imp.symName = none) (hweak : imp.libOrdinal = -3) :
      ChainedRoute w s imp addend (orStub (chainedStub w imp.symName) (chainedWeak w s imp addend))
  | dylib {de : DylibEntry} (hrange : s.dylibs.InRange imp.libOrdinal)
      (hentry : s.dylibs.entryAt? imp.libOrdinal = some de) :
      ChainedRoute w s imp addend
        (orStub (chainedStub w imp.symName) (bindDylib w s de imp addend))
  | failed (hweak : imp.libOrdinal ≠ -3) (hrange : ¬ s.dylibs.InRange imp.libOrdinal) :
      ChainedRoute w s imp addend (chainedStub w imp.symName s.countFailed)

theorem chainedRoute_of_resolveChained {w : World} {s : State} {imp : Import} {addend : BitVec 64}
    {r : State × Address} (h : resolveChained w s imp addend = some r) :
    ChainedRoute w s imp addend r := by
  rw [resolveChained] at h
  rcases hhook : luaHook imp.symName with _ | f
  · rw [hhook] at h
    dsimp only at h
    split_ifs at h with hmain hflat hweak hrange
    · exact some.inj h ▸ .main hmain
    · exact some.inj h ▸ .flat hflat
    · exact some.inj h ▸ .weak hhook hweak
    · obtain ⟨de, hentry, rfl⟩ := map_eq_some_iff.mp h
      exact .dylib hrange hentry
    · exact some.inj h ▸ .failed hweak hrange
  · rw [hhook] at h
    exact some.inj h ▸ .hook hhook

section

variable (w : World) (s : State) (de : DylibEntry) (imp : Import) (addend : BitVec 64)

theorem frame_resolveNonGuiFrameworkData (symName : Name) :
    Frame s (resolveNonGuiFrameworkData w s de symName).1 := by
  rw [resolveNonGuiFrameworkData, resolveAsanDataSymbol]
  split_ifs <;> exact ⟨rfl, rfl, rfl⟩

theorem pools_resolveNonGuiFrameworkData_of_ne (symName : Name) {p : Pool} (h : p ≠ .asanShadow) :
    (resolveNonGuiFrameworkData w s de symName).1.pools p = s.pools p := by
  rw [resolveNonGuiFrameworkData, resolveAsanDataSymbol]
  split_ifs <;> first | rfl | exact Function.update_of_ne h _ _

theorem avoids_adapters (q : Pool) (addr : Addr) (handle : Addr) (hctor : q ≠ .ctorTramp)
    (hfixed : q ≠ .stackArg) :
    let ctor := ctorAdapter w s imp.symName (.value addr)
    let fixed := wrapFixedStackArgSymbol w ctor.1 (lookupName imp.symName) ctor.2 handle
    Avoids q s fixed.1 (some fixed.2) := by
  intro ctor fixed
  have hfirst : Avoids q s ctor.1 (some ctor.2) :=
    avoids_ctorAdapter w s imp.symName (by simp [Address.pool?]) hctor
  exact hfirst.trans (avoids_wrapFixedStackArgSymbol w _ _ handle (hfirst.answer _ rfl) hfixed)

theorem avoids_bindMapped :
    Avoids .weak s (bindMapped w s de imp addend).1 (bindMapped w s de imp addend).2 := by
  have hadapters := avoids_adapters w s imp .weak (lookupMapped w de (lookupName imp.symName) + addend)
    de.handle (by decide) (by decide)
  have hthunk := hadapters.trans (avoids_variadicAdapter w _ (lookupName imp.symName)
    (hadapters.answer _ rfl) (by decide))
  have hhook := hthunk.trans (avoids_hookSDLGL w _ (lookupName imp.symName) (hthunk.answer _ rfl))
  rw [bindMapped]
  split_ifs
  · exact Avoids.value s _
  · exact hhook.countResolved
  · exact Avoids.value s _
  · exact Avoids.value s _
  · exact Avoids.value s _
  · exact Avoids.unresolved s _

theorem avoids_bindMacho :
    Avoids .weak s (bindMacho s de imp addend).1 (bindMacho s de imp addend).2 := by
  rw [bindMacho]
  split
  · exact Avoids.value s _
  · exact Avoids.unresolved s _

theorem avoids_bindAction :
    Avoids .weak s (bindAction w s de imp addend).1 (bindAction w s de imp addend).2 := by
  rw [bindAction]
  split
  · exact avoids_bindMapped w s de imp addend
  · exact avoids_bindMacho s de imp addend
  · exact Avoids.unresolved s true
  · exact Avoids.unresolved s imp.weak
  · exact Avoids.unresolved s true

theorem avoids_bindDylib :
    Avoids .weak s (bindDylib w s de imp addend).1 (bindDylib w s de imp addend).2 := by
  have hdata : Avoids .weak s (resolveNonGuiFrameworkData w s de imp.symName).1 none :=
    Avoids.none_of_pools (frame_resolveNonGuiFrameworkData w s de imp.symName)
      (pools_resolveNonGuiFrameworkData_of_ne w s de imp.symName (by decide))
  rw [bindDylib]
  split
  · exact hdata.trans (Avoids.value _ _)
  · exact hdata.trans (avoids_bindAction w _ de imp addend)

theorem avoids_bindFlat :
    Avoids .weak s (bindFlat w s imp addend).1 (bindFlat w s imp addend).2 := by
  have hadapters := avoids_adapters w s imp .weak
    (lookupFlatSymbol w s (lookupName imp.symName) + addend) 0 (by decide) (by decide)
  rw [bindFlat]
  split
  · exact (hadapters.trans (avoids_variadicAdapter w _ (lookupName imp.symName)
      (hadapters.answer _ rfl) (by decide))).countResolved
  · split
    · exact Avoids.none_of_pools (Frame.refl s) rfl
    · exact Avoids.unresolved s false

theorem avoids_chainedMain :
    Avoids .weak s (chainedMain s imp addend).1 (chainedMain s imp addend).2 := by
  rw [chainedMain]
  split
  · exact Avoids.value s _
  · exact Avoids.unresolved s false

theorem avoids_infoSelf :
    Avoids .weak s (infoSelf w s imp addend).1 (infoSelf w s imp addend).2 := by
  rw [infoSelf]
  split_ifs
  · exact Avoids.value s _
  · exact Avoids.value s _
  · exact Avoids.unresolved s _

theorem avoids_infoWeak :
    Avoids .weak s (infoWeak w s imp addend).1 (infoWeak w s imp addend).2 := by
  rw [infoWeak]
  split_ifs
  · exact Avoids.value s _
  · exact (avoids_adapters w s imp .weak _ 0 (by decide) (by decide)).countResolved
  · exact Avoids.unresolved s true

theorem avoids_chainedWeak
    (h : lookupMachoSymbol s.main imp.symName = 0 →
      w.dlsym rtldDefault (lookupName imp.symName) ≠ 0) :
    Avoids .weak s (chainedWeak w s imp addend).1 (chainedWeak w s imp addend).2 := by
  have hadapters := avoids_adapters w s imp .weak
    (w.dlsym rtldDefault (lookupName imp.symName) + addend) 0 (by decide) (by decide)
  rw [chainedWeak]
  split_ifs with hself hdefault
  · exact Avoids.value s _
  · exact (hadapters.trans (avoids_variadicAdapter w _ (lookupName imp.symName)
      (hadapters.answer _ rfl) (by decide))).countResolved
  · exact absurd (h (not_not.mp hself)) hdefault

theorem avoids_chainedStub (symName : Name) :
    Avoids .weak s (chainedStub w symName s).1 (some (chainedStub w symName s).2) := by
  have hreturn := avoids_allocReturn0Stub w s (q := .weak) (by decide)
  rw [chainedStub]
  split
  · exact hreturn.trans (avoids_allocZeroDataStub w _ (by decide))
  · exact hreturn

variable {s}

theorem avoids_orStub {stub : State → State × Address} {r : State × Option Address}
    (h : Avoids .weak s r.1 r.2) (hstub : ∀ t, Avoids .weak t (stub t).1 (some (stub t).2)) :
    Avoids .weak s (orStub stub r).1 (some (orStub stub r).2) := by
  obtain ⟨t, a | a⟩ := r
  · exact h.trans (hstub t)
  · exact h

variable {r : State × Address}

theorem avoids_resolveBindByName
    (h : resolveBindByName w s imp addend = some r) : Avoids .weak s r.1 (some r.2) := by
  have hstub : ∀ t, Avoids .weak t (allocReturn0Stub w t).1 (some (allocReturn0Stub w t).2) :=
    fun t => avoids_allocReturn0Stub w t (by decide)
  rw [resolveBindByName] at h
  split at h
  · obtain rfl := some.inj h
    exact Avoids.value s _
  · split_ifs at h
    · obtain rfl := some.inj h
      exact avoids_orStub (avoids_infoSelf w s imp addend) hstub
    · obtain rfl := some.inj h
      exact avoids_orStub (avoids_bindFlat w s imp addend) hstub
    · obtain rfl := some.inj h
      exact avoids_orStub (avoids_infoWeak w s imp addend) hstub
    · obtain ⟨de, -, rfl⟩ := map_eq_some_iff.mp h
      exact avoids_orStub (avoids_bindDylib w s de imp addend) hstub
    · obtain rfl := some.inj h
      exact (Avoids.unresolved s false).trans (hstub _)

theorem frame_orStub {stub : State → State × Address} {r : State × Option Address}
    (h : Frame s r.1) (hstub : ∀ t, Frame t (stub t).1) : Frame s (orStub stub r).1 := by
  obtain ⟨t, a | a⟩ := r
  · exact h.trans (hstub t)
  · exact h

variable (s) in
theorem frame_chainedWeak : Frame s (chainedWeak w s imp addend).1 := by
  by_cases hfall : lookupMachoSymbol s.main imp.symName = 0 ∧
      w.dlsym rtldDefault (lookupName imp.symName) = 0
  · simp only [chainedWeak, hfall.1, hfall.2, ne_eq, not_true, if_false]
    exact (frame_takeSlot w s .weak 128).countStubbed
  · exact (avoids_chainedWeak w s imp addend fun hself hdefault => hfall ⟨hself, hdefault⟩).toFrame

theorem frame_resolveChained (h : resolveChained w s imp addend = some r) : Frame s r.1 := by
  have hstub := fun t => (avoids_chainedStub w t imp.symName).toFrame
  rcases chainedRoute_of_resolveChained h with _ | _ | _ | _ | _ | _
  · exact (Frame.refl s).countResolved
  · exact frame_orStub (avoids_chainedMain s imp addend).toFrame hstub
  · exact frame_orStub (avoids_bindFlat w s imp addend).toFrame hstub
  · exact frame_orStub (frame_chainedWeak w s imp addend) hstub
  · exact frame_orStub (avoids_bindDylib w s _ imp addend).toFrame hstub
  · exact (Frame.refl s).countFailed.trans (hstub _)

theorem frame_resolveImport {imports : ImportTable} {ordinal : BitVec 32}
    (h : resolveImport w s imports ordinal addend = some r) : Frame s r.1 := by
  rw [resolveImport] at h
  split at h
  · obtain rfl := some.inj h
    exact Frame.refl s
  · exact frame_resolveChained w _ _ h

end

/-- The zero page is mapped, or can be. -/
def HasZeroPage (w : World) (s : State) : Prop := s.pools .zeroData ≠ none ∨ w.maps .zeroData

instance (w : World) (s : State) : Decidable (HasZeroPage w s) :=
  inferInstanceAs (Decidable (_ ∨ _))

/-- `resolve_import` has no stub left and binds to null. -/
def StubFails (w : World) (s : State) (symName : Name) : Prop :=
  if isLikelyDataSymbol symName then ¬ HasZeroPage w s else ¬ ServesPool w s .return0 128

/-- The stubs of both resolvers are one place, or both null. -/
def StubsAgree (w : World) (s : State) (symName : Name) : Prop :=
  isLikelyDataSymbol symName → ¬ HasZeroPage w s ∧ ¬ ServesPool w s .return0 128

section

variable {w : World} {s t : State} {symName : Name}

theorem servesPool_congr {p : Pool} {size : Nat} (h : t.pools p = s.pools p) :
    ServesPool w t p size ↔ ServesPool w s p size := by
  rw [ServesPool, ServesPool, h]

theorem hasZeroPage_congr (h : t.pools .zeroData = s.pools .zeroData) :
    HasZeroPage w t ↔ HasZeroPage w s := by
  rw [HasZeroPage, HasZeroPage, h]

theorem allocZeroDataStub_of_hasZeroPage (h : HasZeroPage w s) :
    (allocZeroDataStub w s).2 = .place .zeroData 0 := by
  rw [allocZeroDataStub]
  rcases hpage : s.pools .zeroData with _ | u
  · rcases h with hsome | hmaps
    · exact absurd hpage hsome
    · simp [hmaps]
  · rfl

theorem allocZeroDataStub_of_not_hasZeroPage (h : ¬ HasZeroPage w s) :
    (allocZeroDataStub w s).2 = .null := by
  simp only [HasZeroPage, ne_eq, not_or, not_not, Bool.not_eq_true] at h
  simp [allocZeroDataStub, h.1, h.2]

theorem chainedStub_snd (w : World) (s : State) (symName : Name) :
    (chainedStub w symName s).2 =
      if isLikelyDataSymbol symName then
        if HasZeroPage w s then .place .zeroData 0 else .null
      else (allocReturn0Stub w s).2 := by
  have hpools : (allocReturn0Stub w s).1.pools .zeroData = s.pools .zeroData :=
    (avoids_allocReturn0Stub w s (by decide)).pools
  rw [chainedStub]
  split
  · split
    · exact allocZeroDataStub_of_hasZeroPage ((hasZeroPage_congr hpools).mpr ‹_›)
    · exact allocZeroDataStub_of_not_hasZeroPage fun h => ‹¬ _› ((hasZeroPage_congr hpools).mp h)
  · rfl

theorem allocReturn0Stub_congr (h : t.pools .return0 = s.pools .return0) :
    (allocReturn0Stub w t).2 = (allocReturn0Stub w s).2 := by
  simp only [allocReturn0Stub, slotOr, takeSlot, h]

end

/-- A bind that reads the library table past its entries. -/
theorem resolveChained_eq_none_iff {w : World} {s : State} {imp : Import} {addend : BitVec 64} :
    resolveChained w s imp addend = none ↔
      luaHook imp.symName = none ∧ s.dylibs.InRange imp.libOrdinal ∧
        maxDylibs < imp.libOrdinal := by
  rw [resolveChained]
  rcases luaHook imp.symName with _ | f
  · by_cases hrange : s.dylibs.InRange imp.libOrdinal
    · have hlow := hrange.1
      simp only [show imp.libOrdinal ≠ -1 by omega, show imp.libOrdinal ≠ -2 by omega,
        show imp.libOrdinal ≠ -3 by omega, hrange, if_true, if_false, true_and,
        map_eq_none_iff, Dylibs.entryAt?_eq_none_iff hrange]
    · simp only [hrange, if_false, false_and, and_false, iff_false]
      split_ifs <;> simp
  · simp only [reduceCtorEq, false_and]

theorem resolveBindByName_ne_none {w : World} {s : State} {imp : Import} {addend : BitVec 64}
    (h : s.dylibs.InRange imp.libOrdinal → (s.dylibs.entryAt? imp.libOrdinal).isSome) :
    resolveBindByName w s imp addend ≠ none := by
  rw [resolveBindByName]
  rcases luaHook imp.symName with _ | f
  · dsimp only
    split_ifs with hself hflat hweak hrange
    · exact some_ne_none _
    · exact some_ne_none _
    · exact some_ne_none _
    · rw [ne_eq, map_eq_none_iff]
      exact isSome_iff_ne_none.mp (h hrange)
    · exact some_ne_none _
  · exact some_ne_none _

end Machgate.ResolverFrames
