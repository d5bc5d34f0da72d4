import Machgate.ResolverFrames

namespace Machgate.WeakStorage

open ByteMemory SymbolNames DylibTable SlotPool ResolverState ImportResolver ResolverFrames
open List Option Prod
open ResolverState.State

structure BindCall where
  world : World
  ordinal : BitVec 32
  addend : BitVec 64

/-- The calls of a fixup pass in their order, with the addresses they return. -/
def resolveAll (imports : ImportTable) : State → List BindCall → Option (State × List Address)
  | s, [] => some (s, [])
  | s, c :: rest =>
    (resolveImport c.world s imports c.ordinal c.addend).bind fun r =>
      (resolveAll imports r.1 rest).map fun q => (q.1, r.2 :: q.2)

/-- A weak lookup that neither the image nor a library answers. -/
def FallsBack (w : World) (main : MainImage) (imp : Import) : Prop :=
  luaHook imp.symName = none ∧ imp.libOrdinal = -3 ∧ lookupMachoSymbol main imp.symName = 0 ∧
    w.dlsym rtldDefault (lookupName imp.symName) = 0

instance (w : World) (main : MainImage) (imp : Import) : Decidable (FallsBack w main imp) :=
  inferInstanceAs (Decidable (_ ∧ _))

def weakEvent (imports : ImportTable) (main : MainImage) (c : BindCall) : Event :=
  match imports.import? c.ordinal with
  | none => .idle
  | some imp => if FallsBack c.world main imp.1 then .request (c.world.maps .weak) else .idle

def weakOffset : Address → Option Nat
  | .place .weak offset => some offset
  | _ => none

def weakCapacity : Nat := 64 * 4096

theorem weakOffset_eq_some_iff {a : Address} {offset : Nat} :
    weakOffset a = some offset ↔ a = .place .weak offset := by
  rcases a with v | ⟨p, o⟩
  · simp [weakOffset]
  · cases p <;> simp [weakOffset]

theorem weakOffset_eq_none {a : Address} (h : a.pool? ≠ some .weak) : weakOffset a = none := by
  apply eq_none_iff_forall_ne_some.mpr
  intro offset hoffset
  rw [weakOffset_eq_some_iff.mp hoffset] at h
  exact h rfl

/-- A call does one event to the weak pool and answers with the slot it got there. -/
structure WeakStep (e : Event) (s : State) (r : State × Address) : Prop where
  main : r.1.main = s.main
  pool : r.1.pools .weak = (serve 128 weakCapacity (s.pools .weak) e).1
  offset : weakOffset r.2 = (serve 128 weakCapacity (s.pools .weak) e).2

section

variable {w : World} {s : State} {imp : Import} {addend : BitVec 64} {r : State × Address}

theorem weakStep_idle (h : Avoids .weak s r.1 (some r.2)) : WeakStep .idle s r :=
  ⟨h.main, h.pools, weakOffset_eq_none (h.answer _ rfl)⟩

theorem weakStep_chainedWeak (h : FallsBack w s.main imp) :
    WeakStep (.request (w.maps .weak)) s
      (orStub (chainedStub w imp.symName) (chainedWeak w s imp addend)) := by
  obtain ⟨-, -, hself, hdefault⟩ := h
  have hweak : chainedWeak w s imp addend = ((takeSlot w s .weak 128).1.countStubbed,
      (takeSlot w s .weak 128).2.map (Address.place .weak)) := by
    simp only [chainedWeak, hself, hdefault, ne_eq, not_true, if_false]
  have hpool : (takeSlot w s .weak 128).1.pools .weak =
      (take 128 weakCapacity (w.maps .weak) (s.pools .weak)).1 := pools_takeSlot_self w s .weak 128
  have hslot : (takeSlot w s .weak 128).2 =
      (take 128 weakCapacity (w.maps .weak) (s.pools .weak)).2 := rfl
  rw [hweak]
  rcases htake : (takeSlot w s .weak 128).2 with _ | offset
  · have hstub := avoids_chainedStub w (takeSlot w s .weak 128).1.countStubbed imp.symName
    refine ⟨hstub.main, hstub.pools.trans hpool, ?_⟩
    rw [serve, ← hslot, htake]
    exact weakOffset_eq_none (hstub.answer _ rfl)
  · refine ⟨rfl, hpool, ?_⟩
    rw [serve, ← hslot, htake]
    rfl

theorem weakStep_resolveChained (h : resolveChained w s imp addend = some r) :
    WeakStep (if FallsBack w s.main imp then .request (w.maps .weak) else .idle) s r := by
  have hstub := fun t => avoids_chainedStub w t imp.symName
  -- only an ordinal of -3 can fall back to the pool
  have hidle : (FallsBack w s.main imp → False) → Avoids .weak s r.1 (some r.2) →
      WeakStep (if FallsBack w s.main imp then .request (w.maps .weak) else .idle) s r := by
    intro hnot havoids
    rw [if_neg hnot]
    exact weakStep_idle havoids
  rcases chainedRoute_of_resolveChained h with
    ⟨hhook⟩ | ⟨hmain⟩ | ⟨hflat⟩ | ⟨hhook, hweak⟩ | ⟨hrange, -⟩ | ⟨hweak, -⟩
  · exact hidle (fun hfall => absurd (hhook.symm.trans hfall.1) (some_ne_none _)) (Avoids.value s _)
  · exact hidle (fun hfall => absurd (hmain.symm.trans hfall.2.1) (by decide))
      (avoids_orStub (avoids_chainedMain s imp addend) hstub)
  · exact hidle (fun hfall => absurd (hflat.symm.trans hfall.2.1) (by decide))
      (avoids_orStub (avoids_bindFlat w s imp addend) hstub)
  · split
    · exact weakStep_chainedWeak ‹_›
    · rename_i hfall
      apply weakStep_idle
      apply avoids_orStub _ hstub
      exact avoids_chainedWeak w s imp addend fun hself hdefault =>
        hfall ⟨hhook, hweak, hself, hdefault⟩
  · refine hidle (fun hfall => ?_) (avoids_orStub (avoids_bindDylib w s _ imp addend) hstub)
    have hlow := hrange.1
    have hordinal := hfall.2.1
    omega
  · exact hidle (fun hfall => hweak hfall.2.1) ((Avoids.unresolved s false).trans (hstub _))

theorem weakStep_resolveImport {imports : ImportTable} {c : BindCall}
    (h : resolveImport c.world s imports c.ordinal c.addend = some r) :
    WeakStep (weakEvent imports s.main c) s r := by
  rw [resolveImport] at h
  rw [weakEvent]
  rcases himp : imports.import? c.ordinal with _ | imp
  · rw [himp] at h
    obtain rfl := some.inj h
    exact ⟨rfl, rfl, rfl⟩
  · rw [himp] at h
    exact weakStep_resolveChained h

end

theorem weakOffsets_of_resolveAll {imports : ImportTable} {s s' : State} {calls : List BindCall}
    {answers : List Address} (h : resolveAll imports s calls = some (s', answers)) :
    answers.map weakOffset =
      offsets 128 weakCapacity (s.pools .weak) (calls.map (weakEvent imports s.main)) := by
  induction calls generalizing s answers with
  | nil =>
    obtain ⟨-, rfl⟩ := mk.inj (some.inj h)
    rfl
  | cons c rest ih =>
    obtain ⟨r, hcall, hrest⟩ := bind_eq_some_iff.mp h
    obtain ⟨⟨t, later⟩, hlater, heq⟩ := map_eq_some_iff.mp hrest
    obtain ⟨rfl, rfl⟩ := mk.inj heq
    have hstep := weakStep_resolveImport hcall
    rw [map_cons, map_cons, offsets, ← hstep.pool, ← hstep.offset, ih hlater, hstep.main]

def weakBinds (imports : ImportTable) (main : MainImage) (calls : List BindCall) : Nat :=
  (calls.map (weakEvent imports main)).countP Event.isRequest

/-- Every bind that is served from the weak pool has 128 bytes of its own there, whichever symbols
the binds name, and a pool that can be mapped serves the first 2048 of them. -/
theorem weak_binds_apart (imports : ImportTable) (s s' : State) (calls : List BindCall)
    (answers : List Address) (hrun : resolveAll imports s calls = some (s', answers)) :
    (∀ (i j first second : Nat), i < j → answers[i]? = some (Address.place .weak first) →
        answers[j]? = some (Address.place .weak second) → ∀ base : Pool → Addr,
          Apart ((Address.place .weak first).toAddr base) 128
            ((Address.place .weak second).toAddr base) 128) ∧
      (s.pools .weak = none → (∀ c ∈ calls, c.world.maps .weak) → ∀ i (hi : i < calls.length),
        (weakEvent imports s.main calls[i]).isRequest →
          weakBinds imports s.main (calls.take i) < 2048 →
            answers[i]? = some (.place .weak (128 * weakBinds imports s.main (calls.take i)))) := by
  have hoffsets := weakOffsets_of_resolveAll hrun
  constructor
  · intro i j first second hij hfirst hsecond base
    have hi : (answers.map weakOffset)[i]? = some (some first) := by
      rw [List.getElem?_map, hfirst]
      rfl
    have hj : (answers.map weakOffset)[j]? = some (some second) := by
      rw [List.getElem?_map, hsecond]
      rfl
    rw [hoffsets] at hi hj
    obtain ⟨hilt, hieq⟩ := List.getElem?_eq_some_iff.mp hi
    obtain ⟨hjlt, hjeq⟩ := List.getElem?_eq_some_iff.mp hj
    have horder := List.pairwise_iff_getElem.mp (offsets_pairwise (s.pools .weak) _) i j hilt hjlt hij
      first hieq second hjeq
    have hroom := (front_le_of_mem_offsets (List.mem_of_getElem? hj)).2
    exact apart_offsets (base .weak) horder (le_trans hroom (by decide))
  · intro hfresh hmaps i hi hrequest hcount
    have hgranted : ∀ e ∈ calls.map (weakEvent imports s.main), e ≠ .request false := by
      intro e he
      obtain ⟨c, hc, rfl⟩ := List.mem_map.mp he
      rw [weakEvent]
      split
      · simp
      · split <;> simp [hmaps c hc]
    have hroom : front (s.pools .weak) + 128 * (((calls.map (weakEvent imports s.main)).take i).countP
        Event.isRequest + 1) ≤ weakCapacity := by
      rw [hfresh, ← List.map_take]
      change 0 + 128 * (weakBinds imports s.main (calls.take i) + 1) ≤ 64 * 4096
      omega
    have hserved := offsets_getElem? 128 weakCapacity (s.pools .weak) _ (Or.inr hgranted) i
      (by simpa using hi) (by simpa using hrequest) hroom
    rw [← hoffsets, ← List.map_take, List.getElem?_map, hfresh] at hserved
    obtain ⟨a, ha, hoffset⟩ := Option.map_eq_some_iff.mp hserved
    rw [ha, weakOffset_eq_some_iff.mp hoffset, weakBinds]
    simp [front]

/-- One weak import, `_guard`, that nothing defines. -/
def guardImports : ImportTable where
  array := .imports [⟨253, true, 0⟩]
  symbols := text "_guard" ++ [0]

def guardCalls : List BindCall := [⟨emptyWorld, 0, 0⟩, ⟨emptyWorld, 0, 0⟩]

theorem guardCalls_apart :
    ∃ s, resolveAll guardImports skippedState guardCalls =
        some (s, [.place .weak 0, .place .weak 128]) ∧
      Apart ((Address.place .weak 0).toAddr fun _ => 0x1000) 128
        ((Address.place .weak 128).toAddr fun _ => 0x1000) 128 := by
  have hrun : (resolveAll guardImports skippedState guardCalls).map snd =
      some [.place .weak 0, .place .weak 128] := by decide +kernel
  obtain ⟨⟨s', answers⟩, hsome, hanswers⟩ := map_eq_some_iff.mp hrun
  obtain rfl : answers = [.place .weak 0, .place .weak 128] := hanswers
  exact ⟨s', hsome, (weak_binds_apart guardImports skippedState s' guardCalls _ hsome).1 0 1 0 128
    (by decide) rfl rfl _⟩

/-- The two binds of one symbol do not share a base. -/
theorem guardCalls_differ :
    (resolveAll guardImports skippedState guardCalls).map Prod.snd =
        some [.place .weak 0, .place .weak 128] ∧
      (∀ c ∈ guardCalls, guardImports.import? c.ordinal = some (⟨-3, true, text "_guard"⟩, 0)) ∧
      ∀ base : Pool → Addr,
        (Address.place .weak 0).toAddr base ≠ (Address.place .weak 128).toAddr base := by
  refine ⟨by decide +kernel, ?_, ?_⟩
  · have himp : guardImports.import? 0 = some (⟨-3, true, text "_guard"⟩, 0) := by
      simp [ImportTable.import?, guardImports, symbolAt, SymbolIndex.cString, text, octet]
    intro c hc
    rcases mem_pair.mp hc with rfl | rfl
    · exact himp
    · exact himp
  · intro base hsame
    simp only [Address.toAddr] at hsame
    bv_omega

end Machgate.WeakStorage
