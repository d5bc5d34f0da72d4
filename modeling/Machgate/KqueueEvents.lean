import Machgate.KqueueSlots

namespace Machgate.KqueueEvents

open KqueueTable KqueueSlots List Option Bool Nat

def enabled (s : Shim) (kq : Int) : List Registration :=
  s.registrations.filterMap fun slot =>
    slot.filter fun r => r.kq = s.resolveKqueueFd kq && !r.has evDisable

section

variable {s : Shim} {kq : Int} {maxEvents : Nat} {r : Registration} {c : Collected}

theorem mem_enabled :
    r ∈ enabled s kq ↔
      (∃ i, s.slot i = some r) ∧ r.kq = s.resolveKqueueFd kq ∧ r.has evDisable = false := by
  rw [enabled, mem_filterMap, ← mem_registrations]
  constructor
  · rintro ⟨slot, hslot, hr⟩
    obtain ⟨rfl, hfor⟩ := filter_eq_some_iff.mp hr
    rw [and_eq_true, decide_eq_true_eq, not_eq_true'] at hfor
    exact ⟨hslot, hfor⟩
  · rintro ⟨hslot, hkq, hdisable⟩
    refine ⟨some r, hslot, filter_eq_some_iff.mpr ⟨rfl, ?_⟩⟩
    rw [hdisable, Bool.not_false, Bool.and_true, decide_eq_true_eq]
    exact hkq

theorem map_snapshot_collect :
    (collectKqueuePollfds s kq maxEvents).map Collected.snapshot = (enabled s kq).take maxEvents := by
  rw [collectKqueuePollfds, map_take, enabled, map_filterMap]
  congr 1
  conv_rhs => rw [← zipIdx_map_fst 0 s.registrations, filterMap_map]
  refine filterMap_congr ?_
  rintro ⟨slot, i⟩ -
  simp only [Option.map_map, Function.comp_apply]
  exact Option.map_id'

theorem slot_of_mem_collect (h : c ∈ collectKqueuePollfds s kq maxEvents) :
    s.slot c.slot = some c.snapshot := by
  obtain ⟨⟨slot, i⟩, hslot, hc⟩ := mem_filterMap.mp (mem_of_mem_take h)
  obtain ⟨r, hr, rfl⟩ := map_eq_some_iff.mp hc
  obtain ⟨rfl, -⟩ := filter_eq_some_iff.mp hr
  exact slot_eq_some.mpr (mem_zipIdx_iff_getElem?.mp hslot)

theorem pairwise_collect :
    (collectKqueuePollfds s kq maxEvents).Pairwise fun c d => c.slot ≠ d.slot := by
  refine Pairwise.sublist (take_sublist _ _) (pairwise_filterMap.mpr ?_)
  have hindices : (s.registrations.zipIdx.map Prod.snd).Pairwise (· < ·) := by
    rw [zipIdx_map_snd]
    exact pairwise_lt_range'
  refine (pairwise_map.mp hindices).imp ?_
  rintro ⟨slot, i⟩ ⟨slot', j⟩ hlt c hc d hd
  obtain ⟨r, -, rfl⟩ := map_eq_some_iff.mp hc
  obtain ⟨r', -, rfl⟩ := map_eq_some_iff.mp hd
  exact Nat.ne_of_lt hlt

end

/-- The entries are in the table as they were when they were collected. -/
structure Live (s : Shim) (entries : List (Collected × BitVec 16)) : Prop where
  slots : ∀ e ∈ entries, s.slot e.1.slot = some e.1.snapshot
  apart : entries.Pairwise fun e f => e.1.slot ≠ f.1.slot

def emits (e : Collected × BitVec 16) : Bool :=
  if e.2 = 0 ∧ e.1.snapshot.filter ≠ .user then false
  else if e.2 = 0 ∧ !e.1.snapshot.triggered then false
  else if e.1.snapshot.clearWrite ∧ e.1.snapshot.ready then false
  else true

variable {w : World} {s : Shim} {c : Collected} {revents : BitVec 16}
  {entries : List (Collected × BitVec 16)}

theorem liveMatches_self (r : Registration) : liveMatches r r = true := by
  rw [liveMatches, and_eq_true, isFor_iff, decide_eq_true_eq]
  exact ⟨⟨rfl, rfl, rfl⟩, rfl⟩

theorem live_pollList (w : World) (s : Shim) (kq : Int) (room : Nat) :
    Live s (pollList w s kq room) where
  slots := by
    intro e he
    obtain ⟨c, hc, rfl⟩ := mem_map.mp he
    exact slot_of_mem_collect hc
  apart := pairwise_map.mpr pairwise_collect

theorem slot_emitStep_of_ne {i : Nat} (h : i ≠ c.slot) :
    (emitStep w s c revents).1.slot i = s.slot i := by
  rw [emitStep]
  split
  · exact slot_drain w s c.snapshot i
  · split
    · exact slot_setSlot_of_ne h _
    · split
      · rfl
      · split
        · rfl
        · rw [slot_drain]
          exact slot_setSlot_of_ne h _

theorem emitStep_live (h : s.slot c.slot = some c.snapshot) :
    (emitStep w s c revents).2 =
      if emits (c, revents) then some (eventOf w c.snapshot revents) else none := by
  have hlive : ((s.slot c.slot).filter fun live => liveMatches live c.snapshot) =
      some c.snapshot := by
    rw [h]
    exact filter_eq_some_iff.mpr ⟨rfl, liveMatches_self c.snapshot⟩
  rw [emitStep, hlive]
  simp only [emits]
  split
  · rfl
  · split
    · rfl
    · split <;> rfl

theorem Live.step (h : Live s ((c, revents) :: entries)) :
    Live (emitStep w s c revents).1 entries where
  slots := by
    intro e he
    have hne : e.1.slot ≠ c.slot := ((pairwise_cons.mp h.apart).1 e he).symm
    rw [slot_emitStep_of_ne hne]
    exact h.slots e (mem_cons_of_mem _ he)
  apart := (pairwise_cons.mp h.apart).2

theorem emitKqueueEvents_cons (w : World) (s : Shim) (c : Collected) (revents : BitVec 16)
    (entries : List (Collected × BitVec 16)) (nevents : Nat) :
    emitKqueueEvents w s ((c, revents) :: entries) (nevents + 1) =
      match (emitStep w s c revents).2 with
      | none => emitKqueueEvents w (emitStep w s c revents).1 entries (nevents + 1)
      | some event =>
        ((emitKqueueEvents w (emitStep w s c revents).1 entries nevents).1,
          event :: (emitKqueueEvents w (emitStep w s c revents).1 entries nevents).2) := by
  rw [emitKqueueEvents]
  cases hstep : emitStep w s c revents with
  | mk next event => cases event <;> rfl

/-- With room for all of them, each entry is reported or not by itself. -/
theorem emitKqueueEvents_live {nevents : Nat} (h : Live s entries) (hroom : entries.length ≤ nevents) :
    (emitKqueueEvents w s entries nevents).2 =
      (entries.filter emits).map fun e => eventOf w e.1.snapshot e.2 := by
  induction entries generalizing s nevents with
  | nil => rw [emitKqueueEvents]; rfl
  | cons e entries ih =>
    obtain ⟨c, revents⟩ := e
    obtain ⟨nevents, rfl⟩ := exists_eq_add_one.mpr (zero_lt_of_lt hroom)
    rw [length_cons] at hroom
    have hevent := @emitStep_live w s c revents (h.slots _ mem_cons_self)
    rw [emitKqueueEvents_cons, hevent]
    cases hemits : emits (c, revents) with
    | false =>
      rw [filter_cons_of_neg (by rw [hemits]; exact Bool.false_ne_true)]
      exact ih h.step (by omega)
    | true =>
      rw [filter_cons_of_pos hemits, map_cons]
      exact congrArg (_ :: ·) (ih h.step (by omega))

end Machgate.KqueueEvents
