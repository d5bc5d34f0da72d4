import Machgate.KqueueEvents

namespace Machgate.KqueueReady

open KqueueTable KqueueSlots KqueueEvents List

/-- The descriptor polls ready, or the user event was triggered. -/
def Ready (w : World) (r : Registration) : Prop :=
  match r.filter with
  | .user => r.triggered = true
  | filter => w.revents r.identFd filter ≠ 0#16

def applied (w : World) (s : Shim) (call : Call) : Shim :=
  (applyKqueueChanges w call.kq s call.changelist).1

/-- The call gets to its events: its changes are applied, the receipts leave room and `poll` does
not fail. -/
structure Polls (w : World) (s : Shim) (call : Call) : Prop where
  kq : 0 ≤ call.kq
  applies : (applyKqueueChanges w call.kq s call.changelist).2 = true
  room : 0 < call.room
  poll : w.pollErrno = none

/-- The events among the entries that the caller takes. -/
def taken : Result → List Kevent
  | .error _ => []
  | .events result receipts events => ((receipts ++ events).take result).drop receipts.length

/-- With a ready registration the call returns at once, and with an event of a ready one. -/
def ReportsReady (w : World) (s : Shim) (call : Call) : Prop :=
  Polls w s call → (∃ r ∈ enabled (applied w s call) call.kq, Ready w r) →
    ¬ waits w s call ∧ ∃ event ∈ taken (kevent w s call).2,
      ∃ r ∈ enabled (applied w s call) call.kq,
        Ready w r ∧ event.ident = r.ident ∧ event.filter = r.filter

def reach (w : World) (s : Shim) (call : Call) : List Registration :=
  (enabled (applied w s call) call.kq).take (min call.room 64)

/-- Something is reported for what is polled, or the user event was triggered, and it is not held
back as a `EV_CLEAR` one that was reported before. -/
def Due (w : World) (s : Shim) (call : Call) (r : Registration) : Prop :=
  (polled w (applied w s call).pending call.kq r ≠ 0#16 ∨ r.filter = .user ∧ r.triggered = true) ∧
    ¬ (r.clearWrite = true ∧ r.ready = true)

instance (w : World) (s : Shim) (call : Call) (r : Registration) : Decidable (Due w s call r) :=
  inferInstanceAs (Decidable (_ ∧ _))

/-- Of the registrations in reach that are due, all but as many of the last as there are
receipts. -/
def dueInReach (w : World) (s : Shim) (call : Call) : List Registration :=
  let due := (reach w s call).filter fun r => Due w s call r
  due.take (due.length - (emitKqueueReceipts call.changelist call.nevents.toNat).length)

/-- One of them is ready, and a descriptor of those in reach polls ready or the timeout is zero. -/
def ReadyInReach (w : World) (s : Shim) (call : Call) : Prop :=
  (∃ r ∈ dueInReach w s call, Ready w r) ∧
    ((∃ r ∈ reach w s call, polled w (applied w s call).pending call.kq r ≠ 0#16) ∨
      keventTimeoutMs call.timeout = 0)

section

variable {w : World} {s : Shim} {call : Call}

theorem nevents_of_room (h : 0 < call.room) : 0 ≤ call.nevents := by
  rw [Call.room] at h
  split at h
  · omega
  · cases h

variable {r : Registration} {e : Collected × BitVec 16}

theorem mem_reach :
    r ∈ reach w s call ↔ ∃ e ∈ pollList w (applied w s call) call.kq call.room,
      e.1.snapshot = r ∧ e.2 = polled w (applied w s call).pending call.kq r := by
  rw [reach, ← map_snapshot_collect]
  constructor
  · intro h
    obtain ⟨c, hc, rfl⟩ := mem_map.mp h
    exact ⟨_, mem_map_of_mem hc, rfl, rfl⟩
  · rintro ⟨e, he, rfl, -⟩
    obtain ⟨c, hc, rfl⟩ := mem_map.mp he
    exact mem_map_of_mem hc

theorem length_pollList (w : World) (s : Shim) (kq : Int) (room : Nat) :
    (pollList w s kq room).length ≤ room := by
  rw [pollList, length_map, collectKqueuePollfds, length_take]
  omega

theorem polled_pollList {kq : Int} {room : Nat}
    (h : e ∈ pollList w s kq room) : e.2 = polled w s.pending kq e.1.snapshot := by
  obtain ⟨c, -, rfl⟩ := mem_map.mp h
  rfl

theorem emits_iff_due (h : e.2 = polled w (applied w s call).pending call.kq e.1.snapshot) :
    emits e = decide (Due w s call e.1.snapshot) := by
  rw [Bool.eq_iff_iff, decide_eq_true_eq, emits, Due]
  split_ifs <;> grind

theorem taken_events (result : Nat) (receipts events : List Kevent) :
    taken (.events result receipts events) = events.take (result - receipts.length) := by
  rw [taken, drop_take, drop_left]

/-- The events that the caller takes are those of the registrations that are due. -/
theorem taken_kevent (h : Polls w s call) :
    ∃ es : List (Collected × BitVec 16),
      taken (kevent w s call).2 = es.map (fun e => eventOf w e.1.snapshot e.2) ∧
        es.map (fun e => e.1.snapshot) = dueInReach w s call := by
  have hkq : ¬ call.kq < 0 := Int.not_lt.mpr h.kq
  have hnevents : ¬ call.nevents < 0 := Int.not_lt.mpr (nevents_of_room h.room)
  have hlist : call.eventlist = true := by
    by_contra hnull
    exact absurd h.room (by rw [Call.room, if_neg hnull]; decide)
  have hdue : (reach w s call).filter (fun r => Due w s call r) =
      ((pollList w (applied w s call) call.kq call.room).filter emits).map
        fun e => e.1.snapshot := by
    have hreach : reach w s call =
        (pollList w (applied w s call) call.kq call.room).map fun e => e.1.snapshot := by
      rw [reach, ← map_snapshot_collect, pollList, List.map_map]
      rfl
    rw [hreach, filter_map]
    exact congrArg _ (filter_congr fun e he => (emits_iff_due (polled_pollList he)).symm)
  refine ⟨((pollList w (applied w s call) call.kq call.room).filter emits).take
    (((pollList w (applied w s call) call.kq call.room).filter emits).length -
      (emitKqueueReceipts call.changelist call.nevents.toNat).length), ?_, ?_⟩
  · rw [kevent, if_neg hkq, if_neg hnevents]
    simp only [h.applies, Bool.not_true, Bool.false_eq_true, if_false, h.poll, hlist, if_true]
    rw [← applied]
    split
    · next hempty =>
      rw [hempty, taken_events]
      simp
    · rw [emitKqueueEvents_live (live_pollList w _ _ _) (length_pollList w _ _ _), taken_events,
        length_map, map_take]
  · rw [dueInReach, hdue, length_map, map_take]

theorem not_waits_iff (h : Polls w s call) (hne : reach w s call ≠ []) :
    ¬ waits w s call ↔
      (∃ r ∈ reach w s call, polled w (applied w s call).pending call.kq r ≠ 0#16) ∨
        keventTimeoutMs call.timeout = 0 := by
  have hentries : pollList w (applied w s call) call.kq call.room ≠ [] := by
    intro hempty
    obtain ⟨r, hr⟩ := exists_mem_of_ne_nil _ hne
    obtain ⟨e, he, -⟩ := mem_reach.mp hr
    rw [hempty] at he
    cases he
  constructor
  · intro hwaits
    by_contra hnone
    rw [not_or] at hnone
    refine hwaits ⟨h.kq, nevents_of_room h.room, h.applies, hentries, ?_, hnone.2⟩
    intro e he
    by_contra hzero
    exact hnone.1 ⟨_, mem_reach.mpr ⟨e, he, rfl, polled_pollList he⟩, polled_pollList he ▸ hzero⟩
  · rintro hsome ⟨-, -, -, -, hzero, htimeout⟩
    rcases hsome with ⟨r, hr, hpolled⟩ | hsome
    · obtain ⟨e, he, rfl, hrevents⟩ := mem_reach.mp hr
      exact hpolled (hrevents ▸ hzero e he)
    · exact htimeout hsome

end

theorem reports_ready_iff {w : World} {s : Shim} {call : Call} (hunique : Unique s) :
    ReportsReady w s call ↔
      (Polls w s call → (∃ r ∈ enabled (applied w s call) call.kq, Ready w r) →
        ReadyInReach w s call) := by
  refine forall_congr' fun hpolls => forall_congr' fun hready => ?_
  obtain ⟨es, htaken, hes⟩ := taken_kevent hpolls
  rw [htaken, ReadyInReach, ← hes]
  have hmem : ∀ e ∈ es, e.1.snapshot ∈ reach w s call := by
    intro e he
    have hdue := mem_map_of_mem (f := fun e => e.1.snapshot) he
    rw [hes] at hdue
    exact (mem_filter.mp (mem_of_mem_take hdue)).1
  constructor
  · rintro ⟨hwaits, event, hevent, r, hr, hready, hident, hfilter⟩
    obtain ⟨e, he, rfl⟩ := mem_map.mp hevent
    -- There is one registration of this name, so the one reported is the ready one.
    have hsame : e.1.snapshot = r := by
      obtain ⟨⟨i, hi⟩, hkq, -⟩ := mem_enabled.mp (mem_of_mem_take (hmem e he))
      obtain ⟨⟨j, hj⟩, hkq', -⟩ := mem_enabled.mp hr
      have hij := unique_applyKqueueChanges call.changelist hunique i j _ _ hi hj
        (isFor_iff.mpr ⟨hkq'.trans hkq.symm, hident.symm, hfilter.symm⟩)
      subst hij
      exact Option.some.inj (hi.symm.trans hj)
    refine ⟨⟨_, mem_map_of_mem he, hsame ▸ hready⟩, ?_⟩
    exact (not_waits_iff hpolls (ne_nil_of_mem (hmem e he))).mp hwaits
  · rintro ⟨⟨r, hr, hready⟩, hreturns⟩
    obtain ⟨e, he, rfl⟩ := mem_map.mp hr
    refine ⟨(not_waits_iff hpolls (ne_nil_of_mem (hmem e he))).mpr hreturns, _,
      mem_map_of_mem he, e.1.snapshot, mem_of_mem_take (hmem e he), hready, rfl, rfl⟩

def reader (fd : BitVec 64) : Registration := ⟨3, fd, .read, 1, 0, 0, 0, false, false⟩

/-- A kqueue of descriptor 3 with these descriptors registered for reading. -/
def readers (first : BitVec 64) (rest : List (BitVec 64)) : Shim where
  registrations := some (reader first) :: rest.map (fun fd => some (reader fd)) ++
    List.replicate (kqueueRegistrationCount - 1 - rest.length) none
  aliases := fun fd => if fd = 3 then some 3 else none
  pending := fun _ => false

def dataOnFive : World where
  eventfd := fun fd => if fd = 3 then some 0 else none
  revents := fun fd _ => if fd = 5 then pollin else 0
  available := fun _ => 0
  listening := fun _ => false
  pollErrno := none

def oneEvent : Call := ⟨3, [], true, 1, none⟩

theorem ready_five : Ready dataOnFive (reader 5) := by
  change dataOnFive.revents (reader 5).identFd .read ≠ 0#16
  decide +kernel

/-- Descriptor 4 is idle and comes first in the table, so that 5 is not polled and the call waits
for 4. -/
theorem second_reader_starves :
    reach dataOnFive (readers 4 [5]) oneEvent = [reader 4] ∧
      ¬ ReportsReady dataOnFive (readers 4 [5]) oneEvent := by
  have hreach : reach dataOnFive (readers 4 [5]) oneEvent = [reader 4] := by decide +kernel
  refine ⟨hreach, ?_⟩
  have hpolls : Polls dataOnFive (readers 4 [5]) oneEvent := ⟨by decide, rfl, by decide, rfl⟩
  intro hreports
  have hmem : reader 5 ∈ enabled (applied dataOnFive (readers 4 [5]) oneEvent) oneEvent.kq := by
    decide +kernel
  obtain ⟨hwaits, -⟩ := hreports hpolls ⟨reader 5, hmem, ready_five⟩
  have hne : reach dataOnFive (readers 4 [5]) oneEvent ≠ [] := by
    rw [hreach]
    exact cons_ne_nil _ _
  rcases (not_waits_iff hpolls hne).mp hwaits with ⟨r, hr, hpolled⟩ | htimeout
  · rw [hreach] at hr
    rw [mem_singleton.mp hr] at hpolled
    exact hpolled (by decide +kernel)
  · exact absurd htimeout (by decide)

theorem unique_readers (fd : BitVec 64) : Unique (readers fd []) := by
  have hzero : ∀ i r, (readers fd []).slot i = some r → i = 0 := by
    intro i r hi
    rw [slot_eq_some] at hi
    rcases i with _ | i
    · rfl
    · have hmem : some r ∈ replicate 1023 none := mem_of_getElem? hi
      cases eq_of_mem_replicate hmem
  intro i j r r' hi hj _
  rw [hzero i r hi, hzero j r' hj]

theorem one_reader_reported : ReportsReady dataOnFive (readers 5 []) oneEvent := by
  refine (reports_ready_iff (unique_readers 5)).mpr fun _ _ =>
    ⟨⟨reader 5, ?_, ready_five⟩, Or.inl ⟨reader 5, ?_, ?_⟩⟩
  all_goals decide +kernel

end Machgate.KqueueReady
