import Machgate.KqueueTriggers

namespace Machgate.KqueueRuns

open KqueueTable KqueueSlots KqueueEvents KqueueTriggers List

section

variable {w : World} {s : Shim} {credit : Key → Nat} {kq : Int} {q : Nat}
  {entries : List (Collected × BitVec 16)}

theorem reportEntries_append (kq : Int) (events rest : List Kevent) :
    reportEntries kq (events ++ rest) = reportEntries kq events ++ reportEntries kq rest :=
  filterMap_append

theorem emitKqueueEvents_step (w : World) (s : Shim) (c : Collected) (revents : BitVec 16)
    (entries : List (Collected × BitVec 16)) (nevents : Nat) :
    ∃ left, emitKqueueEvents w s ((c, revents) :: entries) (nevents + 1) =
      ((emitKqueueEvents w (emitStep w s c revents).1 entries left).1,
        (emitStep w s c revents).2.toList ++
          (emitKqueueEvents w (emitStep w s c revents).1 entries left).2) := by
  rw [emitKqueueEvents_cons]
  cases (emitStep w s c revents).2 with
  | none => exact ⟨nevents + 1, rfl⟩
  | some event => exact ⟨nevents, rfl⟩

/-- What the loop reports is covered if the entries belong to one kqueue. -/
theorem covered_emit {nevents : Nat} (h : Covered w.eventfd credit s) (hlive : Live s entries)
    (hkq : ∀ e ∈ entries, e.1.snapshot.kq = kq) (hq : w.eventfd kq = some q)
    (hrevents : ∀ e ∈ entries, e.1.snapshot.filter = .user → e.2 ≠ 0 → s.pending q = true) :
    Paid credit (reportEntries kq (emitKqueueEvents w s entries nevents).2) ∧
      Covered w.eventfd
        ((reportEntries kq (emitKqueueEvents w s entries nevents).2).foldl settle credit)
        (emitKqueueEvents w s entries nevents).1 := by
  induction entries generalizing s credit nevents with
  | nil =>
    exact ⟨trivial, h⟩
  | cons e entries ih =>
    obtain ⟨c, revents⟩ := e
    rcases nevents with _ | nevents
    · exact ⟨trivial, h⟩
    · have hslot := hlive.slots (c, revents) mem_cons_self
      have hc : c.snapshot.kq = kq := hkq (c, revents) mem_cons_self
      obtain ⟨hpaid, hcovered⟩ := h.emitStep hslot (hc ▸ hq) (hrevents (c, revents) mem_cons_self)
      rw [hc] at hpaid hcovered
      -- Behind a user event there is no other one of the same kqueue.
      have hrest : ∀ e ∈ entries, e.1.snapshot.filter = .user → e.2 ≠ 0 →
          (emitStep w s c revents).1.pending q = true := by
        intro e he huser hne
        by_cases hcuser : c.snapshot.filter = .user
        · have hsame := h.lone c.slot e.1.slot c.snapshot e.1.snapshot hslot
            (hlive.slots e (mem_cons_of_mem _ he)) hcuser huser
            (by rw [hc, hkq e (mem_cons_of_mem _ he)])
          exact absurd hsame ((pairwise_cons.mp hlive.apart).1 e he)
        · rw [pending_emitStep hcuser]
          exact hrevents e (mem_cons_of_mem _ he) huser hne
      obtain ⟨left, hemit⟩ := emitKqueueEvents_step w s c revents entries nevents
      obtain ⟨hpaid', hcovered'⟩ := @ih _ _ left hcovered hlive.step
        (fun e he => hkq e (mem_cons_of_mem _ he)) hrest
      rw [hemit, reportEntries_append, paid_append, foldl_append]
      exact ⟨⟨hpaid, hpaid'⟩, hcovered'⟩

end

section

variable {w : World} {s : Shim} {credit : Key → Nat} {call : Call}

theorem snapshot_of_mem_pollList {kq : Int} {room : Nat} {e : Collected × BitVec 16}
    (h : e ∈ pollList w s kq room) :
    e.1.snapshot.kq = s.resolveKqueueFd kq ∧ e.2 = polled w s.pending kq e.1.snapshot := by
  obtain ⟨c, hc, rfl⟩ := mem_map.mp h
  have hmem : c.snapshot ∈ enabled s kq := by
    refine mem_of_mem_take (i := min room 64) ?_
    rw [← map_snapshot_collect]
    exact mem_map_of_mem hc
  exact ⟨(mem_enabled.mp hmem).2.1, rfl⟩

theorem kevent_cases (w : World) (s : Shim) (call : Call) :
    (¬ (0 ≤ call.kq ∧ 0 ≤ call.nevents) ∧ (kevent w s call).1 = s ∧
        ∃ errno, (kevent w s call).2 = .error errno) ∨
      (0 ≤ call.kq ∧ 0 ≤ call.nevents) ∧
        ((kevent w s call).1 = (applyKqueueChanges w call.kq s call.changelist).1 ∧
            (∃ result, (kevent w s call).2 = result ∧
              ∀ kq, Result.reports kq result = []) ∨
          ∃ result receipts, kevent w s call =
            ((emitKqueueEvents w (applyKqueueChanges w call.kq s call.changelist).1
              (pollList w (applyKqueueChanges w call.kq s call.changelist).1 call.kq call.room)
              call.room).1, .events result receipts
              (emitKqueueEvents w (applyKqueueChanges w call.kq s call.changelist).1
                (pollList w (applyKqueueChanges w call.kq s call.changelist).1 call.kq call.room)
                call.room).2)) := by
  rw [kevent]
  split
  · next hkq => exact .inl ⟨fun h => absurd hkq (Int.not_lt.mpr h.1), rfl, _, rfl⟩
  · next hkq =>
    split
    · next hnevents => exact .inl ⟨fun h => absurd hnevents (Int.not_lt.mpr h.2), rfl, _, rfl⟩
    · next hnevents =>
      refine .inr ⟨⟨Int.not_lt.mp hkq, Int.not_lt.mp hnevents⟩, ?_⟩
      dsimp only
      split
      · exact .inl ⟨rfl, _, rfl, fun _ => rfl⟩
      · split
        · exact .inl ⟨rfl, _, rfl, fun _ => rfl⟩
        · split
          · exact .inl ⟨rfl, _, rfl, fun _ => rfl⟩
          · exact .inr ⟨_, _, rfl⟩

theorem covered_kevent (h : Covered w.eventfd credit s) (hcareful : CarefulCall w s call) :
    Paid credit (callEntries w s call) ∧
      Covered w.eventfd ((callEntries w s call).foldl settle credit) (kevent w s call).1 := by
  obtain ⟨⟨q, hcall, hq⟩, hchanges⟩ := hcareful
  rw [callEntries]
  rcases kevent_cases w s call with ⟨hargs, hstate, errno, hresult⟩ | ⟨hargs, hcases⟩
  · rw [if_neg hargs, hstate, hresult]
    exact ⟨trivial, h⟩
  · rw [if_pos hargs, paid_append, foldl_append]
    obtain ⟨hpaid, hcovered, haliases⟩ := h.apply hchanges ⟨q, hq⟩
    rcases hcases with ⟨hstate, result, hresult, hreports⟩ | ⟨result, receipts, hkevent⟩
    · rw [hstate, hresult, hreports]
      exact ⟨⟨hpaid, trivial⟩, hcovered⟩
    · rw [hkevent]
      have hresolve : (applyKqueueChanges w call.kq s call.changelist).1.resolveKqueueFd call.kq =
          s.resolveKqueueFd call.kq :=
        resolve_congr (congrFun haliases call.kq)
      have hkq : ∀ e ∈ pollList w (applyKqueueChanges w call.kq s call.changelist).1 call.kq
          call.room, e.1.snapshot.kq = s.resolveKqueueFd call.kq :=
        fun e he => (snapshot_of_mem_pollList he).1.trans hresolve
      obtain ⟨hpaid', hcovered'⟩ := @covered_emit w _ _ _ q _ call.room hcovered
        (live_pollList w _ call.kq call.room) hkq hq (by
          intro e he huser hne
          rw [(snapshot_of_mem_pollList he).2, polled, huser, hcall] at hne
          by_contra hpending
          exact hne (if_neg hpending))
      exact ⟨⟨hpaid, hpaid'⟩, hcovered'⟩

end

/-- The kqueues of a process before anything was registered. -/
def started (aliases : Int → Option Int) : Shim := { emptyShim with aliases := aliases }

theorem slot_started (aliases : Int → Option Int) (i : Nat) : (started aliases).slot i = none := by
  by_contra hne
  obtain ⟨r, hr⟩ := Option.ne_none_iff_exists'.mp hne
  cases eq_of_mem_replicate (mem_registrations.mpr ⟨i, hr⟩)

theorem covered_started (files : Int → Option Nat) (aliases : Int → Option Int) :
    Covered files (fun _ => 0) (started aliases) where
  unique := fun i _ _ _ hi => nomatch (slot_started aliases i).symm.trans hi
  lone := fun i _ _ _ hi => nomatch (slot_started aliases i).symm.trans hi
  leads := fun i _ hi => nomatch (slot_started aliases i).symm.trans hi
  paid := fun i _ hi => nomatch (slot_started aliases i).symm.trans hi

theorem paid_run {files : Int → Option Nat} {credit : Key → Nat} {s : Shim}
    {steps : List (World × Call)} (h : Covered files credit s) (hcareful : CarefulRun files s steps) :
    Paid credit (runEntries files s steps) := by
  induction steps generalizing s credit with
  | nil => trivial
  | cons step rest ih =>
    obtain ⟨w, call⟩ := step
    obtain ⟨hcall, hrest⟩ := hcareful
    obtain ⟨hpaid, hcovered⟩ := @covered_kevent { w with eventfd := files } s credit call h hcall
    rw [runEntries, paid_append]
    exact ⟨hpaid, ih hcovered hrest⟩

/-- Over any run in which no eventfd has two user events, no user event is reported more often than
it was triggered. -/
theorem user_events_paid {files : Int → Option Nat} {aliases : Int → Option Int}
    {steps : List (World × Call)} (h : CarefulRun files (started aliases) steps) :
    Paid (fun _ => 0) (runEntries files (started aliases) steps) :=
  paid_run (covered_started files aliases) h

def userChange (ident : BitVec 64) (fflags : BitVec 32) : Kevent := ⟨ident, .user, 1, fflags, 0, 0⟩

def quiet : World := ⟨fun _ => none, fun _ _ => 0, fun _ => 0, fun _ => false, none⟩

def oneKqueue (fd : Int) : Option Nat := if fd = 3 then some 0 else none
def oneAlias (fd : Int) : Option Int := if fd = 3 then some 3 else none

/-- A registration of two user events and a trigger of the first. -/
def twoEvents : List (World × Call) :=
  [(quiet, ⟨3, [userChange 1 0, userChange 2 0], false, 0, none⟩),
    (quiet, ⟨3, [userChange 1 noteTrigger], true, 2, none⟩)]

/-- The trigger of the first user event makes the second one fire. -/
theorem second_event_fires :
    runEntries oneKqueue (started oneAlias) twoEvents =
        [.triggered (3, 1), .reported (3, 1), .reported (3, 2)] ∧
      ¬ Paid (fun _ => 0) (runEntries oneKqueue (started oneAlias) twoEvents) := by
  have hentries : runEntries oneKqueue (started oneAlias) twoEvents =
      [.triggered (3, 1), .reported (3, 1), .reported (3, 2)] := by
    decide +kernel
  refine ⟨hentries, ?_⟩
  rw [hentries]
  rintro ⟨-, -, hreported, -⟩
  exact absurd (hreported (3, 2) rfl) (by decide +kernel)

def oneEvent : List (World × Call) := [(quiet, ⟨3, [userChange 1 noteTrigger], true, 2, none⟩)]

theorem careful_oneEvent : CarefulRun oneKqueue (started oneAlias) oneEvent := by
  refine ⟨⟨⟨0, ?_, ?_⟩, ⟨?_, fun _ _ => trivial⟩⟩, trivial⟩
  · decide +kernel
  · decide +kernel
  · intro _ _
    exact ⟨fun i _ hi => (nomatch (slot_started oneAlias i).symm.trans hi), fun _ _ _ => rfl⟩

theorem one_event_paid :
    runEntries oneKqueue (started oneAlias) oneEvent = [.triggered (3, 1), .reported (3, 1)] ∧
      Paid (fun _ => 0) (runEntries oneKqueue (started oneAlias) oneEvent) := by
  have hcareful := careful_oneEvent
  refine ⟨by decide +kernel, ?_⟩
  -- With the run itself in the statement the table would be unfolded.
  generalize oneEvent = steps at hcareful ⊢
  exact user_events_paid hcareful

end Machgate.KqueueRuns
