import Machgate.SerialQueue

namespace Machgate.SerialQueue

open Interleaving LinkedQueue Function Option List Bool Prod Nat

/-- The thread is on its way from a `worker_started` that it has found unset to setting it. -/
def Phase.starting : Phase → Bool
  | .creating _ _ | .marking _ _ => true
  | _ => false

def succeeds (s : State) : Thread × Move → Bool
  | (t, .advance ok _) =>
    match (s.locals t).phase with
    | .copying _ | .creating _ _ | .allocating _ _ => ok
    | _ => true
  | _ => true

def checks (s : State) : Thread × Move → Bool
  | (t, .advance _ _) =>
    match (s.locals t).phase with
    | .checking _ _ => true
    | _ => false
  | _ => false

/-- No two threads start a worker at the same time, and nothing fails. -/
structure Orderly (s : State) (a : Thread × Move) : Prop where
  succeeds : succeeds s a
  apart : checks s a → ∀ t, t ≠ a.1 → (s.locals t).phase.starting = false

section

variable {log : List Event} {event : Event}

def Event.silent : Event → Bool
  | .submitted _ _ | .started _ .sync _ | .ended _ .sync _ => true
  | _ => false

theorem enqueuedItems_silent (h : event.silent) :
    enqueuedItems (log ++ [event]) = enqueuedItems log := by
  cases event <;> simp_all [enqueuedItems, Event.silent]

theorem startedItems_silent (h : event.silent) :
    startedItems (log ++ [event]) = startedItems log := by
  cases event with
  | started t kind w => cases kind <;> simp_all [startedItems, Event.silent]
  | _ => simp [startedItems]

theorem runningItems_silent (h : event.silent) :
    runningItems (log ++ [event]) = runningItems log := by
  cases event with
  | started t kind w | ended t kind w => cases kind <;> simp_all [runningItems, Event.silent]
  | _ => simp [runningItems]

theorem inOrder_silent (h : event.silent) : InOrder (log ++ [event]) ↔ InOrder log := by
  rw [InOrder, runningItems_silent h, startedItems_silent h, enqueuedItems_silent h]
  rfl

theorem enqueuedItems_enqueued (w : Nat) :
    enqueuedItems (log ++ [.enqueued w]) = enqueuedItems log ++ [w] := by
  simp [enqueuedItems]

theorem startedItems_enqueued (w : Nat) :
    startedItems (log ++ [.enqueued w]) = startedItems log := by
  simp [startedItems]

theorem runningItems_enqueued (w : Nat) :
    runningItems (log ++ [.enqueued w]) = runningItems log := by
  simp [runningItems]

variable {kind : Kind}

theorem enqueuedItems_started (t : Thread) (w : Nat) :
    enqueuedItems (log ++ [.started t kind w]) = enqueuedItems log := by
  simp [enqueuedItems]

theorem startedItems_started (h : kind ≠ .sync) (t : Thread) (w : Nat) :
    startedItems (log ++ [.started t kind w]) = startedItems log ++ [w] := by
  simp [startedItems, h]

theorem runningItems_started (h : kind ≠ .sync) (t : Thread) (w : Nat) :
    runningItems (log ++ [.started t kind w]) = w :: runningItems log := by
  simp [runningItems, h]

theorem enqueuedItems_ended (t : Thread) (w : Nat) :
    enqueuedItems (log ++ [.ended t kind w]) = enqueuedItems log := by
  simp [enqueuedItems]

theorem startedItems_ended (t : Thread) (w : Nat) :
    startedItems (log ++ [.ended t kind w]) = startedItems log := by
  simp [startedItems]

theorem runningItems_ended (h : kind ≠ .sync) (t : Thread) (w : Nat) :
    runningItems (log ++ [.ended t kind w]) = (runningItems log).erase w := by
  simp [runningItems, h]

end

section

variable {s s' : State} {t : Thread} {l : Local}

/-- How many workers there are, by the threads that are starting one. -/
structure StartInv (s : State) : Prop where
  pool : s.poolWorkers = 0
  one : ∀ t t', (s.locals t).phase.starting → (s.locals t').phase.starting → t = t'
  creating : ∀ t form w, (s.locals t).phase = .creating form w →
    s.workers = 0 ∧ s.workerStarted = false
  marking : ∀ t form w, (s.locals t).phase = .marking form w → s.workers = 1
  idle : (∀ t, (s.locals t).phase.starting = false) → s.workers = if s.workerStarted then 1 else 0

theorem StartInv.workers_le (h : StartInv s) : s.workers ≤ 1 := by
  rcases Classical.em (∀ t, (s.locals t).phase.starting = false) with hidle | hsome
  · rw [h.idle hidle]
    split <;> decide
  · rcases not_forall.mp hsome with ⟨t, ht⟩
    cases hphase : (s.locals t).phase with
    | creating form w => exact (h.creating t form w hphase).1 ▸ Nat.zero_le 1
    | marking form w => exact (h.marking t form w hphase).le
    | _ => simp [hphase, Phase.starting] at ht

theorem StartInv.quiet (h : StartInv s) (hlocals : s'.locals = update s.locals t l)
    (hpool : s'.poolWorkers = s.poolWorkers) (hworkers : s'.workers = s.workers)
    (hstarted : s'.workerStarted = s.workerStarted)
    (hold : (s.locals t).phase.starting = false) (hnew : l.phase.starting = false) :
    StartInv s' := by
  have hstarting : ∀ t', (s'.locals t').phase.starting = (s.locals t').phase.starting := by
    intro t'
    rcases eq_or_ne t' t with rfl | hne
    · simp [hlocals, hold, hnew]
    · simp [hlocals, hne]
  have hsame : ∀ t', (s'.locals t').phase.starting → s'.locals t' = s.locals t' := by
    intro t' ht'
    rcases eq_or_ne t' t with rfl | hne
    · simp [hlocals, hnew] at ht'
    · simp [hlocals, hne]
  refine ⟨hpool.trans h.pool, ?_, ?_, ?_, ?_⟩
  · intro t₁ t₂
    rw [hstarting, hstarting]
    exact h.one t₁ t₂
  · intro t' form w hphase
    rw [hworkers, hstarted]
    exact h.creating t' form w (hsame t' (by rw [hphase]; rfl) ▸ hphase)
  · intro t' form w hphase
    rw [hworkers]
    exact h.marking t' form w (hsame t' (by rw [hphase]; rfl) ▸ hphase)
  · simpa only [hstarting, hworkers, hstarted] using h.idle

theorem StartInv.alone (hlocals : s'.locals = update s.locals t l)
    (hpool : s'.poolWorkers = 0) (hothers : ∀ t', t' ≠ t → (s.locals t').phase.starting = false)
    (hcreating : ∀ form w, l.phase = .creating form w → s'.workers = 0 ∧ s'.workerStarted = false)
    (hmarking : ∀ form w, l.phase = .marking form w → s'.workers = 1)
    (hidle : l.phase.starting = false → s'.workers = if s'.workerStarted then 1 else 0) :
    StartInv s' := by
  have honly : ∀ t', (s'.locals t').phase.starting → t' = t := by
    intro t' ht'
    by_contra hne
    simp [hlocals, hne, hothers t' hne] at ht'
  have hself : s'.locals t = l := by rw [hlocals, update_self]
  refine ⟨hpool, fun t₁ t₂ h₁ h₂ => (honly t₁ h₁).trans (honly t₂ h₂).symm, ?_, ?_, ?_⟩
  · intro t' form w hphase
    rw [honly t' (by rw [hphase]; rfl), hself] at hphase
    exact hcreating form w hphase
  · intro t' form w hphase
    rw [honly t' (by rw [hphase]; rfl), hself] at hphase
    exact hmarking form w hphase
  · exact fun hall => hidle (hself ▸ hall t)

theorem StartInv.others (h : StartInv s) (ht : (s.locals t).phase.starting) {t' : Thread}
    (hne : t' ≠ t) : (s.locals t').phase.starting = false := by
  by_contra hother
  rw [not_eq_false] at hother
  exact hne (h.one t' t hother ht)

end

def Phase.pending : Phase → Option Nat
  | .copying w | .checking _ w | .creating _ w | .marking _ w | .allocating _ w | .linking w => some w
  | _ => none

def Phase.taking : Phase → List Nat
  | .taken w | .takenPooled w => [w]
  | _ => []

def Phase.pooled : Phase → Bool
  | .checkingPool _ | .startingPool _ | .testingPool _ | .allocatingPool _ | .linkingPool _
  | .takenPooled _ => true
  | _ => false

def Local.items (l : Local) : List Nat :=
  l.frames.filterMap fun (kind, w) => if kind = .sync then none else some w

/-- Only the first worker runs submitted work. -/
structure LocalOk (t : Thread) (l : Local) : Prop where
  unpooled : l.phase.pooled = false
  other : t ≠ .worker 0 → l.phase.taking = [] ∧ l.items = []
  loop : l.phase.taking ≠ [] → l.frames = []
  one : l.items.length ≤ 1

/-- The items of the queue follow those that were started and the one that the worker has taken. -/
structure QueueInv (s : State) (items : List Nat) : Prop where
  represents : Represents s.links items
  order : enqueuedItems s.log =
    startedItems s.log ++ ((s.locals (.worker 0)).phase.taking ++ items)
  running : runningItems s.log = (s.locals (.worker 0)).items
  inOrder : Always InOrder s.log
  locals : ∀ t, LocalOk t (s.locals t)
  fresh : ∀ t w, (s.locals t).phase.pending = some w →
    w < s.submissions ∧ w ∉ enqueuedItems s.log
  distinct : ∀ t t' w, (s.locals t).phase.pending = some w → (s.locals t').phase.pending = some w →
    t = t'
  bound : ∀ w ∈ enqueuedItems s.log, w < s.submissions

section

variable {s s' : State} {t : Thread} {l : Local} {items items' : List Nat} {event : Event} {w : Nat}

theorem QueueInv.after (h : QueueInv s items)
    (hlocals : s'.locals = update s.locals t l) (hrepresents : Represents s'.links items')
    (horder : enqueuedItems s'.log =
      startedItems s'.log ++ ((s'.locals (.worker 0)).phase.taking ++ items'))
    (hrunning : runningItems s'.log = (s'.locals (.worker 0)).items)
    (hinOrder : Always InOrder s'.log) (hlocal : LocalOk t l)
    (hself : ∀ w, l.phase.pending = some w →
      (w < s'.submissions ∧ w ∉ enqueuedItems s'.log) ∧
        ∀ t', t' ≠ t → (s.locals t').phase.pending ≠ some w)
    (hothers : ∀ t' w, t' ≠ t → (s.locals t').phase.pending = some w →
      w < s'.submissions ∧ w ∉ enqueuedItems s'.log)
    (hbound : ∀ w ∈ enqueuedItems s'.log, w < s'.submissions) : QueueInv s' items' where
  represents := hrepresents
  order := horder
  running := hrunning
  inOrder := hinOrder
  locals := by
    rw [hlocals]
    exact (forall_update_iff s.locals LocalOk).mpr ⟨hlocal, fun t' _ => h.locals t'⟩
  fresh := by
    intro t' w hw
    rw [hlocals, update_apply] at hw
    split at hw
    · exact (hself w hw).1
    · next hne => exact hothers t' w hne hw
  distinct := by
    intro t₁ t₂ w h₁ h₂
    have hdistinct := h.distinct t₁ t₂ w
    simp only [hlocals, update_apply] at h₁ h₂
    grind
  bound := hbound

/-- What a step leaves as it is for the thread that moves is left as it is for all. -/
theorem same_of_update {B : Type} (f : Local → B)
    (hlocals : s'.locals = update s.locals t l) (hf : f l = f (s.locals t)) (t' : Thread) :
    f (s'.locals t') = f (s.locals t') := by
  rw [hlocals, update_apply]
  split
  · next heq => rw [hf, heq]
  · rfl

theorem QueueInv.quiet (h : QueueInv s items) (hlocals : s'.locals = update s.locals t l)
    (hlinks : s'.links = s.links) (hlog : s'.log = s.log ∨ ∃ event, event.silent ∧ s'.log = s.log ++ [event])
    (hsubmissions : s.submissions ≤ s'.submissions) (hpending : ∀ w, l.phase.pending = some w →
      (s.locals t).phase.pending = some w ∨ w = s.submissions ∧ s.submissions < s'.submissions)
    (htaking : l.phase.taking = (s.locals t).phase.taking) (hitems : l.items = (s.locals t).items)
    (hpooled : l.phase.pooled = false) (hloop : l.phase.taking ≠ [] → l.frames = []) :
    QueueInv s' items := by
  have hsame : enqueuedItems s'.log = enqueuedItems s.log ∧ startedItems s'.log = startedItems s.log ∧
      runningItems s'.log = runningItems s.log ∧ Always InOrder s'.log := by
    rcases hlog with hlog | ⟨event, hsilent, hlog⟩
    · rw [hlog]
      exact ⟨rfl, rfl, rfl, h.inOrder⟩
    · rw [hlog]
      refine ⟨enqueuedItems_silent hsilent, startedItems_silent hsilent, runningItems_silent hsilent,
        always_concat_iff.mpr ⟨h.inOrder, ?_⟩⟩
      exact (inOrder_silent hsilent).mpr (h.inOrder s.log (prefix_refl _))
  rcases hsame with ⟨henqueued, hstarted, hrunning, hinOrder⟩
  apply h.after hlocals
  · exact hlinks ▸ h.represents
  · rw [henqueued, hstarted, same_of_update (fun l => l.phase.taking) hlocals htaking]
    exact h.order
  · rw [hrunning, same_of_update Local.items hlocals hitems]
    exact h.running
  · exact hinOrder
  · refine ⟨hpooled, ?_, hloop, hitems ▸ (h.locals t).one⟩
    rw [htaking, hitems]
    exact (h.locals t).other
  · intro w hw
    rw [henqueued]
    rcases hpending w hw with hold | ⟨rfl, hlt⟩
    · exact ⟨⟨(h.fresh t w hold).1.trans_le hsubmissions, (h.fresh t w hold).2⟩,
        fun t' hne hw' => hne (h.distinct t' t w hw' hold)⟩
    · exact ⟨⟨hlt, fun hmem => (h.bound _ hmem).false⟩, fun t' _ hw' => (h.fresh t' _ hw').1.false⟩
  · intro t' w _ hw
    rw [henqueued]
    exact ⟨(h.fresh t' w hw).1.trans_le hsubmissions, (h.fresh t' w hw).2⟩
  · rw [henqueued]
    exact fun w hw => (h.bound w hw).trans_le hsubmissions

theorem QueueInv.mem_enqueued (h : QueueInv s items) (hw : w ∈ items) : w ∈ enqueuedItems s.log := by
  rw [h.order]
  simp [hw]

theorem QueueInv.link (h : QueueInv s items) (hphase : (s.locals t).phase = .linking w) :
    QueueInv (({ s with links := push s.links w }.goto t .guest).record (.enqueued w))
      (items ++ [w]) := by
  rcases h.fresh t w (by rw [hphase]; rfl) with ⟨hlt, hnew⟩
  have hlocals : ∀ t', ((({ s with links := push s.links w }.goto t .guest).record
      (.enqueued w)).locals t').phase.taking = (s.locals t').phase.taking :=
    same_of_update (fun l => l.phase.taking) rfl (by simp [hphase, Phase.taking])
  apply h.after rfl
  · exact h.represents.push fun hw => hnew (h.mem_enqueued hw)
  · rw [hlocals]
    simp [State.record, State.goto, State.put, enqueuedItems_enqueued, startedItems_enqueued, h.order]
  · rw [same_of_update (s := s) (t := t) (l := ⟨.guest, (s.locals t).frames⟩) Local.items rfl rfl]
    exact (runningItems_enqueued w).trans h.running
  · refine always_concat_iff.mpr ⟨h.inOrder, ?_⟩
    have := h.inOrder s.log (prefix_refl _)
    rw [InOrder, State.goto, State.put, runningItems_enqueued, startedItems_enqueued,
      enqueuedItems_enqueued]
    exact ⟨this.1, this.2.trans (prefix_append _ _)⟩
  · exact ⟨rfl, fun hne => ⟨rfl, ((h.locals t).other hne).2⟩, fun hne => absurd rfl hne,
      (h.locals t).one⟩
  · exact nofun
  · intro t' w' hne hw'
    have hother : w' ≠ w := by
      rintro rfl
      exact hne (h.distinct t' t w' hw' (by rw [hphase]; rfl))
    simpa [State.record, State.goto, State.put, enqueuedItems_enqueued, hother] using h.fresh t' w' hw'
  · intro w' hw'
    rcases mem_append.mp (@enqueuedItems_enqueued s.log w ▸ hw') with hw' | hw'
    · exact h.bound w' hw'
    · exact mem_singleton.mp hw' ▸ hlt

theorem QueueInv.take {q : Links Nat} (h : QueueInv s (w :: items)) (hq : Represents q items)
    (hloop : s.atLoop (.worker 0)) :
    QueueInv ({ s with links := q }.goto (.worker 0) (.taken w)) items := by
  simp only [State.atLoop, and_eq_true, decide_eq_true_eq, List.isEmpty_iff] at hloop
  have hself : ({ s with links := q }.goto (.worker 0) (.taken w)).locals (.worker 0) =
      ⟨.taken w, (s.locals (.worker 0)).frames⟩ := by
    simp [State.goto, State.put]
  apply h.after rfl hq
  · rw [hself]
    have horder := h.order
    rw [hloop.1] at horder
    exact horder
  · rw [hself]
    exact h.running
  · exact h.inOrder
  · exact ⟨rfl, fun hne => absurd rfl hne, fun _ => hloop.2, (h.locals _).one⟩
  · intro w' hw'
    cases hw'
  · exact fun t' w' _ hw' => h.fresh t' w' hw'
  · exact h.bound

theorem QueueInv.start (h : QueueInv s items) (hphase : (s.locals (.worker 0)).phase = .taken w) :
    QueueInv (s.begin (.worker 0) .item w) items := by
  have hframes : (s.locals (.worker 0)).frames = [] :=
    (h.locals _).loop (by simp [hphase, Phase.taking])
  have horder := h.order
  rw [hphase, Phase.taking] at horder
  have hself : (s.begin (.worker 0) .item w).locals (.worker 0) = ⟨.guest, [(.item, w)]⟩ := by
    simp [State.begin, State.record, State.put, hframes]
  have henqueued : enqueuedItems (s.begin (.worker 0) .item w).log = enqueuedItems s.log :=
    enqueuedItems_started _ _
  have hstarted : startedItems (s.begin (.worker 0) .item w).log = startedItems s.log ++ [w] :=
    startedItems_started (by decide) _ _
  have hrunning : runningItems (s.begin (.worker 0) .item w).log = [w] := by
    refine (runningItems_started (by decide) _ _).trans ?_
    simp [State.put, h.running, Local.items, hframes]
  apply h.after rfl
  · exact h.represents
  · rw [hself, henqueued, hstarted, horder]
    simp [Phase.taking]
  · rw [hself, hrunning]
    rfl
  · refine always_concat_iff.mpr ⟨h.inOrder, (congrArg length hrunning).le, ?_⟩
    refine (congrArg₂ (· <+: ·) hstarted henqueued).mpr ?_
    rw [horder, ← append_assoc]
    exact prefix_append _ _
  · rw [hframes]
    exact ⟨rfl, fun hne => absurd rfl hne, fun hne => absurd rfl hne, le_rfl⟩
  · exact nofun
  · exact henqueued ▸ fun t' w' _ hw' => h.fresh t' w' hw'
  · exact henqueued ▸ h.bound

theorem QueueInv.finish {kind : Kind} {frames : List (Kind × Nat)} (h : QueueInv s items)
    (hlocal : s.locals t = ⟨.guest, (kind, w) :: frames⟩) :
    QueueInv ((s.put t ⟨.guest, frames⟩).record (.ended t kind w)) items := by
  rcases eq_or_ne kind .sync with rfl | hkind
  · refine h.quiet rfl rfl (Or.inr ⟨.ended t .sync w, rfl, rfl⟩) le_rfl nofun ?_ ?_ rfl
      fun hne => absurd rfl hne
    · rw [hlocal]
    · simp [hlocal, Local.items]
  · have hitems : (s.locals t).items = w :: (⟨.guest, frames⟩ : Local).items := by
      simp [hlocal, Local.items, hkind]
    obtain rfl : t = .worker 0 := by
      by_contra hne
      simp [((h.locals t).other hne).2] at hitems
    have hone := (h.locals (.worker 0)).one
    rw [hitems, length_cons] at hone
    have hself : ((s.put (.worker 0) ⟨.guest, frames⟩).record (.ended (.worker 0) kind w)).locals
        (.worker 0) = ⟨.guest, frames⟩ := by
      simp [State.record, State.put]
    have hrunning : runningItems (s.log ++ [.ended (.worker 0) kind w]) =
        (⟨.guest, frames⟩ : Local).items := by
      rw [runningItems_ended hkind, h.running, hitems, erase_cons_head]
    apply h.after rfl
    · exact h.represents
    · rw [hself]
      simpa [State.record, State.put, enqueuedItems_ended, startedItems_ended, hlocal] using h.order
    · rw [hself]
      exact hrunning
    · refine always_concat_iff.mpr ⟨h.inOrder, ?_, ?_⟩
      · exact (congrArg length hrunning).trans_le (le_of_succ_le hone)
      · simpa [State.put, enqueuedItems_ended, startedItems_ended] using
          (h.inOrder s.log (prefix_refl _)).2
    · exact ⟨rfl, fun hne => absurd rfl hne, fun hne => absurd rfl hne, le_of_succ_le hone⟩
    · exact nofun
    · simpa [State.record, State.put, enqueuedItems_ended] using fun t' w' _ => h.fresh t' w'
    · simpa [State.record, State.put, enqueuedItems_ended] using h.bound

end

def Inv (s : State) : Prop := StartInv s ∧ ∃ items, QueueInv s items

section

variable {s s' : State} {t : Thread} {w : Nat}

theorem QueueInv.goto {items : List Nat} {old new : Phase} (h : QueueInv s items)
    (hlocals : s'.locals = update s.locals t ⟨new, (s.locals t).frames⟩)
    (hlinks : s'.links = s.links) (hlog : s'.log = s.log)
    (hsubmissions : s'.submissions = s.submissions) (hphase : (s.locals t).phase = old)
    (hpending : new.pending = old.pending) (htaking : new.taking = [] ∧ old.taking = [])
    (hpooled : new.pooled = false) : QueueInv s' items := by
  apply h.quiet hlocals hlinks (Or.inl hlog) hsubmissions.ge
  · intro w hw
    rw [hphase]
    exact Or.inl (hpending.symm.trans hw)
  · rw [hphase]
    exact htaking.1.trans htaking.2.symm
  · rfl
  · exact hpooled
  · exact fun hne => absurd htaking.1 hne

theorem Inv.goto {old new : Phase} (h : Inv s) (hphase : (s.locals t).phase = old)
    (hpending : new.pending = old.pending) (htaking : new.taking = [] ∧ old.taking = [])
    (hpooled : new.pooled = false) (hstarting : new.starting = false ∧ old.starting = false) :
    Inv (s.goto t new) := by
  rcases h with ⟨hstart, items, hqueue⟩
  refine ⟨?_, items, hqueue.goto rfl rfl rfl rfl hphase hpending htaking hpooled⟩
  exact hstart.quiet rfl rfl rfl rfl (by rw [hphase, hstarting.2]) hstarting.1

theorem Inv.quiet {l : Local} (event : Event) (h : Inv s) (hguest : s.inGuest t)
    (hlocals : s'.locals = update s.locals t l) (hlinks : s'.links = s.links)
    (hpool : s'.poolWorkers = s.poolWorkers) (hworkers : s'.workers = s.workers)
    (hstarted : s'.workerStarted = s.workerStarted)
    (hsilent : event.silent) (hlog : s'.log = s.log ++ [event])
    (hsubmissions : s'.submissions = s.submissions + 1)
    (hpending : ∀ w, l.phase.pending = some w → w = s.submissions) (hstarting : l.phase.starting = false)
    (htaking : l.phase.taking = []) (hpooled : l.phase.pooled = false)
    (hitems : l.items = (s.locals t).items) : Inv s' := by
  rcases h with ⟨hstart, items, hqueue⟩
  have hphase : (s.locals t).phase = .guest := by
    simp only [State.inGuest, and_eq_true, decide_eq_true_eq] at hguest
    exact hguest.1
  refine ⟨hstart.quiet hlocals hpool hworkers hstarted (by rw [hphase]; rfl) hstarting, items, ?_⟩
  apply hqueue.quiet hlocals hlinks (Or.inr ⟨event, hsilent, hlog⟩)
  · omega
  · exact fun w hw => Or.inr ⟨hpending w hw, by omega⟩
  · rw [htaking, hphase]
    rfl
  · exact hitems
  · exact hpooled
  · exact fun hne => absurd htaking hne

theorem Inv.check {form : Form} (h : Inv s) (hphase : (s.locals t).phase = .checking form w)
    (hothers : ∀ t', t' ≠ t → (s.locals t').phase.starting = false)
    (hstarted : s.workerStarted = false) : Inv (s.goto t (.creating form w)) := by
  rcases h with ⟨hstart, items, hqueue⟩
  refine ⟨?_, items, hqueue.goto rfl rfl rfl rfl hphase rfl ⟨rfl, rfl⟩ rfl⟩
  have hidle : ∀ t', (s.locals t').phase.starting = false := by
    intro t'
    rcases eq_or_ne t' t with rfl | hne
    · simp [hphase, Phase.starting]
    · exact hothers t' hne
  have hworkers := hstart.idle hidle
  rw [hstarted] at hworkers
  exact StartInv.alone rfl hstart.pool hothers (fun _ _ _ => ⟨hworkers, hstarted⟩) nofun nofun

theorem Inv.create {form : Form} (h : Inv s) (hphase : (s.locals t).phase = .creating form w) :
    Inv ({ s with workers := s.workers + 1 }.goto t (.marking form w)) := by
  rcases h with ⟨hstart, items, hqueue⟩
  refine ⟨?_, items, hqueue.goto rfl rfl rfl rfl hphase rfl ⟨rfl, rfl⟩ rfl⟩
  exact StartInv.alone rfl hstart.pool (fun t' => hstart.others (by rw [hphase]; rfl)) nofun
    (fun _ _ _ => congrArg (· + 1) (hstart.creating t form w hphase).1) nofun

theorem Inv.mark {form : Form} (h : Inv s) (hphase : (s.locals t).phase = .marking form w) :
    Inv ({ s with workerStarted := true }.goto t (.allocating form w)) := by
  rcases h with ⟨hstart, items, hqueue⟩
  refine ⟨?_, items, hqueue.goto rfl rfl rfl rfl hphase rfl ⟨rfl, rfl⟩ rfl⟩
  exact StartInv.alone rfl hstart.pool (fun t' => hstart.others (by rw [hphase]; rfl)) nofun nofun
    fun _ => hstart.marking t form w hphase

theorem Inv.advance {ok : Bool} {created : Nat} (h : Inv s) (horderly : Orderly s (t, .advance ok created))
    (hstep : SerialQueue.advance s t ok created = some s') : Inv s' := by
  rcases h with ⟨hstart, items, hqueue⟩
  have hpooled : (s.locals t).phase.pooled = false := (hqueue.locals t).unpooled
  have hok := horderly.succeeds
  rw [SerialQueue.advance] at hstep
  rw [SerialQueue.succeeds] at hok
  cases hphase : (s.locals t).phase
  all_goals simp only [hphase] at hstep hok
  case guest => cases hstep
  case copying w | allocating form w =>
    rw [if_pos hok] at hstep
    cases hstep
    exact Inv.goto ⟨hstart, items, hqueue⟩ hphase rfl ⟨rfl, rfl⟩ rfl ⟨rfl, rfl⟩
  case checking form w =>
    split at hstep <;> cases hstep
    · exact Inv.goto ⟨hstart, items, hqueue⟩ hphase rfl ⟨rfl, rfl⟩ rfl ⟨rfl, rfl⟩
    · next hstarted =>
      refine Inv.check ⟨hstart, items, hqueue⟩ hphase (horderly.apart ?_) (by simpa using hstarted)
      simp [checks, hphase]
  case creating form w =>
    rw [if_pos hok] at hstep
    cases hstep
    exact Inv.create ⟨hstart, items, hqueue⟩ hphase
  case marking form w =>
    cases hstep
    exact Inv.mark ⟨hstart, items, hqueue⟩ hphase
  case linking w =>
    cases hstep
    exact ⟨hstart.quiet rfl rfl rfl rfl (by rw [hphase]; rfl) rfl, items ++ [w], hqueue.link hphase⟩
  case taken w =>
    obtain rfl : t = .worker 0 := by
      by_contra hne
      simpa [hphase, Phase.taking] using ((hqueue.locals t).other hne).1
    cases hstep
    exact ⟨hstart.quiet rfl rfl rfl rfl (by rw [hphase]; rfl) rfl, items, hqueue.start hphase⟩
  all_goals simp [hphase, Phase.pooled] at hpooled

theorem Inv.take (h : Inv s) (hstep : SerialQueue.take s t = some s') : Inv s' := by
  rcases h with ⟨hstart, items, hqueue⟩
  cases t with
  | guest n => cases hstep
  | worker n =>
    obtain ⟨hn, hstep⟩ := ite_none_right_eq_some.mp hstep
    obtain rfl : n = 0 := by
      have := hstart.workers_le
      omega
    rcases items with _ | ⟨w, items⟩
    · rw [hqueue.represents.pop_nil] at hstep
      cases hstep
    · rcases hqueue.represents.pop_cons with ⟨q, hpop, hq⟩
      rw [hpop] at hstep
      cases hstep
      refine ⟨?_, items, hqueue.take hq hn.2⟩
      change StartInv ({ s with links := q }.goto (.worker 0) (.taken w))
      simp only [State.atLoop, and_eq_true, decide_eq_true_eq] at hn
      exact hstart.quiet rfl rfl rfl rfl (by rw [hn.2.1]; rfl) rfl
  | pool n =>
    obtain ⟨hn, -⟩ := ite_none_right_eq_some.mp hstep
    exact absurd hn.1 (hstart.pool ▸ Nat.not_lt_zero n)

theorem Inv.step {a : Thread × Move} (h : Inv s) (horderly : Orderly s a)
    (hstep : SerialQueue.step s a = some s') : Inv s' := by
  rcases a with ⟨t, move⟩
  cases move with
  | async form =>
    cases form <;>
    · obtain ⟨hguest, heq⟩ := ite_none_right_eq_some.mp hstep
      cases heq
      exact h.quiet (.submitted t s.submissions) hguest rfl rfl rfl rfl rfl rfl rfl rfl
        (fun w hw => (some.inj hw).symm) rfl rfl rfl rfl
  | sync =>
    obtain ⟨hguest, heq⟩ := ite_none_right_eq_some.mp hstep
    cases heq
    exact h.quiet (.started t .sync s.submissions) hguest rfl rfl rfl rfl rfl rfl rfl rfl nofun rfl
      rfl rfl rfl
  | advance ok created => exact h.advance horderly hstep
  | take => exact h.take hstep
  | finish =>
    rw [SerialQueue.step] at hstep
    split at hstep
    · next kind w frames hlocal =>
      cases hstep
      rcases h with ⟨hstart, items, hqueue⟩
      exact ⟨hstart.quiet rfl rfl rfl rfl (by rw [hlocal]; rfl) rfl, items, hqueue.finish hlocal⟩
    · cases hstep

theorem Inv.serial (h : Inv s) : Serial s := by
  rcases h with ⟨hstart, items, hqueue⟩
  exact ⟨hstart.workers_le, hqueue.inOrder⟩

theorem inv_initial : Inv initial := by
  refine ⟨⟨rfl, nofun, nofun, nofun, fun _ => rfl⟩, [], represents_empty, rfl, rfl, ?_, ?_, nofun,
    nofun, nofun⟩
  · exact always_nil ⟨Nat.zero_le 1, prefix_refl _⟩
  · exact fun t => ⟨rfl, fun _ => ⟨rfl, rfl⟩, fun _ => rfl, Nat.zero_le 1⟩

end

theorem serial_of_orderly {schedule : List (Thread × Move)} {s : State}
    (horderly : Along step Orderly initial schedule) (hrun : run step initial schedule = some s) :
    Serial s :=
  (invariant_along (fun _ _ _ h horderly hstep => h.step horderly hstep) inv_initial horderly
    hrun).serial

/-- What was enqueued was started, is taken by the worker or is in the queue, in order. -/
def Accounted (s : State) : Prop :=
  ∃ items, Represents s.links items ∧
    enqueuedItems s.log = startedItems s.log ++ ((s.locals (.worker 0)).phase.taking ++ items)

theorem accounted_of_orderly {schedule : List (Thread × Move)} {s : State}
    (horderly : Along step Orderly initial schedule) (hrun : run step initial schedule = some s) :
    Accounted s := by
  obtain ⟨-, items, hqueue⟩ :=
    invariant_along (fun _ _ _ h horderly hstep => h.step horderly hstep) inv_initial horderly hrun
  exact ⟨items, hqueue.represents, hqueue.order⟩

def observed (schedule : List (Thread × Move)) : Option (Nat × List Event) :=
  (run step initial schedule).map fun s => (s.workers, s.log)

def submission (t : Thread) : List (Thread × Move) :=
  [(t, .async .block), (t, .advance true 0), (t, .advance true 0)]

def startAndLink (t : Thread) : List (Thread × Move) :=
  [(t, .advance true 0), (t, .advance true 0), (t, .advance true 0), (t, .advance true 0)]

/-- Two threads find that the queue has no worker yet. -/
def firstUses : List (Thread × Move) :=
  submission (.guest 1) ++ submission (.guest 2) ++ startAndLink (.guest 1) ++
    startAndLink (.guest 2) ++
      [(.worker 0, .take), (.worker 1, .take), (.worker 1, .advance true 0),
        (.worker 0, .advance true 0)]

theorem firstUses_not_serial :
    ∃ s, run step initial firstUses = some s ∧ s.workers = 2 ∧
      enqueuedItems s.log = [0, 1] ∧ startedItems s.log = [1, 0] ∧ ¬ Serial s := by
  have hobserved : observed firstUses =
      some (2, [.submitted (.guest 1) 0, .submitted (.guest 2) 1, .enqueued 0, .enqueued 1,
        .started (.worker 1) .item 1, .started (.worker 0) .item 0]) := by decide +kernel
  rcases map_eq_some_iff.mp hobserved with ⟨s, hrun, heq⟩
  rcases mk.inj heq with ⟨hworkers, hlog⟩
  refine ⟨s, hrun, hworkers, hlog ▸ rfl, hlog ▸ rfl, fun h => ?_⟩
  have := h.worker
  omega

section

variable {s s' : State} {t t' : Thread}

theorem goto_others (hne : t' ≠ t) (phase : Phase) : (s.goto t phase).locals t' = s.locals t' :=
  update_of_ne hne _ _

theorem begin_others (hne : t' ≠ t) (kind : Kind) (w : Nat) :
    (s.begin t kind w).locals t' = s.locals t' :=
  update_of_ne hne _ _

theorem advance_others {ok : Bool} {created : Nat} (hstep : advance s t ok created = some s')
    (hne : t' ≠ t) : s'.locals t' = s.locals t' := by
  rw [advance] at hstep
  split at hstep <;> (try split at hstep) <;> (try split at hstep) <;> cases hstep <;>
    first
      | exact goto_others hne _
      | exact begin_others hne _ _

theorem take_others (hstep : take s t = some s') (hne : t' ≠ t) : s'.locals t' = s.locals t' := by
  cases t with
  | guest n => cases hstep
  | worker n | pool n =>
    obtain ⟨-, hpop⟩ := ite_none_right_eq_some.mp hstep
    rcases map_eq_some_iff.mp hpop with ⟨⟨w, q⟩, -, rfl⟩
    exact goto_others hne _

theorem step_others {a : Thread × Move} (hstep : step s a = some s') (hne : t ≠ a.1) :
    s'.locals t = s.locals t := by
  rcases a with ⟨u, move⟩
  cases move with
  | async form =>
    cases form <;>
    · obtain ⟨-, heq⟩ := ite_none_right_eq_some.mp hstep
      cases heq
      exact goto_others hne _
  | sync =>
    obtain ⟨-, heq⟩ := ite_none_right_eq_some.mp hstep
    cases heq
    exact begin_others hne _ _
  | advance ok created => exact advance_others hstep hne
  | take => exact take_others hstep hne
  | finish =>
    rw [step] at hstep
    split at hstep <;> cases hstep
    exact update_of_ne hne _ _

end

def OrderlyAmong (threads : List Thread) (s : State) (a : Thread × Move) : Prop :=
  a.1 ∈ threads ∧ succeeds s a ∧
    (checks s a → ∀ t ∈ threads, t ≠ a.1 → (s.locals t).phase.starting = false)

instance (threads : List Thread) (s : State) (a : Thread × Move) :
    Decidable (OrderlyAmong threads s a) :=
  inferInstanceAs (Decidable (_ ∧ _ ∧ (_ → _)))

theorem orderly_of_among {threads : List Thread} {schedule : List (Thread × Move)}
    (h : Along step (OrderlyAmong threads) initial schedule) : Along step Orderly initial schedule := by
  refine Along.of_among State.locals fst (fun _ _ _ _ => step_others) (fun _ _ h => h.1) ?_
    (fun _ _ => rfl) h
  intro s a hrest hamong
  refine ⟨hamong.2.1, fun hchecks t hne => ?_⟩
  rcases Decidable.em (t ∈ threads) with ht | ht
  · exact hamong.2.2 hchecks t ht hne
  · rw [hrest t ht]
    rfl

/-- The second thread comes when the worker is there. -/
def laterUse : List (Thread × Move) :=
  submission (.guest 1) ++ startAndLink (.guest 1) ++ submission (.guest 2) ++
    [(.guest 2, .advance true 0), (.worker 0, .take), (.guest 2, .advance true 0),
      (.worker 0, .advance true 0), (.worker 0, .finish), (.worker 0, .take),
      (.worker 0, .advance true 0)]

theorem laterUse_serial :
    Along step Orderly initial laterUse ∧
      ∃ s, run step initial laterUse = some s ∧ startedItems s.log = [0, 1] ∧ Serial s := by
  have horderly : Along step Orderly initial laterUse :=
    @orderly_of_among [.guest 1, .guest 2, .worker 0] _ (by decide +kernel)
  have hobserved : observed laterUse =
      some (1, [.submitted (.guest 1) 0, .enqueued 0, .submitted (.guest 2) 1, .enqueued 1,
        .started (.worker 0) .item 0, .ended (.worker 0) .item 0, .started (.worker 0) .item 1]) := by
    decide +kernel
  rcases map_eq_some_iff.mp hobserved with ⟨s, hrun, heq⟩
  exact ⟨horderly, s, hrun, (mk.inj heq).2 ▸ rfl, serial_of_orderly horderly hrun⟩

theorem laterUse_accounted : ∃ s, run step initial laterUse = some s ∧ Accounted s := by
  have hsome : (run step initial laterUse).isSome := by decide +kernel
  rcases isSome_iff_exists.mp hsome with ⟨s, hrun⟩
  exact ⟨s, hrun, accounted_of_orderly
    (@orderly_of_among [.guest 1, .guest 2, .worker 0] _ (by decide +kernel)) hrun⟩

end Machgate.SerialQueue
