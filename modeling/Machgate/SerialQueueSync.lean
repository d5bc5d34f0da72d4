import Machgate.SerialQueueOrder

namespace Machgate.SerialQueue

open Interleaving LinkedQueue List Option Function Prod

def submittedBy (log : List Event) (t : Thread) : List Nat :=
  log.filterMap fun
    | .submitted t' w => if t' = t then some w else none
    | _ => none

def endedWork (log : List Event) : List Nat :=
  log.filterMap fun
    | .ended _ _ w => some w
    | _ => none

/-- No block of `dispatch_sync` is being run together with one of the queue's worker. -/
def Apart (log : List Event) : Prop :=
  ∀ t t', ∀ f ∈ stack log t, ∀ f' ∈ stack log t', f.1 = .sync → f'.1 ≠ .item

/-- A block of `dispatch_sync` starts when all that its thread has submitted is done. -/
def AfterOwn (log : List Event) : Event → Prop
  | .started t .sync _ => ∀ w ∈ submittedBy log t, w ∈ endedWork log
  | _ => True

structure Ordered (log : List Event) : Prop where
  apart : Always Apart log
  after : Lawful AfterOwn log

def State.without (s : State) (kind : Kind) : Prop := ∀ t, ∀ f ∈ (s.locals t).frames, f.1 ≠ kind

def startsItem (s : State) : Thread × Move → Bool
  | (t, .advance _ _) =>
    match (s.locals t).phase with
    | .taken _ => true
    | _ => false
  | _ => false

/-- `dispatch_sync` is called when no worker runs a block and the caller's blocks are done, and no
worker starts a block while one of `dispatch_sync` is being run. -/
@[mk_iff]
structure Undisturbed (s : State) (a : Thread × Move) : Prop where
  sync : a.2 = .sync → s.without .item ∧ ∀ w ∈ submittedBy s.log a.1, w ∈ endedWork s.log
  item : startsItem s a → s.without .sync

section

variable {log : List Event} {event : Event}

def restack (t : Thread) (frames : List (Kind × Nat)) : Event → List (Kind × Nat)
  | .started t' kind w => if t' = t then (kind, w) :: frames else frames
  | .ended t' _ _ => if t' = t then frames.tail else frames
  | _ => frames

theorem stack_concat (log : List Event) (event : Event) (t : Thread) :
    stack (log ++ [event]) t = restack t (stack log t) event := by
  rw [stack, foldl_append]
  cases event <;> rfl

/-- What the log says about an event that may follow it without a conflict. -/
def Harmless (log : List Event) : Event → Prop
  | .started t .sync _ =>
    (∀ t', ∀ f ∈ stack log t', f.1 ≠ .item) ∧ ∀ w ∈ submittedBy log t, w ∈ endedWork log
  | .started _ .item _ => ∀ t', ∀ f ∈ stack log t', f.1 ≠ .sync
  | _ => True

/-- No work of the kind comes with an event that does not start such work. -/
theorem mem_restack {kind : Kind} {t : Thread} {frames : List (Kind × Nat)} {f : Kind × Nat}
    (hevent : ∀ t w, event ≠ .started t kind w) (hf : f ∈ restack t frames event)
    (hkind : f.1 = kind) : f ∈ frames := by
  cases event with
  | submitted | enqueued => exact hf
  | started t' kind' w =>
    simp only [restack] at hf
    split at hf
    · rcases mem_cons.mp hf with rfl | hf
      · exact absurd (by rw [← hkind]) (hevent t' w)
      · exact hf
    · exact hf
  | ended t' kind' w =>
    simp only [restack] at hf
    split at hf
    · exact mem_of_mem_tail hf
    · exact hf

theorem Apart.concat (h : Apart log) (hsync : ∀ t w, event ≠ .started t .sync w)
    (hitem : ∀ t w, event ≠ .started t .item w) : Apart (log ++ [event]) := by
  intro t t' f hf f' hf' hkind hkind'
  rw [stack_concat] at hf hf'
  exact h t t' f (mem_restack hsync hf hkind) f' (mem_restack hitem hf' hkind') hkind hkind'

theorem apart_sync (t : Thread) (w : Nat) :
    Apart (log ++ [.started t .sync w]) ↔ ∀ t', ∀ f ∈ stack log t', f.1 ≠ .item := by
  constructor
  · intro h t' f hf
    apply h t t' (.sync, w) _ f _ rfl
    · simp [stack_concat, restack]
    · rw [stack_concat, restack]
      split
      · exact mem_cons_of_mem _ hf
      · exact hf
  · intro h t₁ t₂ f hf f' hf' _ hitem
    rw [stack_concat] at hf'
    exact h t₂ f' (mem_restack (by simp) hf' hitem) hitem

theorem apart_item (t : Thread) (w : Nat) :
    Apart (log ++ [.started t .item w]) ↔ ∀ t', ∀ f ∈ stack log t', f.1 ≠ .sync := by
  constructor
  · intro h t' f hf hsync
    refine h t' t f ?_ (.item, w) ?_ hsync rfl
    · rw [stack_concat, restack]
      split
      · exact mem_cons_of_mem _ hf
      · exact hf
    · simp [stack_concat, restack]
  · intro h t₁ t₂ f hf f' hf' hsync
    rw [stack_concat] at hf
    exact absurd hsync (h t₁ f (mem_restack (by simp) hf hsync))

theorem harmless_iff (h : Apart log) :
    Apart (log ++ [event]) ∧ AfterOwn log event ↔ Harmless log event := by
  cases event with
  | submitted t w | enqueued w | ended t kind w =>
    exact ⟨fun _ => trivial, fun _ => ⟨h.concat (by simp) (by simp), trivial⟩⟩
  | started t kind w =>
    cases kind with
    | sync => rw [apart_sync, AfterOwn, Harmless]
    | item =>
      exact ⟨fun hboth => (apart_item t w).mp hboth.1,
        fun hharmless => ⟨(apart_item t w).mpr hharmless, trivial⟩⟩
    | pooled | inline => exact ⟨fun _ => trivial, fun _ => ⟨h.concat (by simp) (by simp), trivial⟩⟩

theorem ordered_concat_iff : Ordered (log ++ [event]) ↔ Ordered log ∧ Harmless log event := by
  constructor
  · rintro ⟨hapart, hafter⟩
    rw [always_concat_iff] at hapart
    rw [lawful_concat_iff] at hafter
    refine ⟨⟨hapart.1, hafter.1⟩, ?_⟩
    exact (harmless_iff (hapart.1 log (prefix_refl _))).mp ⟨hapart.2, hafter.2⟩
  · rintro ⟨⟨hapart, hafter⟩, hharmless⟩
    have := (harmless_iff (hapart log (prefix_refl _))).mpr hharmless
    exact ⟨always_concat_iff.mpr ⟨hapart, this.1⟩, lawful_concat_iff.mpr ⟨hafter, this.2⟩⟩

end

section

variable {s s' : State} {t : Thread} {a : Thread × Move}

def Stacked (s : State) : Prop := ∀ t, (s.locals t).frames = stack s.log t

inductive Effect (s : State) (a : Thread × Move) (s' : State) : Prop
  | unlogged (hlog : s'.log = s.log) (hframes : ∀ t, (s'.locals t).frames = (s.locals t).frames)
      (hundisturbed : Undisturbed s a)
  | logged (event : Event) (hlog : s'.log = s.log ++ [event])
      (hframes : ∀ t, (s'.locals t).frames = restack t (s.locals t).frames event)
      (hundisturbed : Stacked s → (Undisturbed s a ↔ Harmless s.log event))

theorem frames_goto (s : State) (t : Thread) (phase : Phase) (t' : Thread) :
    ((s.goto t phase).locals t').frames = (s.locals t').frames := by
  simp only [State.goto, State.put, update_apply]
  split
  · next heq => rw [heq]
  · rfl

theorem frames_begin (s : State) (t : Thread) (kind : Kind) (w : Nat) (t' : Thread) :
    ((s.begin t kind w).locals t').frames = restack t' (s.locals t').frames (.started t kind w) := by
  simp only [State.begin, State.record, State.put, update_apply, restack]
  split
  · next heq => simp [heq]
  · next hne => simp [Ne.symm hne]

theorem effect_inline (hundisturbed : Undisturbed s a) (w : Nat) :
    Effect s a (s.begin t .inline w) :=
  .logged (.started t .inline w) rfl (frames_begin s t .inline w)
    fun _ => ⟨fun _ => trivial, fun _ => hundisturbed⟩

theorem undisturbed_advance {ok : Bool} {created : Nat}
    (h : ∀ w, (s.locals t).phase ≠ .taken w) : Undisturbed s (t, .advance ok created) := by
  refine ⟨by simp, fun hstarts => ?_⟩
  rw [startsItem] at hstarts
  split at hstarts
  · next w hphase => exact absurd hphase (h w)
  · cases hstarts

theorem undisturbed_other (hsync : a.2 ≠ .sync) (hadvance : ∀ ok created, a.2 ≠ .advance ok created) :
    Undisturbed s a := by
  rcases a with ⟨t, move⟩
  cases move with
  | sync => exact absurd rfl hsync
  | advance ok created => exact absurd rfl (hadvance ok created)
  | async | take | finish => exact ⟨by simp, by simp [startsItem]⟩

theorem effect_advance {ok : Bool} {created : Nat}
    (hstep : SerialQueue.advance s t ok created = some s') :
    Effect s (t, .advance ok created) s' := by
  rw [SerialQueue.advance] at hstep
  have hundisturbed := @undisturbed_advance s t ok created
  cases hphase : (s.locals t).phase with
  | guest =>
    rw [hphase] at hstep
    cases hstep
  | copying w | allocating form w | allocatingPool w | testingPool w =>
    simp only [hphase] at hstep
    cases hstep
    have := hundisturbed (by simp [hphase])
    split
    · exact .unlogged rfl (frames_goto s t _) this
    · exact effect_inline this w
  | checking form w | checkingPool w =>
    simp only [hphase] at hstep
    cases hstep
    have := hundisturbed (by simp [hphase])
    split <;> exact .unlogged rfl (frames_goto s t _) this
  | creating form w =>
    simp only [hphase] at hstep
    have := hundisturbed (by simp [hphase])
    split at hstep
    · cases hstep
      exact .unlogged rfl (frames_goto _ t _) this
    · cases form with
      | block =>
        cases hstep
        exact .unlogged rfl (frames_goto s t _) this
      | function =>
        cases hstep
        exact effect_inline this w
  | marking form w | linkingPool w =>
    simp only [hphase] at hstep
    cases hstep
    exact .unlogged rfl (frames_goto _ t _) (hundisturbed (by simp [hphase]))
  | linking w =>
    simp only [hphase] at hstep
    cases hstep
    have := hundisturbed (by simp [hphase])
    exact .logged (.enqueued w) rfl (frames_goto _ t _) fun _ => ⟨fun _ => trivial, fun _ => this⟩
  | startingPool w =>
    simp only [hphase] at hstep
    have := hundisturbed (by simp [hphase])
    split at hstep
    · cases hstep
      exact .unlogged rfl (frames_goto s t _) this
    · split at hstep
      · cases hstep
        exact .unlogged rfl (frames_goto _ t _) this
      · cases hstep
  | taken w =>
    simp only [hphase] at hstep
    cases hstep
    refine .logged (.started t .item w) rfl (frames_begin s t .item w) fun hstacked => ?_
    simp [undisturbed_iff, startsItem, hphase, Harmless, State.without, hstacked _]
  | takenPooled w =>
    simp only [hphase] at hstep
    cases hstep
    have := hundisturbed (by simp [hphase])
    exact .logged (.started t .pooled w) rfl (frames_begin s t .pooled w)
      fun _ => ⟨fun _ => trivial, fun _ => this⟩

theorem effect_take (hstep : SerialQueue.take s t = some s') : Effect s (t, .take) s' := by
  cases t with
  | guest n => cases hstep
  | worker n | pool n =>
    rw [SerialQueue.take] at hstep
    split at hstep
    · rcases map_eq_some_iff.mp hstep with ⟨⟨w, q⟩, -, rfl⟩
      exact .unlogged rfl (frames_goto _ _ _) (undisturbed_other (by simp) (by simp))
    · cases hstep

theorem effect_step (hstep : step s a = some s') : Effect s a s' := by
  rcases a with ⟨t, move⟩
  cases move with
  | async form =>
    cases form with
    | block | function =>
      rw [step] at hstep
      split at hstep
      · cases hstep
        exact .logged (.submitted t s.submissions) rfl (frames_goto _ t _)
          fun _ => ⟨fun _ => trivial, fun _ => undisturbed_other (by simp) (by simp)⟩
      · cases hstep
  | sync =>
    rw [step] at hstep
    split at hstep
    · cases hstep
      refine .logged (.started t .sync s.submissions) rfl (frames_begin _ t .sync _)
        fun hstacked => ?_
      simp [undisturbed_iff, startsItem, Harmless, State.without, hstacked _]
    · cases hstep
  | advance ok created => exact effect_advance hstep
  | take => exact effect_take hstep
  | finish =>
    rw [step] at hstep
    split at hstep
    · next kind w frames hlocal =>
      cases hstep
      refine .logged (.ended t kind w) rfl ?_
        fun _ => ⟨fun _ => trivial, fun _ => undisturbed_other (by simp) (by simp)⟩
      intro t'
      simp only [State.record, State.put, update_apply, restack]
      split
      · next heq => simp [heq, hlocal]
      · next hne => simp [Ne.symm hne]
    · cases hstep

theorem Stacked.step (h : Stacked s) (hstep : step s a = some s') :
    Stacked s' ∧ (Ordered s'.log ↔ Ordered s.log ∧ Undisturbed s a) := by
  cases effect_step hstep with
  | unlogged hlog hframes hundisturbed =>
    rw [hlog]
    refine ⟨fun t => ?_, by simp [hundisturbed]⟩
    rw [hframes, h, hlog]
  | logged event hlog hframes hundisturbed =>
    rw [hlog, ordered_concat_iff, hundisturbed h]
    refine ⟨fun t => ?_, Iff.rfl⟩
    rw [hframes, h, hlog, stack_concat]

end

theorem ordered_nil : Ordered [] where
  apart := always_nil fun _ _ _ hf => nomatch hf
  after := lawful_nil

theorem sync_ordered_iff {schedule : List (Thread × Move)} {s : State}
    (hrun : run step initial schedule = some s) :
    Ordered s.log ↔ Along step Undisturbed initial schedule := by
  have hstacked : Stacked initial := fun _ => rfl
  rw [iff_along (P := fun s => Ordered s.log) (fun _ _ _ h hstep => h.step hstep) hstacked hrun]
  simp [initial, ordered_nil]

/-- A thread submits a block and calls `dispatch_sync` while the worker runs it. -/
def syncDuring : List (Thread × Move) :=
  submission (.guest 1) ++ startAndLink (.guest 1) ++
    [(.worker 0, .take), (.worker 0, .advance true 0), (.guest 1, .sync)]

theorem syncDuring_not_ordered : ∃ s, run step initial syncDuring = some s ∧ ¬ Ordered s.log := by
  have hobserved : observed syncDuring =
      some (1, [.submitted (.guest 1) 0, .enqueued 0, .started (.worker 0) .item 0,
        .started (.guest 1) .sync 1]) := by decide +kernel
  rcases map_eq_some_iff.mp hobserved with ⟨s, hrun, heq⟩
  refine ⟨s, hrun, fun h => ?_⟩
  rw [(mk.inj heq).2] at h
  have hapart := h.apart _ (prefix_refl _) (.guest 1) (.worker 0) (.sync, 1) (by decide)
    (.item, 0) (by decide) rfl
  exact hapart rfl

def UndisturbedAmong (threads : List Thread) (s : State) (a : Thread × Move) : Prop :=
  a.1 ∈ threads ∧
    (a.2 = .sync → (∀ t ∈ threads, ∀ f ∈ (s.locals t).frames, f.1 ≠ .item) ∧
      ∀ w ∈ submittedBy s.log a.1, w ∈ endedWork s.log) ∧
    (startsItem s a → ∀ t ∈ threads, ∀ f ∈ (s.locals t).frames, f.1 ≠ .sync)

instance (threads : List Thread) (s : State) (a : Thread × Move) :
    Decidable (UndisturbedAmong threads s a) :=
  inferInstanceAs (Decidable (_ ∧ (_ → _ ∧ _) ∧ (_ → _)))

theorem undisturbed_of_among {threads : List Thread} {schedule : List (Thread × Move)}
    (h : Along step (UndisturbedAmong threads) initial schedule) :
    Along step Undisturbed initial schedule := by
  refine Along.of_among State.locals fst (fun _ _ _ _ => step_others) (fun _ _ h => h.1) ?_
    (fun _ _ => rfl) h
  intro s a hrest hamong
  have hwithout : ∀ kind, (∀ t ∈ threads, ∀ f ∈ (s.locals t).frames, f.1 ≠ kind) →
      s.without kind := by
    intro kind hkind t
    rcases Decidable.em (t ∈ threads) with ht | ht
    · exact hkind t ht
    · simp [hrest t ht]
  exact ⟨fun hsync => ⟨hwithout _ (hamong.2.1 hsync).1, (hamong.2.1 hsync).2⟩,
    fun hstarts => hwithout _ (hamong.2.2 hstarts)⟩

/-- The same calls, with the worker done in between. -/
def syncAfter : List (Thread × Move) :=
  submission (.guest 1) ++ startAndLink (.guest 1) ++
    [(.worker 0, .take), (.worker 0, .advance true 0), (.worker 0, .finish), (.guest 1, .sync),
      (.guest 1, .finish)]

theorem syncAfter_ordered : ∃ s, run step initial syncAfter = some s ∧ Ordered s.log := by
  have hundisturbed : Along step Undisturbed initial syncAfter :=
    @undisturbed_of_among [.guest 1, .worker 0] _ (by decide +kernel)
  have hruns : (observed syncAfter).isSome := by decide +kernel
  rw [observed, isSome_map] at hruns
  rcases isSome_iff_exists.mp hruns with ⟨s, hrun⟩
  exact ⟨s, hrun, (sync_ordered_iff hrun).mpr hundisturbed⟩

end Machgate.SerialQueue
