import Mathlib.Data.List.Infix

namespace Machgate.Interleaving

open List Option

section

variable {S A : Type} (step : S → A → Option S)

/-- Atomic steps one after the other; `none` if one of them is not possible at its turn. -/
def run : S → List A → Option S
  | s, [] => some s
  | s, a :: rest => (step s a).bind fun next => run next rest

/-- Each step of a run is taken in a state that meets the condition for it. -/
def Along (condition : S → A → Prop) : S → List A → Prop
  | _, [] => True
  | s, a :: rest => condition s a ∧ ∀ next, step s a = some next → Along condition next rest

instance decidableAlong {condition : S → A → Prop} [∀ s a, Decidable (condition s a)] :
    ∀ s schedule, Decidable (Along step condition s schedule)
  | _, [] => isTrue trivial
  | s, a :: rest =>
    match h : step s a with
    | none => decidable_of_iff (condition s a) (by simp [Along, h])
    | some next =>
      haveI : Decidable (Along step condition next rest) := decidableAlong next rest
      decidable_of_iff (condition s a ∧ Along step condition next rest) (by simp [Along, h])

variable {step} {condition condition' : S → A → Prop} {Inv : S → Prop} {s s' : S} {schedule : List A}

theorem Along.cons {a : A} {next : S} (hstep : step s a = some next) (ha : condition s a)
    (h : Along step condition next schedule) : Along step condition s (a :: schedule) := by
  refine ⟨ha, fun next' hnext => ?_⟩
  rwa [← some.inj (hstep.symm.trans hnext)]

theorem invariant_along
    (hstep : ∀ s a s', Inv s → condition s a → step s a = some s' → Inv s')
    (hs : Inv s) (halong : Along step condition s schedule)
    (hrun : run step s schedule = some s') : Inv s' := by
  induction schedule generalizing s with
  | nil => simpa [run] using some.inj hrun ▸ hs
  | cons a rest ih =>
    rcases bind_eq_some_iff.mp hrun with ⟨next, hnext, hrest⟩
    exact ih (hstep s a next hs halong.1 hnext) (halong.2 next hnext) hrest

/-- No step of a run that meets the condition gets stuck. -/
theorem exists_run_along
    (hstep : ∀ s a, Inv s → condition s a → ∃ s', step s a = some s' ∧ Inv s')
    (hs : Inv s) (halong : Along step condition s schedule) :
    ∃ s', run step s schedule = some s' ∧ Inv s' := by
  induction schedule generalizing s with
  | nil => exact ⟨s, rfl, hs⟩
  | cons a rest ih =>
    rcases hstep s a hs halong.1 with ⟨next, hnext, hinv⟩
    rcases ih hinv (halong.2 next hnext) with ⟨s', hrun, hs'⟩
    exact ⟨s', by rw [run, hnext, bind_some, hrun], hs'⟩

/-- A condition may be replaced by one that follows from it in the states of the run. -/
theorem Along.imp (hstep : ∀ s a s', Inv s → condition s a → step s a = some s' → Inv s')
    (himp : ∀ s a, Inv s → condition s a → condition' s a) (hs : Inv s)
    (h : Along step condition s schedule) : Along step condition' s schedule := by
  induction schedule generalizing s with
  | nil => trivial
  | cons a rest ih =>
    exact ⟨himp s a hs h.1, fun next hnext => ih (hstep s a next hs h.1 hnext) (h.2 next hnext)⟩

theorem along_of_forall {p : A → Prop} (s : S) (h : ∀ a ∈ schedule, p a) :
    Along step (fun _ a => p a) s schedule := by
  induction schedule generalizing s with
  | nil => trivial
  | cons a rest ih =>
    exact ⟨h a mem_cons_self, fun next _ => ih next fun b hb => h b (mem_cons_of_mem a hb)⟩

theorem invariant_run (hstep : ∀ s a s', Inv s → step s a = some s' → Inv s')
    (hs : Inv s) (hrun : run step s schedule = some s') : Inv s' :=
  invariant_along (fun s a s' h _ => hstep s a s' h) hs (along_of_forall s fun _ _ => trivial) hrun

/-- A condition on all threads may be looked at for those that take part. -/
theorem Along.of_among {T L : Type} (locals : S → T → L) (actor : A → T) {threads : List T} {rest : L}
    (hothers : ∀ s a s' t, step s a = some s' → t ≠ actor a → locals s' t = locals s t)
    (hactor : ∀ s a, condition s a → actor a ∈ threads)
    (himp : ∀ s a, (∀ t, t ∉ threads → locals s t = rest) → condition s a → condition' s a)
    (hs : ∀ t, t ∉ threads → locals s t = rest) (h : Along step condition s schedule) :
    Along step condition' s schedule := by
  refine Along.imp ?_ himp hs h
  intro s a s' hrest hcondition hstep t ht
  rw [hothers s a s' t hstep fun heq => ht (heq ▸ hactor s a hcondition)]
  exact hrest t ht

/-- A property that each step keeps just when it meets the condition. -/
theorem iff_along {P : S → Prop}
    (hstep : ∀ s a s', Inv s → step s a = some s' → Inv s' ∧ (P s' ↔ P s ∧ condition s a))
    (hs : Inv s) (hrun : run step s schedule = some s') :
    P s' ↔ P s ∧ Along step condition s schedule := by
  induction schedule generalizing s with
  | nil =>
    cases hrun
    simp [Along]
  | cons a rest ih =>
    rcases bind_eq_some_iff.mp hrun with ⟨next, hnext, hrest⟩
    rcases hstep s a next hs hnext with ⟨hinv, hkeeps⟩
    rw [ih hinv hrest, hkeeps, Along, and_assoc]
    simp [hnext]

end

variable {E : Type}

/-- Each event of a log is allowed after the events in front of it. -/
def Lawful (allowed : List E → E → Prop) (log : List E) : Prop :=
  ∀ before event, before ++ [event] <+: log → allowed before event

variable {allowed : List E → E → Prop} {log : List E}

theorem lawful_nil : Lawful allowed [] := by
  intro before event h
  simpa using h.length_le

theorem lawful_concat {event : E} (h : Lawful allowed log) (hevent : allowed log event) :
    Lawful allowed (log ++ [event]) := by
  intro before event' hbefore
  rcases prefix_concat_iff.mp hbefore with heq | hbefore
  · rcases append_inj' heq rfl with ⟨rfl, hsingle⟩
    simpa [cons.inj hsingle] using hevent
  · exact h before event' hbefore

theorem lawful_concat_iff {event : E} :
    Lawful allowed (log ++ [event]) ↔ Lawful allowed log ∧ allowed log event := by
  constructor
  · intro h
    exact ⟨fun before event' hbefore => h before event' (hbefore.trans (prefix_append log _)),
      h log event (prefix_refl _)⟩
  · exact fun h => lawful_concat h.1 h.2

/-- The property holds at each moment of a log. -/
def Always (P : List E → Prop) (log : List E) : Prop := ∀ before, before <+: log → P before

theorem always_nil {P : List E → Prop} (h : P []) : Always P [] := by
  intro before hbefore
  simpa [prefix_nil.mp hbefore] using h

theorem always_concat_iff {P : List E → Prop} {event : E} :
    Always P (log ++ [event]) ↔ Always P log ∧ P (log ++ [event]) := by
  constructor
  · intro h
    exact ⟨fun before hbefore => h before (hbefore.trans (prefix_append log _)),
      h _ (prefix_refl _)⟩
  · rintro ⟨hlog, hlast⟩ before hbefore
    rcases prefix_concat_iff.mp hbefore with heq | hbefore
    · simpa [heq] using hlast
    · exact hlog before hbefore

end Machgate.Interleaving
