import Machgate.Interleaving

namespace Machgate.DispatchOnce

open Interleaving Function Option List

structure Block where
  address : Nat
  invoke : Option Nat
  deriving DecidableEq

structure Work where
  function : Nat
  argument : Nat
  deriving DecidableEq

inductive Call
  | once (block : Option Block)
  | onceF (context : Nat) (function : Option Nat)
  deriving DecidableEq

/-- Nothing for a null block and for one without a function. -/
def dispatchInvokeBlock (block : Option Block) : Option Work :=
  block.bind fun b => b.invoke.map fun invoke => ⟨invoke, b.address⟩

def Call.work : Call → Option Work
  | .once block => dispatchInvokeBlock block
  | .onceF context function => function.map fun f => ⟨f, context⟩

inductive Event
  | began (w : Work)
  | finished (w : Work)
  deriving DecidableEq

def Call.begins (c : Call) : List Event := (c.work.map .began).toList

def Call.ends (c : Call) : List Event := (c.work.map .finished).toList

def Call.runs (c : Call) : List Event := c.begins ++ c.ends

/-- Where a call is: about to compare and swap, about to start the work, in it, about to store the
last value, or in the loop of `sched_yield`. -/
inductive Phase
  | outside
  | swapping (c : Call)
  | starting (c : Call)
  | working (c : Call)
  | storing (c : Call)
  | spinning
  deriving DecidableEq

structure State (T : Type) where
  predicate : BitVec 64
  phase : T → Phase
  calls : List Call
  runs : List Event
  returned : List T

def initial (T : Type) : State T := ⟨0, fun _ => .outside, [], [], []⟩

/-- A call that the work itself makes on the predicate counts as one of another thread. -/
inductive Move (T : Type)
  | call (t : T) (c : Call)
  | advance (t : T)

variable {T : Type} [DecidableEq T]

def step (s : State T) : Move T → Option (State T)
  | .call t c =>
    if s.phase t = .outside then
      some { s with phase := update s.phase t (.swapping c), calls := s.calls ++ [c] }
    else none
  | .advance t =>
    match s.phase t with
    | .outside => none
    | .swapping c =>
      if s.predicate = 0 then some { s with predicate := 1, phase := update s.phase t (.starting c) }
      else some { s with phase := update s.phase t .spinning }
    | .starting c => some { s with phase := update s.phase t (.working c), runs := s.runs ++ c.begins }
    | .working c => some { s with phase := update s.phase t (.storing c), runs := s.runs ++ c.ends }
    | .storing _ =>
      some { s with predicate := ~~~0, phase := update s.phase t .outside, returned := s.returned ++ [t] }
    | .spinning =>
      if s.predicate = ~~~0 then
        some { s with phase := update s.phase t .outside, returned := s.returned ++ [t] }
      else some s

def Phase.won : Phase → Option (Call × List Event)
  | .starting c => some (c, [])
  | .working c => some (c, c.begins)
  | .storing c => some (c, c.runs)
  | .outside | .swapping _ | .spinning => none

/-- The three values of the predicate against the phase of the winner. -/
inductive Stage (s : State T) : Prop
  | fresh (hpredicate : s.predicate = 0) (hruns : s.runs = []) (hreturned : s.returned = [])
      (hnobody : ∀ t, (s.phase t).won = none)
  | claimed (t : T) (c : Call) (hpredicate : s.predicate = 1) (hreturned : s.returned = [])
      (hc : c ∈ s.calls) (hwon : (s.phase t).won = some (c, s.runs))
      (hothers : ∀ u, u ≠ t → (s.phase u).won = none)
  | done (c : Call) (hpredicate : s.predicate = ~~~0) (hc : c ∈ s.calls) (hruns : s.runs = c.runs)
      (hnobody : ∀ t, (s.phase t).won = none)

def Called (s : State T) : Prop := ∀ t c, s.phase t = .swapping c → c ∈ s.calls

variable {s s' : State T} {t : T} {p : Phase}

theorem Called.update (h : Called s) (hp : ∀ c, p = .swapping c → c ∈ s.calls) :
    ∀ u c, update s.phase t p u = .swapping c → c ∈ s.calls :=
  (forall_update_iff s.phase fun _ q => ∀ c, q = .swapping c → c ∈ s.calls).mpr ⟨hp, fun u _ => h u⟩

theorem won_update (h : ∀ u, u ≠ t → (s.phase u).won = none) (hp : p.won = none) :
    ∀ u, (update s.phase t p u).won = none :=
  (forall_update_iff s.phase fun _ q => q.won = none).mpr ⟨hp, h⟩

theorem won_update_of_ne (h : ∀ u, u ≠ t → (s.phase u).won = none) :
    ∀ u, u ≠ t → (update s.phase t p u).won = none := by
  intro u hu
  rw [update_of_ne hu]
  exact h u hu

theorem Stage.pass {calls : List Call} (h : Stage s) (hcalls : s.calls ⊆ calls)
    (hbefore : (s.phase t).won = none) (hafter : p.won = none) :
    Stage { s with phase := update s.phase t p, calls := calls } := by
  cases h with
  | fresh hpredicate hruns hreturned hnobody =>
    exact .fresh hpredicate hruns hreturned (won_update (fun u _ => hnobody u) hafter)
  | claimed t' c hpredicate hreturned hc hwon hothers =>
    have hne : t' ≠ t := by
      rintro rfl
      simp [hbefore] at hwon
    refine .claimed t' c hpredicate hreturned (hcalls hc) (by simpa [hne] using hwon) ?_
    intro u hu
    rcases eq_or_ne u t with rfl | hut
    · simpa using hafter
    · simpa [hut] using hothers u hu
  | done c hpredicate hc hruns hnobody =>
    exact .done c hpredicate (hcalls hc) hruns (won_update (fun u _ => hnobody u) hafter)

theorem Stage.winner {c : Call} {runs : List Event} (h : Stage s) (hwon : (s.phase t).won = some (c, runs)) :
    s.predicate = 1 ∧ s.returned = [] ∧ c ∈ s.calls ∧ s.runs = runs ∧
      ∀ u, u ≠ t → (s.phase u).won = none := by
  cases h with
  | fresh _ _ _ hnobody | done _ _ _ _ hnobody => simp [hnobody t] at hwon
  | claimed t' c' hpredicate hreturned hc hwon' hothers =>
    obtain rfl : t = t' := by
      by_contra hne
      simp [hothers t hne] at hwon
    rw [hwon', some.injEq, Prod.mk.injEq] at hwon
    exact ⟨hpredicate, hreturned, hwon.1 ▸ hc, hwon.2, hothers⟩

theorem sound_step {move : Move T} (h : Called s ∧ Stage s) (hstep : step s move = some s') :
    Called s' ∧ Stage s' := by
  obtain ⟨hcalled, hstage⟩ := h
  cases move with
  | call t c =>
    rcases ite_none_right_eq_some.mp hstep with ⟨ht, ⟨⟩⟩
    refine ⟨?_, hstage.pass (subset_append_left s.calls [c]) (by rw [ht]; rfl) rfl⟩
    refine (forall_update_iff s.phase fun _ q => ∀ c', q = .swapping c' → c' ∈ s.calls ++ [c]).mpr ⟨?_, ?_⟩
    · rintro _ ⟨⟩
      simp
    · exact fun u _ c' hc' => mem_append_left _ (hcalled u c' hc')
  | advance t =>
    cases ht : s.phase t with
    | outside => simp [step, ht] at hstep
    | swapping c =>
      simp only [step, ht] at hstep
      split at hstep
      · next hzero =>
        cases hstep
        refine ⟨hcalled.update nofun, ?_⟩
        cases hstage with
        | fresh _ hruns hreturned hnobody =>
          exact .claimed t c rfl hreturned (hcalled t c ht) (by simp [Phase.won, hruns])
            (won_update_of_ne fun u _ => hnobody u)
        | claimed _ _ hpredicate | done _ hpredicate => simp [hpredicate] at hzero
      · cases hstep
        exact ⟨hcalled.update nofun, hstage.pass (Subset.refl _) (by rw [ht]; rfl) rfl⟩
    | starting c | working c =>
      simp only [step, ht, some.injEq] at hstep
      subst hstep
      rcases hstage.winner (by rw [ht]; rfl) with ⟨hpredicate, hreturned, hc, hruns, hothers⟩
      exact ⟨hcalled.update nofun, .claimed t c hpredicate hreturned hc
        (by simp [Phase.won, hruns, Call.runs]) (won_update_of_ne hothers)⟩
    | storing c =>
      simp only [step, ht, some.injEq] at hstep
      subst hstep
      rcases hstage.winner (by rw [ht]; rfl) with ⟨-, -, hc, hruns, hothers⟩
      exact ⟨hcalled.update nofun, .done c rfl hc hruns (won_update hothers rfl)⟩
    | spinning =>
      simp only [step, ht] at hstep
      split at hstep
      · next hdone =>
        cases hstep
        refine ⟨hcalled.update nofun, ?_⟩
        cases hstage with
        | fresh hpredicate | claimed _ _ hpredicate => simp [hpredicate] at hdone
        | done c hpredicate hc hruns hnobody =>
          exact .done c hpredicate hc hruns (won_update (fun u _ => hnobody u) rfl)
      · cases hstep
        exact ⟨hcalled, hstage⟩

theorem prefix_of_won {c : Call} {runs : List Event} (h : p.won = some (c, runs)) : runs <+: c.runs := by
  cases p <;> cases h
  · exact nil_prefix
  · exact prefix_append c.begins c.ends
  · exact prefix_rfl

/-- At every moment of every interleaving: nothing has run and no call has returned, or one call's
work has begun, has begun and finished, or is about to; it has finished if any call has returned. -/
theorem work_runs_once {schedule : List (Move T)} (hrun : run step (initial T) schedule = some s) :
    (s.runs = [] ∧ s.returned = []) ∨
      ∃ c ∈ s.calls, s.runs <+: c.runs ∧ (s.returned ≠ [] → s.runs = c.runs) := by
  have hinitial : Called (initial T) ∧ Stage (initial T) := ⟨nofun, .fresh rfl rfl rfl fun _ => rfl⟩
  rcases (invariant_run (fun _ _ _ h hstep => sound_step h hstep) hinitial hrun).2 with
    ⟨-, hruns, hreturned, -⟩ | ⟨t, c, -, hreturned, hc, hwon, -⟩ | ⟨c, -, hc, hruns, -⟩
  · exact .inl ⟨hruns, hreturned⟩
  · exact .inr ⟨c, hc, prefix_of_won hwon, fun h => absurd hreturned h⟩
  · exact .inr ⟨c, hc, by rw [hruns], fun _ => hruns⟩

/-- A block and a function race for one predicate; the function wins. -/
def race : List (Move Bool) :=
  [.call true (.once (some ⟨16, some 1⟩)), .call false (.onceF 5 (some 2)), .advance false, .advance true,
    .advance false, .advance true, .advance false, .advance false, .advance true]

theorem race_runs_once :
    ∃ s, run step (initial Bool) race = some s ∧ s.returned = [false, true] ∧
      ∃ c ∈ s.calls, s.runs = c.runs := by
  have hrun : (run step (initial Bool) race).map State.returned = some [false, true] := by decide
  rcases map_eq_some_iff.mp hrun with ⟨s, hs, hreturned⟩
  refine ⟨s, hs, hreturned, ?_⟩
  rcases work_runs_once hs with ⟨-, hnone⟩ | ⟨c, hc, -, hruns⟩
  · simp [hreturned] at hnone
  · exact ⟨c, hc, hruns (by simp [hreturned])⟩

end Machgate.DispatchOnce
