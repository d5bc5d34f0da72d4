import Machgate.Interleaving

namespace Machgate.SigpipeGuard

open Interleaving Function

inductive Action
  | sigDfl
  | sigIgn
  | handler (fn : Nat)
deriving DecidableEq

/-- Where a thread is in `write_syscall_with_sigpipe_guard` or in `shim_write_with_sigpipe_guard`,
whose calls of `sigaction` are the same. -/
inductive Phase
  | outside
  | guarded (oldAction : Action)
  | written (oldAction : Action)
deriving DecidableEq

structure State (T : Type) where
  action : Action
  phase : T → Phase

inductive Event (T : Type)
  | ignore (t : T)
  | write (t : T)
  | restore (t : T)

variable {T : Type} [DecidableEq T]

-- `sigaction` on `SIGPIPE` with valid pointers does not fail, so `changed` is always set

def step (s : State T) : Event T → Option (State T)
  | .ignore t =>
    match s.phase t with
    | .outside => some ⟨.sigIgn, update s.phase t (.guarded s.action)⟩
    | _ => none
  | .write t =>
    match s.phase t with
    | .guarded old => some ⟨s.action, update s.phase t (.written old)⟩
    | _ => none
  | .restore t =>
    match s.phase t with
    | .written old => some ⟨if old = .sigDfl then s.action else old, update s.phase t .outside⟩
    | _ => none

def Quiet (s : State T) : Prop := ∀ t, s.phase t = .outside

def Restored (fn : Nat) (s : State T) (e : Event T) : Prop :=
  ∀ s', step s e = some s' → Quiet s' → s'.action = .handler fn

/-- A write that ends as the only one in progress is one that had saved the handler. -/
def LastSaved (fn : Nat) (s : State T) (e : Event T) : Prop :=
  ∀ t old, e = .restore t → s.phase t = .written old → (∀ u, u ≠ t → s.phase u = .outside) →
    old = .handler fn

/-- The default action is neither set nor saved. -/
def Handled (s : State T) : Prop :=
  s.action ≠ .sigDfl ∧ ∀ t, s.phase t ≠ .guarded .sigDfl ∧ s.phase t ≠ .written .sigDfl

theorem Handled.step {s s' : State T} {e : Event T} (hs : Handled s)
    (hstep : step s e = some s') : Handled s' := by
  obtain ⟨haction, hphase⟩ := hs
  unfold SigpipeGuard.step at hstep
  split at hstep
  all_goals
    split at hstep
    · cases hstep
      refine ⟨?_, (forall_update_iff s.phase fun _ p => p ≠ .guarded .sigDfl ∧ p ≠ .written .sigDfl).mpr
        ⟨?_, fun u _ => hphase u⟩⟩
      all_goals grind
    · cases hstep

theorem restored_iff_lastSaved {fn : Nat} {s : State T} {e : Event T} (hs : Handled s) :
    Restored fn s e ↔ LastSaved fn s e := by
  have hbusy : ∀ {action t p}, p ≠ Phase.outside → ¬ Quiet ⟨action, update s.phase t p⟩ := by
    intro action t p hp hquiet
    exact hp ((update_self t p s.phase).symm.trans (hquiet t))
  cases e with
  | ignore t | write t =>
    refine iff_of_true (fun s' hstep hquiet => ?_) nofun
    simp only [step] at hstep
    split at hstep
    · cases hstep
      exact absurd hquiet (hbusy nofun)
    · cases hstep
  | restore t =>
    constructor
    · rintro h _ old ⟨rfl⟩ hold hothers
      have hdfl : old ≠ .sigDfl := fun heq => (hs.2 t).2 (heq ▸ hold)
      have hafter := h ⟨old, update s.phase t .outside⟩ (by simp [step, hold, hdfl])
      exact hafter ((forall_update_iff s.phase fun _ p => p = .outside).mpr ⟨rfl, hothers⟩)
    · intro h s' hstep hquiet
      simp only [step] at hstep
      split at hstep
      · next old hold =>
        cases hstep
        obtain rfl := h t old rfl hold ((forall_update_iff s.phase fun _ p => p = .outside).mp hquiet).2
        rfl
      · cases hstep

/-- No write begins while another one is in progress. -/
def TakesTurn (s : State T) (e : Event T) : Prop := ∀ t, e = .ignore t → Quiet s

/-- The handler is set while no write is in progress, and each one in progress has saved it. -/
structure Saved (fn : Nat) (s : State T) : Prop where
  quiet : Quiet s → s.action = .handler fn
  guarded : ∀ t old, s.phase t = .guarded old → old = .handler fn
  written : ∀ t old, s.phase t = .written old → old = .handler fn

theorem Saved.step {fn : Nat} {s s' : State T} {e : Event T} (hs : Saved fn s)
    (hturn : TakesTurn s e) (hstep : step s e = some s') : Saved fn s' := by
  obtain ⟨hquiet, hguarded, hwritten⟩ := hs
  cases e with
  | ignore t | write t | restore t =>
    simp only [SigpipeGuard.step] at hstep
    split at hstep
    · cases hstep
      refine ⟨fun hnext => ?_, fun u old => ?_, fun u old => ?_⟩
      · have := hnext t
        grind
      all_goals grind [TakesTurn]
    · cases hstep

theorem lastSaved_of_takesTurn {fn : Nat} {schedule : List (Event T)}
    (h : Along step TakesTurn ⟨.handler fn, fun _ => .outside⟩ schedule) :
    Along step (LastSaved fn) ⟨.handler fn, fun _ => .outside⟩ schedule :=
  Along.imp (fun _ _ _ hs hturn hstep => Saved.step hs hturn hstep)
    (fun _ _ hs _ t old _ hold _ => hs.written t old hold) ⟨fun _ => rfl, nofun, nofun⟩ h

/-- The second write saves the first one's `SIG_IGN` and puts it back at the end. -/
def overlapping : List (Event Bool) :=
  [.ignore false, .ignore true, .write false, .restore false, .write true, .restore true]

end Machgate.SigpipeGuard
