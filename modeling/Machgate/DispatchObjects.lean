import Machgate.Interleaving

namespace Machgate.DispatchObjects

open Interleaving Option

inductive Kind
  | semaphore
  | queue
  deriving DecidableEq

/-- An object with `refs` references of the guest, and the calls of `dispatch_release` that are in
progress: about to look at the count, about to take one off it, or about to free. Of a queue there
is the worker, which never ends, and the numbers of delayed items and of groups' notifications that
are for it. -/
structure State where
  refcount : Int
  refs : Nat
  looking : Nat
  subtracting : Nat
  freeing : Nat
  freed : Nat
  worker : Bool
  delayed : Nat
  notified : Nat
  deriving DecidableEq

def created : State := ⟨1, 1, 0, 0, 0, 0, false, 0, 0⟩

/-- `post` is the end of a delay, which submits the item to the queue.  `notify` is a
`dispatch_group_notify` on a group that was not left yet, which keeps the block for the queue until
the last `dispatch_group_leave`, or until a second one takes its place. -/
inductive Move
  | retain
  | release
  | look
  | subtract
  | free
  | async
  | after
  | post
  | notify
  | leave
  | supersede

/-- Calls are made by those who have a reference. -/
def step (kind : Kind) (s : State) : Move → Option State
  | .retain =>
    if 0 < s.refs then some { s with refcount := s.refcount + 1, refs := s.refs + 1 } else none
  | .release =>
    if 0 < s.refs then some { s with refs := s.refs - 1, looking := s.looking + 1 } else none
  | .look =>
    if 0 < s.looking then
      if 99 < s.refcount then some { s with looking := s.looking - 1 }
      else some { s with looking := s.looking - 1, subtracting := s.subtracting + 1 }
    else none
  | .subtract =>
    if 0 < s.subtracting then
      let after := { s with refcount := s.refcount - 1, subtracting := s.subtracting - 1 }
      some (if s.refcount - 1 ≤ 0 then { after with freeing := s.freeing + 1 } else after)
    else none
  | .free => if 0 < s.freeing then some { s with freeing := s.freeing - 1, freed := s.freed + 1 } else none
  | .async => if kind = .queue ∧ 0 < s.refs then some { s with worker := true } else none
  | .after => if kind = .queue ∧ 0 < s.refs then some { s with delayed := s.delayed + 1 } else none
  | .post => if 0 < s.delayed then some { s with delayed := s.delayed - 1, worker := true } else none
  | .notify => if kind = .queue ∧ 0 < s.refs then some { s with notified := s.notified + 1 } else none
  | .leave =>
    if 0 < s.notified then some { s with notified := s.notified - 1, worker := true } else none
  | .supersede => if 0 < s.notified then some { s with notified := s.notified - 1 } else none

/-- The references that were not given back yet. -/
def State.total (s : State) : Nat := s.refs + s.looking + s.subtracting

/-- The object is freed once, when there is no reference to it any more and nobody who would still
use it, and then for certain. -/
structure Right (s : State) : Prop where
  unused : 0 < s.freed → s.refs = 0 ∧ s.worker = false ∧ s.delayed = 0 ∧ s.notified = 0
  once : s.freed ≤ 1
  last : s.total = 0 → s.freeing = 0 → s.freed = 1

/-- There are `n` references at most; and the last one, if that is asked for, is given up when the
queue has no worker and no item or notification is to come. -/
def Within (n : Nat) (unused : Bool) (s : State) : Move → Prop
  | .retain => s.total < n
  | .release => unused → s.refs = 1 → s.worker = false ∧ s.delayed = 0 ∧ s.notified = 0
  | _ => True

instance : ∀ n unused s move, Decidable (Within n unused s move)
  | _, _, _, .retain => inferInstanceAs (Decidable (_ < _))
  | _, _, _, .release => inferInstanceAs (Decidable (_ → _ → _ ∧ _))
  | _, _, _, .look | _, _, _, .subtract | _, _, _, .free => isTrue trivial
  | _, _, _, .async | _, _, _, .after | _, _, _, .post => isTrue trivial
  | _, _, _, .notify | _, _, _, .leave | _, _, _, .supersede => isTrue trivial

structure Inv (kind : Kind) (s : State) : Prop where
  count : s.refcount = s.total
  few : s.total ≤ 99
  freed : s.freeing + s.freed = if s.total = 0 then 1 else 0
  unused : kind = .semaphore ∨ s.refs = 0 → s.worker = false ∧ s.delayed = 0 ∧ s.notified = 0

theorem inv_step {kind : Kind} {n : Nat} (hn : n ≤ 99) {s s' : State} {move : Move} {unused : Bool}
    (hunused : kind = .queue → unused) (h : Inv kind s) (hwithin : Within n unused s move)
    (hstep : step kind s move = some s') : Inv kind s' := by
  obtain ⟨hcount, hfew, hfreed, hidle⟩ := h
  cases move with
  | retain =>
    simp only [Within, State.total] at hwithin
    rcases ite_none_right_eq_some.mp hstep with ⟨hrefs, ⟨⟩⟩
    constructor <;> grind [State.total]
  | release =>
    rcases ite_none_right_eq_some.mp hstep with ⟨hrefs, ⟨⟩⟩
    constructor <;> grind [State.total, Within, Kind]
  | look =>
    rcases ite_none_right_eq_some.mp hstep with ⟨hlooking, hstep⟩
    rw [if_neg (by omega)] at hstep
    cases hstep
    constructor <;> grind [State.total]
  | subtract =>
    rcases ite_none_right_eq_some.mp hstep with ⟨hsubtracting, ⟨⟩⟩
    split <;> constructor <;> grind [State.total]
  | free =>
    rcases ite_none_right_eq_some.mp hstep with ⟨hfreeing, ⟨⟩⟩
    constructor <;> grind [State.total]
  | async | after | notify =>
    rcases ite_none_right_eq_some.mp hstep with ⟨⟨rfl, hrefs⟩, ⟨⟩⟩
    constructor <;> grind [State.total]
  | post | leave | supersede =>
    rcases ite_none_right_eq_some.mp hstep with ⟨hwaiting, ⟨⟩⟩
    constructor <;> grind [State.total]

theorem Inv.right {kind : Kind} {s : State} (h : Inv kind s) : Right s := by
  obtain ⟨-, -, hfreed, hidle⟩ := h
  constructor <;> grind [State.total]

/-- The hundredth reference is given back in vain. -/
def hundred : List Move :=
  List.replicate 99 .retain ++ (List.replicate 100 [.release, .look]).flatten

theorem run_hundred (kind : Kind) :
    run (step kind) created hundred = some ⟨100, 0, 0, 0, 0, 0, false, 0, 0⟩ ∧
      Along (step kind) (Within 100 true) created hundred := by
  cases kind <;> decide +kernel

def usedQueue : List Move := [.async, .release, .look, .subtract, .free]

/-- Objects are freed when they should be exactly if there are never more than 99 references, and a
queue that has a worker, or for which an item or a notification is to come, is not given up. -/
theorem right_iff_within (kind : Kind) (n : Nat) (unused : Bool) :
    (∀ moves s, run (step kind) created moves = some s →
      Along (step kind) (Within n unused) created moves → Right s) ↔
    n ≤ 99 ∧ (kind = .queue → unused) := by
  constructor
  · intro h
    refine ⟨?_, ?_⟩
    · by_contra hn
      obtain ⟨hrun, halong⟩ := run_hundred kind
      have hmore : Along (step kind) (Within n unused) created hundred := by
        refine Along.imp (fun _ _ _ _ _ _ => trivial) ?_ trivial halong
        intro s move _ hwithin
        cases move with
        | retain => exact Nat.lt_of_lt_of_le hwithin (Nat.lt_of_not_le hn)
        | release => exact fun _ => hwithin rfl
        | _ => trivial
      exact absurd ((h hundred _ hrun hmore).last rfl rfl) (by decide)
    · rintro rfl
      by_contra hused
      rw [Bool.not_eq_true] at hused
      subst hused
      have hrun : run (step .queue) created usedQueue = some ⟨0, 0, 0, 0, 0, 1, true, 0, 0⟩ := rfl
      have halong : Along (step .queue) (Within n false) created usedQueue := by
        simp [usedQueue, Along, Within]
      exact absurd ((h usedQueue _ hrun halong).unused Nat.one_pos).2.1 (by decide)
  · rintro ⟨hn, hunused⟩ moves s hrun halong
    have hcreated : Inv kind created := ⟨rfl, by decide, rfl, fun _ => ⟨rfl, rfl, rfl⟩⟩
    exact (invariant_along (fun _ _ _ => inv_step hn hunused) hcreated halong hrun).right

theorem freed_late_and_early :
    (∃ s, run (step .semaphore) created hundred = some s ∧ s.total = 0 ∧ s.freeing = 0 ∧ s.freed = 0) ∧
      ∃ s, run (step .queue) created usedQueue = some s ∧ s.freed = 1 ∧ s.worker :=
  ⟨⟨_, (run_hundred .semaphore).1, by decide⟩, _, rfl, by decide⟩

end Machgate.DispatchObjects
