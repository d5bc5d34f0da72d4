import Mathlib.Data.List.TakeWhile
import Machgate.DispatchTime
import Machgate.Interleaving

/-!
`dispatch_after`: the list of delayed blocks and the threads that look after it.
-/

namespace Machgate.DispatchAfter

open DispatchTime Interleaving List BitVec Option Function Nat

/-- `struct dispatch_delayed_item`, and when the block is meant to be submitted. -/
structure Item where
  deadlineNs : BitVec 64
  block : Nat
  due : Nat
  deriving DecidableEq

/-- A `pthread_cond_timedwait` of a worker: the items it has taken off the list, the list it leaves,
the instant and the end of the wait if nothing wakes it before. -/
structure Wait where
  ready : List Item
  held : List Item
  since : Nat
  limit : Nat

inductive Entry
  | never (item : Item)
  | posted (item : Item) (instant : Nat)
  | kept (item : Item) (instant : Nat)
  | slept (item : Item) (since till : Nat)
  deriving DecidableEq

structure Delayed where
  head : List Item
  waiting : Nat → Option Wait
  now : Nat
  log : List Entry

def initial : Delayed := { head := [], waiting := fun _ => none, now := 0, log := [] }

inductive Event
  /-- `dispatch_after`, which has read the clock at `read`. -/
  | after (x : Deadline) (block read : Nat)
  /-- A worker locks the list, which is not empty. -/
  | round (worker : Nat)
  /-- The wait of a worker ends. -/
  | wake (worker : Nat)

def dispatchMonotonicNowNs (clocks : Clocks) (instant : Nat) : BitVec 64 :=
  (clockGettime clocks.monotonic instant).ns64

def insertItem (head : List Item) (item : Item) : List Item :=
  head.takeWhile (fun i => i.deadlineNs ≤ item.deadlineNs) ++
    item :: head.dropWhile (fun i => i.deadlineNs ≤ item.deadlineNs)

/-- `dispatch_delayed_schedule` of an item that there is memory for. -/
def dispatchDelayedSchedule (clocks : Clocks) (s : Delayed) (item : Item) (read : Nat) : Delayed :=
  if item.deadlineNs = dispatchTimeForever then { s with log := s.log ++ [.never item] }
  else if item.deadlineNs ≤ dispatchMonotonicNowNs clocks read then
    { s with log := s.log ++ [.posted item read] }
  else { s with head := insertItem s.head item }

/-- A round of `dispatch_delayed_worker` up to its wait; without one it submits what is ready. -/
def workerRound (clocks : Clocks) (s : Delayed) (worker t : Nat) : Delayed :=
  let now := dispatchMonotonicNowNs clocks t
  let ready := s.head.takeWhile fun i => i.deadlineNs ≤ now
  match s.head.dropWhile fun i => i.deadlineNs ≤ now with
  | [] => { s with head := [], log := s.log ++ ready.map (.posted · t) }
  | next :: rest =>
    let remaining := next.deadlineNs - now
    let deadline : Timespec :=
      { sec := remaining.toNat / nsecPerSec, nsec := remaining.toNat % nsecPerSec }
    -- the deadline of the wait is on the clock of real time
    { s with
      head := next :: rest
      waiting := Function.update s.waiting worker (some
        { ready := ready, held := next :: rest, since := t
          limit := max t (deadline.toNs - clocks.realtime) })
      log := s.log ++ (next :: rest).map (.kept · t) }

/-- The end of a wait, after which the round submits what was ready. -/
def workerWake (s : Delayed) (worker : Nat) (wait : Wait) (t : Nat) : Delayed :=
  { s with
    waiting := Function.update s.waiting worker none
    log := s.log ++ (wait.ready ++ wait.held).map (.slept · wait.since (min t wait.limit)) ++
      wait.ready.map (.posted · t) }

def itemOf (clocks : Clocks) (x : Deadline) (block : Nat) : Item :=
  { deadlineNs := x.value clocks, block := block, due := x.due }

/-- A step at an instant.  The monotonic clock of a run stays below `2 ^ 64` nanoseconds. -/
def step (clocks : Clocks) (s : Delayed) (timed : Nat × Event) : Option Delayed :=
  if s.now ≤ timed.1 ∧ clocks.monotonic + timed.1 < 2 ^ 64 then
    let s' := { s with now := timed.1 }
    match timed.2 with
    | .after x block read =>
      if x.built ≤ read ∧ read ≤ timed.1 then
        some (dispatchDelayedSchedule clocks s' (itemOf clocks x block) read)
      else none
    | .round worker =>
      match s.waiting worker with
      | some _ => none
      | none => if s.head = [] then none else some (workerRound clocks s' worker timed.1)
    | .wake worker => (s.waiting worker).map fun wait => workerWake s' worker wait timed.1
  else none

/-- A block is submitted when it is due and not before; a worker that has looked at the list keeps
only what is not due, and does not sleep on what is. -/
def Entry.OnTime : Entry → Prop
  | .never _ => False
  | .posted item t => item.due ≤ t
  | .kept item t => t < item.due
  | .slept item since till => till ≤ since ∨ till ≤ item.due

def OnTime (log : List Entry) : Prop := ∀ entry ∈ log, entry.OnTime

/-- The deadline is the reading of the monotonic clock at the end, or both are over at the call. -/
def Agrees (clocks : Clocks) (x : Deadline) (read : Nat) : Prop :=
  x.value clocks ≠ dispatchTimeForever ∧
    ((x.value clocks).toNat = clocks.monotonic + x.due ∨
      (x.value clocks).toNat ≤ clocks.monotonic + read ∧ x.due ≤ read)

/-- No round takes something off the list and then really waits for the next item. -/
def Prompt (clocks : Clocks) (s : Delayed) (t : Nat) : Prop :=
  match s.head.dropWhile fun i => i.deadlineNs ≤ dispatchMonotonicNowNs clocks t with
  | [] => True
  | next :: _ =>
    s.head.takeWhile (fun i => i.deadlineNs ≤ dispatchMonotonicNowNs clocks t) = [] ∨
      next.deadlineNs.toNat ≤ clocks.monotonic + t + (clocks.realtime + t)

def Meets (clocks : Clocks) (s : Delayed) (timed : Nat × Event) : Prop :=
  match timed.2 with
  | .after x _ read => Agrees clocks x read
  | .round _ => Prompt clocks s timed.1
  | .wake _ => True

section

variable {clocks : Clocks} {s s' : Delayed}

variable {t worker : Nat} {head : List Item}

theorem toNat_now (h : clocks.monotonic + t < 2 ^ 64) :
    (dispatchMonotonicNowNs clocks t).toNat = clocks.monotonic + t := by
  rw [dispatchMonotonicNowNs, ns64_eq, toNs_clockGettime, toNat_ofNat, mod_eq_of_lt h]

def Sorted (head : List Item) : Prop := head.Pairwise fun i j => i.deadlineNs ≤ j.deadlineNs

theorem Sorted.lt_of_mem_dropWhile (h : Sorted head) {d : BitVec 64} {item : Item}
    (hmem : item ∈ head.dropWhile fun i => i.deadlineNs ≤ d) : d < item.deadlineNs := by
  induction head with
  | nil => cases hmem
  | cons i head ih =>
    rw [dropWhile_cons] at hmem
    split at hmem
    · exact ih (Pairwise.of_cons h) hmem
    · next hgt =>
      have hlt : d < i.deadlineNs := by simpa using hgt
      rcases mem_cons.mp hmem with rfl | hmem
      · exact hlt
      · have hle := rel_of_pairwise_cons h hmem
        rw [lt_def] at hlt ⊢
        rw [le_def] at hle
        omega

theorem Sorted.insertItem (h : Sorted head) (item : Item) : Sorted (insertItem head item) := by
  have hsplit : Sorted (head.takeWhile (fun i => i.deadlineNs ≤ item.deadlineNs) ++
      head.dropWhile fun i => i.deadlineNs ≤ item.deadlineNs) := by
    rwa [takeWhile_append_dropWhile]
  obtain ⟨htake, hdrop, hcross⟩ := pairwise_append.mp hsplit
  refine pairwise_append.mpr ⟨htake, ?_, ?_⟩
  · exact .cons (fun j hj => BitVec.le_of_lt (h.lt_of_mem_dropWhile hj)) hdrop
  · intro i hi j hj
    rcases mem_cons.mp hj with rfl | hj
    · simpa using mem_takeWhile_imp hi
    · exact hcross i hi j hj

theorem mem_insertItem {item i : Item} : i ∈ insertItem head item ↔ i = item ∨ i ∈ head := by
  have hsplit : head = head.takeWhile (fun i => i.deadlineNs ≤ item.deadlineNs) ++
      head.dropWhile fun i => i.deadlineNs ≤ item.deadlineNs :=
    takeWhile_append_dropWhile.symm
  rw [DispatchAfter.insertItem, mem_append, mem_cons]
  conv_rhs => rw [hsplit, mem_append]
  tauto

structure Wait.Ok (now : Nat) (wait : Wait) : Prop where
  since : wait.since ≤ now
  ready : ∀ item ∈ wait.ready, item.due ≤ wait.since ∧ wait.limit ≤ wait.since
  held : ∀ item ∈ wait.held, wait.limit ≤ wait.since ∨ wait.limit ≤ item.due

/-- What a run that meets its conditions keeps: the list says when its items are due. -/
structure Inv (clocks : Clocks) (s : Delayed) : Prop where
  sorted : Sorted s.head
  agree : ∀ item ∈ s.head, item.deadlineNs.toNat = clocks.monotonic + item.due
  waits : ∀ worker, ∀ wait ∈ s.waiting worker, wait.Ok s.now
  onTime : OnTime s.log

theorem inv_initial : Inv clocks initial where
  sorted := .nil
  agree := forall_mem_nil _
  waits := fun worker wait h => by cases h
  onTime := forall_mem_nil _

theorem onTime_append {log more : List Entry} (hlog : OnTime log)
    (hmore : ∀ entry ∈ more, entry.OnTime) : OnTime (log ++ more) := by
  intro entry hentry
  rcases mem_append.mp hentry with h | h
  · exact hlog entry h
  · exact hmore entry h

theorem Inv.advance (h : Inv clocks s) (ht : s.now ≤ t) : Inv clocks { s with now := t } :=
  { h with
    waits := fun worker wait hwait =>
      { h.waits worker wait hwait with since := (h.waits worker wait hwait).since.trans ht } }

theorem waits_update {waiting : Nat → Option Wait} {now : Nat}
    (h : ∀ worker, ∀ wait ∈ waiting worker, wait.Ok now) {o : Option Wait}
    (ho : ∀ wait ∈ o, wait.Ok now) :
    ∀ other, ∀ wait ∈ update waiting worker o other, wait.Ok now :=
  (forall_update_iff waiting fun _ (o : Option Wait) => ∀ wait ∈ o, wait.Ok now).mpr
    ⟨ho, fun other _ => h other⟩

section

variable {item : Item} {read : Nat}

theorem schedule_forever (h : item.deadlineNs = dispatchTimeForever) :
    dispatchDelayedSchedule clocks s item read = { s with log := s.log ++ [.never item] } :=
  if_pos h

theorem schedule_past (h : item.deadlineNs ≠ dispatchTimeForever)
    (hle : item.deadlineNs ≤ dispatchMonotonicNowNs clocks read) :
    dispatchDelayedSchedule clocks s item read = { s with log := s.log ++ [.posted item read] } := by
  rw [dispatchDelayedSchedule, if_neg h, if_pos hle]

theorem schedule_later (h : item.deadlineNs ≠ dispatchTimeForever)
    (hlt : ¬ item.deadlineNs ≤ dispatchMonotonicNowNs clocks read) :
    dispatchDelayedSchedule clocks s item read = { s with head := insertItem s.head item } := by
  rw [dispatchDelayedSchedule, if_neg h, if_neg hlt]

end

theorem Inv.schedule (h : Inv clocks s) {x : Deadline} {block read : Nat}
    (hagrees : Agrees clocks x read) (hclock : clocks.monotonic + read < 2 ^ 64) :
    Inv clocks (dispatchDelayedSchedule clocks s (itemOf clocks x block) read) := by
  obtain ⟨hforever, hvalue⟩ := hagrees
  have hnow := toNat_now hclock
  rcases Nat.lt_or_ge (clocks.monotonic + read) (x.value clocks).toNat with hlate | hpast
  · have hlt : ¬ (itemOf clocks x block).deadlineNs ≤ dispatchMonotonicNowNs clocks read := by
      rw [le_def, hnow]
      exact Nat.not_le.mpr hlate
    rw [schedule_later hforever hlt]
    refine { h with sorted := h.sorted.insertItem _, agree := ?_ }
    intro item hitem
    rcases mem_insertItem.mp hitem with rfl | hitem
    · change (x.value clocks).toNat = clocks.monotonic + x.due
      omega
    · exact h.agree item hitem
  · have hle : (itemOf clocks x block).deadlineNs ≤ dispatchMonotonicNowNs clocks read := by
      rw [le_def, hnow]
      exact hpast
    rw [schedule_past hforever hle]
    refine { h with onTime := onTime_append h.onTime fun entry hentry => ?_ }
    rw [mem_singleton.mp hentry]
    change x.due ≤ read
    omega

/-- A wait for the next item ends before the item is due. -/
theorem limit_le {next : Item} (hexact : next.deadlineNs.toNat = clocks.monotonic + next.due)
    (hclock : clocks.monotonic + t < 2 ^ 64)
    (hlt : dispatchMonotonicNowNs clocks t < next.deadlineNs) :
    (next.deadlineNs - dispatchMonotonicNowNs clocks t).toNat = next.due - t ∧ t < next.due := by
  have hnow := toNat_now hclock
  rw [toNat_sub_of_le (BitVec.le_of_lt hlt), hnow, hexact]
  rw [lt_def, hnow, hexact] at hlt
  omega

theorem Inv.round (h : Inv clocks s) (ht : s.now ≤ t)
    (hclock : clocks.monotonic + t < 2 ^ 64) (hprompt : Prompt clocks s t) :
    Inv clocks (workerRound clocks { s with now := t } worker t) := by
  have hnow := toNat_now hclock
  have hready : ∀ item ∈ s.head.takeWhile (fun i => i.deadlineNs ≤ dispatchMonotonicNowNs clocks t),
      item.due ≤ t := by
    intro item hitem
    have hle : item.deadlineNs ≤ dispatchMonotonicNowNs clocks t := by
      simpa using mem_takeWhile_imp hitem
    have hexact := h.agree item (( takeWhile_prefix _).subset hitem)
    rw [le_def, hnow, hexact] at hle
    omega
  have hlate : ∀ item ∈ s.head.dropWhile (fun i => i.deadlineNs ≤ dispatchMonotonicNowNs clocks t),
      item.deadlineNs.toNat = clocks.monotonic + item.due ∧
        (item.deadlineNs - dispatchMonotonicNowNs clocks t).toNat = item.due - t ∧ t < item.due := by
    intro item hitem
    have hexact := h.agree item ((dropWhile_suffix _).subset hitem)
    exact ⟨hexact, limit_le hexact hclock (h.sorted.lt_of_mem_dropWhile hitem)⟩
  have hsorted : Sorted (s.head.dropWhile fun i =>
      i.deadlineNs ≤ dispatchMonotonicNowNs clocks t) :=
    h.sorted.sublist (dropWhile_sublist _)
  rw [Prompt] at hprompt
  rw [workerRound]
  generalize s.head.dropWhile (fun i => i.deadlineNs ≤ dispatchMonotonicNowNs clocks t) = left at *
  cases left with
  | nil =>
    have hadvanced := h.advance ht
    refine { hadvanced with sorted := .nil, agree := forall_mem_nil _, onTime := ?_ }
    refine onTime_append h.onTime fun entry hentry => ?_
    obtain ⟨item, hitem, rfl⟩ := mem_map.mp hentry
    exact hready item hitem
  | cons next rest =>
    have hnext := hlate next mem_cons_self
    have hremaining := div_add_mod'
      (next.deadlineNs - dispatchMonotonicNowNs clocks t).toNat nsecPerSec
    refine ⟨hsorted, fun item hitem => (hlate item hitem).1, ?_, ?_⟩
    · refine waits_update (h.advance ht).waits ?_
      rintro _ ⟨⟩
      refine ⟨le_refl t, fun item hitem => ⟨hready item hitem, ?_⟩, fun item hitem => .inr ?_⟩
      · rcases hprompt with hnone | hpassed
        · rw [hnone] at hitem
          cases hitem
        · simp only [Timespec.toNs]
          omega
      · have hle : next.deadlineNs.toNat ≤ item.deadlineNs.toNat := by
          rcases mem_cons.mp hitem with rfl | hmem
          · exact le_refl _
          · exact le_def.mp (rel_of_pairwise_cons hsorted hmem)
        have hlast := hlate item hitem
        simp only [Timespec.toNs]
        omega
    · refine onTime_append h.onTime fun entry hentry => ?_
      obtain ⟨item, hitem, rfl⟩ := mem_map.mp hentry
      exact (hlate item hitem).2.2

theorem Inv.wake (h : Inv clocks s) (ht : s.now ≤ t) {wait : Wait}
    (hwait : s.waiting worker = some wait) :
    Inv clocks (workerWake { s with now := t } worker wait t) := by
  have hok := h.waits worker wait hwait
  refine ⟨h.sorted, h.agree, ?_, ?_⟩
  · refine waits_update (h.advance ht).waits ?_
    rintro _ ⟨⟩
  · refine onTime_append (onTime_append h.onTime fun entry hentry => ?_) fun entry hentry => ?_
    · obtain ⟨item, hitem, rfl⟩ := mem_map.mp hentry
      change min t wait.limit ≤ wait.since ∨ min t wait.limit ≤ item.due
      rcases mem_append.mp hitem with hitem | hitem
      · have := hok.ready item hitem
        omega
      · have := hok.held item hitem
        omega
    · obtain ⟨item, hitem, rfl⟩ := mem_map.mp hentry
      exact ((hok.ready item hitem).1.trans hok.since).trans ht

theorem Inv.step {timed : Nat × Event} (h : Inv clocks s) (hmeets : Meets clocks s timed)
    (hstep : step clocks s timed = some s') : Inv clocks s' := by
  obtain ⟨t, event⟩ := timed
  rw [DispatchAfter.step] at hstep
  split at hstep
  · next hguard =>
    obtain ⟨ht, hclock⟩ := hguard
    match event with
    | .after x block read =>
      dsimp only at hstep
      split at hstep
      · rw [← some.inj hstep]
        exact (h.advance ht).schedule hmeets (by omega)
      · cases hstep
    | .round worker =>
      dsimp only at hstep
      split at hstep
      · cases hstep
      · split at hstep
        · cases hstep
        · rw [← some.inj hstep]
          exact h.round ht hclock hmeets
    | .wake worker =>
      obtain ⟨wait, hwait, rfl⟩ := map_eq_some_iff.mp hstep
      exact h.wake ht hwait
  · cases hstep

end

variable {clocks : Clocks} {x : Deadline} {block called : Nat}

def Event.OfWorker : Event → Prop
  | .after _ _ _ => False
  | .round _ => True
  | .wake _ => True

/-- The only block of a run is submitted on time, whatever the workers do. -/
def SubmitsOnTime (clocks : Clocks) (x : Deadline) (block called : Nat) : Prop :=
  ∀ schedule s, (∀ timed ∈ schedule, timed.2.OfWorker) →
    run (step clocks) initial ((called, .after x block called) :: schedule) = some s → OnTime s.log

variable {t : Nat}

theorem prompt_of_length {s : Delayed} (h : s.head.length ≤ 1) : Prompt clocks s t := by
  rw [Prompt]
  match s.head, h with
  | [], _ => trivial
  | [item], _ =>
    cases hle : decide (item.deadlineNs ≤ dispatchMonotonicNowNs clocks t) with
    | true => simp [dropWhile, hle]
    | false => simp [dropWhile, takeWhile, hle]

theorem length_head_step {s s' : Delayed} {timed : Nat × Event} (h : s.head.length ≤ 1)
    (hworker : timed.2.OfWorker) (hstep : step clocks s timed = some s') : s'.head.length ≤ 1 := by
  obtain ⟨t, event⟩ := timed
  rw [step] at hstep
  split at hstep
  · match event with
    | .after _ _ _ => exact hworker.elim
    | .round worker =>
      dsimp only at hstep
      split at hstep
      · cases hstep
      · split at hstep
        · cases hstep
        · rw [← some.inj hstep, workerRound]
          have hlength := (dropWhile_sublist
            (fun i : Item => i.deadlineNs ≤ dispatchMonotonicNowNs clocks t)
            (l := s.head)).length_le
          split
          · exact Nat.zero_le 1
          · next hrest =>
            rw [hrest] at hlength
            exact hlength.trans h
    | .wake worker =>
      obtain ⟨wait, -, rfl⟩ := map_eq_some_iff.mp hstep
      exact h
  · cases hstep

def startAt (called : Nat) : Delayed := { initial with now := called }

theorem step_after (hbuilt : x.built ≤ called) (hclock : clocks.monotonic + called < 2 ^ 64) :
    step clocks initial (called, .after x block called) =
      some (dispatchDelayedSchedule clocks (startAt called) (itemOf clocks x block) called) := by
  rw [step, if_pos ⟨Nat.zero_le called, hclock⟩]
  exact if_pos ⟨hbuilt, le_refl called⟩

theorem length_head_schedule :
    (dispatchDelayedSchedule clocks (startAt called) (itemOf clocks x block) called).head.length ≤ 1 := by
  rw [dispatchDelayedSchedule]
  split
  · exact Nat.zero_le 1
  · split
    · exact Nat.zero_le 1
    · exact le_refl 1

theorem submitsOnTime_of_agrees (hagrees : Agrees clocks x called) (hbuilt : x.built ≤ called)
    (hclock : clocks.monotonic + called < 2 ^ 64) : SubmitsOnTime clocks x block called := by
  intro schedule s hworker hrun
  have hrest : Along (step clocks) (Meets clocks)
      (dispatchDelayedSchedule clocks (startAt called) (itemOf clocks x block) called) schedule := by
    refine Along.imp (fun s a s' h ha => length_head_step h ha) ?_ length_head_schedule
      (along_of_forall _ hworker)
    rintro s ⟨t, event⟩ h hevent
    match event with
    | .after _ _ _ => exact hevent.elim
    | .round worker => exact prompt_of_length h
    | .wake worker => trivial
  have halong := Along.cons (step_after hbuilt hclock) (show Meets clocks initial _ from hagrees) hrest
  exact (invariant_along (fun s a s' h ha => h.step ha) inv_initial halong hrun).onTime

theorem log_round_posted {item : Item} (h : item.deadlineNs ≤ dispatchMonotonicNowNs clocks t) :
    .posted item t ∈ (workerRound clocks { startAt t with head := [item] } 0 t).log := by
  rw [workerRound]
  simp [h]

theorem log_round_kept {item : Item} (h : ¬ item.deadlineNs ≤ dispatchMonotonicNowNs clocks t) :
    .kept item t ∈ (workerRound clocks { startAt t with head := [item] } 0 t).log := by
  have hdrop : [item].dropWhile (fun i => i.deadlineNs ≤ dispatchMonotonicNowNs clocks t) =
      [item] := by simp [h]
  rw [workerRound]
  rw [hdrop]
  exact mem_append_right _ (mem_map.mpr ⟨item, mem_cons_self, rfl⟩)

section

variable (h : SubmitsOnTime clocks x block called) (hbuilt : x.built ≤ called)

include h hbuilt

theorem SubmitsOnTime.call (hclock : clocks.monotonic + called < 2 ^ 64) :
    OnTime (dispatchDelayedSchedule clocks (startAt called) (itemOf clocks x block) called).log := by
  refine h [] _ (forall_mem_nil _) ?_
  rw [run, step_after hbuilt hclock]
  rfl

theorem SubmitsOnTime.round (hforever : x.value clocks ≠ dispatchTimeForever)
    (hlate : clocks.monotonic + called < (x.value clocks).toNat) {t : Nat} (ht : called ≤ t)
    (hclock : clocks.monotonic + t < 2 ^ 64) :
    OnTime (workerRound clocks { startAt t with head := [itemOf clocks x block] } 0 t).log := by
  have hnow := toNat_now (show clocks.monotonic + called < 2 ^ 64 by omega)
  have hlt : ¬ (itemOf clocks x block).deadlineNs ≤ dispatchMonotonicNowNs clocks called := by
    rw [le_def, hnow]
    exact Nat.not_le.mpr hlate
  refine h [(t, .round 0)] _ (by simp [Event.OfWorker]) ?_
  rw [run, step_after hbuilt (by omega), schedule_later hforever hlt, bind_some, run, step,
    if_pos ⟨ht, hclock⟩]
  rfl

end

/-- The list is right for a deadline exactly if its number is that of the monotonic clock. -/
theorem submitsOnTime_iff (hbuilt : x.built ≤ called)
    (hclock : clocks.monotonic + called < 2 ^ 64) :
    SubmitsOnTime clocks x block called ↔ Agrees clocks x called := by
  refine ⟨fun h => ?_, fun h => submitsOnTime_of_agrees h hbuilt hclock⟩
  have hcall := h.call hbuilt hclock
  have hforever : x.value clocks ≠ dispatchTimeForever := by
    intro heq
    rw [schedule_forever (show (itemOf clocks x block).deadlineNs = _ from heq)] at hcall
    exact hcall _ (mem_append_right _ mem_cons_self)
  refine ⟨hforever, ?_⟩
  rcases Nat.lt_or_ge (clocks.monotonic + called) (x.value clocks).toNat with hlate | hpast
  · left
    rcases Nat.lt_trichotomy (x.value clocks).toNat (clocks.monotonic + x.due) with hlow | heq | hhigh
    · -- a look at the instant of the number submits the block too early
      obtain ⟨t, ht⟩ : ∃ t, (x.value clocks).toNat = clocks.monotonic + t :=
        ⟨(x.value clocks).toNat - clocks.monotonic, by omega⟩
      have hle : (itemOf clocks x block).deadlineNs ≤ dispatchMonotonicNowNs clocks t := by
        rw [le_def, toNat_now (by omega), ← ht]
        exact le_refl _
      have hround := h.round hbuilt hforever hlate (show called ≤ t by omega) (by omega)
      have hearly : x.due ≤ t := hround (.posted (itemOf clocks x block) t) (log_round_posted hle)
      omega
    · exact heq
    · -- a look at the end of the deadline leaves the block on the list
      have hgt : ¬ (itemOf clocks x block).deadlineNs ≤
          dispatchMonotonicNowNs clocks (max called x.due) := by
        rw [le_def, toNat_now (by omega)]
        change ¬ (x.value clocks).toNat ≤ _
        omega
      have hround := h.round hbuilt hforever hlate (le_max_left called x.due) (by omega)
      have hkept : max called x.due < x.due :=
        hround (.kept (itemOf clocks x block) _) (log_round_kept hgt)
      omega
  · right
    have hle : (itemOf clocks x block).deadlineNs ≤ dispatchMonotonicNowNs clocks called := by
      rw [le_def, toNat_now hclock]
      exact hpast
    rw [schedule_past hforever hle] at hcall
    exact ⟨hpast, hcall _ (mem_append_right _ mem_cons_self)⟩

def second : Nat := 1000000000

def upAnHour : Clocks := { monotonic := 3600 * second, realtime := 1700000000 * second }

def oneSecond (producer : Producer) : Deadline :=
  { producer := producer, built := 0, delta := second, nonneg := by decide }

def twoHours : Deadline :=
  { producer := .walltime, built := 0, delta := 7200 * second, nonneg := by decide }

def atStart : Clocks := { monotonic := 0, realtime := 0 }

end Machgate.DispatchAfter
