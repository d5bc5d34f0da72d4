import Mathlib.Order.Bounds.Basic
import Mathlib.Data.BitVec

/-!
Deadlines of the dispatch library: the calls that build a `dispatch_time_t`, and the wait for a
semaphore up to one.  Instants are nanoseconds since the start of a run, in which no clock is set.
-/

namespace Machgate.DispatchTime

open BitVec Nat

structure Clocks where
  monotonic : Nat
  realtime : Nat

structure Timespec where
  sec : Nat
  nsec : Nat

def nsecPerSec : Nat := 1000000000

def Timespec.toNs (ts : Timespec) : Nat := ts.sec * nsecPerSec + ts.nsec

def clockGettime (origin instant : Nat) : Timespec :=
  { sec := (origin + instant) / nsecPerSec, nsec := (origin + instant) % nsecPerSec }

def Timespec.ns64 (ts : Timespec) : BitVec 64 :=
  BitVec.ofNat 64 ts.sec * BitVec.ofNat 64 nsecPerSec + BitVec.ofNat 64 ts.nsec

theorem toNs_clockGettime (origin instant : Nat) :
    (clockGettime origin instant).toNs = origin + instant :=
  div_add_mod' _ _

theorem ns64_eq (ts : Timespec) : ts.ns64 = BitVec.ofNat 64 ts.toNs := by
  rw [Timespec.ns64, Timespec.toNs, ofNat_add, ofNat_mul]

def dispatchTimeNow : BitVec 64 := 0

def dispatchTimeForever : BitVec 64 := BitVec.allOnes 64

def dispatchTime (clocks : Clocks) (instant : Nat) (when delta : BitVec 64) : BitVec 64 :=
  if when = dispatchTimeForever then dispatchTimeForever
  else
    let now := (clockGettime clocks.monotonic instant).ns64
    (if when = dispatchTimeNow then now else when) + delta

def dispatchWalltime (clocks : Clocks) (instant : Nat) (when : Option Timespec)
    (delta : BitVec 64) : BitVec 64 :=
  (match when with
    | some ts => ts.ns64
    | none => (clockGettime clocks.realtime instant).ns64) + delta

/-- `dispatch_time(DISPATCH_TIME_NOW, delta)` or `dispatch_walltime(NULL, delta)`. -/
inductive Producer
  | time
  | walltime

structure Deadline where
  producer : Producer
  built : Nat
  delta : Nat
  nonneg : delta < 2 ^ 63

namespace Deadline

def value (clocks : Clocks) (x : Deadline) : BitVec 64 :=
  match x.producer with
  | .time => dispatchTime clocks x.built dispatchTimeNow (BitVec.ofNat 64 x.delta)
  | .walltime => dispatchWalltime clocks x.built none (BitVec.ofNat 64 x.delta)

def due (x : Deadline) : Nat := x.built + x.delta

def reading (clocks : Clocks) (x : Deadline) : Nat :=
  match x.producer with
  | .time => clocks.monotonic + x.built
  | .walltime => clocks.realtime + x.built

theorem value_eq (clocks : Clocks) (x : Deadline) :
    x.value clocks = BitVec.ofNat 64 (x.reading clocks + x.delta) := by
  have hnow : dispatchTimeNow ≠ dispatchTimeForever := by decide
  rw [value, reading]
  split
  · rw [dispatchTime, if_neg hnow]
    dsimp only
    rw [if_pos rfl, ns64_eq, toNs_clockGettime, ← ofNat_add]
  · rw [dispatchWalltime, ns64_eq, toNs_clockGettime, ← ofNat_add]

theorem toNat_value (clocks : Clocks) (x : Deadline) :
    (x.value clocks).toNat = (x.reading clocks + x.delta) % 2 ^ 64 := by
  rw [value_eq, toNat_ofNat]

end Deadline

inductive SemWait
  | wait
  | trywait
  | timedwait (ts : Timespec)

def dispatchSemaphoreWait (clocks : Clocks) (instant : Nat) (timeout : BitVec 64) : SemWait :=
  if timeout = dispatchTimeForever then .wait
  else if timeout = dispatchTimeNow then .trywait
  else
    let ts := clockGettime clocks.realtime instant
    let sec := ts.sec + timeout.toNat / nsecPerSec
    let nsec := ts.nsec + timeout.toNat % nsecPerSec
    if nsecPerSec ≤ nsec then .timedwait { sec := sec + 1, nsec := nsec - nsecPerSec }
    else .timedwait { sec := sec, nsec := nsec }

/-- A wait that begins at `instant`, for a semaphore that nobody signals, gives up at `t`. -/
def SemWait.GivesUp (clocks : Clocks) (instant : Nat) (t : Nat) : SemWait → Prop
  | .wait => False
  | .trywait => t = instant
  | .timedwait ts => IsLeast {t | instant ≤ t ∧ ts.toNs ≤ clocks.realtime + t} t

/-- The wait that is called at `called` gives up when the deadline is over, with the time since
the deadline was built as tolerance. -/
def GivesUpOnTime (clocks : Clocks) (x : Deadline) (called : Nat) : Prop :=
  ∃ t, (dispatchSemaphoreWait clocks called (x.value clocks)).GivesUp clocks called t ∧
    x.due ≤ t ∧ t ≤ x.due + (called - x.built)

theorem givesUp_iff {clocks : Clocks} {called t : Nat} {timeout : BitVec 64} :
    (dispatchSemaphoreWait clocks called timeout).GivesUp clocks called t ↔
      timeout ≠ dispatchTimeForever ∧ t = called + timeout.toNat := by
  rw [dispatchSemaphoreWait]
  split
  · next hforever => simp [SemWait.GivesUp, hforever]
  · next hforever =>
    split
    · next hnow => simp [SemWait.GivesUp, hnow, dispatchTimeNow, dispatchTimeForever]
    · have hts : ∀ ts : Timespec, ts.toNs = clocks.realtime + called + timeout.toNat →
          ((SemWait.timedwait ts).GivesUp clocks called t ↔ t = called + timeout.toNat) := by
        intro ts hts
        have hleast : IsLeast {t | called ≤ t ∧ ts.toNs ≤ clocks.realtime + t}
            (called + timeout.toNat) := by
          refine ⟨⟨by omega, by omega⟩, fun u hu => ?_⟩
          obtain ⟨-, hu⟩ := hu
          omega
        exact ⟨fun h => h.unique hleast, fun h => h ▸ hleast⟩
      have hclock := toNs_clockGettime clocks.realtime called
      have htimeout := div_add_mod' timeout.toNat nsecPerSec
      rw [Timespec.toNs] at hclock
      rw [and_iff_right hforever]
      dsimp only
      split
      all_goals
        refine hts _ ?_
        simp only [Timespec.toNs, Nat.add_mul]
        omega

/-- A deadline is taken for a duration, so that the wait is right only if the clock of the producer
stood at 0, or has run over since. -/
theorem givesUpOnTime_iff {clocks : Clocks} {x : Deadline} {called : Nat} (h : x.built ≤ called) :
    GivesUpOnTime clocks x called ↔
      x.reading clocks % 2 ^ 64 = 0 ∨
        2 ^ 64 ≤ x.reading clocks % 2 ^ 64 + min x.delta (called - x.built) := by
  have hdelta := x.nonneg
  have hvalue := x.toNat_value clocks
  have hforever : x.value clocks = dispatchTimeForever ↔ (x.value clocks).toNat = 2 ^ 64 - 1 :=
    toNat_inj.symm
  rw [GivesUpOnTime]
  simp only [givesUp_iff, Deadline.due, Ne, hforever, hvalue]
  constructor
  · rintro ⟨t, ⟨-, rfl⟩, hlow, hhigh⟩
    omega
  · intro hright
    exact ⟨_, ⟨by omega, rfl⟩, by omega, by omega⟩

end Machgate.DispatchTime
