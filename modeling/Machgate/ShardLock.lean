import Mathlib.Data.BitVec
import Machgate.Interleaving

namespace Machgate.ShardLock

open Interleaving Function Option

def machgateAllocationLockSpinLimit : Nat := 64

/-- Where a thread is in `allocation_shard_lock` and `allocation_shard_unlock`: the access to
`lock_state` or the system call that it makes next. -/
inductive Phase
  | outside
  | trying
  | loading (spin : Nat)
  | retrying (spin : Nat)
  | exchanging
  | waiting
  | asleep
  | holding
  | subtracting
  | storing
  | waking
  deriving DecidableEq

/-- From the access that takes the lock to the one that gives it back. -/
def Phase.owns : Phase → Bool
  | .holding | .subtracting | .storing => true
  | _ => false

/-- About to take the lock away from the sleepers or to wake one of them. -/
def Phase.stirs : Phase → Bool
  | .exchanging | .storing | .waking => true
  | _ => false

structure State (T : Type) where
  lockState : BitVec 32
  phase : T → Phase

def initial (T : Type) : State T := ⟨0, fun _ => .outside⟩

def spinning (spin : Nat) : Phase :=
  if spin < machgateAllocationLockSpinLimit then .loading spin else .exchanging

/-- One access of a thread to the word; the futex wait compares and falls asleep in one step. -/
def access (word : BitVec 32) : Phase → Option (BitVec 32 × Phase)
  | .trying => some (if word = 0 then (1, .holding) else (word, spinning 0))
  | .loading spin => some (word, if word = 0 then .retrying spin else spinning (spin + 1))
  | .retrying spin => some (if word = 0 then (1, .holding) else (word, spinning (spin + 1)))
  | .exchanging => some (2, if word = 0 then .holding else .waiting)
  | .waiting => some (word, if word = 2 then .asleep else .exchanging)
  | .subtracting => some (word - 1, if word = 1 then .outside else .storing)
  | .storing => some (0, .waking)
  | .outside | .asleep | .holding | .waking => none

/-- `interrupt` is a futex wait that returns without a wake. -/
inductive Move (T : Type)
  | lock (t : T)
  | unlock (t : T)
  | access (t : T)
  | wake (t sleeper : T)
  | wakeNobody (t : T)
  | interrupt (t : T)

variable {T : Type} [DecidableEq T]

def State.set (s : State T) (t : T) (word : BitVec 32) (p : Phase) : State T :=
  ⟨word, update s.phase t p⟩

/-- Only a thread that holds the lock unlocks it; a wake finds a sleeper if there is one. -/
def step [Fintype T] (s : State T) : Move T → Option (State T)
  | .lock t => if s.phase t = .outside then some (s.set t s.lockState .trying) else none
  | .unlock t => if s.phase t = .holding then some (s.set t s.lockState .subtracting) else none
  | .access t => (access s.lockState (s.phase t)).map fun after => s.set t after.1 after.2
  | .wake t u =>
    if s.phase t = .waking ∧ s.phase u = .asleep then
      some ((s.set u s.lockState .exchanging).set t s.lockState .outside)
    else none
  | .wakeNobody t =>
    if s.phase t = .waking ∧ ∀ u, s.phase u ≠ .asleep then some (s.set t s.lockState .outside)
    else none
  | .interrupt t => if s.phase t = .asleep then some (s.set t s.lockState .exchanging) else none

/-- The word says whether the lock is free; it has one owner at most. -/
structure Owned (s : State T) : Prop where
  word : s.lockState = 0 ∨ s.lockState = 1 ∨ s.lockState = 2
  free : s.lockState = 0 ↔ ∀ t, (s.phase t).owns = false
  single : ∀ t u, (s.phase t).owns → (s.phase u).owns → t = u

/-- The owner knows of a sleeper from the word, or another thread is on its way. -/
def Awaited (s : State T) : Prop :=
  ∀ t, s.phase t = .asleep → s.lockState = 2 ∨ ∃ u, (s.phase u).stirs

/-- A change of one phase and of the word that is in order for the ownership: of a thread that has no
part in it, or of the owner or one that finds the lock free. -/
def Transfers (word : BitVec 32) (p : Phase) (word' : BitVec 32) (q : Phase) : Prop :=
  (word' = 0 ∨ word' = 1 ∨ word' = 2) ∧
    (p.owns = false ∧ q.owns = false ∧ (word' = 0 ↔ word = 0) ∨
      (p.owns ∨ word = 0) ∧ (word' = 0 ↔ q.owns = false))

/-- A change that is in order for the sleepers. -/
def Announces (word : BitVec 32) (p : Phase) (word' : BitVec 32) (q : Phase) : Prop :=
  word' = 2 ∨ q.stirs ∨ q ≠ .asleep ∧ p.stirs = false ∧ word ≠ 2

variable {s s' : State T} {t u : T} {word word' : BitVec 32} {p q : Phase}

theorem phase_set_self : (s.set t word p).phase t = p := by
  simp [State.set]

theorem phase_set_of_ne (h : u ≠ t) : (s.set t word p).phase u = s.phase u := by
  simp [State.set, h]

theorem Owned.set (h : Owned s) (hset : Transfers s.lockState (s.phase t) word p) :
    Owned (s.set t word p) := by
  rcases hset with ⟨hword, ⟨hbefore, hafter, hfree⟩ | ⟨hbefore, hfree⟩⟩
  · have howns : ∀ u, ((s.set t word p).phase u).owns = (s.phase u).owns := by
      intro u
      rcases eq_or_ne u t with rfl | hu
      · rw [phase_set_self, hbefore, hafter]
      · rw [phase_set_of_ne hu]
    refine ⟨hword, hfree.trans ?_, ?_⟩
    · simpa only [howns] using h.free
    · simpa only [howns] using h.single
  · have hothers : ∀ u, u ≠ t → (s.phase u).owns = false := by
      intro u hu
      rcases hbefore with ht | hzero
      · exact Bool.eq_false_iff.mpr fun howns => hu (h.single u t howns ht)
      · exact h.free.mp hzero u
    have howner : ∀ u, ((s.set t word p).phase u).owns → u = t := by
      intro u howns
      by_contra hu
      rw [phase_set_of_ne hu, hothers u hu] at howns
      cases howns
    refine ⟨hword, hfree.trans ?_, fun u v hu hv => (howner u hu).trans (howner v hv).symm⟩
    exact ((forall_update_iff s.phase fun _ q => q.owns = false).trans (and_iff_left hothers)).symm

/-- `os_unfair_lock_lock` repeats it until it succeeds. -/
def osUnfairLockTrylock (s : State T) (t : T) : State T × Bool :=
  if s.lockState = 0 then (s.set t 1 .holding, true) else (s, false)

/-- No matter who holds the lock. -/
def osUnfairLockUnlock (s : State T) (t : T) : State T := s.set t 0 .outside

inductive UnfairMove (T : Type)
  | trylock (t : T)
  | unlock (t : T)

def unfairStep (s : State T) : UnfairMove T → Option (State T)
  | .trylock t => some (osUnfairLockTrylock s t).1
  | .unlock t => some (osUnfairLockUnlock s t)

def unlocksOwn (s : State T) : UnfairMove T → Bool
  | .trylock _ => true
  | .unlock t => s.phase t = .holding

theorem Owned.unfairStep {a : UnfairMove T} (h : Owned s) (hown : unlocksOwn s a)
    (hstep : unfairStep s a = some s') : Owned s' := by
  cases a with
  | trylock t =>
    cases hstep
    unfold osUnfairLockTrylock
    split
    · next hfree => exact h.set ⟨.inr (.inl rfl), .inr ⟨.inr hfree, by decide⟩⟩
    · exact h
  | unlock t =>
    cases hstep
    exact h.set ⟨.inl rfl, .inr ⟨.inl (by rw [of_decide_eq_true hown]; rfl), by decide⟩⟩

theorem unfair_owned {schedule : List (UnfairMove T)}
    (hown : Along unfairStep (unlocksOwn · ·) (initial T) schedule)
    (hrun : run unfairStep (initial T) schedule = some s) :
    Owned s ∧ ∀ t, (osUnfairLockTrylock s t).2 ↔ ∀ u, (s.phase u).owns = false := by
  have hinitial : Owned (initial T) := ⟨.inl rfl, iff_of_true rfl fun _ => rfl, fun _ _ h => nomatch h⟩
  have howned := invariant_along (fun _ _ _ h => h.unfairStep) hinitial hown hrun
  refine ⟨howned, fun t => ?_⟩
  rw [← howned.free, osUnfairLockTrylock]
  split <;> simp_all

def handover : List (UnfairMove Bool) := [.trylock true, .trylock false, .unlock true, .trylock false]

theorem handover_owned :
    ∃ s, run unfairStep (initial Bool) handover = some s ∧ s.phase false = .holding ∧ Owned s :=
  ⟨_, rfl, rfl, (@unfair_owned Bool _ _ handover (by decide) rfl).1⟩

theorem Awaited.set (h : Awaited s) (hset : Announces s.lockState (s.phase t) word p) :
    Awaited (s.set t word p) := by
  intro u hu
  rcases hset with hword | hstirs | ⟨hp, hquiet, hword⟩
  · exact .inl hword
  · exact .inr ⟨t, by rwa [phase_set_self]⟩
  · have hut : u ≠ t := by
      rintro rfl
      exact hp (phase_set_self.symm.trans hu)
    rcases h u ((phase_set_of_ne hut).symm.trans hu) with hword' | ⟨v, hv⟩
    · exact absurd hword' hword
    · have hvt : v ≠ t := by
        rintro rfl
        simp [hquiet] at hv
      exact .inr ⟨v, by rwa [phase_set_of_ne hvt]⟩

theorem spinning_eq (spin : Nat) : spinning spin = .exchanging ∨ spinning spin = .loading spin := by
  unfold spinning
  split
  · exact .inr rfl
  · exact .inl rfl

theorem access_in_order (haccess : access word p = some (word', q))
    (hword : word = 0 ∨ word = 1 ∨ word = 2) (howned : p.owns → word ≠ 0) :
    Transfers word p word' q ∧ Announces word p word' q := by
  have hspin := spinning_eq
  rcases hword with rfl | rfl | rfl
  all_goals cases p <;> simp only [access] at haccess <;> cases haccess
  all_goals grind [Transfers, Announces, Phase.owns, Phase.stirs]

theorem enter_in_order (hword : word = 0 ∨ word = 1 ∨ word = 2) (howned : p.owns → word ≠ 0)
    (hpq : p = .outside ∧ q = .trying ∨ p = .holding ∧ q = .subtracting ∨ p = .asleep ∧ q = .exchanging) :
    Transfers word p word q ∧ Announces word p word q := by
  grind [Transfers, Announces, Phase.owns, Phase.stirs]

variable [Fintype T]

theorem sound_step {move : Move T} (h : Owned s ∧ Awaited s) (hstep : step s move = some s') :
    Owned s' ∧ Awaited s' := by
  obtain ⟨howned, hawaited⟩ := h
  have hword := howned.word
  have hzero : ∀ t, (s.phase t).owns → s.lockState ≠ 0 := by
    intro t ht hfree
    simp [howned.free.mp hfree t] at ht
  have hset : ∀ {t word p}, Transfers s.lockState (s.phase t) word p ∧
      Announces s.lockState (s.phase t) word p → Owned (s.set t word p) ∧ Awaited (s.set t word p) :=
    fun horder => ⟨howned.set horder.1, hawaited.set horder.2⟩
  cases move with
  | lock t =>
    rcases ite_none_right_eq_some.mp hstep with ⟨ht, ⟨⟩⟩
    exact hset (enter_in_order hword (hzero t) (.inl ⟨ht, rfl⟩))
  | unlock t =>
    rcases ite_none_right_eq_some.mp hstep with ⟨ht, ⟨⟩⟩
    exact hset (enter_in_order hword (hzero t) (.inr (.inl ⟨ht, rfl⟩)))
  | access t =>
    rcases map_eq_some_iff.mp hstep with ⟨⟨word, p⟩, haccess, rfl⟩
    exact hset (access_in_order haccess hword (hzero t))
  | interrupt t =>
    rcases ite_none_right_eq_some.mp hstep with ⟨ht, ⟨⟩⟩
    exact hset (enter_in_order hword (hzero t) (.inr (.inr ⟨ht, rfl⟩)))
  | wake t u =>
    -- the woken thread is the one that is on its way now
    rcases ite_none_right_eq_some.mp hstep with ⟨⟨ht, hu⟩, ⟨⟩⟩
    have hut : u ≠ t := by
      rintro rfl
      simp [ht] at hu
    have hwoken := hset (enter_in_order hword (hzero u) (.inr (.inr ⟨hu, rfl⟩)))
    refine ⟨hwoken.1.set ⟨hword, .inl ⟨?_, rfl, Iff.rfl⟩⟩, fun v _ => .inr ⟨u, ?_⟩⟩
    · rw [phase_set_of_ne hut.symm, ht]
      rfl
    · rw [phase_set_of_ne hut, phase_set_self]
      rfl
  | wakeNobody t =>
    rcases ite_none_right_eq_some.mp hstep with ⟨⟨ht, hnobody⟩, ⟨⟩⟩
    have hawake : ∀ u, (s.set t s.lockState .outside).phase u ≠ .asleep :=
      (forall_update_iff s.phase fun _ q => q ≠ .asleep).mpr ⟨by decide, fun u _ => hnobody u⟩
    exact ⟨howned.set ⟨hword, .inl ⟨by rw [ht]; rfl, rfl, Iff.rfl⟩⟩, fun u hu => absurd hu (hawake u)⟩

/-- One holder at a time; and while the lock is free, the sleepers are not all that is left of the
threads inside of the two functions. -/
theorem exclusive_and_awaited {schedule : List (Move T)}
    (hrun : run step (initial T) schedule = some s) :
    (∀ t u, s.phase t = .holding → s.phase u = .holding → t = u) ∧
      ¬ (s.lockState = 0 ∧ (∃ t, s.phase t = .asleep) ∧
        ∀ u, s.phase u = .asleep ∨ s.phase u = .outside ∨ s.phase u = .holding) := by
  have hinitial : Owned (initial T) ∧ Awaited (initial T) :=
    ⟨⟨.inl rfl, iff_of_true rfl fun _ => rfl, fun _ _ h => nomatch h⟩, fun _ h => nomatch h⟩
  rcases invariant_run (fun _ _ _ h hstep => sound_step h hstep) hinitial hrun with ⟨howned, hawaited⟩
  constructor
  · intro t u ht hu
    exact howned.single t u (by rw [ht]; rfl) (by rw [hu]; rfl)
  · rintro ⟨hzero, ⟨t, ht⟩, hothers⟩
    rcases hawaited t ht with htwo | ⟨u, hu⟩
    · simp [hzero] at htwo
    · rcases hothers u with h | h | h
      all_goals simp [h, Phase.stirs] at hu

/-- One thread holds the lock while the other spins to the limit and falls asleep. -/
def contended : List (Move Bool) :=
  [.lock true, .access true, .lock false, .access false] ++
    List.replicate 66 (.access false) ++ [.unlock true, .access true]

theorem contended_exclusive :
    ∃ s, run step (initial Bool) contended = some s ∧ s.phase false = .asleep ∧
      s.phase true = .storing ∧ ∀ t u, s.phase t = .holding → s.phase u = .holding → t = u := by
  have hrun : ((run step (initial Bool) contended).map fun s => (s.phase false, s.phase true)) =
      some (.asleep, .storing) := by decide +kernel
  rcases map_eq_some_iff.mp hrun with ⟨s, hs, hphases⟩
  rcases Prod.mk.inj hphases with ⟨hasleep, hstoring⟩
  exact ⟨s, hs, hasleep, hstoring, (exclusive_and_awaited hs).1⟩

end Machgate.ShardLock
