import Machgate.Interleaving

namespace Machgate.MutexFixup

open Interleaving Option Function BitVec Prod

def darwinPthreadMutexSigMask : BitVec 64 := 0xFFFFFFF0
def darwinPthreadMutexSigCmp : BitVec 64 := 0x32AAABA0

abbrev Thread := Nat

structure Host where
  recursive : Bool
  owner : Option Thread
  count : Nat
  deriving DecidableEq

namespace Host

def zeros : Host := ⟨false, none, 0⟩

def initialised : Host := ⟨true, none, 0⟩

variable (m : Host) (t : Thread)

def lock : BitVec 32 := if m.owner.isSome then 1 else 0

/-- `none` if the mutex is not to be had now. -/
def acquire : Option Host :=
  match m.owner with
  | none => some { m with owner := some t, count := if m.recursive then 1 else m.count }
  | some owner => if m.recursive ∧ owner = t then some { m with count := m.count + 1 } else none

/-- A recursive mutex of another thread is left alone (`EPERM`). -/
def release : Host :=
  if m.recursive then
    if m.owner = some t then
      if m.count ≤ 1 then { m with owner := none, count := 0 } else { m with count := m.count - 1 }
    else m
  else { m with owner := none }

end Host

/-- The bytes of the mutex: a signature of Darwin's static initialisers, or the host's format. -/
inductive Memory
  | darwin (sig : { sig : BitVec 64 // sig &&& darwinPthreadMutexSigMask = darwinPthreadMutexSigCmp })
  | host (m : Host)
  deriving DecidableEq

namespace Memory

/-- The first eight bytes; `__lock` and `__count` of the host's format. -/
def sig : Memory → BitVec 64
  | .darwin sig => sig.1
  | .host m => BitVec.ofNat 32 m.count ++ m.lock

def looksDarwin (m : Memory) : Bool := m.sig &&& darwinPthreadMutexSigMask = darwinPthreadMutexSigCmp

/-- The states in which a mutex is before its first use. -/
def Fresh : Memory → Prop
  | .darwin _ => True
  | .host m => m = Host.zeros

/-- How many times the thread has the mutex, as the mutex itself says. -/
def depth (t : Thread) : Memory → Nat
  | .darwin _ => 0
  | .host m => if m.owner = some t then (if m.recursive then m.count else 1) else 0

end Memory

inductive Call
  | lock
  | trylock
  deriving DecidableEq

/-- The access that a thread makes next: the signature check, `memset` and initialisation of
`fixup_mutex`, the comparison with zeros and the upgrade of `pthread_mutex_lock`, and the host's
function. -/
inductive Phase
  | idle
  | checking (call : Call)
  | clearing (call : Call)
  | initialising (call : Call)
  | comparing
  | upgrading
  | acquiring (call : Call)
  deriving DecidableEq

/-- The thread has found the mutex in need of conversion and is not done with it. -/
def Phase.converting : Phase → Bool
  | .clearing _ | .initialising _ | .upgrading => true
  | _ => false

def afterFixup : Call → Phase
  | .lock => .comparing
  | .trylock => .acquiring .trylock

/-- `depth` counts the locks that the thread has been given and has not given back. -/
structure Local where
  phase : Phase
  depth : Nat
  deriving DecidableEq

def advance (t : Thread) (memory : Memory) (l : Local) : Option (Memory × Local) :=
  match l.phase with
  | .idle => none
  | .checking call =>
    some (memory, { l with phase := if memory.looksDarwin then .clearing call else afterFixup call })
  | .clearing call => some (.host Host.zeros, { l with phase := .initialising call })
  | .initialising call => some (.host Host.initialised, { l with phase := afterFixup call })
  | .comparing =>
    some (memory,
      { l with phase := if memory = .host Host.zeros then .upgrading else .acquiring .lock })
  | .upgrading => some (.host Host.initialised, { l with phase := .acquiring .lock })
  | .acquiring call =>
    match memory with
    | .darwin _ => none
    | .host m =>
      match m.acquire t, call with
      | some taken, _ => some (.host taken, ⟨.idle, l.depth + 1⟩)
      | none, .lock => none
      | none, .trylock => some (.host m, { l with phase := .idle })

inductive Move
  | call (call : Call)
  | unlock
  | advance
  deriving DecidableEq

structure State where
  memory : Memory
  locals : Thread → Local

def initial (memory : Memory) : State := ⟨memory, fun _ => ⟨.idle, 0⟩⟩

def State.after (s : State) (t : Thread) (memory : Memory) (l : Local) : State :=
  ⟨memory, Function.update s.locals t l⟩

/-- A thread gives back only what it has. -/
def step (s : State) : Thread × Move → Option State
  | (t, .call call) =>
    if (s.locals t).phase = .idle then
      some (s.after t s.memory { s.locals t with phase := .checking call })
    else none
  | (t, .unlock) =>
    match s.memory with
    | .darwin _ => none
    | .host m =>
      if (s.locals t).phase = .idle ∧ 0 < (s.locals t).depth then
        some (s.after t (.host (m.release t)) ⟨.idle, (s.locals t).depth - 1⟩)
      else none
  | (t, .advance) =>
    (advance t s.memory (s.locals t)).map fun (memory, l) => s.after t memory l

def Alone (s : State) (a : Thread × Move) : Prop :=
  ∀ t, t ≠ a.1 → (s.locals t).phase.converting = false

structure OneOwner (s : State) : Prop where
  one : ∀ t t', 0 < (s.locals t).depth → 0 < (s.locals t').depth → t = t'
  free : ∀ t t', (s.locals t).phase.converting → (s.locals t').depth = 0

section

variable {m : Host} {t t' : Thread} {memory : Memory}

theorem lock_masked (m : Host) : m.lock &&& 0xFFFFFFF0#32 = 0#32 := by
  rw [Host.lock]
  split <;> rfl

/-- No mutex in the host's format is taken for one in Darwin's. -/
theorem looksDarwin_host (m : Host) : (Memory.host m).looksDarwin = false := by
  have hmask : darwinPthreadMutexSigMask = 0#32 ++ 0xFFFFFFF0#32 := rfl
  rw [Memory.looksDarwin, Memory.sig, hmask, and_append, lock_masked, and_zero]
  rfl

theorem depth_fresh (h : memory.Fresh) (t : Thread) : memory.depth t = 0 := by
  cases memory with
  | darwin sig => rfl
  | host m =>
    cases h
    rfl

theorem depth_one (h : 0 < memory.depth t) (h' : 0 < memory.depth t') : t = t' := by
  cases memory with
  | darwin sig => cases h
  | host m =>
    simp only [Memory.depth] at h h'
    split at h
    · next howner =>
      split at h'
      · next howner' => exact some.inj (howner.symm.trans howner')
      · cases h'
    · cases h

theorem depth_acquire {taken : Host} (h : m.acquire t = some taken) (t' : Thread) :
    (Memory.host taken).depth t' =
      if t' = t then (Memory.host m).depth t + 1 else (Memory.host m).depth t' := by
  rcases m with ⟨recursive, owner, count⟩
  rw [Host.acquire] at h
  split at h
  · next howner =>
    cases h
    cases howner
    cases recursive <;> simp [Memory.depth, eq_comm]
  · next owner' howner =>
    split at h
    · next hown =>
      cases h
      cases howner
      rcases hown with ⟨hrecursive, rfl⟩
      cases hrecursive
      simp only [Memory.depth, some.injEq]
      split
      · next heq => simp [heq]
      · next hne => simp [Ne.symm hne]
    · cases h

theorem depth_release (h : 0 < (Memory.host m).depth t) (t' : Thread) :
    (Memory.host (m.release t)).depth t' =
      if t' = t then (Memory.host m).depth t - 1 else (Memory.host m).depth t' := by
  rcases m with ⟨recursive, owner, count⟩
  simp only [Memory.depth] at h
  split at h
  · next howner =>
    cases howner
    cases recursive with
    | true =>
      simp only [Host.release, Memory.depth, if_true]
      rcases Nat.lt_or_ge 1 count with hcount | hcount
      · rw [if_neg (Nat.not_le.mpr hcount)]
        simp only [some.injEq]
        split
        · next heq => simp [heq]
        · next hne => simp [Ne.symm hne]
      · rw [if_pos hcount]
        simp [Nat.sub_eq_zero_of_le hcount, eq_comm]
        exact fun hne heq => absurd heq hne
    | false => simp [Host.release, Memory.depth, eq_comm]
  · cases h

end

/-- Phases that a thread reaches with the mutex in the host's format. -/
def Phase.past : Phase → Bool
  | .initialising _ | .comparing | .upgrading | .acquiring _ => true
  | _ => false

structure Inv (s : State) : Prop where
  depth : ∀ t, (s.locals t).depth = s.memory.depth t
  past : ∀ t, (s.locals t).phase.past → ∃ m, s.memory = .host m
  converting : ∀ t, (s.locals t).phase.converting → s.memory.Fresh

section

variable {s s' : State} {t : Thread} {memory : Memory} {l : Local}

theorem locals_after (s : State) (t : Thread) (memory : Memory) (l : Local) (t' : Thread) :
    (s.after t memory l).locals t' = if t' = t then l else s.locals t' :=
  update_apply s.locals t l t'

theorem Inv.after (h : Inv s) (halone : ∀ t', t' ≠ t → (s.locals t').phase.converting = false)
    (hdepth : ∀ t', memory.depth t' = if t' = t then l.depth else s.memory.depth t')
    (hhost : (∃ m, s.memory = .host m) ∨ l.phase.past → ∃ m, memory = .host m)
    (hconverting : l.phase.converting → memory.Fresh) : Inv (s.after t memory l) where
  depth := by
    intro t'
    rw [locals_after]
    refine Eq.trans ?_ (hdepth t').symm
    split
    · rfl
    · exact h.depth t'
  past := by
    intro t' ht'
    rw [locals_after] at ht'
    split at ht'
    · exact hhost (Or.inr ht')
    · exact hhost (Or.inl (h.past t' ht'))
  converting := by
    intro t' ht'
    rw [locals_after] at ht'
    split at ht'
    · exact hconverting ht'
    · next hne => simp [halone t' hne] at ht'

theorem Inv.read {phase : Phase} (h : Inv s)
    (halone : ∀ t', t' ≠ t → (s.locals t').phase.converting = false)
    (hpast : phase.past → ∃ m, s.memory = .host m)
    (hconverting : phase.converting → s.memory.Fresh) :
    Inv (s.after t s.memory { s.locals t with phase := phase }) := by
  apply h.after halone
  · intro t'
    split
    · next heq => rw [heq, h.depth]
    · rfl
  · exact fun hhost => hhost.elim id hpast
  · exact hconverting

theorem Inv.write {m : Host} {phase : Phase} (h : Inv s)
    (halone : ∀ t', t' ≠ t → (s.locals t').phase.converting = false)
    (hphase : (s.locals t).phase.converting) (hm : m.owner = none)
    (hconverting : phase.converting → m = Host.zeros) :
    Inv (s.after t (.host m) { s.locals t with phase := phase }) := by
  have hzero := depth_fresh (h.converting t hphase)
  apply h.after halone
  · intro t'
    have hnone : (Memory.host m).depth t' = 0 := by simp [Memory.depth, hm]
    simp [hnone, hzero, h.depth]
  · exact fun _ => ⟨m, rfl⟩
  · exact hconverting

theorem Inv.advance (h : Inv s) (halone : ∀ t', t' ≠ t → (s.locals t').phase.converting = false)
    (hmove : MutexFixup.advance t s.memory (s.locals t) = some (memory, l)) :
    Inv (s.after t memory l) := by
  rw [MutexFixup.advance] at hmove
  split at hmove
  · cases hmove
  · next call hphase =>
    cases hmove
    cases hmemory : s.memory with
    | darwin sig =>
      have hlooks : (Memory.darwin sig).looksDarwin := decide_eq_true sig.2
      rw [if_pos hlooks, ← hmemory]
      apply h.read halone
      · simp [Phase.past]
      · rw [hmemory]
        exact fun _ => trivial
    | host m =>
      rw [if_neg (by simp [looksDarwin_host]), ← hmemory]
      apply h.read halone
      · exact fun _ => ⟨m, hmemory⟩
      · cases call <;> simp [afterFixup, Phase.converting]
  · next call hphase =>
    cases hmove
    exact h.write halone (by rw [hphase]; rfl) rfl fun _ => rfl
  · next call hphase =>
    cases hmove
    apply h.write halone (by rw [hphase]; rfl) rfl
    cases call <;> simp [afterFixup, Phase.converting]
  · next hphase =>
    cases hmove
    have hhost := h.past t (by rw [hphase]; rfl)
    apply h.read halone (fun _ => hhost)
    split
    · next hzeros =>
      rw [hzeros]
      exact fun _ => rfl
    · simp [Phase.converting]
  · next hphase =>
    cases hmove
    apply h.write halone (by rw [hphase]; rfl) rfl
    simp [Phase.converting]
  · next call hphase =>
    cases hmemory : s.memory with
    | darwin sig =>
      rw [hmemory] at hmove
      cases hmove
    | host m =>
      simp only [hmemory] at hmove
      split at hmove
      · next taken htaken =>
        cases hmove
        apply h.after halone
        · intro t'
          rw [depth_acquire htaken, h.depth, hmemory]
        · exact fun _ => ⟨taken, rfl⟩
        · simp [Phase.converting]
      · cases hmove
      · cases hmove
        rw [← hmemory]
        apply h.read halone <;> simp [Phase.past, Phase.converting]

theorem Inv.step {a : Thread × Move} (h : Inv s) (halone : Alone s a)
    (hstep : MutexFixup.step s a = some s') : Inv s' := by
  rcases a with ⟨t, move⟩
  cases move with
  | call call =>
    rw [MutexFixup.step] at hstep
    split at hstep
    · cases hstep
      apply h.read halone <;> simp [Phase.past, Phase.converting]
    · cases hstep
  | unlock =>
    rw [MutexFixup.step] at hstep
    split at hstep
    · cases hstep
    · next m hmemory =>
      split at hstep
      · next hhas =>
        cases hstep
        have hdepth := h.depth t
        rw [hmemory] at hdepth
        apply h.after halone
        · intro t'
          rw [depth_release (hdepth ▸ hhas.2), hdepth, hmemory]
        · exact fun _ => ⟨m.release t, rfl⟩
        · simp [Phase.converting]
      · cases hstep
  | advance =>
    rcases map_eq_some_iff.mp hstep with ⟨⟨memory, l⟩, hmove, rfl⟩
    exact h.advance halone hmove

theorem Inv.oneOwner (h : Inv s) : OneOwner s where
  one := by
    intro t t' ht ht'
    rw [h.depth] at ht ht'
    exact depth_one ht ht'
  free := by
    intro t t' ht
    rw [h.depth]
    exact depth_fresh (h.converting t ht) t'

theorem inv_initial (hfresh : memory.Fresh) : Inv (initial memory) where
  depth := fun t => (depth_fresh hfresh t).symm
  past := by
    intro t ht
    cases ht
  converting := by
    intro t ht
    cases ht

end

theorem oneOwner_of_alone {memory : Memory} {schedule : List (Thread × Move)} {s : State}
    (hfresh : memory.Fresh) (halone : Along step Alone (initial memory) schedule)
    (hrun : run step (initial memory) schedule = some s) : OneOwner s :=
  (invariant_along (fun _ _ _ h halone hstep => h.step halone hstep) (inv_initial hfresh) halone
    hrun).oneOwner

def darwinInitializer : Memory := .darwin ⟨0x32AAABA7, by decide⟩

/-- Both threads find the signature; the first one has the mutex when the second one clears it. -/
def overlapping : List (Thread × Move) :=
  [(1, .call .lock), (2, .call .lock), (1, .advance), (2, .advance), (1, .advance), (1, .advance),
    (1, .advance), (1, .advance), (2, .advance), (2, .advance), (2, .advance), (2, .advance)]

def depthsAfter (memory : Memory) (schedule : List (Thread × Move)) : Option (Nat × Nat) :=
  (run step (initial memory) schedule).map fun s => ((s.locals 1).depth, (s.locals 2).depth)

theorem two_owners :
    darwinInitializer.Fresh ∧
      ∃ s, run step (initial darwinInitializer) overlapping = some s ∧ ¬ OneOwner s := by
  have hdepths : depthsAfter darwinInitializer overlapping = some (1, 1) := by decide +kernel
  rcases map_eq_some_iff.mp hdepths with ⟨s, hrun, heq⟩
  rcases mk.inj heq with ⟨hfirst, hsecond⟩
  refine ⟨trivial, s, hrun, fun h => ?_⟩
  cases h.one 1 2 (by rw [hfirst]; decide) (by rw [hsecond]; decide)

theorem step_others {s s' : State} {a : Thread × Move} {t : Thread} (hstep : step s a = some s')
    (hne : t ≠ a.1) : s'.locals t = s.locals t := by
  rcases a with ⟨u, move⟩
  cases move with
  | call call =>
    rw [step] at hstep
    split at hstep
    · cases hstep
      exact update_of_ne hne _ _
    · cases hstep
  | unlock =>
    rw [step] at hstep
    split at hstep
    · cases hstep
    · split at hstep
      · cases hstep
        exact update_of_ne hne _ _
      · cases hstep
  | advance =>
    rcases map_eq_some_iff.mp hstep with ⟨⟨memory, l⟩, -, rfl⟩
    exact update_of_ne hne _ _

def AloneAmong (threads : List Thread) (s : State) (a : Thread × Move) : Prop :=
  a.1 ∈ threads ∧ ∀ t ∈ threads, t ≠ a.1 → (s.locals t).phase.converting = false

instance (threads : List Thread) (s : State) (a : Thread × Move) :
    Decidable (AloneAmong threads s a) :=
  inferInstanceAs (Decidable (_ ∧ _))

theorem alone_of_among {threads : List Thread} {memory : Memory} {schedule : List (Thread × Move)}
    (h : Along step (AloneAmong threads) (initial memory) schedule) :
    Along step Alone (initial memory) schedule := by
  refine Along.of_among State.locals fst (fun _ _ _ _ => step_others) (fun _ _ h => h.1) ?_
    (fun _ _ => rfl) h
  intro s a hidle hamong t hne
  rcases Decidable.em (t ∈ threads) with ht | ht
  · exact hamong.2 t ht hne
  · rw [hidle t ht]
    rfl

/-- The second thread comes when the conversion is done, and gets the mutex when the first one has
given it back. -/
def oneByOne : List (Thread × Move) :=
  [(1, .call .lock), (1, .advance), (1, .advance), (1, .advance), (1, .advance), (1, .advance),
    (2, .call .lock), (2, .advance), (2, .advance), (1, .unlock), (2, .advance)]

theorem oneByOne_oneOwner :
    Along step Alone (initial darwinInitializer) oneByOne ∧
      ∃ s, run step (initial darwinInitializer) oneByOne = some s ∧ OneOwner s := by
  have halone : Along step Alone (initial darwinInitializer) oneByOne :=
    @alone_of_among [1, 2] _ _ (by decide +kernel)
  have hfresh : darwinInitializer.Fresh := trivial
  have hdepths : depthsAfter darwinInitializer oneByOne = some (0, 1) := by decide +kernel
  rcases map_eq_some_iff.mp hdepths with ⟨s, hrun, -⟩
  exact ⟨halone, s, hrun, oneOwner_of_alone hfresh halone hrun⟩

end Machgate.MutexFixup
