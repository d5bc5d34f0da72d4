import Machgate.Interleaving

namespace Machgate.FilePorts

open Interleaving Function List Option

def machgateFileportBase : BitVec 32 := 0x4f000000
def machgateFileportMax : Nat := 64
def darwinEnomem : Nat := 12
def darwinEfault : Nat := 14
def darwinEinval : Nat := 22

structure FileportEntry where
  fd : Int
  portName : BitVec 32
  deriving DecidableEq

/-- What the descriptors refer to, the table, and each port that a guest was given with what its
descriptor referred to at that time. -/
structure State where
  files : Int → Option Nat
  entries : List FileportEntry
  issued : List (BitVec 32 × Option Nat)

def initial (files : Int → Option Nat) : State := ⟨files, List.replicate machgateFileportMax ⟨0, 0⟩, []⟩

/-- The entry at the index that `fileport_index_for_port` gives. -/
def fileportForPort (entries : List FileportEntry) (portName : BitVec 32) : Option FileportEntry :=
  entries.find? (·.portName = portName)

def portAt (index : Nat) : BitVec 32 := machgateFileportBase + BitVec.ofNat 32 index + 1

/-- `answer` is what the kernel gives for `F_DUPFD_CLOEXEC`. -/
def dispatchFileportMakeport (s : State) (fd : Int) (portName : Bool) (answer : Except Nat Int) :
    State × Except Nat (BitVec 32) :=
  if portName = false then (s, .error darwinEfault)
  else
    match answer with
    | .error errno => (s, .error errno)
    | .ok duplicate =>
      let files := update s.files duplicate (s.files fd)
      match s.entries.findIdx? (·.portName = 0) with
      | some index =>
        (⟨files, s.entries.set index ⟨duplicate, portAt index⟩, s.issued ++ [(portAt index, s.files fd)]⟩,
          .ok (portAt index))
      | none => ({ s with files := update files duplicate none }, .error darwinEnomem)

def dispatchFileportMakefd (s : State) (portName : BitVec 32) (answer : Except Nat Int) :
    State × Except Nat Int :=
  match fileportForPort s.entries portName with
  | none => (s, .error darwinEinval)
  | some entry =>
    match answer with
    | .error errno => (s, .error errno)
    | .ok duplicate => ({ s with files := update s.files duplicate (s.files entry.fd) }, .ok duplicate)

inductive Call
  | makeport (fd : Int) (portName : Bool) (answer : Except Nat Int)
  | makefd (portName : BitVec 32) (answer : Except Nat Int)

/-- The kernel duplicates an open descriptor only, under a number that is free. -/
def Answers (files : Int → Option Nat) (fd : Int) (answer : Except Nat Int) : Prop :=
  ∀ duplicate, answer = .ok duplicate → files fd ≠ none ∧ files duplicate = none

instance (files : Int → Option Nat) (fd : Int) : ∀ answer, Decidable (Answers files fd answer)
  | .error _ => isTrue nofun
  | .ok duplicate =>
    decidable_of_iff (files fd ≠ none ∧ files duplicate = none) ⟨by rintro h _ ⟨⟩; exact h, fun h => h _ rfl⟩

def step (s : State) : Call → Option State
  | .makeport fd portName answer =>
    if Answers s.files fd answer then some (dispatchFileportMakeport s fd portName answer).1 else none
  | .makefd portName answer =>
    if ∀ entry ∈ fileportForPort s.entries portName,
        Answers s.files entry.fd answer then
      some (dispatchFileportMakefd s portName answer).1
    else none

/-- A descriptor is given for an issued port only, and then for what the port stands for; any other
port is invalid. -/
def Honest (s : State) : Call → Prop
  | .makeport _ _ _ => True
  | .makefd portName answer =>
    ∀ s', step s (.makefd portName answer) = some s' →
      (∀ fd, (dispatchFileportMakefd s portName answer).2 = .ok fd → (portName, s'.files fd) ∈ s.issued) ∧
      ((∀ description, (portName, description) ∉ s.issued) →
        (dispatchFileportMakefd s portName answer).2 = .error darwinEinval)

/-- Port 0 is not asked for while an entry is free, unless the kernel itself says `EINVAL`. -/
def Named (s : State) : Call → Prop
  | .makeport _ _ _ => True
  | .makefd portName answer =>
    portName = 0 → step s (.makefd portName answer) ≠ none →
      answer = .error darwinEinval ∨ ∀ entry ∈ s.entries, entry.portName ≠ 0

structure Sound (s : State) : Prop where
  size : s.entries.length = machgateFileportMax
  backed : ∀ entry ∈ s.entries, entry.portName ≠ 0 →
    s.files entry.fd ≠ none ∧ (entry.portName, s.files entry.fd) ∈ s.issued
  kept : ∀ issue ∈ s.issued, issue.1 ≠ 0 ∧ ∃ entry ∈ s.entries, entry.portName = issue.1

theorem portAt_ne_zero {index : Nat} (h : index < machgateFileportMax) : portAt index ≠ 0 := by
  have : ∀ i : Fin machgateFileportMax, portAt i ≠ 0 := by decide +kernel
  exact this ⟨index, h⟩

variable {s : State} {portName : BitVec 32} {answer : Except Nat Int}

theorem Sound.makefd (hs : Sound s)
    (hanswer : ∀ entry ∈ fileportForPort s.entries portName, Answers s.files entry.fd answer) :
    Sound (dispatchFileportMakefd s portName answer).1 := by
  unfold dispatchFileportMakefd
  split
  · exact hs
  · next entry hentry =>
    cases answer with
    | error errno => exact hs
    | ok duplicate =>
      refine ⟨hs.size, fun entry' hentry' hport => ?_, hs.kept⟩
      have hne : entry'.fd ≠ duplicate := by
        rintro heq
        exact (hs.backed entry' hentry' hport).1 (heq ▸ (hanswer entry hentry duplicate rfl).2)
      simpa only [update_of_ne hne] using hs.backed entry' hentry' hport

theorem Sound.makeport {fd : Int} {portName : Bool} (hs : Sound s)
    (hanswer : Answers s.files fd answer) : Sound (dispatchFileportMakeport s fd portName answer).1 := by
  unfold dispatchFileportMakeport
  split
  · exact hs
  cases answer with
  | error errno => exact hs
  | ok duplicate =>
    obtain ⟨hfd, hfree⟩ := hanswer duplicate rfl
    have hne : ∀ entry ∈ s.entries, entry.portName ≠ 0 → entry.fd ≠ duplicate := by
      intro entry hentry hport heq
      exact (hs.backed entry hentry hport).1 (heq ▸ hfree)
    dsimp only
    split
    · next index hindex =>
      rcases findIdx?_eq_some_iff_getElem.mp hindex with ⟨hlt, hzero, -⟩
      have hzero' : s.entries[index].portName = 0 := of_decide_eq_true hzero
      refine ⟨by simpa using hs.size, fun entry hentry hport => ?_, fun issue hissue => ?_⟩
      · rcases mem_or_eq_of_mem_set hentry with hentry | rfl
        · rcases hs.backed entry hentry hport with ⟨hopen, hissued⟩
          simp only [update_of_ne (hne entry hentry hport)]
          exact ⟨hopen, mem_append_left _ hissued⟩
        · simpa using hfd
      · rcases mem_append.mp hissue with hissue | hissue
        · rcases hs.kept issue hissue with ⟨hport, entry, hentry, hname⟩
          rcases getElem_of_mem hentry with ⟨k, hk, rfl⟩
          have hki : index ≠ k := by
            rintro rfl
            exact hport (hname.symm.trans hzero')
          exact ⟨hport, _, mem_iff_getElem.mpr ⟨k, by simpa using hk, getElem_set_ne hki _⟩, hname⟩
        · rw [mem_singleton.mp hissue]
          exact ⟨portAt_ne_zero (hs.size ▸ hlt), _, mem_set hlt _, rfl⟩
    · refine ⟨hs.size, fun entry hentry hport => ?_, hs.kept⟩
      simpa only [update_of_ne (hne entry hentry hport)] using hs.backed entry hentry hport

theorem Sound.step {s' : State} {call : Call} (hs : Sound s) (hstep : step s call = some s') :
    Sound s' := by
  cases call with
  | makeport fd portName answer =>
    rcases ite_none_right_eq_some.mp hstep with ⟨hanswer, ⟨⟩⟩
    exact hs.makeport hanswer
  | makefd portName answer =>
    rcases ite_none_right_eq_some.mp hstep with ⟨hanswer, ⟨⟩⟩
    exact hs.makefd hanswer

theorem sound_initial (files : Int → Option Nat) : Sound (initial files) := by
  refine ⟨length_replicate, fun entry hentry hport => ?_, nofun⟩
  rw [eq_of_mem_replicate hentry] at hport
  exact absurd rfl hport

theorem of_fileportForPort {entries : List FileportEntry} {entry : FileportEntry}
    (h : fileportForPort entries portName = some entry) : entry ∈ entries ∧ entry.portName = portName := by
  have hport := find?_some h
  exact ⟨mem_of_find?_eq_some h, of_decide_eq_true hport⟩

theorem refuses_zero_iff :
    (dispatchFileportMakefd s 0 answer).2 = .error darwinEinval ↔
      answer = .error darwinEinval ∨ ∀ entry ∈ s.entries, entry.portName ≠ 0 := by
  rw [dispatchFileportMakefd]
  cases hfind : fileportForPort s.entries 0 with
  | none =>
    have hnone := find?_eq_none.mp hfind
    exact iff_of_true rfl (.inr (by simpa using hnone))
  | some entry =>
    rw [or_iff_left fun h => h entry (of_fileportForPort hfind).1 (of_fileportForPort hfind).2]
    cases answer <;> simp

theorem honest_of_ne_zero (hs : Sound s)
    (hport : portName ≠ 0) : Honest s (.makefd portName answer) := by
  intro s' hstep
  rcases ite_none_right_eq_some.mp hstep with ⟨-, ⟨⟩⟩
  rw [dispatchFileportMakefd]
  cases hfind : fileportForPort s.entries portName with
  | none => exact ⟨nofun, fun _ => rfl⟩
  | some entry =>
    obtain ⟨hentry, rfl⟩ := of_fileportForPort hfind
    have hissued := (hs.backed entry hentry hport).2
    refine ⟨?_, fun hnever => absurd hissued (hnever _)⟩
    cases answer with
    | error errno => nofun
    | ok duplicate =>
      rintro _ ⟨⟩
      simpa using hissued

theorem honest_iff_named {call : Call} (hs : Sound s) : Honest s call ↔ Named s call := by
  cases call with
  | makeport fd portName answer => exact Iff.rfl
  | makefd portName answer =>
    by_cases hzero : portName = 0
    · -- port 0 is never issued, so that only the refusal is in order
      subst hzero
      have hnever : ∀ description, ((0 : BitVec 32), description) ∉ s.issued :=
        fun description h => (hs.kept _ h).1 rfl
      constructor
      · intro h _ hstep
        rcases ne_none_iff_exists'.mp hstep with ⟨s', hs'⟩
        exact refuses_zero_iff.mp ((h s' hs').2 hnever)
      · intro h s' hs'
        have hrefused := refuses_zero_iff.mpr (h rfl (ne_none_iff_exists'.mpr ⟨s', hs'⟩))
        refine ⟨fun fd hfd => ?_, fun _ => hrefused⟩
        cases hrefused.symm.trans hfd
    · exact iff_of_true (honest_of_ne_zero hs hzero) fun h => absurd h hzero

theorem honest_along_iff (files : Int → Option Nat) (schedule : List Call) :
    Along step Honest (initial files) schedule ↔ Along step Named (initial files) schedule :=
  ⟨Along.imp (fun _ _ _ hs _ => hs.step) (fun _ _ hs => (honest_iff_named hs).mp) (sound_initial files),
    Along.imp (fun _ _ _ hs _ => hs.step) (fun _ _ hs => (honest_iff_named hs).mpr) (sound_initial files)⟩

/-- Nothing was made into a port yet, and standard input is given away. -/
theorem makefd_zero_dishonest :
    ¬ Along step Honest (initial fun fd => if fd = 0 then some 7 else none) [.makefd 0 (.ok 3)] := by
  intro h
  rcases refuses_zero_iff.mp ((h.1 _ rfl).2 nofun) with h | h
  · cases h
  · exact h ⟨0, 0⟩ (by simp [initial, machgateFileportMax]) rfl

theorem run_sound {files : Int → Option Nat} {schedule : List Call}
    (hrun : run step (initial files) schedule = some s) : Sound s :=
  invariant_run (fun _ _ _ hs => hs.step) (sound_initial files) hrun

def firstPort : Option State :=
  run step (initial fun fd => if fd = 0 then some 7 else none) [.makeport 0 true (.ok 3)]

theorem firstPort_sound : ∃ s, firstPort = some s ∧ Sound s :=
  ⟨_, rfl, run_sound (rfl : firstPort = some _)⟩

end Machgate.FilePorts
