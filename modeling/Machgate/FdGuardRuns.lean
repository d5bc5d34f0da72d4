import Machgate.FdGuards
import Machgate.Interleaving

/-!
Whole runs of the calls on descriptors: when the guard table follows what was guarded.
-/

namespace Machgate.FdGuards

open Interleaving Function Prod

section

variable {g g' : Gate} {fd : Int} {guard : BitVec 64} {guardflags : BitVec 32} {kept : Bool}

namespace Gate

def described (g : Gate) (fd : Int) : Option Nat := (g.files fd).map Descriptor.description

variable (cloexec : Bool)

@[simp]
theorem openFile_entries : (g.openFile fd cloexec).entries = g.entries := rfl

@[simp]
theorem closeFile_entries : (g.closeFile fd).entries = g.entries := rfl

@[simp]
theorem setCloexec_entries : (g.setCloexec fd cloexec).entries = g.entries := rfl

theorem described_openFile (n : Int) :
    (g.openFile fd cloexec).described n = if n = fd then some g.opened else g.described n := by
  by_cases hn : n = fd <;> simp [described, openFile, hn]

theorem described_closeFile (n : Int) :
    (g.closeFile fd).described n = if n = fd then none else g.described n := by
  by_cases hn : n = fd <;> simp [described, closeFile, hn]

@[simp]
theorem described_setCloexec (n : Int) : (g.setCloexec fd cloexec).described n = g.described n := by
  by_cases hn : n = fd
  · subst hn
    simp only [described, setCloexec, update_self, Option.map_map]
    rfl
  · simp [described, setCloexec, hn]

theorem described_eq_none : g.described fd = none ↔ g.files fd = none := by
  simp [described]

end Gate

structure Sound (g : Gate) : Prop where
  single : Single g.entries
  described : ∀ n, Held g.entries n → g.described n ≠ none

structure Leaves (g g' : Gate) : Prop where
  single : Single g'.entries
  held : ∀ n, Held g'.entries n ↔ Held g.entries n
  described : ∀ n, g'.described n = g.described n

structure Sets (fd : Int) (kept : Bool) (g g' : Gate) : Prop where
  single : Single g'.entries
  heldOthers : ∀ n, n ≠ fd → (Held g'.entries n ↔ Held g.entries n)
  describedOthers : ∀ n, n ≠ fd → g'.described n = g.described n
  held : Held g'.entries fd ↔ kept = true
  described : kept = true → g'.described fd ≠ none

/-- A call that fails changes nothing, and one that succeeds does what it is for. -/
def Handled (fd : Int) (kept : Bool) (g : Gate) (r : Gate × Reply) : Prop :=
  match r.2 with
  | .error _ => Leaves g r.1
  | .ok _ => Sets fd kept g r.1

theorem Leaves.refl (h : Sound g) : Leaves g g where
  single := h.single
  held _ := Iff.rfl
  described _ := rfl

theorem handled_refused (h : Sound g) {errno : Nat} : Handled fd kept g (g, .error errno) :=
  Leaves.refl h

theorem fdGuardRegister_false (h : Single g.entries)
    (hregister : fdGuardRegister g fd guard guardflags = (false, g')) :
    g'.files = g.files ∧ Single g'.entries ∧ ¬ Held g.entries fd ∧
      ∀ n, Held g'.entries n ↔ Held g.entries n := by
  simp only [fdGuardRegister] at hregister
  split at hregister
  · next hplace =>
    obtain rfl := congrArg snd hregister
    have hnone := not_held_of_placeEntry hplace
    refine ⟨rfl, h.fdGuardRemove, hnone, fun n => ?_⟩
    rw [held_fdGuardRemove h, and_iff_right_iff_imp]
    exact fun hheld heq => hnone (heq ▸ hheld)
  · cases congrArg fst hregister

theorem fdGuardRegister_true (h : Single g.entries)
    (hregister : fdGuardRegister g fd guard guardflags = (true, g')) :
    g'.files = g.files ∧ Single g'.entries ∧
      ∀ n, Held g'.entries n ↔ n = fd ∨ Held g.entries n := by
  simp only [fdGuardRegister] at hregister
  split at hregister
  · cases congrArg fst hregister
  · next entries hplace =>
    obtain rfl := congrArg snd hregister
    have hfor : ∀ n, GuardEntry.isFor
        { fd := fd, guard := guard, guardflags := guardflags,
          fdflags := fdGuardCurrentFlags g fd guardflags, inUse := true } n = true ↔ n = fd := by
      simp [GuardEntry.isFor, eq_comm]
    refine ⟨rfl, h.fdGuardRemove.placeEntry ?_ hplace, fun n => ?_⟩
    · intro n hn hheld
      exact ((held_fdGuardRemove h).mp hheld).1 ((hfor n).mp hn)
    · rw [held_placeEntry hplace, hfor, held_fdGuardRemove h]
      by_cases hn : n = fd <;> simp [hn]

def Answered (g : Gate) : Reply → Prop
  | .error _ => True
  | .ok fd => 0 ≤ fd ∧ g.files fd = none

instance (g : Gate) : DecidablePred (Answered g)
  | .error _ => isTrue trivial
  | .ok _ => inferInstanceAs (Decidable (_ ∧ _))

theorem Sound.not_held_of_free (h : Sound g) (hfree : g.files fd = none) : ¬ Held g.entries fd :=
  fun hheld => h.described fd hheld (Gate.described_eq_none.mpr hfree)

/-- The calls that make a guarded descriptor set its guard under the number they return. -/
def HandledNew (g : Gate) (r : Gate × Reply) : Prop :=
  match r.2 with
  | .error _ => Leaves g r.1
  | .ok fd => Sets fd true g r.1

variable {answer : Reply}

theorem registerNew_handled (h : Sound g) (hanswer : Answered g answer) :
    HandledNew g (registerNew g guard guardflags answer) := by
  cases answer with
  | error errno => exact Leaves.refl h
  | ok fd =>
    have hdescribed := Gate.described_eq_none.mpr hanswer.2
    have hsingle : Single (g.openFile fd true).entries := h.single
    simp only [registerNew]
    split
    · next g' hregister =>
      obtain ⟨hfiles, hsingle', -, hheld⟩ := fdGuardRegister_false hsingle hregister
      refine ⟨hsingle', hheld, fun n => ?_⟩
      have hdescribed' : g'.described n = (g.openFile fd true).described n := by
        rw [Gate.described, hfiles, Gate.described]
      rw [Gate.described_closeFile, hdescribed', Gate.described_openFile]
      split
      · next hn => rw [hn, hdescribed]
      · rfl
    · next g' hregister =>
      obtain ⟨hfiles, hsingle', hheld⟩ := fdGuardRegister_true hsingle hregister
      have hdescribed' : ∀ n, g'.described n = (g.openFile fd true).described n := by
        intro n
        rw [Gate.described, hfiles, Gate.described]
      refine ⟨hsingle', fun n hn => ?_, fun n hn => ?_, ?_, fun _ => ?_⟩
      · simpa [hn] using hheld n
      · rw [hdescribed', Gate.described_openFile, if_neg hn]
      · simpa using hheld fd
      · simp [hdescribed', Gate.described_openFile]

theorem dispatchGuardedOpen_handled (h : Sound g) (hanswer : Answered g answer)
    (guard : Option (BitVec 64)) (flags : BitVec 32) :
    HandledNew g (dispatchGuardedOpen g guard guardflags flags answer) := by
  rw [dispatchGuardedOpen]
  split
  · exact Leaves.refl h
  · split
    · exact Leaves.refl h
    · exact registerNew_handled h hanswer

theorem dispatchGuardedOpenDprotected_handled (h : Sound g)
    (hanswer : Answered g answer) (guard : Option (BitVec 64)) (flags dpflags : BitVec 32) :
    HandledNew g (dispatchGuardedOpenDprotected g guard guardflags flags dpflags answer) := by
  rw [dispatchGuardedOpenDprotected]
  split
  · exact Leaves.refl h
  · split
    · exact Leaves.refl h
    · split
      · exact Leaves.refl h
      · exact registerNew_handled h hanswer

theorem dispatchGuardedKqueue_handled (h : Sound g) (hanswer : Answered g answer)
    (guard : Option (BitVec 64)) :
    HandledNew g (dispatchGuardedKqueue g guard guardflags answer) := by
  rw [dispatchGuardedKqueue]
  split
  · exact Leaves.refl h
  · exact registerNew_handled h hanswer

theorem dispatchGuardedClose_handled (h : Sound g) (guard : Option (BitVec 64)) :
    Handled fd false g (dispatchGuardedClose g fd guard) := by
  rw [dispatchGuardedClose]
  split
  · exact handled_refused h
  · split
    · exact handled_refused h
    · refine ⟨h.single.fdGuardRemove, fun n hn => ?_, fun n hn => ?_, ?_, nofun⟩
      · rw [held_fdGuardRemove h.single, and_iff_right hn]
      · exact (Gate.described_closeFile n).trans (if_neg hn)
      · simp [held_fdGuardRemove h.single]

theorem changeToNone_handled (h : Sound g) (newFlags requested : BitVec 32) :
    Handled fd false g (changeToNone g fd newFlags requested) := by
  rw [changeToNone]
  split
  · exact handled_refused h
  · refine ⟨h.single.fdGuardRemove, fun n hn => ?_, fun n hn => ?_, ?_, nofun⟩
    · rw [held_fdGuardRemove h.single, and_iff_right hn]
    · exact Gate.described_setCloexec _ n
    · simp [held_fdGuardRemove h.single]

theorem changeToNew_handled (h : Sound g) (hopen : g.files fd ≠ none) (newGuard : BitVec 64)
    (newFlags requested : BitVec 32) :
    Handled fd true g (changeToNew g fd newGuard newFlags requested) := by
  rw [changeToNew]
  split
  · exact handled_refused h
  · -- the close-on-exec flag that is set first is of no concern to the table
    generalize hmarked : (if fdGuardEntryForFd g.entries fd = none then g.setCloexec fd true else g) =
      marked
    have hentries : marked.entries = g.entries := by
      rw [← hmarked]
      split <;> rfl
    have hdescribed : ∀ n, marked.described n = g.described n := by
      intro n
      rw [← hmarked]
      split
      · exact Gate.described_setCloexec true n
      · rfl
    have hsingle : Single marked.entries := hentries ▸ h.single
    simp only
    split
    · next g' hregister =>
      obtain ⟨hfiles, hsingle', -, hheld⟩ := fdGuardRegister_false hsingle hregister
      refine ⟨hsingle', fun n => ?_, fun n => ?_⟩
      · rw [hheld, hentries]
      · rw [← hdescribed, Gate.described, hfiles, Gate.described]
    · next g' hregister =>
      obtain ⟨hfiles, hsingle', hheld⟩ := fdGuardRegister_true hsingle hregister
      have hdescribed' : ∀ n, g'.described n = g.described n := by
        intro n
        rw [← hdescribed, Gate.described, hfiles, Gate.described]
      have hwritten : ∀ fdflags n,
          Held (writeEntry fd ({ · with fdflags := fdflags }) g'.entries) n ↔
            n = fd ∨ Held g.entries n := by
        intro fdflags n
        rw [held_writeEntry, hheld, hentries]
        exact fun _ _ => rfl
      refine ⟨hsingle'.writeEntry fun _ _ hfor => hfor, fun n hn => ?_, fun n hn => ?_, ?_, fun _ => ?_⟩
      · exact (hwritten _ n).trans (or_iff_right hn)
      · exact hdescribed' n
      · exact (hwritten _ fd).trans (by simp)
      · refine (hdescribed' fd).trans_ne ?_
        exact mt Gate.described_eq_none.mp hopen

theorem dispatchChangeFdguard_handled (h : Sound g) (oldGuard : Option (BitVec 64))
    (oldFlags : BitVec 32) (newGuard : Option (BitVec 64)) (newFlags : BitVec 32)
    (fdflagsp : Option (BitVec 32)) :
    Handled fd newGuard.isSome g
      (dispatchChangeFdguard g fd oldGuard oldFlags newGuard newFlags fdflagsp).1 := by
  simp only [dispatchChangeFdguard]
  split
  · exact handled_refused h
  · next hopen =>
    split
    · exact handled_refused h
    · cases newGuard with
      | some newGuard => exact changeToNew_handled h hopen newGuard newFlags _
      | none => exact changeToNone_handled h newFlags _

end

/-- The table as the gate keeps it, and for each number the open description that was guarded under
it, as the calls that succeeded say. -/
structure Process where
  gate : Gate
  guardedAs : Int → Option Nat

inductive Call where
  | plainOpen (cloexec : Bool) (answer : Reply)
  | guardedOpen (guard : Option (BitVec 64)) (guardflags flags : BitVec 32) (answer : Reply)
  | guardedOpenDprotected (guard : Option (BitVec 64)) (guardflags flags dpflags : BitVec 32)
      (answer : Reply)
  | guardedKqueue (guard : Option (BitVec 64)) (guardflags : BitVec 32) (answer : Reply)
  | close (fd : Int)
  | dup2 (fromFd toFd : Int)
  | guardedClose (fd : Int) (guard : Option (BitVec 64))
  | changeFdguard (fd : Int) (oldGuard : Option (BitVec 64)) (oldFlags : BitVec 32)
      (newGuard : Option (BitVec 64)) (newFlags : BitVec 32) (fdflagsp : Option (BitVec 32))

def Process.note (p : Process) (fd : Int) (kept : Bool) (g : Gate) : Process where
  gate := g
  guardedAs := Function.update p.guardedAs fd (if kept then g.described fd else none)

def Process.afterNew (p : Process) (r : Gate × Reply) : Process :=
  match r.2 with
  | .error _ => { p with gate := r.1 }
  | .ok fd => p.note fd true r.1

def Process.after (p : Process) (fd : Int) (kept : Bool) (r : Gate × Reply) : Process :=
  match r.2 with
  | .error _ => { p with gate := r.1 }
  | .ok _ => p.note fd kept r.1

/-- A call is one step: the gate's state is not seen in the middle of it. -/
def step (p : Process) : Call → Option Process
  | .plainOpen cloexec answer =>
    if Answered p.gate answer then
      match answer with
      | .error _ => some p
      | .ok fd => some { p with gate := p.gate.openFile fd cloexec }
    else none
  | .guardedOpen guard guardflags flags answer =>
    if Answered p.gate answer then
      some (p.afterNew (dispatchGuardedOpen p.gate guard guardflags flags answer))
    else none
  | .guardedOpenDprotected guard guardflags flags dpflags answer =>
    if Answered p.gate answer then
      some (p.afterNew (dispatchGuardedOpenDprotected p.gate guard guardflags flags dpflags answer))
    else none
  | .guardedKqueue guard guardflags answer =>
    if Answered p.gate answer then
      some (p.afterNew (dispatchGuardedKqueue p.gate guard guardflags answer))
    else none
  | .close fd => some { p with gate := (dispatchClose p.gate fd).1 }
  | .dup2 fromFd toFd => some { p with gate := (rawDup2 p.gate fromFd toFd).1 }
  | .guardedClose fd guard => some (p.after fd false (dispatchGuardedClose p.gate fd guard))
  | .changeFdguard fd oldGuard oldFlags newGuard newFlags fdflagsp =>
    some (p.after fd newGuard.isSome
      (dispatchChangeFdguard p.gate fd oldGuard oldFlags newGuard newFlags fdflagsp).1)

def initial : Process where
  gate := { files := fun _ => none, opened := 0, entries := List.replicate fdGuardMax .zero }
  guardedAs _ := none

/-- There is an entry exactly where a number refers to the open description guarded under it. -/
def Tracks (p : Process) : Prop :=
  ∀ fd, (∃ entry, fdGuardEntryForFd p.gate.entries fd = some entry) ↔
    ∃ description, p.guardedAs fd = some description ∧ p.gate.described fd = some description

def Protected (g : Gate) (fd : Int) : Prop :=
  g.files fd ≠ none ∧
    ∃ entry, fdGuardEntryForFd g.entries fd = some entry ∧ entry.guardflags &&& guardClose ≠ 0

/-- `dup2` puts another descriptor in the place of `toFd`. -/
def Replaces (g : Gate) (fromFd toFd : Int) : Prop :=
  g.files fromFd ≠ none ∧ fromFd ≠ toFd ∧ 0 ≤ toFd

/-- A plain call closes a descriptor that has a close guard. -/
def ClosesProtected (p : Process) : Call → Prop
  | .close fd => Protected p.gate fd
  | .dup2 fromFd toFd => Replaces p.gate fromFd toFd ∧ Protected p.gate toFd
  | _ => False

/-- The call closes no protected descriptor and leaves a table that tracks the guards. -/
def Respects (p : Process) (call : Call) : Prop :=
  ¬ ClosesProtected p call ∧ ∀ p', step p call = some p' → Tracks p'

/-- The plain calls are used on no number with a guard; only a duplicate of what the number refers to
already, under a guard that does not forbid to close it, goes unnoticed. -/
def Spares (p : Process) : Call → Prop
  | .close fd => fdGuardEntryForFd p.gate.entries fd = none
  | .dup2 fromFd toFd =>
    Replaces p.gate fromFd toFd → ∀ entry, fdGuardEntryForFd p.gate.entries toFd = some entry →
      p.gate.described toFd = p.gate.described fromFd ∧ entry.guardflags &&& guardClose = 0
  | _ => True

variable {p p' : Process} {call : Call}

structure Inv (p : Process) : Prop where
  single : Single p.gate.entries
  held : ∀ n, Held p.gate.entries n ↔ p.guardedAs n ≠ none
  guarded : ∀ n, p.guardedAs n ≠ none → p.gate.described n = p.guardedAs n

theorem Inv.sound (h : Inv p) : Sound p.gate where
  single := h.single
  described n hheld := by
    have hguarded := (h.held n).mp hheld
    rwa [h.guarded n hguarded]

theorem Inv.tracks (h : Inv p) : Tracks p := by
  intro fd
  rw [← held_iff, h.held, Option.ne_none_iff_exists']
  constructor
  · rintro ⟨description, hguarded⟩
    refine ⟨description, hguarded, ?_⟩
    rw [h.guarded fd (by simp [hguarded]), hguarded]
  · rintro ⟨description, hguarded, -⟩
    exact ⟨description, hguarded⟩

theorem Inv.leaves (h : Inv p) {g : Gate} (hg : Leaves p.gate g) : Inv { p with gate := g } where
  single := hg.single
  held n := (hg.held n).trans (h.held n)
  guarded n hguarded := (hg.described n).trans (h.guarded n hguarded)

theorem Inv.note (h : Inv p) {g : Gate} {fd : Int} {kept : Bool} (hg : Sets fd kept p.gate g) :
    Inv (p.note fd kept g) where
  single := hg.single
  held n := by
    by_cases hn : n = fd
    · subst hn
      simp only [Process.note, update_self, hg.held]
      cases kept with
      | false => simp
      | true => simpa using hg.described rfl
    · simp only [Process.note, update_of_ne hn]
      rw [hg.heldOthers n hn, h.held]
  guarded n hguarded := by
    by_cases hn : n = fd
    · subst hn
      simp only [Process.note, update_self] at hguarded ⊢
      cases kept with
      | false => simp at hguarded
      | true => rfl
    · simp only [Process.note, update_of_ne hn] at hguarded ⊢
      rw [hg.describedOthers n hn, h.guarded n hguarded]

theorem Inv.afterNew (h : Inv p) {r : Gate × Reply} (hr : HandledNew p.gate r) :
    Inv (p.afterNew r) := by
  rw [HandledNew] at hr
  rw [Process.afterNew]
  split at hr
  · exact h.leaves hr
  · exact h.note hr

theorem Inv.after (h : Inv p) {fd : Int} {kept : Bool} {r : Gate × Reply}
    (hr : Handled fd kept p.gate r) : Inv (p.after fd kept r) := by
  rw [Handled] at hr
  rw [Process.after]
  split at hr
  · exact h.leaves hr
  · exact h.note hr

theorem Inv.refile (h : Inv p) {g : Gate} (hentries : g.entries = p.gate.entries)
    (hg : ∀ n, Held p.gate.entries n → g.described n = p.gate.described n) :
    Inv { p with gate := g } where
  single := hentries ▸ h.single
  held n := hentries ▸ h.held n
  guarded n hguarded := (hg n ((h.held n).mpr hguarded)).trans (h.guarded n hguarded)

theorem described_dispatchClose {g : Gate} {fd : Int} (n : Int) :
    (dispatchClose g fd).1.described n = if n = fd then none else g.described n := by
  rw [dispatchClose]
  split
  · next hclosed =>
    split
    · next hn => rw [hn, Gate.described_eq_none.mpr hclosed]
    · rfl
  · exact Gate.described_closeFile n

theorem dispatchClose_entries {g : Gate} {fd : Int} : (dispatchClose g fd).1.entries = g.entries := by
  rw [dispatchClose]
  split <;> rfl

open Classical in
theorem described_rawDup2 {g : Gate} {fromFd toFd : Int} (n : Int) :
    (rawDup2 g fromFd toFd).1.described n =
      if Replaces g fromFd toFd ∧ n = toFd then g.described fromFd else g.described n := by
  rw [rawDup2]
  split
  · next hclosed => simp [Replaces, hclosed]
  · next d hopen =>
    split
    · next hsame => simp [Replaces, hsame]
    · next hne =>
      split
      · next hneg => simp [Replaces, Int.not_le.mpr hneg]
      · next hnonneg =>
        have hreplaces : Replaces g fromFd toFd := ⟨by simp [hopen], hne, Int.not_lt.mp hnonneg⟩
        by_cases hn : n = toFd <;> simp [Gate.described, hn, hreplaces, hopen]

theorem rawDup2_entries {g : Gate} {fromFd toFd : Int} :
    (rawDup2 g fromFd toFd).1.entries = g.entries := by
  rw [rawDup2]
  split
  · rfl
  · split
    · rfl
    · split <;> rfl

theorem Inv.step (h : Inv p) (hspares : Spares p call) (hstep : step p call = some p') : Inv p' := by
  have hsound := h.sound
  cases call with
  | plainOpen cloexec answer =>
    obtain ⟨hanswer, hsome⟩ := Option.ite_none_right_eq_some.mp hstep
    cases answer with
    | error errno => exact Option.some.inj hsome ▸ h
    | ok fd =>
      obtain rfl := Option.some.inj hsome
      refine h.refile rfl fun n hheld => ?_
      rw [Gate.described_openFile, if_neg]
      rintro rfl
      exact hsound.not_held_of_free hanswer.2 hheld
  | guardedOpen guard guardflags flags answer =>
    obtain ⟨hanswer, hsome⟩ := Option.ite_none_right_eq_some.mp hstep
    obtain rfl := Option.some.inj hsome
    exact h.afterNew (dispatchGuardedOpen_handled hsound hanswer guard flags)
  | guardedOpenDprotected guard guardflags flags dpflags answer =>
    obtain ⟨hanswer, hsome⟩ := Option.ite_none_right_eq_some.mp hstep
    obtain rfl := Option.some.inj hsome
    exact h.afterNew (dispatchGuardedOpenDprotected_handled hsound hanswer guard flags dpflags)
  | guardedKqueue guard guardflags answer =>
    obtain ⟨hanswer, hsome⟩ := Option.ite_none_right_eq_some.mp hstep
    obtain rfl := Option.some.inj hsome
    exact h.afterNew (dispatchGuardedKqueue_handled hsound hanswer guard)
  | close fd =>
    obtain rfl := Option.some.inj hstep
    refine h.refile dispatchClose_entries fun n hheld => ?_
    rw [described_dispatchClose, if_neg]
    rintro rfl
    exact not_held_iff.mpr hspares hheld
  | dup2 fromFd toFd =>
    obtain rfl := Option.some.inj hstep
    refine h.refile rawDup2_entries fun n hheld => ?_
    rw [described_rawDup2]
    split
    · next hreplaces =>
      obtain ⟨hreplaces, rfl⟩ := hreplaces
      obtain ⟨entry, hentry⟩ := held_iff.mp hheld
      exact (hspares hreplaces entry hentry).1.symm
    · rfl
  | guardedClose fd guard =>
    obtain rfl := Option.some.inj hstep
    exact h.after (dispatchGuardedClose_handled hsound guard)
  | changeFdguard fd oldGuard oldFlags newGuard newFlags fdflagsp =>
    obtain rfl := Option.some.inj hstep
    exact h.after (dispatchChangeFdguard_handled hsound oldGuard oldFlags newGuard newFlags fdflagsp)

theorem inv_initial : Inv initial where
  single := List.pairwise_replicate.mpr (.inr fun _ hfor => by cases hfor)
  held n := by simp [initial, Held, isFor_zero]
  guarded n hguarded := absurd rfl hguarded

theorem respects_of_spares (h : Inv p) (hspares : Spares p call) : Respects p call := by
  refine ⟨?_, fun p' hstep => (h.step hspares hstep).tracks⟩
  cases call with
  | close fd =>
    rintro ⟨-, entry, hentry, -⟩
    cases hentry.symm.trans hspares
  | dup2 fromFd toFd =>
    rintro ⟨hreplaces, -, entry, hentry, hclose⟩
    exact hclose (hspares hreplaces entry hentry).2
  | _ => exact id

theorem spares_of_respects (h : Inv p) (hrespects : Respects p call) : Spares p call := by
  obtain ⟨hcloses, htracks⟩ := hrespects
  cases call with
  | close fd =>
    refine not_held_iff.mp fun hheld => ?_
    -- the entry stays while the number refers to nothing
    have hheld' : Held (dispatchClose p.gate fd).1.entries fd := by rwa [dispatchClose_entries]
    obtain ⟨description, -, hdescribed⟩ := (htracks _ rfl fd).mp (held_iff.mp hheld')
    change (dispatchClose p.gate fd).1.described fd = some description at hdescribed
    rw [described_dispatchClose, if_pos rfl] at hdescribed
    cases hdescribed
  | dup2 fromFd toFd =>
    intro hreplaces entry hentry
    have hheld : Held p.gate.entries toFd := held_iff.mpr ⟨entry, hentry⟩
    have hguarded := h.guarded toFd ((h.held toFd).mp hheld)
    constructor
    · have hheld' : Held (rawDup2 p.gate fromFd toFd).1.entries toFd := by rwa [rawDup2_entries]
      obtain ⟨description, hguardedAs, hdescribed⟩ := (htracks _ rfl toFd).mp (held_iff.mp hheld')
      change (rawDup2 p.gate fromFd toFd).1.described toFd = some description at hdescribed
      rw [described_rawDup2, if_pos ⟨hreplaces, rfl⟩] at hdescribed
      rw [hguarded, hdescribed]
      exact hguardedAs
    · by_contra hclose
      refine hcloses ⟨hreplaces, ?_, entry, hentry, hclose⟩
      exact mt Gate.described_eq_none.mpr (h.sound.described toFd hheld)
  | _ => trivial

theorem along_spares {calls : List Call} (h : Along step Respects initial calls) :
    Along step Spares initial calls := by
  refine Along.imp ?_ (fun _ _ => spares_of_respects) inv_initial h
  exact fun _ _ _ hinv hrespects => hinv.step (spares_of_respects hinv hrespects)

/-- A file is opened with a close guard, the plain `close` closes it, and the next `open` is given its
number. -/
def closeAndReuse : List Call :=
  [.guardedOpen (some 7) (guardClose ||| guardDup) darwinOCloexec (.ok 3), .close 3,
    .plainOpen false (.ok 3)]

end Machgate.FdGuards
