import Mathlib.Data.List.Pairwise

/-!
The guards of file descriptors, as the gate keeps them for the guarded system calls.
-/

namespace Machgate.FdGuards

open List

def guardClose : BitVec 32 := 1
def guardDup : BitVec 32 := 2
def guardSocketIpc : BitVec 32 := 4
def guardFileport : BitVec 32 := 8
def guardWrite : BitVec 32 := 16
def guardRequired : BitVec 32 := guardDup
def guardAll : BitVec 32 :=
  guardClose ||| guardDup ||| guardSocketIpc ||| guardFileport ||| guardWrite

/-- `struct machgate_fd_guard_entry`. -/
structure GuardEntry where
  fd : Int
  guard : BitVec 64
  guardflags : BitVec 32
  fdflags : BitVec 32
  inUse : Bool
  deriving DecidableEq

def GuardEntry.zero : GuardEntry :=
  { fd := 0, guard := 0, guardflags := 0, fdflags := 0, inUse := false }

def fdGuardMax : Nat := 1024

def GuardEntry.isFor (entry : GuardEntry) (fd : Int) : Bool := entry.inUse && entry.fd = fd

def fdGuardEntryForFd (entries : List GuardEntry) (fd : Int) : Option GuardEntry :=
  entries.find? (·.isFor fd)

/-- A write through the pointer that `fd_guard_entry_for_fd` gives. -/
def writeEntry (fd : Int) (f : GuardEntry → GuardEntry) : List GuardEntry → List GuardEntry
  | [] => []
  | entry :: entries =>
    if entry.isFor fd then f entry :: entries else entry :: writeEntry fd f entries

def fdGuardRemove (entries : List GuardEntry) (fd : Int) : List GuardEntry :=
  writeEntry fd (fun _ => .zero) entries

def placeEntry (new : GuardEntry) : List GuardEntry → Option (List GuardEntry)
  | [] => none
  | entry :: entries =>
    if entry.inUse then (placeEntry new entries).map (entry :: ·) else some (new :: entries)

structure Descriptor where
  description : Nat
  cloexec : Bool
  deriving DecidableEq

structure Gate where
  files : Int → Option Descriptor
  opened : Nat
  entries : List GuardEntry

def darwinEperm : Nat := 1
def darwinEbadf : Nat := 9
def darwinEnomem : Nat := 12
def darwinEfault : Nat := 14
def darwinEinval : Nat := 22
def darwinOCloexec : BitVec 32 := 0x01000000
def darwinFdCloexec : BitVec 32 := 1
def darwinFdClofork : BitVec 32 := 2

abbrev Reply := Except Nat Int

namespace Gate

def openFile (g : Gate) (fd : Int) (cloexec : Bool) : Gate :=
  { g with
    files := Function.update g.files fd (some { description := g.opened, cloexec := cloexec })
    opened := g.opened + 1 }

def closeFile (g : Gate) (fd : Int) : Gate :=
  { g with files := Function.update g.files fd none }

def setCloexec (g : Gate) (fd : Int) (cloexec : Bool) : Gate :=
  { g with files := Function.update g.files fd ((g.files fd).map ({ · with cloexec := cloexec })) }

end Gate

def fdGuardFlagsAreValid (guardflags : BitVec 32) : Bool :=
  guardflags &&& guardRequired = guardRequired && guardflags &&& ~~~guardAll = 0

def fdGuardCurrentFlags (g : Gate) (fd : Int) (guardflags : BitVec 32) : BitVec 32 :=
  (if (g.files fd).any Descriptor.cloexec then darwinFdCloexec else 0) |||
    (if guardflags &&& guardClose ≠ 0 then darwinFdClofork else 0)

def fdGuardRegister (g : Gate) (fd : Int) (guard : BitVec 64) (guardflags : BitVec 32) :
    Bool × Gate :=
  let entries := fdGuardRemove g.entries fd
  let new : GuardEntry :=
    { fd := fd, guard := guard, guardflags := guardflags
      fdflags := fdGuardCurrentFlags g fd guardflags, inUse := true }
  match placeEntry new entries with
  | none => (false, { g with entries := entries })
  | some entries => (true, { g with entries := entries })

/-- A guard is given by a pointer, which may be null. -/
def fdGuardValidate (g : Gate) (fd : Int) (guard : Option (BitVec 64)) : Except Nat Unit :=
  match guard with
  | none => .error darwinEfault
  | some guard =>
    match fdGuardEntryForFd g.entries fd with
    | none => .error (if g.files fd = none then darwinEbadf else darwinEinval)
    | some entry => if guard ≠ entry.guard then .error darwinEperm else .ok ()

def fdGuardPrepareNew (guard : Option (BitVec 64)) (guardflags : BitVec 32) :
    Except Nat (BitVec 64) :=
  match guard with
  | none => .error darwinEfault
  | some guard =>
    if fdGuardFlagsAreValid guardflags = false then .error darwinEinval
    else if guard = 0 then .error darwinEinval
    else .ok guard

/-- The common end of the calls that make a guarded descriptor: the kernel's answer, then the
table. -/
def registerNew (g : Gate) (guard : BitVec 64) (guardflags : BitVec 32) (answer : Reply) :
    Gate × Reply :=
  match answer with
  | .error errno => (g, .error errno)
  | .ok fd =>
    match fdGuardRegister (g.openFile fd true) fd guard guardflags with
    | (false, g) => (g.closeFile fd, .error darwinEnomem)
    | (true, g) => (g, .ok fd)

def dispatchGuardedOpen (g : Gate) (guard : Option (BitVec 64)) (guardflags flags : BitVec 32)
    (answer : Reply) : Gate × Reply :=
  if flags &&& darwinOCloexec = 0 then (g, .error darwinEinval)
  else
    match fdGuardPrepareNew guard guardflags with
    | .error errno => (g, .error errno)
    | .ok guard => registerNew g guard guardflags answer

def dispatchGuardedOpenDprotected (g : Gate) (guard : Option (BitVec 64))
    (guardflags flags dpflags : BitVec 32) (answer : Reply) : Gate × Reply :=
  if flags &&& darwinOCloexec = 0 then (g, .error darwinEinval)
  else if dpflags &&& 3 ≠ 0 ∧ flags &&& 3 ≠ 0 then (g, .error darwinEinval)
  else
    match fdGuardPrepareNew guard guardflags with
    | .error errno => (g, .error errno)
    | .ok guard => registerNew g guard guardflags answer

def dispatchGuardedKqueue (g : Gate) (guard : Option (BitVec 64)) (guardflags : BitVec 32)
    (answer : Reply) : Gate × Reply :=
  match fdGuardPrepareNew guard guardflags with
  | .error errno => (g, .error errno)
  | .ok guard => registerNew g guard guardflags answer

/-- The plain `close`, which does not know of the table. -/
def dispatchClose (g : Gate) (fd : Int) : Gate × Reply :=
  if g.files fd = none then (g, .error darwinEbadf) else (g.closeFile fd, .ok 0)

def rawDup2 (g : Gate) (fromFd toFd : Int) : Gate × Reply :=
  match g.files fromFd with
  | none => (g, .error darwinEbadf)
  | some d =>
    if fromFd = toFd then (g, .ok toFd)
    else if toFd < 0 then (g, .error darwinEbadf)
    else ({ g with files := Function.update g.files toFd (some { d with cloexec := false }) },
      .ok toFd)

def dispatchGuardedClose (g : Gate) (fd : Int) (guard : Option (BitVec 64)) : Gate × Reply :=
  match fdGuardValidate g fd guard with
  | .error errno => (g, .error errno)
  | .ok () =>
    if g.files fd = none then (g, .error darwinEbadf)
    else ({ g.closeFile fd with entries := fdGuardRemove g.entries fd }, .ok 0)

/-- What `change_fdguard_np` finds wrong with the old guard it is given. -/
def oldGuardError (entry : Option GuardEntry) (oldGuard : Option (BitVec 64))
    (oldFlags : BitVec 32) : Option Nat :=
  match entry with
  | some entry =>
    if oldGuard = none ∨ oldFlags = 0 then some darwinEinval
    else if oldGuard.getD 0 = 0 then some darwinEperm
    else if oldGuard.getD 0 ≠ entry.guard ∨ oldFlags ≠ entry.guardflags then some darwinEperm
    else none
  | none => if oldGuard ≠ none ∨ oldFlags ≠ 0 then some darwinEinval else none

def changeToNew (g : Gate) (fd : Int) (newGuard : BitVec 64) (newFlags requested : BitVec 32) :
    Gate × Reply :=
  if newGuard = 0 ∨ fdGuardFlagsAreValid newFlags = false then (g, .error darwinEinval)
  else
    let g := if fdGuardEntryForFd g.entries fd = none then g.setCloexec fd true else g
    match fdGuardRegister g fd newGuard newFlags with
    | (false, g) => (g, .error darwinEnomem)
    | (true, g) =>
      let fdflags := darwinFdCloexec |||
        if newFlags &&& guardClose ≠ 0 ∨ requested &&& darwinFdClofork ≠ 0 then darwinFdClofork
        else 0
      ({ g with entries := writeEntry fd ({ · with fdflags := fdflags }) g.entries }, .ok 0)

def changeToNone (g : Gate) (fd : Int) (newFlags requested : BitVec 32) : Gate × Reply :=
  if newFlags ≠ 0 ∨ fdGuardEntryForFd g.entries fd = none then (g, .error darwinEinval)
  else
    ({ g.setCloexec fd (requested &&& darwinFdCloexec ≠ 0) with
      entries := fdGuardRemove g.entries fd }, .ok 0)

/-- `fdflagsp` may be null; the last component is what the call leaves there. -/
def dispatchChangeFdguard (g : Gate) (fd : Int) (oldGuard : Option (BitVec 64))
    (oldFlags : BitVec 32) (newGuard : Option (BitVec 64)) (newFlags : BitVec 32)
    (fdflagsp : Option (BitVec 32)) : (Gate × Reply) × Option (BitVec 32) :=
  let entry := fdGuardEntryForFd g.entries fd
  if g.files fd = none then ((g, .error darwinEbadf), fdflagsp)
  else
    let requested := fdflagsp.getD 0
    let left := fdflagsp.map fun _ =>
      match entry with
      | some entry => entry.fdflags
      | none => fdGuardCurrentFlags g fd 0
    match oldGuardError entry oldGuard oldFlags with
    | some errno => ((g, .error errno), left)
    | none =>
      match newGuard with
      | some newGuard => (changeToNew g fd newGuard newFlags requested, left)
      | none => (changeToNone g fd newFlags requested, left)

variable {entries entries' : List GuardEntry} {new : GuardEntry} {fd : Int}

def Held (entries : List GuardEntry) (fd : Int) : Prop := ∃ entry ∈ entries, entry.isFor fd = true

def Single (entries : List GuardEntry) : Prop :=
  entries.Pairwise fun e f => ∀ fd, e.isFor fd = true → f.isFor fd = false

theorem held_iff : Held entries fd ↔ ∃ entry, fdGuardEntryForFd entries fd = some entry := by
  rw [fdGuardEntryForFd, ← Option.isSome_iff_exists, find?_isSome]
  rfl

theorem not_held_iff : ¬ Held entries fd ↔ fdGuardEntryForFd entries fd = none := by
  rw [held_iff, ← Option.isSome_iff_exists, Option.not_isSome_iff_eq_none]

variable {entry : GuardEntry} {fd' : Int} {f : GuardEntry → GuardEntry}

theorem held_cons : Held (entry :: entries) fd ↔ entry.isFor fd = true ∨ Held entries fd := by
  simp [Held]

theorem isFor_zero : GuardEntry.zero.isFor fd = false := rfl

theorem isFor_unique {fd : Int} (h : entry.isFor fd = true)
    (h' : entry.isFor fd' = true) : fd' = fd := by
  simp only [GuardEntry.isFor, Bool.and_eq_true, decide_eq_true_eq] at h h'
  exact h'.2.symm.trans h.2

theorem Single.not_held (h : Single (entry :: entries))
    (hfor : entry.isFor fd = true) : ¬ Held entries fd := by
  rintro ⟨other, hother, hfor'⟩
  have hnot := rel_of_pairwise_cons h hother fd hfor
  rw [hnot] at hfor'
  cases hfor'

theorem held_of_writeEntry {n : Int}
    (hf : ∀ entry n, (f entry).isFor n = true → entry.isFor n = true)
    (h : Held (writeEntry fd f entries) n) : Held entries n := by
  induction entries with
  | nil => exact h
  | cons entry entries ih =>
    rw [writeEntry] at h
    rw [held_cons]
    split at h
    · exact (held_cons.mp h).imp_left (hf entry n)
    · exact (held_cons.mp h).imp_right ih

theorem held_writeEntry {n : Int} (hf : ∀ entry n, (f entry).isFor n = entry.isFor n) :
    Held (writeEntry fd f entries) n ↔ Held entries n := by
  induction entries with
  | nil => rfl
  | cons entry entries ih =>
    rw [writeEntry]
    split
    · rw [held_cons, held_cons, hf]
    · rw [held_cons, held_cons, ih]

theorem held_fdGuardRemove (h : Single entries) :
    Held (fdGuardRemove entries fd) fd' ↔ fd' ≠ fd ∧ Held entries fd' := by
  rw [fdGuardRemove]
  induction entries with
  | nil => simp [writeEntry, Held]
  | cons entry entries ih =>
    rw [writeEntry]
    split
    · next hfor =>
      have hother := h.not_held hfor
      rw [held_cons, held_cons, isFor_zero]
      constructor
      · rintro (hzero | hheld)
        · cases hzero
        · exact ⟨fun heq => hother (heq ▸ hheld), .inr hheld⟩
      · rintro ⟨hne, hentry | hheld⟩
        · exact absurd (isFor_unique hfor hentry) hne
        · exact .inr hheld
    · next hfor =>
      rw [held_cons, held_cons, ih (Pairwise.of_cons h)]
      constructor
      · rintro (hentry | ⟨hne, hheld⟩)
        · exact ⟨fun heq => hfor (heq ▸ hentry), .inl hentry⟩
        · exact ⟨hne, .inr hheld⟩
      · rintro ⟨hne, hentry | hheld⟩
        · exact .inl hentry
        · exact .inr ⟨hne, hheld⟩

theorem not_held_of_placeEntry (h : placeEntry new (fdGuardRemove entries fd) = none) :
    ¬ Held entries fd := by
  rw [fdGuardRemove] at h
  induction entries with
  | nil => simp [Held]
  | cons entry entries ih =>
    rw [writeEntry] at h
    split at h
    · cases h
    · next hfor =>
      rw [placeEntry] at h
      split at h
      · rw [held_cons, not_or]
        exact ⟨hfor, ih (Option.map_eq_none_iff.mp h)⟩
      · cases h

theorem held_placeEntry (h : placeEntry new entries = some entries') :
    Held entries' fd' ↔ new.isFor fd' = true ∨ Held entries fd' := by
  induction entries generalizing entries' with
  | nil => cases h
  | cons entry entries ih =>
    rw [placeEntry] at h
    split at h
    · obtain ⟨rest, hrest, rfl⟩ := Option.map_eq_some_iff.mp h
      rw [held_cons, held_cons, ih hrest, or_left_comm]
    · next hfree =>
      obtain rfl := Option.some.inj h
      have hnone : entry.isFor fd' = false := by simp [GuardEntry.isFor, hfree]
      rw [held_cons, held_cons, hnone]
      simp

theorem Single.writeEntry (h : Single entries)
    (hf : ∀ entry n, (f entry).isFor n = true → entry.isFor n = true) :
    Single (writeEntry fd f entries) := by
  induction entries with
  | nil => exact .nil
  | cons entry entries ih =>
    have hrest := Pairwise.of_cons h
    rw [FdGuards.writeEntry]
    split
    · exact .cons (fun other hother n hfor =>
        rel_of_pairwise_cons h hother n (hf entry n hfor)) hrest
    · refine .cons (fun other hother n hfor => ?_) (ih hrest)
      by_contra hother'
      refine h.not_held hfor (held_of_writeEntry hf ⟨other, hother, ?_⟩)
      simpa using hother'

theorem Single.fdGuardRemove (h : Single entries) : Single (fdGuardRemove entries fd) := by
  refine h.writeEntry ?_
  intro entry n hzero
  cases hzero

theorem Single.placeEntry (h : Single entries)
    (hnew : ∀ fd, new.isFor fd = true → ¬ Held entries fd)
    (hplace : placeEntry new entries = some entries') : Single entries' := by
  induction entries generalizing entries' with
  | nil => cases hplace
  | cons entry entries ih =>
    rw [FdGuards.placeEntry] at hplace
    split at hplace
    · obtain ⟨rest, hrest, rfl⟩ := Option.map_eq_some_iff.mp hplace
      have hnew' : ∀ fd, new.isFor fd = true → ¬ Held entries fd :=
        fun fd hfor hheld => hnew fd hfor (held_cons.mpr (.inr hheld))
      refine .cons (fun other hother fd hfor => ?_) (ih (Pairwise.of_cons h) hnew' hrest)
      by_contra hother'
      have hheld : Held rest fd := ⟨other, hother, by simpa using hother'⟩
      rcases (held_placeEntry hrest).mp hheld with hnewFor | hheld
      · exact hnew fd hnewFor (held_cons.mpr (.inl hfor))
      · exact h.not_held hfor hheld
    · obtain rfl := Option.some.inj hplace
      refine .cons (fun other hother fd hfor => ?_) (Pairwise.of_cons h)
      by_contra hother'
      exact hnew fd hfor (held_cons.mpr (.inr ⟨other, hother, by simpa using hother'⟩))

end Machgate.FdGuards
