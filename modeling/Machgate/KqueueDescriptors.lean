import Machgate.KqueueRuns

namespace Machgate.KqueueDescriptors

open KqueueTable KqueueSlots

def rememberKqueueFd (s : Shim) (fd canonicalFd : Int) : Shim :=
  if tracked fd then { s with aliases := Function.update s.aliases fd (some canonicalFd) } else s

def isAlias (s : Shim) (fd : Int) : Bool := tracked fd && (s.aliases fd).isSome

def rememberKqueueDup (s : Shim) (fromFd toFd : Int) : Shim :=
  if s.resolveKqueueFd fromFd ≠ fromFd ∨ isAlias s fromFd then
    rememberKqueueFd s toFd (s.resolveKqueueFd fromFd)
  else s

def concerns (fd : Int) (ident : BitVec 64) (filter : Filter) : Bool :=
  (filter = .read || filter = .write) && (ident.setWidth 32).toInt = fd

def forgotten (s : Shim) (fd : Int) (r : Registration) : Bool :=
  (isAlias s fd && r.kq = s.resolveKqueueFd fd) || concerns fd r.ident r.filter

def forgetKqueueFd (s : Shim) (fd : Int) : Shim :=
  let aliases := if tracked fd then Function.update s.aliases fd none else s.aliases
  { s with
    registrations := s.registrations.map fun slot => slot.filter fun r => !forgotten s fd r
    aliases :=
      if isAlias s fd ∧ fd = s.resolveKqueueFd fd then
        fun i => if aliases i = some (s.resolveKqueueFd fd) then none else aliases i
      else aliases }

inductive File
  | kqueue (q : Nat)
  | other
  deriving DecidableEq

/-- The shim and the descriptors of the process; `fresh` is the next kqueue. -/
structure System where
  shim : Shim
  files : Int → Option File
  fresh : Nat

/-- The calls that succeed, with the numbers that the kernel gives out. -/
inductive Op
  | kqueue (fd : Int)
  | opened (fd : Int)
  | dup (fd result : Int)
  | dup2 (oldfd newfd : Int)
  | kevent (w : World) (call : Call)
  | close (fd : Int)

namespace System

variable (sys : System)

def eventfd (fd : Int) : Option Nat :=
  match sys.files fd with
  | some (.kqueue q) => some q
  | _ => none

def drop (fd : Int) : System :=
  { sys with shim := forgetKqueueFd sys.shim fd, files := Function.update sys.files fd none }

def copy (fromFd toFd : Int) : System :=
  { sys with
    shim := rememberKqueueDup sys.shim fromFd toFd
    files := Function.update sys.files toFd (sys.files fromFd) }

def step : Op → System
  | .kqueue fd =>
    { shim := rememberKqueueFd sys.shim fd fd
      files := Function.update sys.files fd (some (.kqueue sys.fresh))
      fresh := sys.fresh + 1 }
  | .opened fd => { sys with files := Function.update sys.files fd (some .other) }
  | .dup fd result => sys.copy fd result
  | .dup2 oldfd newfd =>
    if oldfd = newfd then sys.copy oldfd newfd else (sys.drop newfd).copy oldfd newfd
  | .kevent w call =>
    { sys with shim := (KqueueTable.kevent { w with eventfd := sys.eventfd } sys.shim call).1 }
  | .close fd => sys.drop fd

def Allowed : Op → Prop
  | .kqueue fd => 0 ≤ fd ∧ sys.files fd = none
  | .opened fd => 0 ≤ fd ∧ sys.files fd = none
  | .dup fd result => sys.files fd ≠ none ∧ 0 ≤ result ∧ sys.files result = none
  | .dup2 oldfd newfd => sys.files oldfd ≠ none ∧ 0 ≤ newfd
  | .kevent _ _ => True
  | .close fd => sys.files fd ≠ none

end System

/-- The registrations of each kqueue: the change that was applied last, by identifier and filter. -/
abbrev Kqueues := Nat → BitVec 64 → Filter → Option Kevent

namespace Kqueues

def change (held : BitVec 64 → Filter → Option Kevent) (c : Kevent) :
    BitVec 64 → Filter → Option Kevent := fun ident filter =>
  if ident = c.ident ∧ filter = c.filter then
    if c.has evDelete then none
    else if filter = .read ∨ filter = .write ∨ filter = .user then some c
    else held ident filter
  else held ident filter

/-- The changes up to the first for which the shim has no slot left. -/
def changes (w : World) (kq : Int) : Shim → List Kevent → (BitVec 64 → Filter → Option Kevent) →
    BitVec 64 → Filter → Option Kevent
  | _, [], held => held
  | s, c :: rest, held =>
    match updateKqueueRegistration w kq s c with
    | none => held
    | some next => changes w kq next rest (change held c)

def drop (k : Kqueues) (fd : Int) : Kqueues := fun q ident filter =>
  if concerns fd ident filter then none else k q ident filter

def step (sys : System) (k : Kqueues) : Op → Kqueues
  | .kqueue _ => Function.update k sys.fresh fun _ _ => none
  | .opened _ => k
  | .dup _ _ => k
  | .dup2 oldfd newfd => if oldfd = newfd then k else k.drop newfd
  | .kevent w call =>
    match sys.eventfd call.kq with
    | none => k
    | some q =>
      if 0 ≤ call.kq ∧ 0 ≤ call.nevents then
        Function.update k q
          (changes { w with eventfd := sys.eventfd } call.kq sys.shim call.changelist (k q))
      else k
  | .close fd => k.drop fd

end Kqueues

/-- The shim beside the kqueues it stands for. -/
def runOps : System × Kqueues → List Op → System × Kqueues
  | x, [] => x
  | (sys, k), op :: ops => runOps (sys.step op, k.step sys op) ops

/-- Nothing but files other than kqueues is open. -/
def System.started (opened : Int → Bool) : System :=
  ⟨emptyShim, fun fd => if opened fd then some .other else none, 0⟩

def held (r : Registration) : Kevent := ⟨r.ident, r.filter, r.flags, r.fflags, r.data, r.udata⟩

def registered (s : Shim) (fd : Int) (ident : BitVec 64) (filter : Filter) : Option Kevent :=
  (s.findKqueueRegistration fd ident filter).bind fun i => (s.slot i).map held

/-- Each descriptor of a kqueue shows its registrations, and there are no others. -/
structure Kept (sys : System) (k : Kqueues) : Prop where
  usable : ∀ fd q, sys.files fd = some (.kqueue q) →
    ∀ ident filter, registered sys.shim fd ident filter = k q ident filter
  gone : ∀ i r, sys.shim.slot i = some r →
    ∃ fd q, sys.files fd = some (.kqueue q) ∧ sys.shim.resolveKqueueFd fd = r.kq

namespace System

variable (sys : System)

def Empty (fd : Int) : Prop := ∀ i r, sys.shim.slot i = some r → r.kq ≠ sys.shim.resolveKqueueFd fd

def Last (fd : Int) : Prop := ∀ fd', sys.files fd' = sys.files fd → fd' = fd

/-- A descriptor of a kqueue is closed if it is the last one and its number is tracked, or while
nothing is registered and the kqueue is not known by this number. -/
def ClosesWell (fd : Int) : Prop :=
  ∀ q, sys.files fd = some (.kqueue q) →
    sys.Last fd ∧ tracked fd ∨ sys.Empty fd ∧ (sys.Last fd ∨ sys.shim.resolveKqueueFd fd ≠ fd)

def CopiesWell (fromFd toFd : Int) : Prop :=
  ∀ q, sys.files fromFd = some (.kqueue q) → tracked fromFd ∧ tracked toFd

def Careful : Op → Prop
  | .kqueue _ => True
  | .opened _ => True
  | .dup fd result => sys.CopiesWell fd result
  | .dup2 oldfd newfd => oldfd ≠ newfd → sys.CopiesWell oldfd newfd ∧ sys.ClosesWell newfd
  | .kevent _ call => ∃ q, sys.files call.kq = some (.kqueue q)
  | .close fd => sys.ClosesWell fd

def AllowedRun : System → List Op → Prop
  | _, [] => True
  | sys, op :: ops => sys.Allowed op ∧ AllowedRun (sys.step op) ops

def CarefulRun : System → List Op → Prop
  | _, [] => True
  | sys, op :: ops => sys.Careful op ∧ CarefulRun (sys.step op) ops

end System

end Machgate.KqueueDescriptors
