import Mathlib.Data.BitVec

namespace Machgate.KqueueTable

inductive Filter
  | read
  | write
  | user
  | other (number : BitVec 16)
  deriving DecidableEq

structure Kevent where
  ident : BitVec 64
  filter : Filter
  flags : BitVec 16
  fflags : BitVec 32
  data : BitVec 64
  udata : BitVec 64
  deriving DecidableEq

def evDelete : BitVec 16 := 0x0002
def evDisable : BitVec 16 := 0x0008
def evClear : BitVec 16 := 0x0020
def evReceipt : BitVec 16 := 0x0040
def evError : BitVec 16 := 0x4000
def evEof : BitVec 16 := 0x8000
def noteTrigger : BitVec 32 := 0x01000000

def Kevent.has (e : Kevent) (flag : BitVec 16) : Bool := e.flags &&& flag ≠ 0#16
def Kevent.triggers (e : Kevent) : Bool := e.fflags &&& noteTrigger ≠ 0#32

def kqueueRegistrationCount : Nat := 1024
def kqueueAliasCount : Int := 1024

structure Registration where
  kq : Int
  ident : BitVec 64
  filter : Filter
  flags : BitVec 16
  fflags : BitVec 32
  data : BitVec 64
  udata : BitVec 64
  triggered : Bool
  ready : Bool
  deriving DecidableEq

namespace Registration

variable (r : Registration)

def has (flag : BitVec 16) : Bool := r.flags &&& flag ≠ 0#16

def identFd : Int := (r.ident.setWidth 32).toInt

def isFor (kq : Int) (ident : BitVec 64) (filter : Filter) : Bool :=
  r.kq = kq && r.ident = ident && r.filter = filter

end Registration

/-- The static data of the shim; an unused slot and an alias of -1 are `none`.  `pending` belongs to
the kernel: the eventfds that have something to read. -/
structure Shim where
  registrations : List (Option Registration)
  aliases : Int → Option Int
  pending : Nat → Bool

/-- What the kernel has to say during a call: the eventfd behind a descriptor, what `poll` reports
for a descriptor, what `FIONREAD` and `SO_ACCEPTCONN` report, and the `errno` of `poll` if it
fails. -/
structure World where
  eventfd : Int → Option Nat
  revents : Int → Filter → BitVec 16
  available : Int → Nat
  listening : Int → Bool
  pollErrno : Option Nat

def pollin : BitVec 16 := 0x0001
def pollerr : BitVec 16 := 0x0008
def pollhup : BitVec 16 := 0x0010
def pollnval : BitVec 16 := 0x0020

def initKqueueAliases : Int → Option Int := fun _ => none

def emptyShim : Shim :=
  ⟨List.replicate kqueueRegistrationCount none, initKqueueAliases, fun _ => false⟩

def tracked (fd : Int) : Bool := 0 ≤ fd && fd < kqueueAliasCount

namespace Shim

variable (s : Shim)

def resolveKqueueFd (kq : Int) : Int := if tracked kq then (s.aliases kq).getD kq else kq

def findKqueueRegistration (kq : Int) (ident : BitVec 64) (filter : Filter) : Option Nat :=
  s.registrations.findIdx? fun slot => slot.any fun r => r.isFor (s.resolveKqueueFd kq) ident filter

def allocKqueueRegistration : Option Nat := s.registrations.findIdx? Option.isNone

def setSlot (slot : Nat) (r : Option Registration) : Shim :=
  { s with registrations := s.registrations.set slot r }

def slot (i : Nat) : Option Registration := (s.registrations[i]?).join

end Shim

def setPending (w : World) (fd : Int) (value : Bool) (pending : Nat → Bool) : Nat → Bool :=
  match w.eventfd fd with
  | none => pending
  | some q => Function.update pending q value

def changed (kq : Int) (change : Kevent) (triggered : Bool) : Registration where
  kq := kq
  ident := change.ident
  filter := change.filter
  flags := change.flags
  fflags := change.fflags
  data := change.data
  udata := change.udata
  triggered := triggered || change.triggers
  ready := false

def store (w : World) (s : Shim) (slot : Nat) (r : Registration) (change : Kevent) : Shim :=
  let s := s.setSlot slot (some r)
  if change.filter = .user ∧ change.triggers then
    { s with pending := setPending w r.kq true s.pending }
  else s

/-- `none` if there is no free slot. -/
def updateKqueueRegistration (w : World) (kq : Int) (s : Shim) (change : Kevent) : Option Shim :=
  let found := s.findKqueueRegistration kq change.ident change.filter
  if change.has evDelete then
    match found with
    | none => some s
    | some slot => some (s.setSlot slot none)
  else if change.filter ≠ .read ∧ change.filter ≠ .write ∧ change.filter ≠ .user then some s
  else
    match found with
    | some slot =>
      let triggered := ((s.slot slot).map Registration.triggered).getD false
      some (store w s slot (changed (s.resolveKqueueFd kq) change triggered) change)
    | none =>
      s.allocKqueueRegistration.map fun slot =>
        store w s slot (changed (s.resolveKqueueFd kq) change false) change

/-- What the changes have made of the table, and whether all of them were applied. -/
def applyKqueueChanges (w : World) (kq : Int) : Shim → List Kevent → Shim × Bool
  | s, [] => (s, true)
  | s, change :: rest =>
    match updateKqueueRegistration w kq s change with
    | none => (s, false)
    | some next => applyKqueueChanges w kq next rest

def emitKqueueReceipts (changelist : List Kevent) (nevents : Nat) : List Kevent :=
  ((changelist.filter fun change => change.has evReceipt).take nevents).map fun change =>
    { change with flags := change.flags ||| evError, data := 0 }

structure Timespec where
  tvSec : Int
  tvNsec : Int

/-- Milliseconds, rounded up; -1 for a wait without end. -/
def keventTimeoutMs : Option Timespec → Int
  | none => -1
  | some t =>
    if t.tvSec < 0 ∨ t.tvNsec < 0 ∨ 1000000000 ≤ t.tvNsec then -1
    else if t.tvSec > 0x7fffffff / 1000 then 0x7fffffff
    else (t.tvSec * 1000 + (t.tvNsec + 999999) / 1000000).bmod (2 ^ 32)

/-- A registration as it was when the descriptors were collected, with its slot. -/
structure Collected where
  slot : Nat
  snapshot : Registration

def collectKqueuePollfds (s : Shim) (kq : Int) (maxEvents : Nat) : List Collected :=
  (s.registrations.zipIdx.filterMap fun (slot, i) =>
    (slot.filter fun r => r.kq = s.resolveKqueueFd kq && !r.has evDisable).map (⟨i, ·⟩)).take maxEvents

/-- What `poll` reports for a collected registration: for a user event the eventfd of the kqueue. -/
def polled (w : World) (pending : Nat → Bool) (kq : Int) (r : Registration) : BitVec 16 :=
  match r.filter with
  | .user =>
    match w.eventfd kq with
    | some q => if pending q then pollin else 0
    | none => w.revents kq .read
  | filter => w.revents r.identFd filter

def kqueueEventData (w : World) (r : Registration) (revents : BitVec 16) : BitVec 64 :=
  match r.filter with
  | .read =>
    if w.available r.identFd > 0 then BitVec.ofNat 64 (w.available r.identFd)
    else if revents &&& pollin ≠ 0 ∧ w.listening r.identFd then 1 else 0
  | .write => if revents &&& (pollerr ||| pollhup ||| pollnval) ≠ 0 then 0 else 1
  | _ => 0

def eventOf (w : World) (r : Registration) (revents : BitVec 16) : Kevent where
  ident := r.ident
  filter := r.filter
  flags := if revents &&& (pollhup ||| pollerr ||| pollnval) ≠ 0 then r.flags ||| evEof else r.flags
  fflags := r.fflags
  data := kqueueEventData w r revents
  udata := r.udata

def Registration.clearWrite (r : Registration) : Bool := r.has evClear && r.filter = .write

def liveMatches (live snapshot : Registration) : Bool :=
  live.isFor snapshot.kq snapshot.ident snapshot.filter && live.udata = snapshot.udata

def reported (live snapshot : Registration) : Registration :=
  { live with
    ready := if snapshot.clearWrite then true else live.ready
    triggered := if snapshot.filter = .user then false else live.triggered }

def drain (w : World) (s : Shim) (r : Registration) : Shim :=
  if r.filter = .user then { s with pending := setPending w r.kq false s.pending } else s

def emitStep (w : World) (s : Shim) (c : Collected) (revents : BitVec 16) : Shim × Option Kevent :=
  match (s.slot c.slot).filter fun live => liveMatches live c.snapshot with
  | none => (drain w s c.snapshot, none)
  | some live =>
    if revents = 0 ∧ c.snapshot.filter ≠ .user then
      (s.setSlot c.slot (some { live with ready := false }), none)
    else if revents = 0 ∧ !c.snapshot.triggered then (s, none)
    else if c.snapshot.clearWrite ∧ live.ready then (s, none)
    else
      (drain w (s.setSlot c.slot (some (reported live c.snapshot))) c.snapshot,
        some (eventOf w c.snapshot revents))

/-- The loop with what `poll` reported, as long as there is room for an event. -/
def emitKqueueEvents (w : World) : Shim → List (Collected × BitVec 16) → Nat → Shim × List Kevent
  | s, [], _ => (s, [])
  | s, _ :: _, 0 => (s, [])
  | s, (c, revents) :: rest, nevents + 1 =>
    match emitStep w s c revents with
    | (next, none) => emitKqueueEvents w next rest (nevents + 1)
    | (next, some event) =>
      ((emitKqueueEvents w next rest nevents).1, event :: (emitKqueueEvents w next rest nevents).2)

/-- `result` is the number that is returned, and the caller takes so many entries of the list, in
which the events stand behind the receipts. -/
inductive Result
  | error (errno : Nat)
  | events (result : Nat) (receipts events : List Kevent)
  deriving DecidableEq

def ebadf : Nat := 9
def enomem : Nat := 12
def einval : Nat := 22

/-- The arguments; a null `changelist` is empty, a null `eventlist` has no room. -/
structure Call where
  kq : Int
  changelist : List Kevent
  eventlist : Bool
  nevents : Int
  timeout : Option Timespec

def Call.room (call : Call) : Nat :=
  if call.eventlist then
    call.nevents.toNat - (emitKqueueReceipts call.changelist call.nevents.toNat).length
  else 0

def pollList (w : World) (s : Shim) (kq : Int) (room : Nat) : List (Collected × BitVec 16) :=
  (collectKqueuePollfds s kq (min room 64)).map fun c => (c, polled w s.pending kq c.snapshot)

/-- The call in a world that is the one in which `poll` returns. -/
def kevent (w : World) (s : Shim) (call : Call) : Shim × Result :=
  if call.kq < 0 then (s, .error ebadf)
  else if call.nevents < 0 then (s, .error einval)
  else
    let applied := applyKqueueChanges w call.kq s call.changelist
    if !applied.2 then (applied.1, .error enomem)
    else
      let receipts :=
        if call.eventlist then emitKqueueReceipts call.changelist call.nevents.toNat else []
      let entries := pollList w applied.1 call.kq call.room
      if entries = [] then
        (applied.1, .events (if call.room = 0 then receipts.length else 0) receipts [])
      else
        match w.pollErrno with
        | some errno => (applied.1, .error errno)
        | none =>
          let emitted := emitKqueueEvents w applied.1 entries call.room
          (emitted.1, .events emitted.2.length receipts emitted.2)

/-- The call does not return at once in this world: `poll` has nothing to report. -/
def waits (w : World) (s : Shim) (call : Call) : Prop :=
  let applied := applyKqueueChanges w call.kq s call.changelist
  0 ≤ call.kq ∧ 0 ≤ call.nevents ∧ applied.2 = true ∧ pollList w applied.1 call.kq call.room ≠ [] ∧
    (∀ entry ∈ pollList w applied.1 call.kq call.room, entry.2 = 0#16) ∧
      keventTimeoutMs call.timeout ≠ 0

end Machgate.KqueueTable
