import Machgate.Interleaving

namespace Machgate.CxaGuard

open Interleaving

def shimCxaGuardComplete : BitVec 32 := 0x01
def shimCxaGuardPending : BitVec 32 := 0x02
def shimCxaGuardWaiting : BitVec 32 := 0x04
def shimCxaGuardStateMask : BitVec 32 := 0xff00
def shimCxaGuardStallLimit : Nat := 30000

def shimCxaGuardStateFromWord (word : BitVec 32) : BitVec 32 := (word >>> 8) &&& 0xff

def shimCxaGuardWordWithState (word state : BitVec 32) : BitVec 32 :=
  (word &&& ~~~shimCxaGuardStateMask) ||| ((state &&& 0xff) <<< 8)

/-- A thread stands for its `gettid`, which is never zero. -/
abbrev Thread := { tid : BitVec 32 // tid ≠ 0 }

/-- `words[0]` and `words[1]`. -/
structure Guard where
  word : BitVec 32
  owner : BitVec 32
  deriving DecidableEq

namespace Guard

variable (g : Guard)

def storeByte0 (value : BitVec 8) : Guard :=
  { g with word := (g.word &&& ~~~0xff#32) ||| value.setWidth 32 }

def byte1 : BitVec 32 := (g.word >>> 8) &&& 0xff

def storeByte1 (value : BitVec 8) : Guard :=
  { g with word := (g.word &&& ~~~0xff00#32) ||| (value.setWidth 32 <<< 8) }

end Guard

/-- Where a thread is in the three functions: the atomic access it makes next, with `wait_count` and
the word that was loaded. -/
inductive Phase
  | outside
  | loading (waitCount : Nat)
  | readingOwner (waitCount : Nat) (word : BitVec 32)
  | markingWaiting (waitCount : Nat) (word : BitVec 32)
  | sleeping (waitCount : Nat)
  | takingGuard (waitCount : Nat) (word : BitVec 32)
  | storingOwner
  | recursed
  | stalled
  | storingByte
  | exchangingState
  | clearingOwner (oldWaiting : Bool)
  | wakingReleased
  | abortingOwner
  | emptyingState
  | wakingAborted
  deriving DecidableEq

/-- `holding` from the return of an acquire with 1 to the call of release or abort. -/
structure Local where
  phase : Phase
  holding : Bool
  deriving DecidableEq

/-- What a thread learns and does; `marked` is the first store of a release. -/
inductive Event
  | acquired (t : Thread)
  | refused (t : Thread)
  | recursed (t : Thread)
  | releasing (t : Thread)
  | marked (t : Thread)
  | released (t : Thread)
  | aborting (t : Thread)
  | aborted (t : Thread)
  deriving DecidableEq

structure State where
  guard : Guard
  locals : Thread → Local
  log : List Event

def initial : State := ⟨⟨0, 0⟩, fun _ => ⟨.outside, false⟩, []⟩

/-- The stall limit ends the process. -/
def afterMarking (waitCount : Nat) : Phase :=
  if waitCount + 1 ≥ shimCxaGuardStallLimit then .stalled else .sleeping (waitCount + 1)

/-- The branches behind the load at the head of the loop. -/
def afterLoad (t : Thread) (l : Local) (waitCount : Nat) (word : BitVec 32) : Local × List Event :=
  let state := shimCxaGuardStateFromWord word
  if word &&& shimCxaGuardComplete ≠ 0 ∨ state = shimCxaGuardComplete then
    ({ l with phase := .outside }, [.refused t])
  else if state &&& shimCxaGuardPending ≠ 0 then ({ l with phase := .readingOwner waitCount word }, [])
  else ({ l with phase := .takingGuard waitCount word }, [])

def advance (t : Thread) (g : Guard) (l : Local) : Option (Guard × Local × List Event) :=
  match l.phase with
  | .loading waitCount => some (g, afterLoad t l waitCount g.word)
  | .readingOwner waitCount word =>
    if g.owner = t.1 then some (g, { l with phase := .recursed }, [.recursed t])
    else if shimCxaGuardStateFromWord word &&& shimCxaGuardWaiting = 0 then
      some (g, { l with phase := .markingWaiting waitCount word }, [])
    else some (g, { l with phase := afterMarking waitCount }, [])
  | .markingWaiting waitCount word =>
    some (if g.word = word then { g with word := word ||| (shimCxaGuardWaiting <<< 8) } else g,
      { l with phase := afterMarking waitCount }, [])
  | .sleeping waitCount => some (g, { l with phase := .loading waitCount }, [])
  | .takingGuard waitCount word =>
    if g.word = word then
      some ({ g with word := shimCxaGuardWordWithState word shimCxaGuardPending },
        { l with phase := .storingOwner }, [])
    else some (g, { l with phase := .loading waitCount }, [])
  | .storingOwner => some ({ g with owner := t.1 }, ⟨.outside, true⟩, [.acquired t])
  | .storingByte => some (g.storeByte0 0x01, { l with phase := .exchangingState }, [.marked t])
  | .exchangingState =>
    some (g.storeByte1 0x01,
      { l with phase := .clearingOwner (g.byte1 &&& shimCxaGuardWaiting ≠ 0) }, [])
  | .clearingOwner oldWaiting =>
    some ({ g with owner := 0 }, { l with phase := if oldWaiting then .wakingReleased else .outside },
      if oldWaiting then [] else [.released t])
  | .wakingReleased => some (g, { l with phase := .outside }, [.released t])
  | .abortingOwner => some ({ g with owner := 0 }, { l with phase := .emptyingState }, [])
  | .emptyingState =>
    if g.byte1 &&& shimCxaGuardWaiting ≠ 0 then
      some (g.storeByte1 0x00, { l with phase := .wakingAborted }, [])
    else some (g.storeByte1 0x00, { l with phase := .outside }, [.aborted t])
  | .wakingAborted => some (g, { l with phase := .outside }, [.aborted t])
  | .outside | .recursed | .stalled => none

inductive Move
  | acquire
  | release
  | abort
  | advance
  deriving DecidableEq

def State.after (s : State) (t : Thread) (g : Guard) (l : Local) (events : List Event) : State :=
  ⟨g, Function.update s.locals t l, s.log ++ events⟩

/-- The calls that a thread may make, and its way through them.  Only a thread whose acquire returned
1 calls release or abort; it may also acquire the guard once more. -/
def step (s : State) : Thread × Move → Option State
  | (t, .acquire) =>
    if (s.locals t).phase = .outside then
      some (s.after t s.guard { s.locals t with phase := .loading 0 } [])
    else none
  | (t, .release) =>
    if s.locals t = ⟨.outside, true⟩ then
      some (s.after t s.guard ⟨.storingByte, false⟩ [.releasing t])
    else none
  | (t, .abort) =>
    if s.locals t = ⟨.outside, true⟩ then
      some (s.after t s.guard ⟨.abortingOwner, false⟩ [.aborting t])
    else none
  | (t, .advance) =>
    (advance t s.guard (s.locals t)).map fun (g, l, events) => s.after t g l events

def running (log : List Event) (t : Thread) : Bool :=
  log.foldl (fun runs event =>
    match event with
    | .acquired t' => if t' = t then true else runs
    | .releasing t' | .aborting t' => if t' = t then false else runs
    | _ => runs) false

/-- The guard does its work, with `done` the event that ends an initialisation for good. -/
structure Guards (done : Thread → Event) (log : List Event) : Prop where
  one : ∀ before, before <+: log → ∀ t t', running before t → running before t' → t = t'
  refused : ∀ before t, before ++ [.refused t] <+: log → ∃ t', done t' ∈ before
  final : ∀ before t, before ++ [.acquired t] <+: log → ∀ t', done t' ∉ before
  recursed : ∀ before t, before ++ [.recursed t] <+: log → running before t

end Machgate.CxaGuard
