import Machgate.Interleaving
import Machgate.LinkedQueue

namespace Machgate.SerialQueue

open Interleaving LinkedQueue

def dispatchPoolWorkerCount : Nat := 4

/-- The threads of the guest, and those that the shim has started for the queue and for the pool. -/
inductive Thread
  | guest (n : Nat)
  | worker (n : Nat)
  | pool (n : Nat)
  deriving DecidableEq

/-- Where work is run: by a worker of the queue or of the pool, by the thread that submits it when
something is missing, and by the thread that calls `dispatch_sync`. -/
inductive Kind
  | item
  | pooled
  | inline
  | sync
  deriving DecidableEq

/-- Work goes by the number of its call. -/
inductive Event
  | submitted (t : Thread) (w : Nat)
  | enqueued (w : Nat)
  | started (t : Thread) (kind : Kind) (w : Nat)
  | ended (t : Thread) (kind : Kind) (w : Nat)
  deriving DecidableEq

inductive Form
  | block
  | function
  deriving DecidableEq

/-- What a thread does next within the shim; `guest` stands for guest code, and for a worker without
work for the head of its loop. -/
inductive Phase
  | guest
  | copying (w : Nat)
  | checking (form : Form) (w : Nat)
  | creating (form : Form) (w : Nat)
  | marking (form : Form) (w : Nat)
  | allocating (form : Form) (w : Nat)
  | linking (w : Nat)
  | checkingPool (w : Nat)
  | startingPool (w : Nat)
  | testingPool (w : Nat)
  | allocatingPool (w : Nat)
  | linkingPool (w : Nat)
  | taken (w : Nat)
  | takenPooled (w : Nat)
  deriving DecidableEq

/-- `frames` has the work that the thread is in the middle of, the innermost first. -/
structure Local where
  phase : Phase
  frames : List (Kind × Nat)
  deriving DecidableEq

/-- One created queue, the pool and the threads.  A work item goes by the number of its work. -/
structure State where
  links : Links Nat
  workerStarted : Bool
  workers : Nat
  poolLinks : Links Nat
  poolStarted : Bool
  poolWorkers : Nat
  locals : Thread → Local
  submissions : Nat
  log : List Event

def initial : State := ⟨empty, false, 0, empty, false, 0, fun _ => ⟨.guest, []⟩, 0, []⟩

namespace State

variable (s : State) (t : Thread)

def put (l : Local) : State := { s with locals := Function.update s.locals t l }

def goto (phase : Phase) : State := s.put t { s.locals t with phase := phase }

def record (event : Event) : State := { s with log := s.log ++ [event] }

def begin (kind : Kind) (w : Nat) : State :=
  (s.put t ⟨.guest, (kind, w) :: (s.locals t).frames⟩).record (.started t kind w)

def inGuest : Bool :=
  (s.locals t).phase = .guest &&
    match t with
    | .guest _ => true
    | .worker _ | .pool _ => !(s.locals t).frames.isEmpty

def atLoop : Bool := (s.locals t).phase = .guest && (s.locals t).frames.isEmpty

end State

/-- The next step of a thread in the shim.  `ok` says whether the call to the host succeeds, and
`created` how many of the pool's workers are there when `pthread_create` is through with them; its
result is not looked at there. -/
def advance (s : State) (t : Thread) (ok : Bool) (created : Nat) : Option State :=
  match (s.locals t).phase with
  | .guest => none
  | .copying w => some (if ok then s.goto t (.checking .block w) else s.begin t .inline w)
  | .checking form w =>
    some (if s.workerStarted then s.goto t (.allocating form w) else s.goto t (.creating form w))
  | .creating form w =>
    if ok then some ({ s with workers := s.workers + 1 }.goto t (.marking form w))
    else
      match form with
      | .block => some (s.goto t (.checkingPool w))
      | .function => some (s.begin t .inline w)
  | .marking form w => some ({ s with workerStarted := true }.goto t (.allocating form w))
  | .allocating _ w => some (if ok then s.goto t (.linking w) else s.begin t .inline w)
  | .linking w => some (({ s with links := push s.links w }.goto t .guest).record (.enqueued w))
  | .checkingPool w =>
    some (if s.poolStarted || !ok then s.goto t (.testingPool w) else s.goto t (.startingPool w))
  | .startingPool w =>
    if s.poolStarted then some (s.goto t (.testingPool w))
    else if created ≤ dispatchPoolWorkerCount then
      some ({ s with poolStarted := true, poolWorkers := created }.goto t (.testingPool w))
    else none
  | .testingPool w =>
    some (if s.poolStarted then s.goto t (.allocatingPool w) else s.begin t .inline w)
  | .allocatingPool w => some (if ok then s.goto t (.linkingPool w) else s.begin t .inline w)
  | .linkingPool w => some ({ s with poolLinks := push s.poolLinks w }.goto t .guest)
  | .taken w => some (s.begin t .item w)
  | .takenPooled w => some (s.begin t .pooled w)

def take (s : State) : Thread → Option State
  | .guest _ => none
  | .worker n =>
    if n < s.workers ∧ s.atLoop (.worker n) then
      (pop s.links).map fun (w, links) =>
        { s with links := links }.goto (.worker n) (.taken w)
    else none
  | .pool n =>
    if n < s.poolWorkers ∧ s.atLoop (.pool n) then
      (pop s.poolLinks).map fun (w, links) =>
        { s with poolLinks := links }.goto (.pool n) (.takenPooled w)
    else none

inductive Move
  | async (form : Form)
  | sync
  | advance (ok : Bool) (created : Nat)
  | take
  | finish
  deriving DecidableEq

def submit (s : State) (t : Thread) (phase : Phase) : State :=
  { s with submissions := s.submissions + 1 }.goto t phase |>.record (.submitted t s.submissions)

def step (s : State) : Thread × Move → Option State
  | (t, .async .block) =>
    if s.inGuest t then some (submit s t (.copying s.submissions)) else none
  | (t, .async .function) =>
    if s.inGuest t then some (submit s t (.checking .function s.submissions)) else none
  | (t, .sync) =>
    if s.inGuest t then
      some ({ s with submissions := s.submissions + 1 }.begin t .sync s.submissions)
    else none
  | (t, .advance ok created) => advance s t ok created
  | (t, .take) => take s t
  | (t, .finish) =>
    match s.locals t with
    | ⟨.guest, (kind, w) :: frames⟩ => some ((s.put t ⟨.guest, frames⟩).record (.ended t kind w))
    | _ => none

def enqueuedItems (log : List Event) : List Nat :=
  log.filterMap fun
    | .enqueued w => some w
    | _ => none

def startedItems (log : List Event) : List Nat :=
  log.filterMap fun
    | .started _ kind w => if kind = .sync then none else some w
    | _ => none

def runningItems (log : List Event) : List Nat :=
  log.foldl (fun running event =>
    match event with
    | .started _ kind w => if kind = .sync then running else w :: running
    | .ended _ kind w => if kind = .sync then running else running.erase w
    | _ => running) []

def stack (log : List Event) (t : Thread) : List (Kind × Nat) :=
  log.foldl (fun frames event =>
    match event with
    | .started t' kind w => if t' = t then (kind, w) :: frames else frames
    | .ended t' _ _ => if t' = t then frames.tail else frames
    | _ => frames) []

/-- Submitted work is run one at a time and in the order in which it was enqueued. -/
def InOrder (log : List Event) : Prop :=
  (runningItems log).length ≤ 1 ∧ startedItems log <+: enqueuedItems log

structure Serial (s : State) : Prop where
  worker : s.workers ≤ 1
  order : Always InOrder s.log

end Machgate.SerialQueue
