import Machgate.AllocationLedger
import Machgate.Interleaving

namespace Machgate.MallocZones

open AllocationTable AllocationWalks AllocationLedger Interleaving

abbrev Zone := BitVec 64

inductive AllocationFunction
  | malloc
  | calloc
  | valloc
  | memalign
  deriving DecidableEq

/-- The entries of `struct machgate_malloc_zone` that are not null. -/
structure ZoneTable where
  allocates : AllocationFunction → Bool
  free : Bool
  realloc : Bool
  batchFree : Bool
  freeDefiniteSize : Bool

/-- What does not change during a run: the address of `default_malloc_zone`, the tables of the zones
and the extent of `bootstrap_buf`. -/
structure World where
  defaultMallocZone : Zone
  tables : Zone → ZoneTable
  inBootstrap : Ptr → Bool

/-- Where a pointer is handed to when it is released or resized. -/
inductive Target
  | zone (z : Zone)
  | host
  | unmap
  deriving DecidableEq

/-- A pointer that is handed over, with the zone that it was obtained from if that is a custom one. -/
structure Delivery where
  ptr : Ptr
  owner : Option Zone
  target : Target
  deriving DecidableEq

/-- `owner` has the blocks of the custom zones. -/
structure State where
  ledger : Ledger
  owner : Ptr → Option Zone
  log : List Delivery

def initial : State := ⟨emptyLedger, fun _ => none, []⟩

namespace State

variable (s : State)

def deliver (target : Target) (ptr : Ptr) : State :=
  { s with log := s.log ++ [⟨ptr, s.owner ptr, target⟩] }

def forget (ptr : Ptr) : State := { s with ledger := forgetAllocation s.ledger ptr }

def setOwner (ptr : Ptr) (owner : Option Zone) : State :=
  { s with owner := Function.update s.owner ptr owner }

def record (kernel : Kernel) (ptr : Ptr) (size : Size) (zone : Zone) : State :=
  { s with ledger := recordAllocationWithZone kernel s.ledger ptr size zone }

variable (ptr : Ptr)

@[simp] theorem owner_deliver (target : Target) : (s.deliver target ptr).owner = s.owner := rfl

@[simp] theorem owner_setOwner (owner : Option Zone) :
    (s.setOwner ptr owner).owner = Function.update s.owner ptr owner := rfl

end State

variable (w : World)

def isDefaultMallocZone (zone : Zone) : Bool := zone = 0 || zone = w.defaultMallocZone

/-- `custom_malloc_zone` with a test for an entry of the table. -/
def hasEntry (zone : Zone) (entry : ZoneTable → Bool) : Bool :=
  !isDefaultMallocZone w zone && entry (w.tables zone)

/-- The zone of a live record, null without one. -/
def allocationRecordedZone (ledger : Ledger) (ptr : Ptr) : Zone :=
  match lookupAllocation ledger ptr with
  | some info => if info.size ≠ 0 then info.zone else 0
  | none => 0

def effectiveMallocZone (ledger : Ledger) (zone : Zone) (ptr : Ptr) : Zone :=
  if !isDefaultMallocZone w zone then zone
  else if allocationRecordedZone ledger ptr ≠ 0 then allocationRecordedZone ledger ptr
  else zone

/-- `mapped` says whether the pointer is in the registry of mappings. -/
def shimFreeImplAt (s : State) (ptr : Ptr) (mapped : Bool) : State :=
  if ptr = 0 then s
  else
    let s := { s with ledger := (takeAllocationRecord s.ledger ptr).1 }
    if w.inBootstrap ptr then s
    else ((s.deliver (if mapped then .unmap else .host) ptr).setOwner ptr none)

/-- The outcome of a call that gives out memory: what the kernel grants the ledger, the pointer
(null on failure), whether the request was for no bytes, and the size that is recorded. -/
structure Outcome where
  kernel : Kernel
  result : Ptr
  nothing : Bool
  size : Size

/-- The bookkeeping behind `realloc`, the host's or a zone's. -/
def afterRealloc (s : State) (ptr : Ptr) (o : Outcome) (zone : Zone) (owner : Option Zone) : State :=
  let s := if o.result ≠ 0 ∨ o.nothing then (s.forget ptr).setOwner ptr none else s
  if o.result ≠ 0 then (s.record o.kernel o.result o.size zone).setOwner o.result owner else s

def shimReallocImplAt (s : State) (ptr : Ptr) (o : Outcome) : State :=
  if ptr ≠ 0 ∧ w.inBootstrap ptr then
    -- The old bytes are copied to a block from `malloc`.
    if o.result = 0 ∧ !o.nothing then s
    else
      let s := if o.result ≠ 0 then s.record o.kernel o.result o.size 0 else s
      s.forget ptr
  else if ptr = 0 then afterRealloc s ptr o 0 none
  else afterRealloc (s.deliver .host ptr) ptr o 0 none

def mallocZoneFree (s : State) (zone : Zone) (ptr : Ptr) (mapped : Bool) : State :=
  let effective := effectiveMallocZone w s.ledger zone ptr
  if hasEntry w effective ZoneTable.free then
    ((s.deliver (.zone effective) ptr).forget ptr).setOwner ptr none
  else shimFreeImplAt w s ptr mapped

def mallocZoneRealloc (s : State) (zone : Zone) (ptr : Ptr) (o : Outcome) : State :=
  let effective := effectiveMallocZone w s.ledger zone ptr
  if hasEntry w effective ZoneTable.realloc then
    afterRealloc (s.deliver (.zone effective) ptr) ptr o effective (some effective)
  else shimReallocImplAt w s ptr o

/-- Here the zone is not looked up in the ledger before its table is. -/
def mallocZoneBatchFree (s : State) (zone : Zone) (pointers : List (Ptr × Bool)) : State :=
  if hasEntry w zone ZoneTable.batchFree then
    let s := pointers.foldl (fun s p => s.deliver (.zone zone) p.1) s
    pointers.foldl (fun s p => (s.forget p.1).setOwner p.1 none) s
  else pointers.foldl (fun s p => mallocZoneFree w s zone p.1 p.2) s

def mallocZoneFreeDefiniteSize (s : State) (zone : Zone) (ptr : Ptr) (mapped : Bool) : State :=
  let effective := effectiveMallocZone w s.ledger zone ptr
  if hasEntry w effective ZoneTable.freeDefiniteSize then
    ((s.deliver (.zone effective) ptr).forget ptr).setOwner ptr none
  else mallocZoneFree w s effective ptr mapped

/-- `malloc_zone_malloc`, `malloc_zone_calloc`, `malloc_zone_valloc` and `malloc_zone_memalign`. -/
def mallocZoneAllocate (s : State) (function : AllocationFunction) (zone : Zone) (o : Outcome) : State :=
  if o.result = 0 then s
  else if hasEntry w zone fun table => table.allocates function then
    (s.record o.kernel o.result o.size zone).setOwner o.result (some zone)
  else (s.record o.kernel o.result o.size 0).setOwner o.result none

inductive Move
  | allocate (function : AllocationFunction) (zone : Zone) (o : Outcome)
  | free (ptr : Ptr) (mapped : Bool)
  | realloc (ptr : Ptr) (o : Outcome)
  | zoneFree (zone : Zone) (ptr : Ptr) (mapped : Bool)
  | zoneRealloc (zone : Zone) (ptr : Ptr) (o : Outcome)
  | batchFree (zone : Zone) (pointers : List (Ptr × Bool))
  | freeDefiniteSize (zone : Zone) (ptr : Ptr) (mapped : Bool)

/-- No zone hands out a part of `bootstrap_buf`. -/
def step (s : State) : Move → Option State
  | .allocate function zone o =>
    if w.inBootstrap o.result then none else some (mallocZoneAllocate w s function zone o)
  | .free ptr mapped => some (shimFreeImplAt w s ptr mapped)
  | .realloc ptr o => if w.inBootstrap o.result then none else some (shimReallocImplAt w s ptr o)
  | .zoneFree zone ptr mapped => some (mallocZoneFree w s zone ptr mapped)
  | .zoneRealloc zone ptr o =>
    if w.inBootstrap o.result then none else some (mallocZoneRealloc w s zone ptr o)
  | .batchFree zone pointers => some (mallocZoneBatchFree w s zone pointers)
  | .freeDefiniteSize zone ptr mapped => some (mallocZoneFreeDefiniteSize w s zone ptr mapped)

/-- The blocks of a custom zone come to no other place than the zone. -/
def Respected (log : List Delivery) : Prop := ∀ d ∈ log, ∀ z ∈ d.owner, d.target = .zone z

/-- A call names the zone of a block, or leaves it to the ledger, which has it. -/
def Named (s : State) (zone : Zone) (ptr : Ptr) (z : Zone) : Prop :=
  zone = z ∨ isDefaultMallocZone w zone ∧ allocationRecordedZone s.ledger ptr = z

def RoutedFree (s : State) (zone : Zone) (ptr : Ptr) : Prop :=
  ∀ z ∈ s.owner ptr, Named w s zone ptr z ∧ (w.tables z).free

def RoutedFrees (zone : Zone) : State → List (Ptr × Bool) → Prop
  | _, [] => True
  | s, p :: rest => RoutedFree w s zone p.1 ∧ RoutedFrees zone (mallocZoneFree w s zone p.1 p.2) rest

/-- A block of a custom zone is released and resized only by functions that are given the zone, or
find it in the ledger, and that have an entry for this in its table. -/
def Routed (s : State) : Move → Prop
  | .allocate _ _ _ => True
  | .free ptr _ => s.owner ptr = none
  | .realloc ptr _ => s.owner ptr = none
  | .zoneFree zone ptr _ => RoutedFree w s zone ptr
  | .zoneRealloc zone ptr _ => ∀ z ∈ s.owner ptr, Named w s zone ptr z ∧ (w.tables z).realloc
  | .batchFree zone pointers =>
    if hasEntry w zone ZoneTable.batchFree then ∀ p ∈ pointers, ∀ z ∈ s.owner p.1, zone = z
    else RoutedFrees w zone s pointers
  | .freeDefiniteSize zone ptr _ =>
    ∀ z ∈ s.owner ptr, Named w s zone ptr z ∧ ((w.tables z).freeDefiniteSize ∨ (w.tables z).free)

end Machgate.MallocZones
