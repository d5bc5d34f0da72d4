import Mathlib.Data.BitVec

namespace Machgate.AllocationTable

def machgateAllocationShardCount : Nat := 32
def machgateAllocationShardInitialTableSize : Nat := 8192
def machgateAllocationMaxTableSize : Nat := 4194304
def machgateAllocationGuestCxx : BitVec 32 := 1

abbrev Ptr := BitVec 64

structure Record where
  ptr : Ptr
  size : BitVec 64
  zone : BitVec 64
  flags : BitVec 32
  deriving DecidableEq

namespace Record

def zero : Record := ⟨0, 0, 0, 0⟩

/-- What is left of a record that was forgotten: it keeps its pointer. -/
def tombstone (ptr : Ptr) : Record := ⟨ptr, 0, 0, 0⟩

variable (r : Record)

def isLive : Bool := r.ptr ≠ 0 && r.size ≠ 0

def isTombstone : Bool := r.ptr ≠ 0 && r.size = 0

end Record

structure Shard where
  records : List Record
  capacity : Nat
  liveCount : Nat
  tombstoneCount : Nat
  dropWarned : Bool

def allocationRecordHash (ptr : Ptr) : BitVec 64 :=
  let value := (ptr >>> 4) * 0x9E3779B97F4A7C15#64
  value ^^^ (value >>> 29)

def allocationRecordIndex (hash : BitVec 64) (capacity : Nat) : Nat :=
  (hash >>> 4).toNat &&& (capacity - 1)

def probes (hash : BitVec 64) (capacity : Nat) : List Nat :=
  (List.range capacity).map fun probe => (allocationRecordIndex hash capacity + probe) &&& (capacity - 1)

def recordAt (records : List Record) (i : Nat) : Record := records.getD i .zero

/-- The slot of a new record with `*inserted_out` and `*reused_tombstone_out`. -/
structure Insertion where
  slot : Nat
  inserted : Bool
  reusedTombstone : Bool

def noteReusable (records : List Record) (i : Nat) (reusableRecord : Option Nat) : Option Nat :=
  if (recordAt records i).ptr ≠ 0 ∧ (recordAt records i).size = 0 ∧ reusableRecord.isNone then some i
  else reusableRecord

def insertWalk (records : List Record) (ptr : Ptr) : Option Nat → List Nat → Option Insertion
  | reusableRecord, [] => reusableRecord.map fun slot => ⟨slot, true, true⟩
  | reusableRecord, i :: rest =>
    if (recordAt records i).ptr = ptr then
      some ⟨i, (recordAt records i).size = 0, (recordAt records i).size = 0⟩
    else
      let reusableRecord := noteReusable records i reusableRecord
      if (recordAt records i).ptr = 0 then
        some ⟨reusableRecord.getD i, true, reusableRecord.isSome⟩
      else insertWalk records ptr reusableRecord rest

def insertAllocationRecord (records : List Record) (capacity : Nat) (hash : BitVec 64) (r : Record) :
    Option (List Record × Insertion) :=
  (insertWalk records r.ptr none (probes hash capacity)).map fun insertion =>
    (records.set insertion.slot r, insertion)

def countReused (reused : Bool) (tombstoneCount : Nat) : Nat :=
  if reused ∧ tombstoneCount > 0 then tombstoneCount - 1 else tombstoneCount

def noteInsertedAllocationRecord (shard : Shard) (inserted reusedTombstone : Bool) : Shard :=
  if !inserted then shard
  else
    { shard with
      liveCount := shard.liveCount + 1
      tombstoneCount := countReused reusedTombstone shard.tombstoneCount }

/-- The loop over the old records, which puts the live ones into the new table. -/
def reinsert (capacity : Nat) : List Record → List Record → Option (List Record)
  | newRecords, [] => some newRecords
  | newRecords, record :: oldRecords =>
    if record.ptr = 0 ∨ record.size = 0 then reinsert capacity newRecords oldRecords
    else
      (insertAllocationRecord newRecords capacity (allocationRecordHash record.ptr) record).bind
        fun result => reinsert capacity result.1 oldRecords

/-- Whether `mmap` grants the memory for a compaction, and for a table of a size. -/
structure Kernel where
  compacts : Bool
  grows : Nat → Bool

def compactAllocationShard (granted : Bool) (shard : Shard) : Shard :=
  if !granted then shard
  else
    match reinsert shard.capacity (List.replicate shard.capacity .zero) shard.records with
    | none => shard
    | some newRecords =>
      { shard with
        records := newRecords
        liveCount := shard.records.countP Record.isLive
        tombstoneCount := 0 }

def allocationShardShouldCompact (shard : Shard) : Bool :=
  shard.tombstoneCount > 4096 &&
    (shard.tombstoneCount > shard.liveCount || shard.tombstoneCount > shard.capacity / 4)

def newCapacity (oldCapacity : Nat) : Nat :=
  if oldCapacity * 2 > machgateAllocationMaxTableSize then machgateAllocationMaxTableSize
  else oldCapacity * 2

def growAllocationShard (granted : Nat → Bool) (shard : Shard) : Option Shard :=
  if shard.capacity ≥ machgateAllocationMaxTableSize then none
  else if newCapacity shard.capacity ≤ shard.capacity then none
  else if !granted (newCapacity shard.capacity) then none
  else
    (reinsert (newCapacity shard.capacity) (List.replicate (newCapacity shard.capacity) .zero)
      shard.records).map fun newRecords =>
        { shard with
          records := newRecords
          capacity := newCapacity shard.capacity
          tombstoneCount := 0 }

theorem capacity_of_grow {granted : Nat → Bool} {shard grown : Shard}
    (h : growAllocationShard granted shard = some grown) :
    shard.capacity < machgateAllocationMaxTableSize ∧ shard.capacity < grown.capacity := by
  rw [growAllocationShard] at h
  split at h
  · cases h
  · next hmax =>
    split at h
    · cases h
    · next hgrows =>
      split at h
      · cases h
      · obtain ⟨newRecords, -, rfl⟩ := Option.map_eq_some_iff.mp h
        exact ⟨Nat.not_le.mp hmax, Nat.not_le.mp hgrows⟩

/-- The loops that grow the table until an attempt succeeds, or else drop the record. -/
def withRoom (kernel : Kernel) (attempt : Shard → Option Shard) (shard : Shard) : Shard :=
  match attempt shard with
  | some done => done
  | none =>
    match _h : growAllocationShard kernel.grows shard with
    | some grown => withRoom kernel attempt grown
    | none => { shard with dropWarned := true }
termination_by machgateAllocationMaxTableSize - shard.capacity
decreasing_by
  have := capacity_of_grow _h
  omega

def compacted (kernel : Kernel) (shard : Shard) : Shard :=
  if allocationShardShouldCompact shard then compactAllocationShard kernel.compacts shard else shard

def tryRecord (hash : BitVec 64) (r : Record) (shard : Shard) : Option Shard :=
  (insertAllocationRecord shard.records shard.capacity hash r).map fun (records, insertion) =>
    noteInsertedAllocationRecord { shard with records := records } insertion.inserted
      insertion.reusedTombstone

def lookupWalk (records : List Record) (ptr : Ptr) : List Nat → Option Nat
  | [] => none
  | i :: rest =>
    if (recordAt records i).ptr = 0 then none
    else if (recordAt records i).ptr = ptr then some i
    else lookupWalk records ptr rest

def eraseRecord (shard : Shard) (i : Nat) : Shard :=
  let record := recordAt shard.records i
  { shard with
    records := shard.records.set i (.tombstone record.ptr)
    liveCount := if record.size ≠ 0 then shard.liveCount - 1 else shard.liveCount
    tombstoneCount := if record.size ≠ 0 then shard.tombstoneCount + 1 else shard.tombstoneCount }

/-- What all callers record: `recorded_allocation_size` and `zone_recorded_size` give no zero. -/
abbrev Size := { size : BitVec 64 // size ≠ 0 }

theorem one_size_ne_zero : (1 : BitVec 64) ≠ 0 := by decide

def recordedAllocationSize (requestedSize : BitVec 64) : Size :=
  if h : requestedSize ≠ 0 then ⟨requestedSize, h⟩ else ⟨1, one_size_ne_zero⟩

inductive Marking
  | fresh (slot : Nat) (reused : Bool)
  | own (slot : Nat)

/-- Here the walk first looks for an empty slot. -/
def markWalk (records : List Record) (ptr : Ptr) : Option Nat → List Nat → Option Marking
  | reusableRecord, [] => reusableRecord.map fun slot => .fresh slot true
  | reusableRecord, i :: rest =>
    if (recordAt records i).ptr = 0 then some (.fresh (reusableRecord.getD i) reusableRecord.isSome)
    else
      let reusableRecord := noteReusable records i reusableRecord
      if (recordAt records i).ptr = ptr then some (.own i)
      else markWalk records ptr reusableRecord rest

def tryMark (hash : BitVec 64) (ptr : Ptr) (size : BitVec 64) (shard : Shard) : Option Shard :=
  (markWalk shard.records ptr none (probes hash shard.capacity)).map fun
    | .fresh slot reused =>
      { shard with
        records := shard.records.set slot
          ⟨ptr, recordedAllocationSize size, 0, machgateAllocationGuestCxx⟩
        liveCount := shard.liveCount + 1
        tombstoneCount := countReused reused shard.tombstoneCount }
    | .own slot =>
      let record := recordAt shard.records slot
      if record.size = 0 then
        { shard with
          records := shard.records.set slot { record with
            size := recordedAllocationSize size
            flags := record.flags ||| machgateAllocationGuestCxx }
          liveCount := shard.liveCount + 1
          tombstoneCount := countReused true shard.tombstoneCount }
      else
        { shard with
          records := shard.records.set slot
            { record with flags := record.flags ||| machgateAllocationGuestCxx } }

end Machgate.AllocationTable
