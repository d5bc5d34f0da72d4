import Machgate.AllocationGrowth

namespace Machgate.AllocationLedger

open AllocationTable AllocationWalks AllocationShards AllocationGrowth ProbeTable
open Function Option List

theorem shard_lt (hash : BitVec 64) :
    hash.toNat &&& (machgateAllocationShardCount - 1) < machgateAllocationShardCount :=
  Nat.lt_of_le_of_lt Nat.and_le_right (by decide)

def allocationShardForHash (hash : BitVec 64) : Fin machgateAllocationShardCount :=
  ⟨hash.toNat &&& (machgateAllocationShardCount - 1), shard_lt hash⟩

def shardOf (ptr : Ptr) : Fin machgateAllocationShardCount :=
  allocationShardForHash (allocationRecordHash ptr)

abbrev Ledger := Fin machgateAllocationShardCount → Shard

def emptyShard : Shard where
  records := List.replicate machgateAllocationShardInitialTableSize .zero
  capacity := machgateAllocationShardInitialTableSize
  liveCount := 0
  tombstoneCount := 0
  dropWarned := false

def emptyLedger : Ledger := fun _ => emptyShard

section

variable (kernel : Kernel) (ledger : Ledger) (ptr : Ptr)

def recordAllocationWithZone (size : Size) (zone : BitVec 64) : Ledger :=
  if ptr = 0 then ledger
  else
    Function.update ledger (shardOf ptr)
      (withRoom kernel (tryRecord (allocationRecordHash ptr) ⟨ptr, size, zone, 0⟩)
        (compacted kernel (ledger (shardOf ptr))))

def lookupSlot : Option Nat :=
  lookupWalk (ledger (shardOf ptr)).records ptr
    (probes (allocationRecordHash ptr) (ledger (shardOf ptr)).capacity)

/-- The size, zone and flags that are found; the size of a tombstone is zero. -/
def lookupAllocation : Option Info :=
  if ptr = 0 then none
  else (lookupSlot ledger ptr).map fun i => Record.info (recordAt (ledger (shardOf ptr)).records i)

def takeAllocationRecord : Ledger × Option Info :=
  if ptr = 0 then (ledger, none)
  else
    match lookupSlot ledger ptr with
    | none => (ledger, none)
    | some i =>
      (Function.update ledger (shardOf ptr) (eraseRecord (ledger (shardOf ptr)) i),
        some (Record.info (recordAt (ledger (shardOf ptr)).records i)))

def forgetAllocation : Ledger :=
  if ptr = 0 then ledger
  else
    match lookupSlot ledger ptr with
    | none => ledger
    | some i => Function.update ledger (shardOf ptr) (eraseRecord (ledger (shardOf ptr)) i)

def markGuestCxxAllocation (size : BitVec 64) : Ledger :=
  if ptr = 0 then ledger
  else
    Function.update ledger (shardOf ptr)
      (withRoom kernel (tryMark (allocationRecordHash ptr) ptr size)
        (compacted kernel (ledger (shardOf ptr))))

end

inductive Op
  | record (ptr : Ptr) (size : Size) (zone : BitVec 64)
  | forget (ptr : Ptr)
  | take (ptr : Ptr)
  | mark (ptr : Ptr) (size : BitVec 64)

def step (ledger : Ledger) (kernel : Kernel) : Op → Ledger
  | .record ptr size zone => recordAllocationWithZone kernel ledger ptr size zone
  | .forget ptr => forgetAllocation ledger ptr
  | .take ptr => (takeAllocationRecord ledger ptr).1
  | .mark ptr size => markGuestCxxAllocation kernel ledger ptr size

/-- The latest live record of each pointer. -/
abbrev Allocations := Ptr → Option Info

def Allocations.step (m : Allocations) : Op → Allocations
  | .record ptr size zone => if ptr = 0 then m else Function.update m ptr (some ⟨size, zone, 0⟩)
  | .forget ptr => Function.update m ptr none
  | .take ptr => Function.update m ptr none
  | .mark ptr size => if ptr = 0 then m else Function.update m ptr (some (marked size (m ptr)))

/-- The ledger beside the allocations, with the answers of the kernel at each step. -/
def run : Ledger × Allocations → List (Kernel × Op) → Ledger × Allocations
  | x, [] => x
  | (ledger, m), (kernel, op) :: steps => run (step ledger kernel op, m.step op) steps

/-- The ledger tells of each pointer its latest live record, and its counters are right. -/
structure Faithful (ledger : Ledger) (m : Allocations) : Prop where
  lookups : ∀ ptr, (lookupAllocation ledger ptr).filter (fun info => info.size ≠ 0) = m ptr
  once : ∀ s i j, (recordAt (ledger s).records i).ptr ≠ 0 →
    (recordAt (ledger s).records i).ptr = (recordAt (ledger s).records j).ptr → i = j
  counts : ∀ s, (ledger s).liveCount = (ledger s).records.countP Record.isLive ∧
    (ledger s).tombstoneCount = (ledger s).records.countP Record.isTombstone

/-- A record that is added finds a free slot, or its shard is below the maximum and the kernel grants
the memory for a larger table. -/
def ServedStep (ledger : Ledger) (kernel : Kernel) : Op → Prop
  | .record ptr _ _ => Served kernel (ledger (shardOf ptr))
  | .mark ptr _ => Served kernel (ledger (shardOf ptr))
  | .forget _ => True
  | .take _ => True

def ServedRun : Ledger → List (Kernel × Op) → Prop
  | _, [] => True
  | ledger, (kernel, op) :: steps =>
    ServedStep ledger kernel op ∧ ServedRun (step ledger kernel op) steps

def shareOf (s : Fin machgateAllocationShardCount) (m : Allocations) : Allocations := fun ptr =>
  if shardOf ptr = s then m ptr else none

def ValidLedger (ledger : Ledger) (m : Allocations) : Prop := ∀ s, Valid (ledger s) (shareOf s m)

section

variable {ledger : Ledger} {m : Allocations} {ptr : Ptr} {kernel : Kernel}

theorem shareOf_self : shareOf (shardOf ptr) m ptr = m ptr := if_pos rfl

theorem ValidLedger.update {shard : Shard} {x : Option Info} (h : ValidLedger ledger m)
    (hshard : Valid shard (update (shareOf (shardOf ptr) m) ptr x)) :
    ValidLedger (update ledger (shardOf ptr) shard) (update m ptr x) := by
  intro s
  by_cases hs : s = shardOf ptr
  · subst hs
    have hshare : shareOf (shardOf ptr) (Function.update m ptr x) =
        Function.update (shareOf (shardOf ptr) m) ptr x := by
      funext ptr'
      by_cases hptr : ptr' = ptr
      · subst hptr
        rw [shareOf_self, update_self, update_self]
      · rw [update_of_ne hptr, shareOf, shareOf, update_of_ne hptr]
    rw [update_self, hshare]
    exact hshard
  · have hshare : shareOf s (Function.update m ptr x) = shareOf s m := by
      funext ptr'
      rw [shareOf, shareOf]
      split
      · next hptr' =>
        rw [update_of_ne]
        rintro rfl
        exact hs hptr'.symm
      · rfl
    rw [update_of_ne hs, hshare]
    exact h s

theorem ValidLedger.find (h : ValidLedger ledger m) (hptr : ptr ≠ 0) :
    (lookupSlot ledger ptr).bind (layout.valueAt (ledger (shardOf ptr)).records) = m ptr := by
  rw [lookupSlot, lookupWalk_eq hptr]
  exact (h (shardOf ptr)).represents.find_value.trans shareOf_self

theorem ValidLedger.null (h : ValidLedger ledger m) : m 0 = none := by
  by_contra hsome
  obtain ⟨info, hinfo⟩ := ne_none_iff_exists'.mp hsome
  obtain ⟨i, hkey, -⟩ := ((h (shardOf 0)).represents.contents 0 info).mp (shareOf_self.trans hinfo)
  rw [keyAt_eq] at hkey
  change (if (recordAt _ i).ptr = 0 then none else some (recordAt _ i).ptr) = some 0 at hkey
  split at hkey
  · cases hkey
  · next hne => exact hne (some.inj hkey)

theorem ValidLedger.forget (h : ValidLedger ledger m) :
    ValidLedger (forgetAllocation ledger ptr) (Function.update m ptr none) := by
  have hkeep : m ptr = none → ValidLedger ledger (Function.update m ptr none) := by
    intro hnone
    rw [← hnone, update_eq_self]
    exact h
  rw [forgetAllocation]
  split
  · next hptr =>
    subst hptr
    exact hkeep h.null
  · next hptr =>
    have hfind := h.find hptr
    cases hslot : lookupSlot ledger ptr with
    | none =>
      rw [hslot] at hfind
      exact hkeep hfind.symm
    | some i => exact h.update ((h (shardOf ptr)).erase hptr hslot)

theorem fst_takeAllocationRecord :
    (takeAllocationRecord ledger ptr).1 = forgetAllocation ledger ptr := by
  rw [takeAllocationRecord, forgetAllocation]
  split
  · rfl
  · cases lookupSlot ledger ptr with
    | none | some i => rfl

/-- What `take_allocation_record` hands out is what a lookup would have found. -/
theorem snd_takeAllocationRecord :
    (takeAllocationRecord ledger ptr).2 = lookupAllocation ledger ptr := by
  rw [takeAllocationRecord, lookupAllocation]
  split
  · rfl
  · cases lookupSlot ledger ptr with
    | none | some i => rfl

theorem ValidLedger.step {op : Op} (h : ValidLedger ledger m)
    (hserved : ServedStep ledger kernel op) :
    ValidLedger (AllocationLedger.step ledger kernel op) (m.step op) := by
  cases op with
  | record ptr size zone =>
    rw [AllocationLedger.step, Allocations.step, recordAllocationWithZone]
    split
    · exact h
    · next hptr =>
      have hlive : Record.isLive ⟨ptr, size, zone, 0⟩ = true := Valid.isLive_mk hptr
      exact h.update (Valid.recorded (h (shardOf ptr)) hserved hptr rfl hlive)
  | forget ptr => exact h.forget
  | take ptr =>
    rw [AllocationLedger.step, fst_takeAllocationRecord]
    exact h.forget
  | mark ptr size =>
    rw [AllocationLedger.step, Allocations.step, markGuestCxxAllocation]
    split
    · exact h
    · next hptr =>
      have hmarked := @Valid.markedGuest _ _ _ ptr size (h (shardOf ptr)) hserved hptr
      rw [shareOf_self] at hmarked
      exact h.update hmarked

theorem ValidLedger.run {steps : List (Kernel × Op)} (h : ValidLedger ledger m)
    (hserved : ServedRun ledger steps) :
    ValidLedger (AllocationLedger.run (ledger, m) steps).1
      (AllocationLedger.run (ledger, m) steps).2 := by
  induction steps generalizing ledger m with
  | nil => exact h
  | cons head steps ih =>
    obtain ⟨kernel, op⟩ := head
    exact ih (h.step hserved.1) hserved.2

theorem filter_info {r : Record} (hptr : r.ptr ≠ 0) :
    (some (Record.info r)).filter (fun info => info.size ≠ 0) = layout.value r := by
  rw [filter_some, Record.info]
  by_cases hsize : r.size = 0
  · rw [isNone_iff_eq_none.mp ((isNone_value hptr).mpr hsize), if_neg]
    rw [decide_eq_true_iff]
    exact not_not.mpr hsize
  · have hlive : r.isLive := isLive_iff.mpr ⟨hptr, hsize⟩
    rw [value_of_live hlive, Record.info, if_pos (decide_eq_true hsize)]

theorem ValidLedger.faithful (h : ValidLedger ledger m) : Faithful ledger m where
  lookups := by
    intro ptr
    rw [lookupAllocation]
    split
    · next hptr =>
      subst hptr
      exact h.null.symm
    · next hptr =>
      rw [← h.find hptr]
      cases hslot : lookupSlot ledger ptr with
      | none => rfl
      | some i =>
        obtain ⟨hown, -⟩ := (h (shardOf ptr)).place_of_lookup hptr hslot
        rw [← hown] at hptr
        rw [map_some, bind_some, valueAt_eq, filter_info hptr]
  once := by
    intro s i j hne heq
    refine (h s).represents.distinct i j (recordAt (ledger s).records i).ptr ?_ ?_
    · rw [keyAt_eq]
      exact (key_eq_some hne).mpr rfl
    · rw [keyAt_eq]
      exact (key_eq_some hne).mpr heq.symm
  counts := fun s => ⟨(h s).live, (h s).tombstones⟩

end

theorem valid_emptyLedger : ValidLedger emptyLedger fun _ => none := by
  intro s
  have hshare : shareOf s (fun _ => none) = fun _ => none := by
    funext ptr
    exact ite_self none
  obtain ⟨hrep, hclean, hlive⟩ := @Layout.represents_replicate _ _ _ layout
    (path machgateAllocationShardInitialTableSize) Record.zero rfl
    machgateAllocationShardInitialTableSize
  have hremoved := Layout.removed_of_clean hclean
  rw [removed_eq] at hremoved
  rw [live_eq] at hlive
  rw [hshare]
  refine ⟨length_replicate, ⟨13, by decide, rfl⟩, hrep, ?_, hlive.symm, hremoved.symm⟩
  intro r hr htombstone
  rw [eq_of_mem_replicate hr] at htombstone
  cases htombstone

/-- Over any run, whatever collides and whenever the tables grow or are compacted. -/
theorem ledger_faithful {steps : List (Kernel × Op)} (h : ServedRun emptyLedger steps) :
    Faithful (run (emptyLedger, fun _ => none) steps).1
      (run (emptyLedger, fun _ => none) steps).2 :=
  (valid_emptyLedger.run h).faithful

def grantsAll : Kernel := ⟨true, fun _ => true⟩

def recordAndTake : List (Kernel × Op) :=
  [(grantsAll, .record 0x10 (recordedAllocationSize 24) 0), (grantsAll, .take 0x10)]

theorem recordAndTake_faithful :
    ServedRun emptyLedger recordAndTake ∧
      Faithful (run (emptyLedger, fun _ => none) recordAndTake).1
        (run (emptyLedger, fun _ => none) recordAndTake).2 := by
  have hserved : ServedRun emptyLedger recordAndTake := ⟨Or.inr ⟨by decide, rfl⟩, trivial, trivial⟩
  exact ⟨hserved, ledger_faithful hserved⟩

end Machgate.AllocationLedger
