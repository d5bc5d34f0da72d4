import Machgate.AllocationLedger

namespace Machgate.AllocationLedger

open AllocationTable AllocationWalks AllocationShards AllocationGrowth ProbeTable
open Function Option List

def shouldForwardGuestCxxDelete (ledger : Ledger) (ptr : Ptr) : Bool :=
  if ptr = 0 then false
  else
    match lookupAllocation ledger ptr with
    | some info => info.size ≠ 0 && info.flags &&& machgateAllocationGuestCxx ≠ 0
    | none => true

/-- A record or a tombstone of the pointer is left in its shard. -/
def Kept (ledger : Ledger) (ptr : Ptr) : Prop :=
  ptr ≠ 0 ∧ ∃ i, (recordAt (ledger (shardOf ptr)).records i).ptr = ptr

/-- What two ledgers tell of a pointer that is allocated in both of them or in neither. -/
structure SameKnowledge (x y : Ledger × Allocations) (ptr : Ptr) : Prop where
  known : (x.2 ptr).isSome = (y.2 ptr).isSome →
    (lookupAllocation x.1 ptr).isSome = (lookupAllocation y.1 ptr).isSome ∧
      (takeAllocationRecord x.1 ptr).2.isSome = (takeAllocationRecord y.1 ptr).2.isSome
  freed : x.2 ptr = none → y.2 ptr = none →
    lookupAllocation x.1 ptr = lookupAllocation y.1 ptr ∧
      (takeAllocationRecord x.1 ptr).2 = (takeAllocationRecord y.1 ptr).2 ∧
        shouldForwardGuestCxxDelete x.1 ptr = shouldForwardGuestCxxDelete y.1 ptr

section

variable {shard : Shard} {m m' : Ptr → Option Info} {kernel : Kernel}

theorem valid_of_grow {grown : Shard} (h : Valid shard m)
    (hgrow : growAllocationShard kernel.grows shard = some grown) : Valid grown m := by
  have hgranted : kernel.grows (newCapacity shard.capacity) := by
    rw [growAllocationShard] at hgrow
    split at hgrow
    · cases hgrow
    · split at hgrow
      · cases hgrow
      · split at hgrow
        · cases hgrow
        · next hgranted => simpa using hgranted
  rcases Valid.grow h (capacity_of_grow hgrow).1 hgranted with ⟨grown', hgrow', hvalid, -⟩
  rwa [some.inj (hgrow.symm.trans hgrow')]

/-- Whether or not there is room: the attempt succeeds in the end, or nothing is changed. -/
theorem valid_withRoom (kernel : Kernel) {attempt : Shard → Option Shard}
    (hdone : ∀ s done, Valid s m → attempt s = some done → Valid done m') (h : Valid shard m) :
    Valid (withRoom kernel attempt shard) m' ∨ Valid (withRoom kernel attempt shard) m := by
  induction shard using withRoom.induct kernel attempt with
  | case1 shard done hattempt =>
    rw [withRoom, hattempt]
    exact Or.inl (hdone shard done h hattempt)
  | case2 shard hattempt grown hgrow ih =>
    rw [withRoom, hattempt]
    dsimp only
    split
    · next grown' hgrow' =>
      cases hgrow.symm.trans hgrow'
      exact ih (valid_of_grow h hgrow)
    · next hnone => cases hgrow.symm.trans hnone
  | case3 shard hattempt hgrow =>
    rw [withRoom, hattempt]
    dsimp only
    split
    · next grown' hgrow' => cases hgrow.symm.trans hgrow'
    · exact Or.inr ⟨h.length, h.power, h.represents, h.wiped, h.live, h.tombstones⟩

end

section

variable {ledger : Ledger} {m : Allocations} {ptr : Ptr} {kernel : Kernel}

/-- The ledger has live records only of what is allocated; some may have been dropped. -/
def Bounded (ledger : Ledger) (m : Allocations) : Prop :=
  ∃ m', ValidLedger ledger m' ∧ ∀ ptr, m ptr = none → m' ptr = none

theorem ValidLedger.update_same {shard : Shard} (h : ValidLedger ledger m)
    (hshard : Valid shard (shareOf (shardOf ptr) m)) :
    ValidLedger (Function.update ledger (shardOf ptr) shard) m := by
  have hself := @ValidLedger.update ledger m ptr shard (m ptr) h
  rw [update_eq_self] at hself
  apply hself
  have hshare := @shareOf_self m ptr
  rwa [← hshare, update_eq_self]

theorem bounded_update {m' : Allocations} {x y : Option Info} (hm : ∀ ptr, m ptr = none → m' ptr = none)
    (hxy : x = none → y = none) (ptr' : Ptr) (h : update m ptr x ptr' = none) :
    update m' ptr y ptr' = none := by
  rcases eq_or_ne ptr' ptr with rfl | hne
  · rw [update_self] at h ⊢
    exact hxy h
  · rw [update_of_ne hne] at h ⊢
    exact hm ptr' h

theorem Bounded.attempt {attempt : Shard → Option Shard} {x : Info} (h : Bounded ledger m)
    (info : Option Info → Info) (hdone : ∀ m' s done, Valid s m' → attempt s = some done →
      Valid done (update m' ptr (some (info (m' ptr))))) :
    Bounded (update ledger (shardOf ptr)
      (withRoom kernel attempt (compacted kernel (ledger (shardOf ptr)))))
      (update m ptr (some x)) := by
  rcases h with ⟨m', hvalid, hbound⟩
  have hshard := Valid.compacted (hvalid (shardOf ptr)) kernel
  rcases valid_withRoom kernel (fun s done hs => hdone _ s done hs) hshard with hadded | hdropped
  · exact ⟨_, hvalid.update hadded, bounded_update hbound fun hsome => nomatch hsome⟩
  · refine ⟨m', hvalid.update_same hdropped, fun ptr' hnone => hbound ptr' ?_⟩
    have hne : ptr' ≠ ptr := by
      rintro rfl
      rw [update_self] at hnone
      cases hnone
    rwa [update_of_ne hne] at hnone

theorem Bounded.forget (h : Bounded ledger m) :
    Bounded (forgetAllocation ledger ptr) (update m ptr none) := by
  rcases h with ⟨m', hvalid, hbound⟩
  exact ⟨_, hvalid.forget, bounded_update hbound id⟩

theorem Bounded.step {op : Op} (h : Bounded ledger m) :
    Bounded (AllocationLedger.step ledger kernel op) (m.step op) := by
  cases op with
  | record ptr size zone =>
    rw [AllocationLedger.step, Allocations.step, recordAllocationWithZone]
    split
    · exact h
    · next hptr =>
      have hlive : Record.isLive ⟨ptr, size, zone, 0⟩ = true := Valid.isLive_mk hptr
      apply h.attempt fun _ => ⟨size, zone, 0⟩
      exact fun m' s done hs hdone => hs.tryRecord hptr rfl hlive hdone
  | forget ptr => exact h.forget
  | take ptr =>
    rw [AllocationLedger.step, fst_takeAllocationRecord]
    exact h.forget
  | mark ptr size =>
    rw [AllocationLedger.step, Allocations.step, markGuestCxxAllocation]
    split
    · exact h
    · next hptr =>
      apply h.attempt (marked size)
      exact fun m' s done hs hdone => hs.tryMark hptr hdone

theorem Bounded.run (h : Bounded ledger m) (steps : List (Kernel × Op)) :
    Bounded (AllocationLedger.run (ledger, m) steps).1 (AllocationLedger.run (ledger, m) steps).2 := by
  induction steps generalizing ledger m with
  | nil => exact h
  | cons head steps ih => exact ih h.step

theorem bounded_empty : Bounded emptyLedger fun _ => none :=
  ⟨_, valid_emptyLedger, fun _ _ => rfl⟩

end

section

variable {ledger : Ledger} {m : Allocations} {ptr : Ptr}

theorem ValidLedger.lookupSlot_iff {i : Nat} (h : ValidLedger ledger m) (hptr : ptr ≠ 0) :
    lookupSlot ledger ptr = some i ↔ (recordAt (ledger (shardOf ptr)).records i).ptr = ptr := by
  rw [lookupSlot, lookupWalk_eq hptr]
  refine (h (shardOf ptr)).represents.find_eq_some.trans ?_
  rw [keyAt_eq, key_eq_some hptr]

theorem ValidLedger.isSome_lookup (h : ValidLedger ledger m) :
    (lookupAllocation ledger ptr).isSome ↔ Kept ledger ptr := by
  rw [lookupAllocation, Kept]
  split
  · next hptr => simp [hptr]
  · next hptr =>
    rw [isSome_map, isSome_iff_exists]
    simp only [h.lookupSlot_iff hptr]
    exact ⟨fun hsome => ⟨hptr, hsome⟩, fun hkept => hkept.2⟩

/-- Of a pointer that is not allocated the ledger has nothing, or a tombstone. -/
theorem ValidLedger.lookup_freed (h : ValidLedger ledger m) (hnone : m ptr = none)
    (hkept : Kept ledger ptr) : lookupAllocation ledger ptr = some ⟨0, 0, 0⟩ := by
  rcases hkept with ⟨hptr, i, hi⟩
  have hslot := (h.lookupSlot_iff hptr).mpr hi
  have hfind := h.find hptr
  rw [hslot, bind_some, hnone, valueAt_eq] at hfind
  have hsize : (recordAt (ledger (shardOf ptr)).records i).size = 0 :=
    (isNone_value (hi.symm ▸ hptr)).mp (isNone_iff_eq_none.mpr hfind)
  have hmem : recordAt (ledger (shardOf ptr)).records i ∈ (ledger (shardOf ptr)).records := by
    have hkey := (key_eq_some hptr).mpr hi
    rw [← keyAt_eq] at hkey
    exact mem_of_getElem? (Valid.getElem?_recordAt (Layout.lt_of_keyAt hkey))
  have hwiped := (h (shardOf ptr)).wiped _ hmem (isTombstone_iff.mpr ⟨hi.symm ▸ hptr, hsize⟩)
  rw [lookupAllocation, if_neg hptr, hslot, map_some, Record.info, hsize, hwiped.1, hwiped.2]

theorem Bounded.isSome_lookup (h : Bounded ledger m) :
    (lookupAllocation ledger ptr).isSome ↔ Kept ledger ptr := by
  rcases h with ⟨m', hvalid, -⟩
  exact hvalid.isSome_lookup

theorem Bounded.lookup_freed (h : Bounded ledger m) (hnone : m ptr = none) (hkept : Kept ledger ptr) :
    lookupAllocation ledger ptr = some ⟨0, 0, 0⟩ := by
  rcases h with ⟨m', hvalid, hbound⟩
  exact hvalid.lookup_freed (hbound ptr hnone) hkept

theorem Bounded.lookup_not_kept (h : Bounded ledger m) (hkept : ¬ Kept ledger ptr) :
    lookupAllocation ledger ptr = none := by
  rw [← not_isSome_iff_eq_none, h.isSome_lookup]
  exact hkept

end

/-- Two histories tell the same of a pointer just when its slot outlived both of them or neither. -/
theorem knowledge_iff_kept (steps steps' : List (Kernel × Op)) (ptr : Ptr) :
    SameKnowledge (run (emptyLedger, fun _ => none) steps) (run (emptyLedger, fun _ => none) steps') ptr ↔
      (((run (emptyLedger, fun _ => none) steps).2 ptr).isSome =
          ((run (emptyLedger, fun _ => none) steps').2 ptr).isSome →
        (Kept (run (emptyLedger, fun _ => none) steps).1 ptr ↔
          Kept (run (emptyLedger, fun _ => none) steps').1 ptr)) := by
  have hx := bounded_empty.run steps
  have hy := bounded_empty.run steps'
  generalize run (emptyLedger, fun _ => none) steps = x at hx ⊢
  generalize run (emptyLedger, fun _ => none) steps' = y at hy ⊢
  constructor
  · intro h halike
    rw [← hx.isSome_lookup, ← hy.isSome_lookup, (h.known halike).1]
  · intro h
    refine ⟨fun halike => ?_, fun hfreed hfreed' => ?_⟩
    · rw [snd_takeAllocationRecord, snd_takeAllocationRecord, and_self, Bool.eq_iff_iff,
        hx.isSome_lookup, hy.isSome_lookup]
      exact h halike
    · have hlookup : lookupAllocation x.1 ptr = lookupAllocation y.1 ptr := by
        have hkept := h (by rw [hfreed, hfreed'])
        rcases Classical.em (Kept x.1 ptr) with hk | hk
        · rw [hx.lookup_freed hfreed hk, hy.lookup_freed hfreed' (hkept.mp hk)]
        · rw [hx.lookup_not_kept hk, hy.lookup_not_kept (hkept.not.mp hk)]
      rw [snd_takeAllocationRecord, snd_takeAllocationRecord, shouldForwardGuestCxxDelete,
        shouldForwardGuestCxxDelete, hlookup]
      exact ⟨rfl, rfl, rfl⟩

section

variable {ledger : Ledger} {m : Allocations} {ptr : Ptr}

theorem ValidLedger.kept_take (h : ValidLedger ledger m) (hkept : Kept ledger ptr) :
    Kept (takeAllocationRecord ledger ptr).1 ptr := by
  rcases hkept with ⟨hptr, i, hi⟩
  have hkey := (key_eq_some hptr).mpr hi
  rw [← keyAt_eq] at hkey
  refine ⟨hptr, i, ?_⟩
  rw [takeAllocationRecord, if_neg hptr, (h.lookupSlot_iff hptr).mpr hi]
  simp only [update_self, eraseRecord]
  rw [recordAt, getD_eq_getElem?_getD, getElem?_set_self (Layout.lt_of_keyAt hkey)]
  exact hi

theorem not_kept_empty (ptr : Ptr) : ¬ Kept emptyLedger ptr := by
  rintro ⟨hptr, i, hi⟩
  have hzero : recordAt (replicate machgateAllocationShardInitialTableSize .zero) i = .zero := by
    rw [recordAt, getD_eq_getElem?_getD, getElem?_replicate]
    split <;> rfl
  rw [emptyLedger, emptyShard, hzero] at hi
  exact hptr hi.symm

theorem ValidLedger.kept_of_allocated (h : ValidLedger ledger m) (hsome : m ptr ≠ none) :
    Kept ledger ptr := by
  rw [← h.isSome_lookup]
  have := h.faithful.lookups ptr
  cases hlookup : lookupAllocation ledger ptr with
  | none =>
    rw [hlookup] at this
    exact absurd this.symm hsome
  | some info => rfl

end

theorem kept_recordAndTake : Kept (run (emptyLedger, fun _ => none) recordAndTake).1 0x10 := by
  have hserved : ServedStep emptyLedger grantsAll (.record 0x10 (recordedAllocationSize 24) 0) :=
    Or.inr ⟨by decide, rfl⟩
  have hvalid := valid_emptyLedger.step hserved
  apply hvalid.kept_take (hvalid.kept_of_allocated _)
  simp [Allocations.step]

/-- A pointer that was freed and one that was never recorded. -/
theorem recordAndTake_differs :
    shouldForwardGuestCxxDelete (run (emptyLedger, fun _ => none) recordAndTake).1 0x10 = false ∧
      shouldForwardGuestCxxDelete (run (emptyLedger, fun _ => none) []).1 0x10 = true ∧
        ¬ SameKnowledge (run (emptyLedger, fun _ => none) recordAndTake)
          (run (emptyLedger, fun _ => none) []) 0x10 := by
  have hfreed : (run (emptyLedger, fun _ => none) recordAndTake).2 0x10 = none := by
    simp [run, recordAndTake, Allocations.step]
  have hkept := kept_recordAndTake
  have hbounded := bounded_empty.run recordAndTake
  generalize run (emptyLedger, fun _ => none) recordAndTake = x at hfreed hkept hbounded ⊢
  have hforward : shouldForwardGuestCxxDelete x.1 0x10 = false := by
    rw [shouldForwardGuestCxxDelete, hbounded.lookup_freed hfreed hkept]
    rfl
  have hforward' : shouldForwardGuestCxxDelete emptyLedger 0x10 = true := by
    rw [shouldForwardGuestCxxDelete, bounded_empty.lookup_not_kept (not_kept_empty 0x10)]
    rfl
  refine ⟨hforward, hforward', fun h => ?_⟩
  cases hforward.symm.trans ((h.freed hfreed rfl).2.2.trans hforward')

end Machgate.AllocationLedger
