import Machgate.AllocationShards

namespace Machgate.AllocationGrowth

open AllocationTable AllocationWalks AllocationShards ProbeTable Option List Function

theorem reinsert_eq {capacity : Nat} {newRecords oldRecords : List Record} :
    reinsert capacity newRecords oldRecords =
      layout.rehash (path capacity) newRecords oldRecords := by
  induction oldRecords generalizing newRecords with
  | nil => rfl
  | cons record oldRecords ih =>
    rw [reinsert, Layout.rehash]
    by_cases hptr : record.ptr = 0
    · have hnone := isNone_iff_eq_none.mpr (layout.keyed record
        (isNone_iff_eq_none.mp (isNone_key.mpr hptr)))
      rw [if_pos (Or.inl hptr), if_pos hnone, ih]
    · by_cases hsize : record.size = 0
      · rw [if_pos (Or.inr hsize), if_pos ((isNone_value hptr).mpr hsize), ih]
      · rw [if_neg (not_or.mpr ⟨hptr, hsize⟩), if_neg ((isNone_value hptr).not.mpr hsize),
          (key_eq_some hptr).mpr rfl, bind_some, ← slot_insertWalk hptr,
          insertAllocationRecord, bind_map, bind_map]
        refine congrArg (Option.bind _) ?_
        funext insertion
        exact ih

variable {shard : Shard} {m m' : Ptr → Option Info} {kernel : Kernel}

/-- The live records fill any table that is not smaller. -/
theorem reinsert_valid (h : Valid shard m) {n : Nat} (hn : n ≤ 22) (hcapacity : shard.capacity ≤ 2 ^ n) :
    ∃ table, reinsert (2 ^ n) (replicate (2 ^ n) .zero) shard.records = some table ∧
      ∀ dropWarned, Valid ⟨table, 2 ^ n, shard.records.countP Record.isLive, 0, dropWarned⟩ m := by
  obtain ⟨hrep, hclean, hlive⟩ :=
    @Layout.represents_replicate _ _ _ layout (path (2 ^ n)) Record.zero rfl (2 ^ n)
  have hlength : (replicate (2 ^ n) Record.zero).length = 2 ^ n := length_replicate
  have hroom : layout.live (replicate (2 ^ n) Record.zero) + layout.live shard.records ≤
      (replicate (2 ^ n) Record.zero).length := by
    rw [hlive, Nat.zero_add, hlength]
    exact Nat.le_trans countP_le_length (h.length ▸ hcapacity)
  have hpath : ∀ ptr i, i ∈ path (2 ^ n) ptr ↔ i < (replicate (2 ^ n) Record.zero).length := by
    intro ptr i
    rw [hlength]
    exact mem_probes
  obtain ⟨table, htable, htableLength, hrep', hclean', hlive'⟩ :=
    Layout.rehash_represents hrep hclean hpath hroom h.represents.merged
  rw [← reinsert_eq] at htable
  rw [hlive, Nat.zero_add, live_eq, live_eq] at hlive'
  have hremoved := Layout.removed_of_clean hclean'
  rw [removed_eq] at hremoved
  refine ⟨table, htable, fun dropWarned => ⟨htableLength.trans hlength, ⟨n, hn, rfl⟩, hrep', ?_,
    hlive'.symm, hremoved.symm⟩⟩
  intro r hr htombstone
  exact absurd htombstone (countP_eq_zero.mp hremoved r hr)

theorem Valid.compact (h : Valid shard m) (granted : Bool) :
    Valid (compactAllocationShard granted shard) m := by
  rw [compactAllocationShard]
  split
  · exact h
  · obtain ⟨n, hn, hcapacity⟩ := h.power
    obtain ⟨table, htable, hvalid⟩ := reinsert_valid h hn (Nat.le_of_eq hcapacity)
    rw [hcapacity, htable]
    exact hvalid shard.dropWarned

theorem Valid.compacted (h : Valid shard m) (kernel : Kernel) :
    Valid (compacted kernel shard) m := by
  rw [AllocationTable.compacted]
  split
  · exact Valid.compact h kernel.compacts
  · exact h

def Served (kernel : Kernel) (shard : Shard) : Prop :=
  shard.records.countP Record.isLive < shard.capacity ∨
    shard.capacity < machgateAllocationMaxTableSize ∧ kernel.grows (newCapacity shard.capacity)

theorem Served.compacted (hserved : Served kernel shard) (h : Valid shard m) :
    Served kernel (compacted kernel shard) := by
  have hlive := (Valid.compacted h kernel).live
  have hkept : (AllocationTable.compacted kernel shard).liveCount = shard.records.countP Record.isLive ∧
      (AllocationTable.compacted kernel shard).capacity = shard.capacity := by
    rw [AllocationTable.compacted]
    split
    · rw [compactAllocationShard]
      split
      · exact ⟨h.live, rfl⟩
      · split
        · exact ⟨h.live, rfl⟩
        · exact ⟨rfl, rfl⟩
    · exact ⟨h.live, rfl⟩
  rw [Served, ← hlive, hkept.1, hkept.2]
  exact hserved

theorem newCapacity_two_pow {n : Nat} (h : 2 ^ n < machgateAllocationMaxTableSize) :
    n + 1 ≤ 22 ∧ newCapacity (2 ^ n) = 2 ^ (n + 1) := by
  have hn : n < 22 := (Nat.pow_lt_pow_iff_right (by decide)).mp (h : 2 ^ n < 2 ^ 22)
  have hle : 2 ^ (n + 1) ≤ machgateAllocationMaxTableSize := Nat.pow_le_pow_right (by decide) hn
  refine ⟨hn, ?_⟩
  rw [newCapacity, ← Nat.pow_succ, if_neg (Nat.not_lt.mpr hle)]

theorem Valid.grow (h : Valid shard m) (hmax : shard.capacity < machgateAllocationMaxTableSize)
    (hgranted : kernel.grows (newCapacity shard.capacity)) :
    ∃ grown, growAllocationShard kernel.grows shard = some grown ∧ Valid grown m ∧
      grown.records.countP Record.isLive < grown.capacity := by
  obtain ⟨n, -, hcapacity⟩ := h.power
  rw [hcapacity] at hmax hgranted
  obtain ⟨hn, hnew⟩ := newCapacity_two_pow hmax
  have hlt : 2 ^ n < 2 ^ (n + 1) := Nat.pow_lt_pow_right (by decide) (Nat.lt_succ_self n)
  obtain ⟨table, htable, hvalid⟩ := reinsert_valid h hn (hcapacity ▸ Nat.le_of_lt hlt)
  have hgrown := hvalid shard.dropWarned
  have hroom : shard.liveCount < 2 ^ (n + 1) := by
    rw [h.live]
    refine Nat.lt_of_le_of_lt countP_le_length ?_
    rw [h.length, hcapacity]
    exact hlt
  rw [← h.live] at hgrown
  refine ⟨_, ?_, hgrown, hgrown.live ▸ hroom⟩
  rw [growAllocationShard, hcapacity, if_neg (Nat.not_le.mpr hmax), hgranted, hnew,
    if_neg (Nat.not_le.mpr hlt), htable]
  rfl

/-- An attempt that succeeds in a table with a free slot succeeds in the end. -/
theorem Valid.withRoom {attempt : Shard → Option Shard} (h : Valid shard m)
    (hserved : Served kernel shard)
    (hdone : ∀ s done, Valid s m → attempt s = some done → Valid done m')
    (hroom : ∀ s, Valid s m → s.records.countP Record.isLive < s.capacity → attempt s ≠ none) :
    Valid (withRoom kernel attempt shard) m' := by
  rw [AllocationTable.withRoom]
  cases hattempt : attempt shard with
  | some done => exact hdone shard done h hattempt
  | none =>
    rcases hserved with hfree | ⟨hmax, hgranted⟩
    · exact absurd hattempt (hroom shard h hfree)
    · obtain ⟨grown, hgrow, hvalid, hfree⟩ := Valid.grow h hmax hgranted
      obtain ⟨done, hattempt'⟩ := ne_none_iff_exists'.mp (hroom grown hvalid hfree)
      have hresult : AllocationTable.withRoom kernel attempt grown = done := by
        rw [AllocationTable.withRoom, hattempt']
      dsimp only
      split
      · next grown' hgrow' =>
        obtain rfl := some.inj (hgrow.symm.trans hgrow')
        rw [hresult]
        exact hdone grown done hvalid hattempt'
      · next hnone => cases hgrow.symm.trans hnone

theorem place_ne_none (h : Valid shard m)
    (hfree : shard.records.countP Record.isLive < shard.capacity) (ptr : Ptr) :
    layout.place shard.records ptr none (path shard.capacity ptr) ≠ none := by
  intro hnone
  have hfull : layout.live shard.records = shard.records.length := Layout.live_eq_length fun i hi =>
    Layout.valueAt_of_place_none hnone ((h.mem_path ptr i).mpr hi)
  rw [live_eq, h.length] at hfull
  exact absurd hfull (Nat.ne_of_lt hfree)

variable {ptr : Ptr}

theorem Valid.recorded {r : Record} (h : Valid shard m) (hserved : Served kernel shard)
    (hptr : ptr ≠ 0) (hr : r.ptr = ptr) (hlive : r.isLive) :
    Valid (AllocationTable.withRoom kernel (tryRecord (allocationRecordHash ptr) r)
      (AllocationTable.compacted kernel shard)) (update m ptr (some (Record.info r))) := by
  refine Valid.withRoom (Valid.compacted h kernel) (hserved.compacted h) ?_ ?_
  · intro s done hs hdone
    exact hs.tryRecord hptr hr hlive hdone
  · intro s hs hfree hnone
    refine place_ne_none hs hfree ptr ?_
    rw [tryRecord, insertAllocationRecord, hr, map_eq_none_iff, map_eq_none_iff] at hnone
    rw [← slot_insertWalk hptr, map_eq_none_iff]
    exact hnone

theorem Valid.markedGuest {size : BitVec 64} (h : Valid shard m) (hserved : Served kernel shard)
    (hptr : ptr ≠ 0) :
    Valid (AllocationTable.withRoom kernel (tryMark (allocationRecordHash ptr) ptr size)
      (AllocationTable.compacted kernel shard)) (update m ptr (some (marked size (m ptr)))) := by
  refine Valid.withRoom (Valid.compacted h kernel) (hserved.compacted h) ?_ ?_
  · intro s done hs hdone
    exact hs.tryMark hptr hdone
  · intro s hs hfree hnone
    refine place_ne_none hs hfree ptr ?_
    rw [tryMark, map_eq_none_iff] at hnone
    rw [← slot_markWalk hptr, map_eq_none_iff]
    exact hnone

end Machgate.AllocationGrowth
