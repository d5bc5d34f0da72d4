import Machgate.AllocationWalks

namespace Machgate.AllocationShards

open AllocationTable AllocationWalks ProbeTable List Function Option

/-- A shard stands for the allocations in `m`, and its counters are right. -/
structure Valid (shard : Shard) (m : Ptr → Option Info) : Prop where
  length : shard.records.length = shard.capacity
  power : ∃ n, n ≤ 22 ∧ shard.capacity = 2 ^ n
  represents : layout.Represents (path shard.capacity) shard.records m
  wiped : ∀ r ∈ shard.records, r.isTombstone → r.zone = 0 ∧ r.flags = 0
  live : shard.liveCount = shard.records.countP Record.isLive
  tombstones : shard.tombstoneCount = shard.records.countP Record.isTombstone

theorem live_eq (records : List Record) : layout.live records = records.countP Record.isLive := by
  rw [Layout.live]
  simp only [isSome_value]

theorem removed_eq (records : List Record) :
    layout.removed records = records.countP Record.isTombstone := by
  rw [Layout.removed]
  simp only [isTombstone_eq]

namespace Valid

variable {shard : Shard} {m : Ptr → Option Info} {ptr : Ptr} {r : Record} {slot : Nat}

theorem mem_path (h : Valid shard m) (ptr : Ptr) (i : Nat) :
    i ∈ path shard.capacity ptr ↔ i < shard.records.length := by
  obtain ⟨n, -, hn⟩ := h.power
  rw [h.length, hn]
  exact mem_probes

theorem lt_of_place (h : Valid shard m)
    (hplace : layout.place shard.records ptr none (path shard.capacity ptr) = some slot) :
    slot < shard.records.length :=
  (h.mem_path ptr slot).mp (Layout.mem_of_reached (h.represents.place_some hplace).1)

theorem getElem?_recordAt {records : List Record} {i : Nat} (hi : i < records.length) :
    records[i]? = some (recordAt records i) := by
  rw [recordAt, getD_eq_getElem?_getD, getElem?_eq_getElem hi, getD_some]

/-- A record is put into the slot that the walk finds, and the counters follow. -/
theorem put (h : Valid shard m) (hptr : ptr ≠ 0) (hr : r.ptr = ptr)
    (hplace : layout.place shard.records ptr none (path shard.capacity ptr) = some slot)
    (hwiped : r.isTombstone → r.zone = 0 ∧ r.flags = 0) {liveCount tombstoneCount : Nat}
    (hlive : liveCount + (if (recordAt shard.records slot).isLive then 1 else 0) =
      shard.liveCount + if r.isLive then 1 else 0)
    (htombstones : tombstoneCount + (if (recordAt shard.records slot).isTombstone then 1 else 0) =
      shard.tombstoneCount + if r.isTombstone then 1 else 0) :
    Valid { shard with
      records := shard.records.set slot r
      liveCount := liveCount
      tombstoneCount := tombstoneCount } (update m ptr (layout.value r)) := by
  have hslot := h.lt_of_place hplace
  have hold := getElem?_recordAt hslot
  refine ⟨?_, h.power, h.represents.put hplace hslot ((key_eq_some hptr).mpr hr), ?_, ?_, ?_⟩
  · rw [length_set]
    exact h.length
  · intro r' hr'
    rcases mem_or_eq_of_mem_set hr' with hmem | rfl
    · exact h.wiped r' hmem
    · exact hwiped
  · have hcount := Layout.countP_set_add Record.isLive hold (s := r)
    have hcountOld := h.live
    dsimp only
    omega
  · have hcount := Layout.countP_set_add Record.isTombstone hold (s := r)
    have hcountOld := h.tombstones
    dsimp only
    omega

variable {done : Shard} {kernel : Kernel}

theorem liveCount_pos (h : Valid shard m) (hslot : slot < shard.records.length)
    (hlive : (recordAt shard.records slot).isLive) : 0 < shard.liveCount := by
  rw [h.live]
  exact countP_pos_iff.mpr ⟨_, mem_of_getElem? (getElem?_recordAt hslot), hlive⟩

theorem countReused_add (h : Valid shard m) (hslot : slot < shard.records.length) :
    countReused (recordAt shard.records slot).isTombstone shard.tombstoneCount +
      (if (recordAt shard.records slot).isTombstone then 1 else 0) = shard.tombstoneCount := by
  rw [countReused]
  cases htombstone : (recordAt shard.records slot).isTombstone with
  | false => rfl
  | true =>
    have hpos : 0 < shard.tombstoneCount := by
      rw [h.tombstones]
      exact countP_pos_iff.mpr ⟨_, mem_of_getElem? (getElem?_recordAt hslot), htombstone⟩
    rw [if_pos ⟨rfl, hpos⟩, if_pos rfl]
    omega

theorem put_live (h : Valid shard m) (r : Record) (hptr : ptr ≠ 0) (hr : r.ptr = ptr)
    (hlive : r.isLive)
    (hplace : layout.place shard.records ptr none (path shard.capacity ptr) = some slot) :
    Valid { shard with
      records := shard.records.set slot r
      liveCount :=
        if (recordAt shard.records slot).isLive then shard.liveCount else shard.liveCount + 1
      tombstoneCount :=
        countReused (recordAt shard.records slot).isTombstone shard.tombstoneCount }
      (update m ptr (some (Record.info r))) := by
  have hnot := isTombstone_of_live hlive
  rw [← value_of_live hlive]
  refine h.put hptr hr hplace (fun ht => nomatch hnot.symm.trans ht) ?_ ?_
  · split <;> rfl
  · rw [hnot]
    exact h.countReused_add (h.lt_of_place hplace)

theorem tryRecord (h : Valid shard m) (hptr : ptr ≠ 0) (hr : r.ptr = ptr) (hlive : r.isLive)
    (hdone : AllocationTable.tryRecord (allocationRecordHash ptr) r shard = some done) :
    Valid done (update m ptr (some (Record.info r))) := by
  obtain ⟨⟨records, insertion⟩, hinsert, rfl⟩ := map_eq_some_iff.mp hdone
  obtain ⟨insertion', hwalk, heq⟩ := map_eq_some_iff.mp hinsert
  obtain ⟨rfl, rfl⟩ := Prod.mk.inj heq
  rw [hr] at hwalk
  have hplace : layout.place shard.records ptr none (path shard.capacity ptr) =
      some insertion'.slot := by
    rw [← slot_insertWalk hptr]
    exact congrArg (Option.map Insertion.slot) hwalk
  obtain ⟨hinserted, hreused⟩ := flags_insertWalk hptr (reusable_none _) hwalk
  have hput := h.put_live r hptr hr hlive hplace
  dsimp only
  rw [noteInsertedAllocationRecord, hinserted, hreused, Bool.not_not]
  cases hold : (recordAt shard.records insertion'.slot).isLive with
  | true =>
    rw [hold, isTombstone_of_live hold] at hput
    exact hput
  | false =>
    rw [hold] at hput
    exact hput

theorem place_of_lookup (h : Valid shard m) (hptr : ptr ≠ 0)
    (hfound : lookupWalk shard.records ptr (path shard.capacity ptr) = some slot) :
    (recordAt shard.records slot).ptr = ptr ∧
      layout.place shard.records ptr none (path shard.capacity ptr) = some slot := by
  rw [lookupWalk_eq hptr] at hfound
  have hkey := Layout.keyAt_of_find hfound
  refine ⟨?_, h.represents.place_of_keyAt hkey⟩
  rw [keyAt_eq] at hkey
  exact (key_eq_some hptr).mp hkey

theorem erase (h : Valid shard m) (hptr : ptr ≠ 0)
    (hfound : lookupWalk shard.records ptr (path shard.capacity ptr) = some slot) :
    Valid (eraseRecord shard slot) (update m ptr none) := by
  obtain ⟨hown, hplace⟩ := h.place_of_lookup hptr hfound
  have hslot := h.lt_of_place hplace
  have hne : (recordAt shard.records slot).ptr ≠ 0 := hown ▸ hptr
  have htombstone : (Record.tombstone (recordAt shard.records slot).ptr).isTombstone :=
    isTombstone_iff.mpr ⟨hne, rfl⟩
  have hput := @put shard m ptr (.tombstone (recordAt shard.records slot).ptr) slot h hptr hown hplace
    fun _ => ⟨rfl, rfl⟩
  rw [value_of_not_live (not_isLive_of_isTombstone htombstone), htombstone,
    not_isLive_of_isTombstone htombstone] at hput
  by_cases hsize : (recordAt shard.records slot).size = 0
  · have hold : (recordAt shard.records slot).isTombstone := isTombstone_iff.mpr ⟨hne, hsize⟩
    refine hput ?_ ?_
    · rw [if_neg (not_not.mpr hsize), not_isLive_of_isTombstone hold]
    · rw [if_neg (not_not.mpr hsize), hold]
  · have hold : (recordAt shard.records slot).isLive := isLive_iff.mpr ⟨hne, hsize⟩
    have hpos := h.liveCount_pos hslot hold
    refine hput ?_ ?_
    · rw [if_pos hsize, hold, if_pos rfl, if_neg Bool.false_ne_true]
      omega
    · rw [if_pos hsize, isTombstone_of_live hold, if_pos rfl, if_neg Bool.false_ne_true]

theorem contents_of_place (h : Valid shard m)
    (hplace : layout.place shard.records ptr none (path shard.capacity ptr) = some slot) :
    (layout.valueAt shard.records slot = none → m ptr = none) ∧
      (layout.keyAt shard.records slot = some ptr →
        m ptr = layout.valueAt shard.records slot) := by
  have hown : layout.keyAt shard.records slot = some ptr →
      m ptr = layout.valueAt shard.records slot := by
    intro hkey
    refine ext fun info => ?_
    rw [h.represents.contents]
    constructor
    · rintro ⟨i, hikey, hvalue⟩
      rwa [h.represents.distinct i slot ptr hikey hkey] at hvalue
    · exact fun hvalue => ⟨slot, hkey, hvalue⟩
  refine ⟨fun hfree => ?_, hown⟩
  rcases (h.represents.place_some hplace).2 with hkey | ⟨-, hnew⟩
  · exact (hown hkey).trans hfree
  · by_contra hsome
    obtain ⟨info, hinfo⟩ := ne_none_iff_exists'.mp hsome
    obtain ⟨i, hkey, -⟩ := (h.represents.contents ptr info).mp hinfo
    exact hnew i hkey

end Valid

def marked (size : BitVec 64) : Option Info → Info
  | none => ⟨recordedAllocationSize size, 0, machgateAllocationGuestCxx⟩
  | some info => { info with flags := info.flags ||| machgateAllocationGuestCxx }

namespace Valid

variable {shard done : Shard} {m : Ptr → Option Info} {ptr : Ptr} {size : BitVec 64}

theorem isLive_mk {ptr : Ptr} {size : Size} {zone : BitVec 64} {flags : BitVec 32} (hptr : ptr ≠ 0) :
    Record.isLive ⟨ptr, size, zone, flags⟩ = true :=
  isLive_iff.mpr ⟨hptr, size.2⟩

theorem tryMark (h : Valid shard m) (hptr : ptr ≠ 0)
    (hdone : AllocationTable.tryMark (allocationRecordHash ptr) ptr size shard = some done) :
    Valid done (update m ptr (some (marked size (m ptr)))) := by
  obtain ⟨marking, hwalk, rfl⟩ := map_eq_some_iff.mp hdone
  have hplace : layout.place shard.records ptr none (path shard.capacity ptr) =
      some (Marking.slot marking) := by
    rw [← slot_markWalk hptr]
    exact congrArg (Option.map Marking.slot) hwalk
  have hslot := h.lt_of_place hplace
  have hdescribes := describes_markWalk (reusable_none _) hwalk
  obtain ⟨hfree, hown⟩ := h.contents_of_place hplace
  rw [valueAt_eq] at hfree hown
  rw [keyAt_eq, key_eq_some hptr] at hown
  cases marking with
  | fresh slot reused =>
    obtain ⟨hold, rfl⟩ := hdescribes
    have hput := h.put_live ⟨ptr, recordedAllocationSize size, 0, machgateAllocationGuestCxx⟩ hptr
      rfl (isLive_mk hptr) hplace
    rw [Marking.slot, hold] at hput
    rw [hfree (value_of_not_live hold)]
    exact hput
  | own slot =>
    change slot < shard.records.length at hslot
    have hne : (recordAt shard.records slot).ptr ≠ 0 := hdescribes ▸ hptr
    rw [hown hdescribes]
    dsimp only [Marking.slot]
    by_cases hsize : (recordAt shard.records slot).size = 0
    · have hold : (recordAt shard.records slot).isTombstone := isTombstone_iff.mpr ⟨hne, hsize⟩
      have hdead := not_isLive_of_isTombstone hold
      obtain ⟨hzone, hflags⟩ := h.wiped _ (mem_of_getElem? (getElem?_recordAt hslot)) hold
      have hput := h.put_live ⟨(recordAt shard.records slot).ptr, recordedAllocationSize size,
        (recordAt shard.records slot).zone,
        (recordAt shard.records slot).flags ||| machgateAllocationGuestCxx⟩ hptr hdescribes
        (isLive_mk hne) hplace
      rw [Marking.slot, hdead, hold] at hput
      rw [value_of_not_live hdead, if_pos hsize]
      have hinfo : Record.info ⟨(recordAt shard.records slot).ptr, recordedAllocationSize size,
          (recordAt shard.records slot).zone,
          (recordAt shard.records slot).flags ||| machgateAllocationGuestCxx⟩ =
            marked size none := by
        rw [Record.info, hzone, hflags]
        rfl
      rw [← hinfo]
      exact hput
    · have hold : (recordAt shard.records slot).isLive := isLive_iff.mpr ⟨hne, hsize⟩
      have hput := h.put_live { recordAt shard.records slot with
          flags := (recordAt shard.records slot).flags ||| machgateAllocationGuestCxx }
        hptr hdescribes hold hplace
      rw [Marking.slot, hold, isTombstone_of_live hold] at hput
      rw [value_of_live hold, if_neg hsize]
      exact hput

end Valid

end Machgate.AllocationShards
