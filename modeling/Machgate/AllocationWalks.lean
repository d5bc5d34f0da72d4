import Machgate.AllocationTable
import Machgate.ProbeRehash

namespace Machgate.AllocationWalks

open AllocationTable ProbeTable Option Nat

structure Info where
  size : BitVec 64
  zone : BitVec 64
  flags : BitVec 32
  deriving DecidableEq

def Record.info (r : Record) : Info := ⟨r.size, r.zone, r.flags⟩

theorem keyed (r : Record) (h : (if r.ptr = 0 then none else some r.ptr) = none) :
    (if r.isLive then some (Record.info r) else none) = none := by
  rw [if_neg]
  intro hlive
  split at h
  · next hptr =>
    rw [Record.isLive, hptr] at hlive
    cases hlive
  · cases h

def layout : Layout Ptr Info Record where
  key := fun r => if r.ptr = 0 then none else some r.ptr
  value := fun r => if r.isLive then some (Record.info r) else none
  keyed := keyed

def path (capacity : Nat) (ptr : Ptr) : List Nat := probes (allocationRecordHash ptr) capacity

section

variable {records : List Record} {ptr : Ptr} {i : Nat} {r : Record}

theorem isLive_iff : r.isLive ↔ r.ptr ≠ 0 ∧ r.size ≠ 0 := by
  rw [Record.isLive, Bool.and_eq_true, decide_eq_true_iff, decide_eq_true_iff]

theorem isTombstone_iff : r.isTombstone ↔ r.ptr ≠ 0 ∧ r.size = 0 := by
  rw [Record.isTombstone, Bool.and_eq_true, decide_eq_true_iff, decide_eq_true_iff]

theorem not_isLive_of_isTombstone (h : r.isTombstone) : r.isLive = false := by
  rw [Bool.eq_false_iff, ne_eq, isLive_iff]
  exact fun hlive => hlive.2 (isTombstone_iff.mp h).2

theorem isTombstone_of_live (h : r.isLive) : r.isTombstone = false := by
  rw [Bool.eq_false_iff, ne_eq, isTombstone_iff]
  exact fun htombstone => (isLive_iff.mp h).2 htombstone.2

theorem keyAt_eq : layout.keyAt records i = layout.key (recordAt records i) := by
  rw [Layout.keyAt, recordAt, List.getD_eq_getElem?_getD]
  cases records[i]? with
  | none | some r => rfl

theorem valueAt_eq : layout.valueAt records i = layout.value (recordAt records i) := by
  rw [Layout.valueAt, recordAt, List.getD_eq_getElem?_getD]
  cases records[i]? with
  | none | some r => rfl

theorem key_eq_some (hptr : ptr ≠ 0) : layout.key r = some ptr ↔ r.ptr = ptr := by
  change (if r.ptr = 0 then none else some r.ptr) = some ptr ↔ _
  split
  · next hzero =>
    constructor
    · exact fun h => nomatch h
    · exact fun h => absurd (h.symm.trans hzero) hptr
  · exact some_inj

theorem isNone_key : (layout.key r).isNone ↔ r.ptr = 0 := by
  change (if r.ptr = 0 then none else some r.ptr).isNone ↔ _
  split
  · next hzero => exact ⟨fun _ => hzero, fun _ => rfl⟩
  · next hzero => exact ⟨fun h => (nomatch h), fun h => absurd h hzero⟩

theorem isSome_value : (layout.value r).isSome = r.isLive := by
  change (if r.isLive then some (Record.info r) else none).isSome = _
  cases r.isLive <;> rfl

theorem isNone_value (hptr : r.ptr ≠ 0) : (layout.value r).isNone ↔ r.size = 0 := by
  rw [← not_isSome, isSome_value, Record.isLive, decide_eq_true hptr, Bool.true_and,
    Bool.not_eq_true', decide_eq_false_iff_not, not_not]

theorem value_of_live (h : r.isLive) : layout.value r = some (Record.info r) := if_pos h

theorem value_of_not_live (h : r.isLive = false) : layout.value r = none :=
  if_neg (Bool.eq_false_iff.mp h)

theorem isTombstone_eq : ((layout.key r).isSome && (layout.value r).isNone) = r.isTombstone := by
  by_cases hptr : r.ptr = 0
  · have hkey := isNone_iff_eq_none.mp (isNone_key.mpr hptr)
    rw [hkey, Record.isTombstone, hptr]
    rfl
  · have hkey : (layout.key r).isSome := by
      rw [← not_isNone, Bool.not_eq_true', Bool.eq_false_iff]
      exact fun h => hptr (isNone_key.mp h)
    rw [hkey, Bool.true_and, Record.isTombstone, decide_eq_true hptr, Bool.true_and]
    exact Bool.eq_iff_iff.mpr ((isNone_value hptr).trans decide_eq_true_iff.symm)

end

section

variable {records : List Record} {ptr : Ptr} {reusable : Option Nat} {positions : List Nat}

theorem lookupWalk_eq (hptr : ptr ≠ 0) :
    lookupWalk records ptr positions = layout.find records ptr positions := by
  induction positions with
  | nil => rfl
  | cons i rest ih =>
    rw [lookupWalk, Layout.find, keyAt_eq, ih]
    simp only [isNone_key, key_eq_some hptr]

theorem noteReusable_eq {i : Nat} (h : (recordAt records i).ptr ≠ 0) :
    noteReusable records i reusable =
      if (layout.valueAt records i).isNone then some (reusable.getD i) else reusable := by
  rw [noteReusable, valueAt_eq]
  simp only [isNone_value h, h, ne_eq, not_false_eq_true, true_and]
  cases reusable with
  | none | some t => simp

theorem slot_insertWalk (hptr : ptr ≠ 0) :
    (insertWalk records ptr reusable positions).map Insertion.slot =
      layout.place records ptr reusable positions := by
  induction positions generalizing reusable with
  | nil =>
    rw [insertWalk, Layout.place, map_map]
    exact map_id'
  | cons i rest ih =>
    rw [insertWalk, Layout.place, keyAt_eq]
    simp only [key_eq_some hptr, isNone_key]
    split
    · rfl
    · split
      · next hempty =>
        have hnote : noteReusable records i reusable = reusable := if_neg fun h => h.1 hempty
        rw [hnote]
        rfl
      · next hfull => rw [ih, noteReusable_eq hfull]

def Reusable (records : List Record) (reusable : Option Nat) : Prop :=
  ∀ t, reusable = some t → (recordAt records t).isTombstone

theorem reusable_none (records : List Record) : Reusable records none := fun _ h => nomatch h

theorem Reusable.note {i : Nat} (h : Reusable records reusable) :
    Reusable records (noteReusable records i reusable) := by
  intro t ht
  rw [noteReusable] at ht
  split at ht
  · next hi =>
    obtain rfl := some.inj ht
    exact isTombstone_iff.mpr ⟨hi.1, hi.2.1⟩
  · exact h t ht

theorem flags_insertWalk (hptr : ptr ≠ 0) (hreusable : Reusable records reusable)
    {insertion : Insertion} (h : insertWalk records ptr reusable positions = some insertion) :
    insertion.inserted = !(recordAt records insertion.slot).isLive ∧
      insertion.reusedTombstone = (recordAt records insertion.slot).isTombstone := by
  induction positions generalizing reusable with
  | nil =>
    obtain ⟨slot, hslot, rfl⟩ := map_eq_some_iff.mp h
    have htombstone := hreusable slot hslot
    rw [not_isLive_of_isTombstone htombstone, htombstone]
    exact ⟨rfl, rfl⟩
  | cons i rest ih =>
    rw [insertWalk] at h
    split at h
    · next hown =>
      obtain rfl := some.inj h
      have hne : (recordAt records i).ptr ≠ 0 := hown ▸ hptr
      rw [Record.isLive, Record.isTombstone, decide_eq_true hne, Bool.true_and, Bool.true_and,
        decide_not, Bool.not_not]
      exact ⟨rfl, rfl⟩
    · split at h
      · next hempty =>
        obtain rfl := some.inj h
        have hnote : noteReusable records i reusable = reusable := if_neg fun h => h.1 hempty
        rw [hnote]
        cases reusable with
        | none =>
          dsimp only [getD_none]
          rw [Record.isLive, Record.isTombstone, hempty]
          exact ⟨rfl, rfl⟩
        | some t =>
          have htombstone := hreusable t rfl
          dsimp only [getD_some]
          rw [not_isLive_of_isTombstone htombstone, htombstone]
          exact ⟨rfl, rfl⟩
      · exact ih hreusable.note h

def Marking.slot : Marking → Nat
  | .fresh slot _ => slot
  | .own slot => slot

theorem slot_markWalk (hptr : ptr ≠ 0) :
    (markWalk records ptr reusable positions).map Marking.slot =
      layout.place records ptr reusable positions := by
  induction positions generalizing reusable with
  | nil =>
    rw [markWalk, Layout.place, map_map]
    exact map_id'
  | cons i rest ih =>
    rw [markWalk, Layout.place, keyAt_eq]
    simp only [key_eq_some hptr, isNone_key]
    split
    · next hempty => rw [if_neg (hempty ▸ Ne.symm hptr), map_some, Marking.slot]
    · next hfull =>
      split
      · rfl
      · rw [ih, noteReusable_eq hfull]

def Marking.Describes (records : List Record) (ptr : Ptr) : Marking → Prop
  | .fresh slot reused =>
    (recordAt records slot).isLive = false ∧ reused = (recordAt records slot).isTombstone
  | .own slot => (recordAt records slot).ptr = ptr

theorem describes_markWalk (hreusable : Reusable records reusable) {marking : Marking}
    (h : markWalk records ptr reusable positions = some marking) :
    Marking.Describes records ptr marking := by
  induction positions generalizing reusable with
  | nil =>
    obtain ⟨slot, hslot, rfl⟩ := map_eq_some_iff.mp h
    have htombstone := hreusable slot hslot
    exact ⟨not_isLive_of_isTombstone htombstone, htombstone.symm⟩
  | cons i rest ih =>
    rw [markWalk] at h
    split at h
    · next hempty =>
      obtain rfl := some.inj h
      cases reusable with
      | none =>
        dsimp only [getD_none, Marking.Describes]
        rw [Record.isLive, Record.isTombstone, hempty]
        exact ⟨rfl, rfl⟩
      | some t =>
        have htombstone := hreusable t rfl
        exact ⟨not_isLive_of_isTombstone htombstone, htombstone.symm⟩
    · split at h
      · next hown =>
        obtain rfl := some.inj h
        exact hown
      · exact ih hreusable.note h

end

theorem mem_probes {hash : BitVec 64} {n i : Nat} : i ∈ probes hash (2 ^ n) ↔ i < 2 ^ n := by
  rw [probes, List.mem_map]
  simp only [and_two_pow_sub_one_eq_mod, List.mem_range, allocationRecordIndex]
  have hpos : 0 < 2 ^ n := Nat.two_pow_pos n
  constructor
  · rintro ⟨probe, -, rfl⟩
    exact mod_lt _ hpos
  · intro hi
    -- The distance from the first slot, around the end of the table.
    generalize (hash >>> 4).toNat = first
    have hfirst := mod_lt first hpos
    refine ⟨(i + (2 ^ n - first % 2 ^ n)) % 2 ^ n, mod_lt _ hpos, ?_⟩
    rw [add_mod_mod, ← Nat.add_assoc, Nat.add_comm _ i, Nat.add_assoc,
      add_sub_of_le (Nat.le_of_lt hfirst), add_mod_right, mod_eq_of_lt hi]

end Machgate.AllocationWalks
