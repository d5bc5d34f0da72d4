import Mathlib.Data.List.DropRight
import Machgate.RecordBuffer

namespace Machgate.UnwindEntries

open RecordBuffer List BitVec

def unwindIsNotFunctionStart : BitVec 32 := 0x80000000
def unwindHasLsda : BitVec 32 := 0x40000000
def unwindPersonalityMask : BitVec 32 := 0x30000000
def unwindArm64ModeMask : BitVec 32 := 0x0F000000
def unwindArm64ModeFrameless : BitVec 32 := 0x02000000
def unwindArm64ModeDwarf : BitVec 32 := 0x03000000
def unwindArm64ModeFrame : BitVec 32 := 0x04000000

def unwindSecondLevelRegular : BitVec 32 := 2
def unwindSecondLevelCompressed : BitVec 32 := 3

structure CuEntry where
  funcOffset : BitVec 32
  funcSize : BitVec 32
  encoding : BitVec 32
  lsdaOffset : BitVec 32
  deriving DecidableEq

/-- The `__unwind_info` section with the bytes mapped behind it. -/
structure UnwindInfo where
  bytes : List Octet
  size : Nat

namespace UnwindInfo

variable (info : UnwindInfo)

def word (offset : Nat) : BitVec 32 := BitVec.ofNat 32 (field info.bytes offset 4)

def half (offset : Nat) : BitVec 16 := BitVec.ofNat 16 (field info.bytes offset 2)

def version : BitVec 32 := info.word 0
def commonEncodingsArraySectionOffset : BitVec 32 := info.word 4
def commonEncodingsArrayCount : BitVec 32 := info.word 8
def personalityArraySectionOffset : BitVec 32 := info.word 12
def personalityArrayCount : BitVec 32 := info.word 16
def indexSectionOffset : BitVec 32 := info.word 20
def indexCount : BitVec 32 := info.word 24

def indexEntry (idx : Nat) : Nat := info.indexSectionOffset.toNat + 12 * idx
def functionOffset (idx : Nat) : BitVec 32 := info.word (info.indexEntry idx)
def secondLevelPage (idx : Nat) : BitVec 32 := info.word (info.indexEntry idx + 4)
def lsdaIndexArray (idx : Nat) : BitVec 32 := info.word (info.indexEntry idx + 8)

/-- The binary search over the LSDA array at `lsdaArr`; 0 where the function is not in it. -/
def lsdaSearch (lsdaArr : Nat) (funcOffset : BitVec 32) : Nat → Int → Int → BitVec 32
  | 0, _, _ => 0
  | fuel + 1, lo, hi =>
    if lo ≤ hi then
      let mid := (lo + hi) / 2
      let found := info.word (lsdaArr + 8 * mid.toNat)
      if found = funcOffset then info.word (lsdaArr + 8 * mid.toNat + 4)
      else if found < funcOffset then lsdaSearch lsdaArr funcOffset fuel (mid + 1) hi
      else lsdaSearch lsdaArr funcOffset fuel lo (mid - 1)
    else 0

def lsdaOffset (idx : Nat) (funcOffset encoding : BitVec 32) : BitVec 32 :=
  if encoding &&& unwindHasLsda ≠ 0 then
    let lsdaCount := (info.lsdaIndexArray (idx + 1) - info.lsdaIndexArray idx).toNat / 8
    info.lsdaSearch (info.lsdaIndexArray idx).toNat funcOffset (lsdaCount + 1) 0 (lsdaCount - 1)
  else 0

def cuEntry (idx : Nat) (funcOffset encoding : BitVec 32) : CuEntry :=
  { funcOffset := funcOffset, funcSize := 0, encoding := encoding
    lsdaOffset := info.lsdaOffset idx funcOffset encoding }

def compressedEncoding (page : Nat) (encIdx : BitVec 32) : BitVec 32 :=
  let encodingsPageOffset := (info.half (page + 8)).toNat
  let encodingsCount := (info.half (page + 10)).setWidth 32
  if encIdx < info.commonEncodingsArrayCount then
    info.word (info.commonEncodingsArraySectionOffset.toNat + 4 * encIdx.toNat)
  else if encIdx - info.commonEncodingsArrayCount < encodingsCount then
    info.word (page + encodingsPageOffset + 4 * (encIdx - info.commonEncodingsArrayCount).toNat)
  else 0

def compressedEntry (idx page i : Nat) : CuEntry :=
  let entry := info.word (page + (info.half (page + 4)).toNat + 4 * i)
  info.cuEntry idx (info.functionOffset idx + (entry &&& 0x00FFFFFF))
    (info.compressedEncoding page ((entry >>> 24) &&& 0xFF))

def regularEntry (idx page i : Nat) : CuEntry :=
  let entry := page + (info.half (page + 4)).toNat + 8 * i
  info.cuEntry idx (info.word entry) (info.word (entry + 4))

def pageEntries (idx : Nat) : List CuEntry :=
  let page := (info.secondLevelPage idx).toNat
  if page = 0 ∨ info.size ≤ page then []
  else
    let entryCount := (info.half (page + 6)).toNat
    if info.word page = unwindSecondLevelCompressed then
      (List.range entryCount).map (info.compressedEntry idx page)
    else if info.word page = unwindSecondLevelRegular then
      (List.range entryCount).map (info.regularEntry idx page)
    else []

end UnwindInfo

/-- One round of the insertion sort: entries behind the new one move up. -/
def insertEntry (sorted : List CuEntry) (tmp : CuEntry) : List CuEntry :=
  sorted.rdropWhile (fun e => tmp.funcOffset < e.funcOffset) ++
    tmp :: sorted.rtakeWhile (fun e => tmp.funcOffset < e.funcOffset)

def setSizes : List CuEntry → List CuEntry
  | [] => []
  | [e] => [{ e with funcSize := 256 }]
  | e :: f :: rest =>
    { e with funcSize := f.funcOffset - e.funcOffset } :: setSizes (f :: rest)

def collectEntries (info : UnwindInfo) : Option (List CuEntry) :=
  if info.version ≠ 1 then none
  else
    let entries := (List.range (info.indexCount.toNat - 1)).flatMap info.pageEntries
    some (setSizes (entries.foldl insertEntry []))

def Sorted (entries : List CuEntry) : Prop :=
  entries.Pairwise fun e f => e.funcOffset.toNat ≤ f.funcOffset.toNat

variable {entries : List CuEntry}

theorem Sorted.le_getLast (h : Sorted entries) (hne : entries ≠ [])
    {e : CuEntry} (he : e ∈ entries) :
    e.funcOffset.toNat ≤ (entries.getLast hne).funcOffset.toNat := by
  have hsplit := dropLast_append_getLast hne
  rw [Sorted, ← hsplit, pairwise_append] at h
  rw [← hsplit, mem_append] at he
  rcases he with he | he
  · exact h.2.2 e he _ (mem_singleton_self _)
  · rw [mem_singleton.mp he]

theorem sorted_insertEntry {sorted : List CuEntry} (h : Sorted sorted) (tmp : CuEntry) :
    Sorted (insertEntry sorted tmp) := by
  have hsplit := rdropWhile_append_rtakeWhile (l := sorted)
    (p := fun e => tmp.funcOffset < e.funcOffset)
  rw [Sorted, ← hsplit, pairwise_append] at h
  obtain ⟨hfront, hback, hcross⟩ := h
  have hafter : ∀ e ∈ sorted.rtakeWhile (fun e => tmp.funcOffset < e.funcOffset),
      tmp.funcOffset.toNat ≤ e.funcOffset.toNat := by
    intro e he
    have := mem_rtakeWhile_imp he
    rw [decide_eq_true_eq, lt_def] at this
    omega
  have hbefore : ∀ e ∈ sorted.rdropWhile (fun e => tmp.funcOffset < e.funcOffset),
      e.funcOffset.toNat ≤ tmp.funcOffset.toNat := by
    intro e he
    have hne := ne_nil_of_mem he
    have hlast := rdropWhile_last_not _ _ hne
    rw [decide_eq_true_eq, lt_def] at hlast
    have := Sorted.le_getLast hfront hne he
    omega
  rw [Sorted, insertEntry, pairwise_append]
  refine ⟨hfront, pairwise_cons.mpr ⟨hafter, hback⟩, fun e he f hf => ?_⟩
  rcases mem_cons.mp hf with rfl | hf
  · exact hbefore e he
  · exact hcross e he f hf

theorem sorted_foldl_insertEntry (entries : List CuEntry) {sorted : List CuEntry}
    (h : Sorted sorted) : Sorted (entries.foldl insertEntry sorted) := by
  induction entries generalizing sorted with
  | nil => exact h
  | cons e entries ih => exact ih (sorted_insertEntry h e)

theorem map_funcOffset_setSizes (entries : List CuEntry) :
    (setSizes entries).map CuEntry.funcOffset = entries.map CuEntry.funcOffset := by
  induction entries with
  | nil => rfl
  | cons e entries ih =>
    cases entries with
    | nil => rfl
    | cons f rest => exact congrArg (e.funcOffset :: ·) ih

/-- An entry ends where the next one starts, so the ranges of the entries do not overlap. -/
theorem pairwise_setSizes (h : Sorted entries) :
    (setSizes entries).Pairwise fun e f =>
      e.funcOffset.toNat + e.funcSize.toNat ≤ f.funcOffset.toNat := by
  induction entries with
  | nil => exact .nil
  | cons e entries ih =>
    cases entries with
    | nil => exact pairwise_singleton ..
    | cons f rest =>
      obtain ⟨hfirst, hrest⟩ := pairwise_cons.mp h
      refine pairwise_cons.mpr ⟨fun g hg => ?_, ih hrest⟩
      have hef := hfirst f mem_cons_self
      have hsize : (f.funcOffset - e.funcOffset).toNat =
          f.funcOffset.toNat - e.funcOffset.toNat :=
        toNat_sub_of_le (le_def.mpr hef)
      have hfg : f.funcOffset.toNat ≤ g.funcOffset.toNat := by
        have hoff := mem_map_of_mem (f := CuEntry.funcOffset) hg
        rw [map_funcOffset_setSizes] at hoff
        obtain ⟨g', hg', hgg⟩ := mem_map.mp hoff
        rw [← hgg]
        rcases mem_cons.mp hg' with rfl | hg'
        · exact Nat.le_refl _
        · exact rel_of_pairwise_cons hrest hg'
      change e.funcOffset.toNat + (f.funcOffset - e.funcOffset).toNat ≤ g.funcOffset.toNat
      omega

theorem pairwise_collectEntries {info : UnwindInfo} (h : collectEntries info = some entries) :
    entries.Pairwise fun e f => e.funcOffset.toNat + e.funcSize.toNat ≤ f.funcOffset.toNat := by
  rw [collectEntries] at h
  split at h
  · cases h
  · cases h
    exact pairwise_setSizes (sorted_foldl_insertEntry _ .nil)

theorem eq_of_overlap {info : UnwindInfo}
    (h : collectEntries info = some entries) {e f : CuEntry} (he : e ∈ entries) (hf : f ∈ entries)
    {x : Nat} (hxe : e.funcOffset.toNat ≤ x ∧ x < e.funcOffset.toNat + e.funcSize.toNat)
    (hxf : f.funcOffset.toNat ≤ x ∧ x < f.funcOffset.toNat + f.funcSize.toNat) : e = f := by
  have hpair := pairwise_iff_getElem.mp (pairwise_collectEntries h)
  obtain ⟨i, hi, rfl⟩ := getElem_of_mem he
  obtain ⟨j, hj, rfl⟩ := getElem_of_mem hf
  rcases Nat.lt_trichotomy i j with hlt | rfl | hlt
  · have := hpair i j hi hj hlt
    omega
  · rfl
  · have := hpair j i hj hi hlt
    omega

end Machgate.UnwindEntries
