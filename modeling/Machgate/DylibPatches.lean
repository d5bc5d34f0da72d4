import Machgate.TextVisits

namespace Machgate.DylibPatches

open Arm64Encoders BcaxIsland ByteMemory LseDecode MachineState TextPatches TextVisits WordPointers
open Option Function List Prod
open GatePatch (Macho SegmentCommand64)
open IslandPatch (PatchState patchSites patchStep place)

structure DylibSegment extends SegmentCommand64 where
  vmaddr : WordPtr
  vmsize : BitVec 64

/-- A load command; `none` stands for the commands that are no segments. -/
structure DylibCommand where
  cmdsize : BitVec 32
  segment : Option DylibSegment

structure DylibImage where
  mem : WordPtr → Word
  slide : WordPtr
  sizeofcmds : BitVec 32
  cmds : List DylibCommand

namespace DylibImage

variable (image : DylibImage)

def toMacho : Macho where
  mem := image.mem
  slide := image.slide
  sizeofcmds := image.sizeofcmds
  cmds := image.cmds.map fun lc => ⟨lc.cmdsize, lc.segment.map DylibSegment.toSegmentCommand64⟩

def segmentsFrom (sizeofcmds : BitVec 32) : BitVec 32 → List DylibCommand → List DylibSegment
  | _, [] => []
  | offset, lc :: rest =>
    if offset < sizeofcmds then
      lc.segment.toList ++ segmentsFrom sizeofcmds (offset + lc.cmdsize) rest
    else []

def segmentWords (seg : DylibSegment) : List WordPtr :=
  (List.range (seg.vmsize.toNat / 4)).map fun i => seg.vmaddr + image.slide + BitVec.ofNat 62 i

/-- The words of each executable segment, whatever its sections are. -/
def segments : List (List WordPtr) :=
  ((segmentsFrom image.sizeofcmds 0#32 image.cmds).filter fun seg => seg.executable).map
    image.segmentWords

end DylibImage

def Outside (pool : Option LsePool) (w : WordPtr) : Prop :=
  ∀ p ∈ pool, w.toNat < p.start.toNat ∨ p.stop.toNat ≤ w.toNat

/-- A loaded library with the pool beside it; there is none on a host with atomics. -/
structure DylibInput extends DylibImage where
  pool : Option LsePool
  apart : ∀ words ∈ toDylibImage.segments, ∀ w ∈ words, Outside pool w

def visitWord (s : TextState) (site : WordPtr) : TextState :=
  let s := put s site (rewriteRcpc (s.mem site))
  put s site (rewriteTpidrroRead (s.mem site))

def lsePatch (pool : Option LsePool) (words : List WordPtr) (s : TextState) : TextState :=
  match pool, s.lsePoolCur with
  | some pool, some cur =>
    let σ := patchSites pool.stop words { mem := s.mem, island := cur, log := [] }
    ⟨σ.mem, some σ.island⟩
  | _, _ => s

def patchSegment (pool : Option LsePool) (s : TextState) (words : List WordPtr) : TextState :=
  lsePatch pool words (words.foldl visitWord s)

def patchSegments (pool : Option LsePool) (segments : List (List WordPtr)) (s : TextState) :
    TextState :=
  segments.foldl (patchSegment pool) s

namespace DylibInput

variable (inp : DylibInput)

def start : TextState := ⟨inp.mem, inp.pool.map LsePool.start⟩

def patch : TextState := patchSegments inp.pool inp.segments inp.start

end DylibInput

/-- What the loops leave alone, with or without a pool. -/
structure LeftAlone (pool : Option LsePool) (instruction : Word) : Prop where
  patch : patchOf instruction = none
  lse : pool ≠ none → decodeLse instruction = none
  bcax : pool ≠ none → decodeBcax instruction = none

theorem leftAlone_of_settled {instruction : Word} (h : Settled instruction) (pool : Option LsePool) :
    LeftAlone pool instruction :=
  ⟨h.patch, fun _ => h.lse, fun _ => h.bcax⟩

section

variable {s : TextState} {site w : WordPtr}

theorem visitWord_eq (s : TextState) (site : WordPtr) :
    visitWord s site = put s site ((patchOf (s.mem site)).map fst) := by
  cases hrcpc : rewriteRcpc (s.mem site) with
  | none =>
    rw [patchOf_of_rcpc hrcpc]
    simp only [visitWord, hrcpc, put, Option.map_map]
    cases rewriteTpidrroRead (s.mem site) <;> rfl
  | some new =>
    have hpatch : patchOf (s.mem site) = some (new, .rcpc) := by rw [patchOf, hrcpc]
    have hsettled := (settled_of_patchOf hpatch).patch
    -- The `ldar` that stands there now is no read of a thread register.
    have htpidr : rewriteTpidrroRead new = none := by
      rw [patchOf] at hsettled
      split at hsettled
      · cases hsettled
      · exact map_eq_none_iff.mp hsettled
    simp only [visitWord, hrcpc, hpatch, put, update_self, htpidr, map_some]

theorem visitWord_mem (s : TextState) (site w : WordPtr) :
    ((visitWord s site).mem w = s.mem w ∨ w = site ∧ Settled ((visitWord s site).mem w)) ∧
      patchOf ((visitWord s site).mem site) = none := by
  rw [visitWord_eq]
  cases hpatch : patchOf (s.mem site) with
  | none => exact ⟨.inl rfl, hpatch⟩
  | some new =>
    have hsettled : Settled new.1 := settled_of_patchOf hpatch
    simp only [map_some, put, update_self]
    refine ⟨?_, hsettled.patch⟩
    by_cases hw : w = site
    · subst hw
      rw [update_self]
      exact .inr ⟨rfl, hsettled⟩
    · rw [update_of_ne hw]
      exact .inl rfl

theorem visitWord_cur (s : TextState) (site : WordPtr) :
    (visitWord s site).lsePoolCur = s.lsePoolCur := by
  rw [visitWord_eq]
  cases (patchOf (s.mem site)).map fst <;> rfl

theorem visits_cur (s : TextState) (words : List WordPtr) :
    (words.foldl visitWord s).lsePoolCur = s.lsePoolCur := by
  induction words generalizing s with
  | nil => rfl
  | cons site words ih => rw [foldl_cons, ih, visitWord_cur]

theorem visits_mem (s : TextState) (words : List WordPtr) (w : WordPtr) :
    (words.foldl visitWord s).mem w = s.mem w ∨
      w ∈ words ∧ Settled ((words.foldl visitWord s).mem w) := by
  induction words generalizing s with
  | nil => exact .inl rfl
  | cons site words ih =>
    rw [foldl_cons]
    rcases ih (visitWord s site) with hsame | ⟨hmem, hsettled⟩
    · rw [hsame]
      rcases (visitWord_mem s site w).1 with hsame | ⟨rfl, hsettled⟩
      · exact .inl hsame
      · exact .inr ⟨mem_cons_self, hsettled⟩
    · exact .inr ⟨mem_cons_of_mem site hmem, hsettled⟩

theorem visitWord_of_none (h : patchOf (s.mem w) = none) (site : WordPtr) :
    (visitWord s site).mem w = s.mem w := by
  rw [visitWord_eq]
  by_cases hw : w = site
  · subst hw
    rw [h]
    rfl
  · cases patchOf (s.mem site) with
    | none => rfl
    | some new => exact update_of_ne hw new.1 s.mem

theorem visits_of_none (h : patchOf (s.mem w) = none) (words : List WordPtr) :
    (words.foldl visitWord s).mem w = s.mem w := by
  induction words generalizing s with
  | nil => rfl
  | cons site words ih =>
    have hsite := visitWord_of_none h site
    rw [foldl_cons, ih (hsite ▸ h), hsite]

theorem visits_patched (s : TextState) {words : List WordPtr} (hw : w ∈ words) :
    patchOf ((words.foldl visitWord s).mem w) = none := by
  induction words generalizing s with
  | nil => exact absurd hw not_mem_nil
  | cons site words ih =>
    rw [foldl_cons]
    rcases mem_cons.mp hw with rfl | hw
    · rcases visits_mem (visitWord s w) words w with hsame | ⟨-, hsettled⟩
      · rw [hsame]
        exact (visitWord_mem s w w).2
      · exact hsettled.patch
    · exact ih (visitWord s site) hw

end

def InPool (pool : Option LsePool) (s : TextState) : Prop :=
  ∀ p ∈ pool, ∀ cur ∈ s.lsePoolCur, p.start.toNat ≤ cur.toNat ∧ cur.toNat ≤ p.stop.toNat

theorem inPool_start (mem : WordPtr → Word) (pool : Option LsePool) :
    InPool pool ⟨mem, pool.map LsePool.start⟩ := by
  rintro p rfl cur hcur
  obtain rfl : p.start = cur := some.inj hcur
  exact ⟨Nat.le_refl _, p.start_le⟩

variable {pool : Option LsePool} {s t : TextState} {words : List WordPtr} {w : WordPtr}

theorem InPool.of_cur (h : InPool pool s) (hcur : t.lsePoolCur = s.lsePoolCur) : InPool pool t := by
  intro p hp cur ht
  exact h p hp cur (hcur ▸ ht)

theorem InPool.lsePatch (h : InPool pool s) (words : List WordPtr) :
    InPool pool (lsePatch pool words s) := by
  unfold DylibPatches.lsePatch
  split
  · next p cur hcur =>
    intro p' hp' cur' hcur'
    obtain rfl : p = p' := some.inj hp'
    obtain rfl := some.inj hcur'
    obtain ⟨hlow, hhigh⟩ := h p rfl cur hcur
    -- The bounds of the cursor are those of any word outside the pool.
    exact (patchSites_touched (w := p.stop) hlow hhigh (.inr (Nat.le_refl _))).1
  · exact h

theorem lsePatch_touched (h : InPool pool s) (hw : Outside pool w) (words : List WordPtr) :
    Touched words w (s.mem w) ((lsePatch pool words s).mem w) := by
  unfold DylibPatches.lsePatch
  split
  · next p cur hcur =>
    obtain ⟨hlow, hhigh⟩ := h p rfl cur hcur
    exact (patchSites_touched hlow hhigh (hw p rfl)).2
  · exact .inl rfl

theorem InPool.patchSegment (h : InPool pool s) (words : List WordPtr) :
    InPool pool (patchSegment pool s words) :=
  InPool.lsePatch (h.of_cur (visits_cur s words)) words

/-- A segment leaves a word alone, or the word is its own and settled now. -/
theorem patchSegment_mem (h : InPool pool s) (hw : Outside pool w) (words : List WordPtr) :
    (patchSegment pool s words).mem w = s.mem w ∨
      w ∈ words ∧ Settled ((patchSegment pool s words).mem w) := by
  have htouched := lsePatch_touched (h.of_cur (visits_cur s words)) hw words
  rcases htouched with hsame | ⟨hmem, -, offset, hbranch⟩
  · rw [patchSegment, hsame]
    exact visits_mem s words w
  · refine .inr ⟨hmem, ?_⟩
    rw [patchSegment, hbranch]
    exact settled_encB offset

theorem patchSegment_of_leftAlone (h : InPool pool s) (hw : Outside pool w)
    (hleft : LeftAlone pool (s.mem w)) (words : List WordPtr) :
    (patchSegment pool s words).mem w = s.mem w := by
  have hvisits := visits_of_none hleft.patch words
  cases pool with
  | none => exact hvisits
  | some p =>
    have hsettled : Settled (s.mem w) :=
      ⟨hleft.patch, hleft.lse (some_ne_none p), hleft.bcax (some_ne_none p)⟩
    have htouched := lsePatch_touched (h.of_cur (visits_cur s words)) hw words
    rw [hvisits] at htouched
    exact htouched.of_settled hsettled

end Machgate.DylibPatches
