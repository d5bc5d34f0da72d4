import Machgate.CursorReplay
import Machgate.GatePatch

namespace Machgate.TextPatches

open Arm64Encoders BcaxIsland ByteMemory CursorReplay LseDecode MachineState WordPointers
open Option Function BitVec List Prod
open GatePatch (LoadCommand Macho)
open IslandPatch (patchSites patchStep)

def arm64MrsTpidrroEl0 : Word := 0xd53bd060#32
def arm64MrsTpidrEl0 : Word := 0xd53bd040#32

def mainTextPatchMax : Nat := 2 * 1024 * 1024

inductive PatchKind
  | rcpc
  | tpidrro
  deriving DecidableEq

structure TextPatch where
  textOffset : BitVec 64
  instruction : Word
  kind : PatchKind
  deriving DecidableEq

/-- An `ldapr` becomes the `ldar` of the same size and registers. -/
def rewriteRcpc (instruction : Word) : Option Word :=
  if instruction &&& 0x3FFFFC00#32 = 0x38BFC000#32 then
    some ((instruction &&& 0xC00003FF#32) ||| 0x08DFFC00#32)
  else none

def rewriteTpidrroRead (instruction : Word) : Option Word :=
  if instruction &&& 0xffffffe0#32 = arm64MrsTpidrroEl0 then
    some (arm64MrsTpidrEl0 ||| (instruction &&& 0x1f#32))
  else none

/-- A load command of the main image; `isText` says that it is a segment called `__TEXT`. -/
structure MainCommand extends LoadCommand where
  isText : Bool
  vmaddr : Addr

structure MainImage where
  mem : WordPtr → Word
  slide : WordPtr
  sizeofcmds : BitVec 32
  cmds : List MainCommand

namespace MainImage

variable (image : MainImage)

def toMacho : Macho where
  mem := image.mem
  slide := image.slide
  sizeofcmds := image.sizeofcmds
  cmds := image.cmds.map MainCommand.toLoadCommand

/-- The words of each instruction section, in the order of the load commands. -/
def sections : List (List WordPtr) := image.toMacho.sections.map image.toMacho.sectionWords

def textBaseFrom (sizeofcmds : BitVec 32) : BitVec 32 → Addr → List MainCommand → Addr
  | _, base, [] => base
  | offset, base, lc :: rest =>
    if offset < sizeofcmds then
      textBaseFrom sizeofcmds (offset + lc.cmdsize) (if lc.isText then lc.vmaddr else base) rest
    else base

def mainTextBase : Addr := textBaseFrom image.sizeofcmds 0#32 0#64 image.cmds

def textOffset (site : WordPtr) : BitVec 64 := toAddr site - image.mainTextBase

end MainImage

/-- `lse_pool` up to `lse_pool_end`. -/
structure LsePool where
  start : WordPtr
  stop : WordPtr
  start_le : start.toNat ≤ stop.toNat
  stop_fits : stop.toNat + 24 < 2 ^ 62

/-- A mapped image with the pool for its atomics, if there is one.  The pool is a mapping of its
own. -/
structure TextInput extends MainImage where
  pool : Option LsePool
  apart : ∀ p ∈ pool, ∀ words ∈ toMainImage.sections, ∀ w ∈ words,
    w.toNat < p.start.toNat ∨ p.stop.toNat ≤ w.toNat

structure TextState where
  mem : WordPtr → Word
  lsePoolCur : Option WordPtr

/-- The scan, with the patches it has recorded. -/
structure Scan extends TextState where
  recorded : List TextPatch

/-- The replay, with the patches behind its cursor. -/
structure Replay extends TextState where
  left : List TextPatch

def recordTextPatch (recorded : List TextPatch) (patch : TextPatch) : List TextPatch :=
  if mainTextPatchMax ≤ recorded.length then recorded else recorded ++ [patch]

namespace TextInput

variable (inp : TextInput)

def start : TextState := ⟨inp.mem, inp.pool.map LsePool.start⟩

def lsePatch (words : List WordPtr) (s : TextState) : TextState :=
  match inp.pool, s.lsePoolCur with
  | some pool, some cur =>
    let σ := patchSites pool.stop words { mem := s.mem, island := cur, log := [] }
    ⟨σ.mem, some σ.island⟩
  | _, _ => s

/-- A word that is rewritten is recorded with its new contents. -/
def rewrite (site : WordPtr) (kind : PatchKind) (new : Option Word) (s : Scan) : Scan :=
  match new with
  | none => s
  | some instruction =>
    { mem := Function.update s.mem site instruction, lsePoolCur := s.lsePoolCur
      recorded := recordTextPatch s.recorded ⟨inp.textOffset site, instruction, kind⟩ }

def scanWord (s : Scan) (site : WordPtr) : Scan :=
  let s := inp.rewrite site .rcpc (rewriteRcpc (s.mem site)) s
  inp.rewrite site .tpidrro (rewriteTpidrroRead (s.mem site)) s

def scanSection (s : Scan) (words : List WordPtr) : Scan :=
  let s := words.foldl inp.scanWord s
  { s with toTextState := inp.lsePatch words s.toTextState }

def scanText : Scan := inp.sections.foldl inp.scanSection ⟨inp.start, []⟩

def replayWord (s : Replay) (site : WordPtr) : Replay :=
  match seek (fun p : TextPatch => p.textOffset.toNat) (inp.textOffset site).toNat s.left with
  | (none, left) => { s with left := left }
  | (some p, left) =>
    { mem := Function.update s.mem site p.instruction, lsePoolCur := s.lsePoolCur, left := left }

def replaySection (s : Replay) (words : List WordPtr) : Replay :=
  let s := words.foldl inp.replayWord s
  { s with toTextState := inp.lsePatch words s.toTextState }

def replayText (patches : List TextPatch) : Replay :=
  inp.sections.foldl inp.replaySection ⟨inp.start, patches⟩

/-- The text a start of the program ends up with, and the patches it records: none if the cache had
some. -/
def patchText (replayPatches : List TextPatch) : TextState × List TextPatch :=
  if replayPatches = [] then (inp.scanText.toTextState, inp.scanText.recorded)
  else if inp.slide = 0#62 then ((inp.replayText replayPatches).toTextState, [])
  else (inp.scanText.toTextState, [])

/-- A second start, with the patches of the first, has the same text. -/
def SameText : Prop :=
  ∀ words ∈ inp.sections, ∀ w ∈ words,
    (inp.patchText (inp.patchText []).2).1.mem w = (inp.patchText []).1.mem w

end TextInput

/-- The new contents of a word that the scan rewrites.  No word is rewritten twice. -/
def patchOf (instruction : Word) : Option (Word × PatchKind) :=
  match rewriteRcpc instruction with
  | some new => some (new, .rcpc)
  | none => (rewriteTpidrroRead instruction).map fun new => (new, .tpidrro)

/-- Left alone by both loops. -/
structure Settled (instruction : Word) : Prop where
  patch : patchOf instruction = none
  lse : decodeLse instruction = none
  bcax : decodeBcax instruction = none

section

variable {w m n c d : Word}

theorem and_ne (h : w &&& n = c) (hne : c &&& m ≠ d &&& n) : w &&& m ≠ d := by
  rintro rfl
  apply hne
  rw [← h, BitVec.and_assoc, BitVec.and_comm n, ← BitVec.and_assoc]

/-- A word whose bits under `n` tell it from everything the loops look for. -/
theorem settled_of_and (h : w &&& n = c) (hrcpc : c &&& 0x3FFFFC00#32 ≠ 0x38BFC000#32 &&& n)
    (htpidr : c &&& 0xffffffe0#32 ≠ arm64MrsTpidrroEl0 &&& n)
    (hrmw : c &&& 0x3F200C00#32 ≠ 0x38200000#32 &&& n)
    (hcas : c &&& 0x3FA07C00#32 ≠ 0x08A07C00#32 &&& n)
    (hbcax : c &&& 0xFFE08000#32 ≠ 0xCE200000#32 &&& n) : Settled w where
  patch := by
    rw [patchOf, rewriteRcpc, if_neg (and_ne h hrcpc), rewriteTpidrroRead, if_neg (and_ne h htpidr)]
    rfl
  lse := by rw [decodeLse, if_neg (and_ne h hrmw), if_neg (and_ne h hcas)]
  bcax := by rw [decodeBcax, if_pos (and_ne h hbcax)]

theorem and_or_and (x : Word) (h : m &&& n = 0#32) : ((x &&& m) ||| c) &&& n = c &&& n := by
  have hzero : n &&& (x &&& m) = 0#32 := by rw [BitVec.and_comm, BitVec.and_assoc, h, and_zero]
  rw [BitVec.and_comm, and_or_distrib_left, hzero, zero_or, BitVec.and_comm]

theorem settled_encB (offset : BitVec 32) : Settled (encB offset) :=
  settled_of_and (branchWord_and (by decide) offset) (by decide) (by decide) (by decide) (by decide) (by decide)

variable {new : Word} {kind : PatchKind}

/-- A rewritten word is an `ldar` or a read of `TPIDR_EL0`. -/
theorem and_of_patchOf (h : patchOf w = some (new, kind)) :
    new &&& 0x3FFFFC00#32 = 0x08DFFC00#32 ∨ new &&& 0xffffffe0#32 = arm64MrsTpidrEl0 := by
  rw [patchOf] at h
  split at h
  · next new' hrcpc =>
    obtain ⟨rfl, -⟩ := mk.inj (some.inj h)
    rw [rewriteRcpc] at hrcpc
    split at hrcpc
    · cases hrcpc
      exact .inl (and_or_and w (by decide))
    · cases hrcpc
  · obtain ⟨new', htpidr, heq⟩ := map_eq_some_iff.mp h
    obtain ⟨rfl, -⟩ := mk.inj heq
    rw [rewriteTpidrroRead] at htpidr
    split at htpidr
    · cases htpidr
      right
      rw [BitVec.or_comm]
      exact and_or_and w (by decide)
    · cases htpidr

theorem settled_of_patchOf (h : patchOf w = some (new, kind)) : Settled new := by
  rcases and_of_patchOf h with hnew | hnew
  all_goals exact settled_of_and hnew (by decide) (by decide) (by decide) (by decide) (by decide)

theorem ne_encB_of_patchOf (h : patchOf w = some (new, kind))
    (offset : BitVec 32) : new ≠ encB offset := by
  rintro rfl
  rcases and_of_patchOf h with hnew | hnew
  all_goals exact and_ne hnew (by decide) (branchWord_and (by decide) offset)

theorem ne_of_patchOf (h : patchOf w = some (new, kind)) : new ≠ w := by
  rintro rfl
  rw [(settled_of_patchOf h).patch] at h
  cases h

end

section

variable (inp : TextInput) {s : Scan} {site : WordPtr}

theorem patchOf_of_rcpc {w : Word} (h : rewriteRcpc w = none) :
    patchOf w = (rewriteTpidrroRead w).map fun new => (new, .tpidrro) := by
  rw [patchOf, h]

theorem TextInput.scanWord_of_none (h : patchOf (s.mem site) = none) : inp.scanWord s site = s := by
  cases hrcpc : rewriteRcpc (s.mem site) with
  | none =>
    rw [patchOf_of_rcpc hrcpc, map_eq_none_iff] at h
    rw [scanWord, hrcpc]
    change inp.rewrite site .tpidrro (rewriteTpidrroRead (s.mem site)) s = s
    rw [h]
    rfl
  | some new =>
    rw [patchOf, hrcpc] at h
    cases h

theorem TextInput.scanWord_of_some {new : Word} {kind : PatchKind}
    (h : patchOf (s.mem site) = some (new, kind)) :
    inp.scanWord s site = inp.rewrite site kind (some new) s := by
  cases hrcpc : rewriteRcpc (s.mem site) with
  | none =>
    rw [patchOf_of_rcpc hrcpc] at h
    obtain ⟨new', htpidr, heq⟩ := map_eq_some_iff.mp h
    obtain ⟨rfl, rfl⟩ := Prod.mk.inj heq
    rw [scanWord, hrcpc]
    change inp.rewrite site .tpidrro (rewriteTpidrroRead (s.mem site)) s = _
    rw [htpidr]
  | some new' =>
    -- the `ldar` that now stands there is no read of a thread register
    have hsettled := (settled_of_patchOf h).patch
    rw [patchOf, hrcpc] at h
    obtain ⟨rfl, rfl⟩ := Prod.mk.inj (Option.some.inj h)
    have htpidr : rewriteTpidrroRead new' = none := by
      rw [patchOf] at hsettled
      split at hsettled
      · cases hsettled
      · exact map_eq_none_iff.mp hsettled
    rw [scanWord, hrcpc]
    change inp.rewrite site .tpidrro (rewriteTpidrroRead (update s.mem site new' site)) _ = _
    rw [update_self, htpidr]
    rfl

end

/-- What `isa_emul_patch` does to a word outside the pool: a site it serves becomes a branch. -/
def Touched (sites : List WordPtr) (w : WordPtr) (before after : Word) : Prop :=
  after = before ∨ w ∈ sites ∧ ¬ Settled before ∧ ∃ offset, after = encB offset

variable {sites : List WordPtr}

theorem Touched.of_settled {w : WordPtr} {before after : Word}
    (h : Touched sites w before after) (hbefore : Settled before) : after = before :=
  h.resolve_right fun hsite => hsite.2.1 hbefore

theorem Touched.of_not_mem {w : WordPtr} {before after : Word}
    (h : Touched sites w before after) (hw : w ∉ sites) : after = before :=
  h.resolve_right fun hsite => hw hsite.1

variable {pool : LsePool} {σ σ' : IslandPatch.PatchState}

theorem patchStep_touched {site w : WordPtr} (hlow : pool.start.toNat ≤ σ.island.toNat)
    (hhigh : σ.island.toNat ≤ pool.stop.toNat) (hstep : patchStep pool.stop site σ = some σ')
    (hw : w.toNat < pool.start.toNat ∨ pool.stop.toNat ≤ w.toNat) :
    (pool.start.toNat ≤ σ'.island.toNat ∧ σ'.island.toNat ≤ pool.stop.toNat) ∧
      Touched [site] w (σ.mem w) (σ'.mem w) := by
  have hfits := pool.stop_fits
  by_cases hsettled : Settled (σ.mem site)
  · rw [patchStep, hsettled.lse, hsettled.bcax] at hstep
    obtain rfl := some.inj hstep
    exact ⟨⟨hlow, hhigh⟩, .inl rfl⟩
  · rcases IslandPatch.patchStep_cases hstep with rfl | ⟨words, hplaced⟩
    · exact ⟨⟨hlow, hhigh⟩, .inl rfl⟩
    · obtain ⟨n, hn, hmax, hroom⟩ := hplaced.room
      rw [toNat_add_ofNat (by omega)] at hroom
      have hisland : σ'.island.toNat = σ.island.toNat + words.length := by
        rw [hplaced.island, toNat_add_ofNat (by omega)]
      refine ⟨by omega, ?_⟩
      rw [hplaced.mem]
      by_cases heq : w = site
      · subst heq
        exact .inr ⟨mem_singleton_self w, hsettled, _, update_self ..⟩
      · left
        rw [update_of_ne heq, writeWords_of_outside (by omega) (by omega)]

theorem patchSites_touched {w : WordPtr}
    (hlow : pool.start.toNat ≤ σ.island.toNat) (hhigh : σ.island.toNat ≤ pool.stop.toNat)
    (hw : w.toNat < pool.start.toNat ∨ pool.stop.toNat ≤ w.toNat) :
    (pool.start.toNat ≤ (patchSites pool.stop sites σ).island.toNat ∧
        (patchSites pool.stop sites σ).island.toNat ≤ pool.stop.toNat) ∧
      Touched sites w (σ.mem w) ((patchSites pool.stop sites σ).mem w) := by
  induction sites generalizing σ with
  | nil => exact ⟨⟨hlow, hhigh⟩, .inl rfl⟩
  | cons site sites ih =>
    rw [patchSites]
    cases hstep : patchStep pool.stop site σ with
    | none => exact ⟨⟨hlow, hhigh⟩, .inl rfl⟩
    | some σ' =>
      obtain ⟨⟨hlow', hhigh'⟩, hfirst⟩ := patchStep_touched hlow hhigh hstep hw
      obtain ⟨hbounds, hrest⟩ := ih hlow' hhigh'
      refine ⟨hbounds, ?_⟩
      rcases hfirst with hsame | ⟨hsite, hbefore, offset, hbranch⟩
      · rw [hsame] at hrest
        rcases hrest with hsame' | ⟨hsite, hbefore, hbranch⟩
        · exact .inl hsame'
        · exact .inr ⟨mem_cons_of_mem site hsite, hbefore, hbranch⟩
      · rw [hbranch] at hrest
        have hkept := hrest.of_settled (settled_encB offset)
        obtain rfl := mem_singleton.mp hsite
        exact .inr ⟨mem_cons_self, hbefore, offset, hkept⟩

end Machgate.TextPatches
