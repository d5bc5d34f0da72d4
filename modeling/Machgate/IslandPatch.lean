import Machgate.BcaxIsland

namespace Machgate.IslandPatch

open Arm64Encoders BcaxIsland Instructions LseDecode LseIsland MachineState WordPointers
open List Option Function

structure Patch where
  site : WordPtr
  instr : Word
  island : WordPtr
deriving DecidableEq

/-- The memory, the next free pool word and the sites rewritten so far, the
last one first. -/
structure PatchState where
  mem : WordPtr → Word
  island : WordPtr
  log : List Patch

/-- The part that both instruction families share: `none` when fewer than `room`
words are left (the loop is left), no change when the island is out of range. -/
def place (poolEnd site : WordPtr) (room : Nat) (words : List Word) (σ : PatchState) :
    Option PatchState :=
  if poolEnd.toNat < (σ.island + BitVec.ofNat 62 room).toNat then none
  else
    let offset := wordDistance σ.island site
    if offset > 0x01FFFFFF ∨ offset < -0x02000000 then some σ
    else
      some
        { mem := Function.update (writeWords σ.mem σ.island words) site
            (encB (BitVec.ofInt 32 offset))
          island := σ.island + BitVec.ofNat 62 words.length
          log := { site, instr := σ.mem site, island := σ.island } :: σ.log }

/-- One iteration of the loop.  The test for an empty island is left out: every
island has at least three words. -/
def patchStep (poolEnd site : WordPtr) (σ : PatchState) : Option PatchState :=
  match decodeLse (σ.mem site) with
  | some d => place poolEnd site 24 (emitIsland d σ.island site) σ
  | none =>
    match decodeBcax (σ.mem site) with
    | some i => place poolEnd site 5 (emitBcaxIsland i σ.island site) σ
    | none => some σ

def patchSites (poolEnd : WordPtr) : List WordPtr → PatchState → PatchState
  | [], σ => σ
  | site :: sites, σ =>
    match patchStep poolEnd site σ with
    | none => σ
    | some σ' => patchSites poolEnd sites σ'

/-- Two buffers in one address space: code to be scanned and a pool. -/
structure PatchInput where
  mem : WordPtr → Word
  code : WordPtr
  codeSize : Nat
  pool : WordPtr
  poolEnd : WordPtr
  code_fits : code.toNat + codeSize / 4 ≤ 2 ^ 62
  pool_le : pool.toNat ≤ poolEnd.toNat
  pool_fits : poolEnd.toNat + 24 < 2 ^ 62
  apart : code.toNat + codeSize / 4 ≤ pool.toNat ∨ poolEnd.toNat ≤ code.toNat

def PatchInput.site (inp : PatchInput) (k : Nat) : WordPtr :=
  inp.code + BitVec.ofNat 62 k

/-- The memory, the new pool pointer and the patches, of which the function
returns the number. -/
def isaEmulPatch (inp : PatchInput) : PatchState :=
  patchSites inp.poolEnd ((List.range (inp.codeSize / 4)).map inp.site)
    { mem := inp.mem, island := inp.pool, log := [] }

def wordsFor (instr : Word) : Nat :=
  match decodeLse instr with
  | some d => islandWords d
  | none => ((decodeBcax instr).map bcaxWords).getD 0

def BranchesTo (mem : WordPtr → Word) (p q : WordPtr) : Prop :=
  ∃ imm, decode (mem p) = some (.b imm) ∧ toAddr p + branchOffset imm = toAddr q

/-- The site leads to its island and the last word of the island behind the
site. -/
def Linked (mem : WordPtr → Word) (p : Patch) : Prop :=
  BranchesTo mem p.site p.island ∧
    BranchesTo mem (p.island + BitVec.ofNat 62 (wordsFor p.instr - 1)) (p.site + 1#62)

theorem branchesTo_iff {mem : WordPtr → Word} {p q : WordPtr}
    (hword : mem p = encB (BitVec.ofInt 32 (wordDistance q p))) :
    BranchesTo mem p q ↔ FitsBranch (wordDistance q p) := by
  rw [← branch_reaches_iff]
  constructor
  · rintro ⟨imm, hdecode, hreach⟩
    rw [hword, decode_encB] at hdecode
    obtain rfl := Instr.b.inj (some.inj hdecode)
    exact hreach
  · intro hreach
    exact ⟨_, by rw [hword, decode_encB], hreach⟩

structure Installed (pool : Nat) (σ : PatchState) (p : Patch) : Prop where
  low : pool ≤ p.island.toNat
  high : p.island.toNat + wordsFor p.instr ≤ σ.island.toNat
  words_ge : 3 ≤ wordsFor p.instr
  words_le : wordsFor p.instr ≤ 19
  fits : FitsBranch (wordDistance p.island p.site)
  forward : σ.mem p.site = encB (BitVec.ofInt 32 (wordDistance p.island p.site))
  back : σ.mem (p.island + BitVec.ofNat 62 (wordsFor p.instr - 1)) =
    returnBranch p.island p.site (wordsFor p.instr - 1)

theorem Installed.linked_iff {pool : Nat} {σ : PatchState} {p : Patch}
    (h : Installed pool σ p) :
    Linked σ.mem p ↔ wordDistance p.island p.site + wordsFor p.instr ≤ 0x02000002 := by
  have hle := h.words_le
  rw [Linked, branchesTo_iff h.forward, branchesTo_iff h.back, and_iff_right h.fits,
    fitsBranch_return_iff h.fits h.words_ge (by omega)]

structure Placed (poolEnd site : WordPtr) (σ σ' : PatchState) (words : List Word) : Prop where
  length : words.length = wordsFor (σ.mem site)
  last : words[words.length - 1]? = some (returnBranch σ.island site (words.length - 1))
  words_ge : 3 ≤ words.length
  words_le : words.length ≤ 19
  room : ∃ n, words.length ≤ n ∧ n ≤ 24 ∧
    (σ.island + BitVec.ofNat 62 n).toNat ≤ poolEnd.toNat
  fits : FitsBranch (wordDistance σ.island site)
  mem : σ'.mem = Function.update (writeWords σ.mem σ.island words) site
    (encB (BitVec.ofInt 32 (wordDistance σ.island site)))
  island : σ'.island = σ.island + BitVec.ofNat 62 words.length
  log : σ'.log = { site, instr := σ.mem site, island := σ.island } :: σ.log

theorem place_cases {poolEnd site : WordPtr} {room : Nat} {words : List Word} {σ σ' : PatchState}
    (h : place poolEnd site room words σ = some σ') (hlength : words.length = wordsFor (σ.mem site))
    (hlast : words[words.length - 1]? = some (returnBranch σ.island site (words.length - 1)))
    (hge : 3 ≤ words.length) (hle : words.length ≤ 19) (hroom : words.length ≤ room)
    (hmax : room ≤ 24) : σ' = σ ∨ Placed poolEnd site σ σ' words := by
  unfold place at h
  split at h
  · cases h
  · rename_i hfree
    dsimp only at h
    split at h
    · exact .inl (some.inj h).symm
    · have hfits : FitsBranch (wordDistance σ.island site) := by
        unfold FitsBranch
        omega
      obtain rfl := some.inj h
      exact .inr ⟨hlength, hlast, hge, hle, ⟨room, hroom, hmax, Nat.not_lt.mp hfree⟩, hfits,
        rfl, rfl, rfl⟩

theorem patchStep_cases {poolEnd site : WordPtr} {σ σ' : PatchState}
    (h : patchStep poolEnd site σ = some σ') :
    σ' = σ ∨ ∃ words, Placed poolEnd site σ σ' words := by
  unfold patchStep at h
  split at h
  · rename_i d hd
    have hwords : wordsFor (σ.mem site) = islandWords d := by rw [wordsFor, hd]
    have hlength := length_emitIsland d σ.island site
    have hge := three_le_islandWords d
    have hle := islandWords_le d
    rcases place_cases h (hlength.trans hwords.symm)
      (by rw [hlength]; exact getElem?_emitIsland d σ.island site) (by omega) (by omega)
      (by omega) (le_refl 24) with hsame | hplaced
    · exact .inl hsame
    · exact .inr ⟨_, hplaced⟩
  · rename_i hlse
    split at h
    · rename_i i hi
      have hwords : wordsFor (σ.mem site) = bcaxWords i := by
        rw [wordsFor, hlse, hi]
        rfl
      have hlength := length_emitBcaxIsland i σ.island site
      have hge := three_le_bcaxWords i
      have hle := bcaxWords_le i
      rcases place_cases h (hlength.trans hwords.symm)
        (by rw [hlength]; exact getElem?_emitBcaxIsland i σ.island site) (by omega) (by omega)
        (by omega) (by decide) with hsame | hplaced
      · exact .inl hsame
      · exact .inr ⟨_, hplaced⟩
    · exact .inl (some.inj h).symm

section

variable {inp : PatchInput}

theorem toNat_site {k : Nat} (hk : k < inp.codeSize / 4) :
    (inp.site k).toNat = inp.code.toNat + k := by
  have hfits := inp.code_fits
  exact toNat_add_ofNat (by omega)

theorem site_outside {j : Nat} (hj : j < inp.codeSize / 4) :
    (inp.site j).toNat < inp.pool.toNat ∨ inp.poolEnd.toNat ≤ (inp.site j).toNat := by
  have hapart := inp.apart
  rw [toNat_site hj]
  omega

structure Patching (inp : PatchInput) (k : Nat) (σ : PatchState) : Prop where
  low : inp.pool.toNat ≤ σ.island.toNat
  high : σ.island.toNat ≤ inp.poolEnd.toNat
  sites : ∀ p ∈ σ.log, ∃ j, j < k ∧ p.site = inp.site j
  installed : ∀ p ∈ σ.log, Installed inp.pool.toNat σ p

theorem Patching.mono {k m : Nat} {σ : PatchState} (h : Patching inp k σ) (hkm : k ≤ m) :
    Patching inp m σ := by
  refine { h with sites := fun p hp => ?_ }
  obtain ⟨j, hj, hsite⟩ := h.sites p hp
  exact ⟨j, by omega, hsite⟩

section

variable {k : Nat} {σ σ' : PatchState} {words : List Word}
  (h : Patching inp k σ) (hplaced : Placed inp.poolEnd (inp.site k) σ σ' words)

include h hplaced

theorem toNat_island :
    σ'.island.toNat = σ.island.toNat + words.length ∧
      σ.island.toNat + words.length ≤ inp.poolEnd.toNat := by
  obtain ⟨n, hn, hmax, hroom⟩ := hplaced.room
  have hfits := inp.pool_fits
  have hhigh := h.high
  rw [toNat_add_ofNat (by omega)] at hroom
  rw [hplaced.island, toNat_add_ofNat (by omega)]
  omega

theorem mem_of_outside {q : WordPtr} (hsite : q ≠ inp.site k)
    (hq : q.toNat < σ.island.toNat ∨ σ.island.toNat + words.length ≤ q.toNat) :
    σ'.mem q = σ.mem q := by
  have hisland := toNat_island h hplaced
  rw [hplaced.mem, update_of_ne hsite, writeWords_of_outside (by omega) hq]

variable (hk : k < inp.codeSize / 4)

include hk

theorem installed_of_placed {p : Patch} (hp : p ∈ σ.log) : Installed inp.pool.toNat σ' p := by
  obtain ⟨j, hj, hsite⟩ := h.sites p hp
  have hold := h.installed p hp
  obtain ⟨hnext, hend⟩ := toNat_island h hplaced
  have hhigh := hold.high
  have hge := hold.words_ge
  have hlow := hold.low
  have hlowσ := h.low
  have hjk : inp.site j ≠ inp.site k := by
    intro heq
    have hnat := congrArg BitVec.toNat heq
    rw [toNat_site (by omega), toNat_site hk] at hnat
    omega
  have hlast : (p.island + BitVec.ofNat 62 (wordsFor p.instr - 1)).toNat =
      p.island.toNat + (wordsFor p.instr - 1) := toNat_add_ofNat (by omega)
  refine ⟨hlow, by omega, hge, hold.words_le, hold.fits, ?_, ?_⟩
  · rw [← hold.forward, hsite]
    refine mem_of_outside h hplaced hjk ?_
    have hout := site_outside (show j < inp.codeSize / 4 by omega)
    omega
  · rw [← hold.back]
    refine mem_of_outside h hplaced ?_ (by omega)
    intro heq
    have hout := site_outside hk
    rw [← heq, hlast] at hout
    omega

theorem Patching.placed : Patching inp (k + 1) σ' := by
  obtain ⟨hnext, hend⟩ := toNat_island h hplaced
  have hlow := h.low
  have hge := hplaced.words_ge
  have hlength := hplaced.length
  have hnew : Installed inp.pool.toNat σ' ⟨inp.site k, σ.mem (inp.site k), σ.island⟩ := by
    refine ⟨hlow, ?_, ?_, ?_, hplaced.fits, ?_, ?_⟩
    · exact (hlength ▸ hnext).ge
    · exact hlength ▸ hge
    · exact hlength ▸ hplaced.words_le
    · rw [hplaced.mem, update_self]
    · rw [← hlength, hplaced.mem, update_of_ne, writeWords_add (by omega) hplaced.last]
      intro heq
      have hout := site_outside hk
      rw [← heq] at hout
      change (σ.island + _).toNat < _ ∨ _ ≤ (σ.island + _).toNat at hout
      rw [toNat_add_ofNat (by omega)] at hout
      omega
  refine ⟨by omega, by omega, ?_, ?_⟩
  · intro p hp
    rw [hplaced.log] at hp
    rcases mem_cons.mp hp with rfl | hp
    · exact ⟨k, by omega, rfl⟩
    · obtain ⟨j, hj, hsite⟩ := h.sites p hp
      exact ⟨j, by omega, hsite⟩
  · intro p hp
    rw [hplaced.log] at hp
    rcases mem_cons.mp hp with rfl | hp
    · exact hnew
    · exact installed_of_placed h hplaced hk hp

end

theorem Patching.step {k : Nat} (hk : k < inp.codeSize / 4) {σ σ' : PatchState}
    (h : Patching inp k σ) (hstep : patchStep inp.poolEnd (inp.site k) σ = some σ') :
    Patching inp (k + 1) σ' := by
  rcases patchStep_cases hstep with rfl | ⟨words, hplaced⟩
  · exact h.mono (Nat.le_succ k)
  · exact h.placed hplaced hk

theorem Patching.run {k n : Nat} (hn : k + n ≤ inp.codeSize / 4) {σ : PatchState}
    (h : Patching inp k σ) :
    Patching inp (inp.codeSize / 4) (patchSites inp.poolEnd ((range' k n).map inp.site) σ) := by
  induction n generalizing k σ with
  | zero => exact h.mono (by omega)
  | succ n ih =>
    rw [range'_succ, map_cons, patchSites]
    cases hstep : patchStep inp.poolEnd (inp.site k) σ with
    | none => exact h.mono (by omega)
    | some σ' => exact ih (by omega) (h.step (by omega) hstep)

theorem patching_isaEmulPatch (inp : PatchInput) :
    Patching inp (inp.codeSize / 4) (isaEmulPatch inp) := by
  rw [isaEmulPatch, range_eq_range']
  refine Patching.run (by omega) ⟨le_refl _, inp.pool_le, ?_, ?_⟩
  · rintro p hp
    cases hp
  · rintro p hp
    cases hp

end

theorem linked_isaEmulPatch_iff (inp : PatchInput) {p : Patch}
    (hp : p ∈ (isaEmulPatch inp).log) :
    Linked (isaEmulPatch inp).mem p ↔
      wordDistance p.island p.site + wordsFor p.instr ≤ 0x02000002 :=
  ((patching_isaEmulPatch inp).installed p hp).linked_iff

/-- At the end of every run the rewritten sites and their islands are linked in
both directions exactly when the return displacements fit; the range test looks
at the forward displacement only. -/
theorem isaEmulPatch_linked_iff (inp : PatchInput) :
    (∀ p ∈ (isaEmulPatch inp).log, Linked (isaEmulPatch inp).mem p) ↔
      ∀ p ∈ (isaEmulPatch inp).log, wordDistance p.island p.site + wordsFor p.instr ≤ 0x02000002 :=
  forall₂_congr fun _ hp => linked_isaEmulPatch_iff inp hp

/-- One `ldadd` at the word `0x100000`, with a pool at the far end of the
forward range. -/
def farPool : PatchInput where
  mem := fun p => if p = 0x100000#62 then 0xF8200041#32 else 0#32
  code := 0x100000#62
  codeSize := 4
  pool := 0x20FFFFF#62
  poolEnd := 0x2100017#62
  code_fits := by decide
  pool_le := by decide
  pool_fits := by decide
  apart := by decide

theorem isaEmulPatch_farPool_not_linked :
    ∃ p ∈ (isaEmulPatch farPool).log, ¬ Linked (isaEmulPatch farPool).mem p := by
  have hlog : (isaEmulPatch farPool).log = [⟨0x100000#62, 0xF8200041#32, 0x20FFFFF#62⟩] := by decide
  refine ⟨⟨0x100000#62, 0xF8200041#32, 0x20FFFFF#62⟩, by simp [hlog], ?_⟩
  rw [linked_isaEmulPatch_iff farPool (by simp [hlog])]
  decide

end Machgate.IslandPatch
