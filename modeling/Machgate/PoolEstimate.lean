import Machgate.SegmentPatches

namespace Machgate.PoolEstimate

open Arm64Encoders BcaxIsland IslandPatch LseDecode LseIsland MachineState SegmentPatches TextPatches
open List BitVec Nat
open WordPointers

/-- The words that `isa_emul_estimate_pool_size` counts for an instruction. -/
def reserve (instr : Word) : Nat :=
  match decodeLse instr with
  | some _ => 24
  | none => if (decodeBcax instr).isSome then 5 else 0

def reserved (inp : PatchInput) (k : Nat) : Nat :=
  ((List.range k).map fun j => reserve (inp.mem (inp.site j))).sum

/-- `isa_emul_estimate_pool_size` of the code, a number of bytes in `size_t`. -/
def isaEmulEstimatePoolSize (inp : PatchInput) : Nat :=
  reserved inp (inp.codeSize / 4) * 4 % 2 ^ 64

def Near (inp : PatchInput) : Prop :=
  ∀ k < inp.codeSize / 4, ∀ island : WordPtr, inp.pool.toNat ≤ island.toNat →
    island.toNat < inp.poolEnd.toNat ∨ island = inp.pool →
      FitsBranch (wordDistance island (inp.site k))

def used (log : List Patch) : Nat := (log.map fun p => wordsFor p.instr).sum

/-- What the first `k` rounds should have logged: the islands lie one behind the other. -/
def expected (inp : PatchInput) : Nat → List Patch
  | 0 => []
  | k + 1 =>
    if emulated (inp.mem (inp.site k)) then
      ⟨inp.site k, inp.mem (inp.site k), inp.pool + BitVec.ofNat 62 (used (expected inp k))⟩ ::
        expected inp k
    else expected inp k

theorem used_cons (p : Patch) (log : List Patch) :
    used (p :: log) = wordsFor p.instr + used log := by
  simp [used]

section

variable {inp : PatchInput} {k : Nat}

theorem expected_of_emulated (h : emulated (inp.mem (inp.site k))) :
    expected inp (k + 1) =
      ⟨inp.site k, inp.mem (inp.site k), inp.pool + BitVec.ofNat 62 (used (expected inp k))⟩ ::
        expected inp k := by
  rw [expected, if_pos h]

theorem expected_of_not_emulated (h : emulated (inp.mem (inp.site k)) = false) :
    expected inp (k + 1) = expected inp k := by
  simp [expected, h]

theorem reserved_succ (inp : PatchInput) (k : Nat) :
    reserved inp (k + 1) = reserved inp k + reserve (inp.mem (inp.site k)) := by
  simp [reserved, range_succ]

theorem reserved_mono (inp : PatchInput) {k n : Nat} (h : k ≤ n) :
    reserved inp k ≤ reserved inp n := by
  induction n, h using le_induction with
  | base => exact Nat.le_refl _
  | succ n _ ih =>
    rw [reserved_succ]
    omega

theorem reserved_le (inp : PatchInput) (k : Nat) : reserved inp k ≤ 24 * k := by
  induction k with
  | zero => exact Nat.le_refl 0
  | succ k ih =>
    have hreserve : reserve (inp.mem (inp.site k)) ≤ 24 := by
      unfold reserve
      split
      · exact Nat.le_refl 24
      · split <;> decide
    rw [reserved_succ]
    omega

theorem wordsFor_le_reserve (instr : Word) : wordsFor instr ≤ reserve instr := by
  unfold wordsFor reserve
  cases decodeLse instr with
  | some d =>
    have hle := islandWords_le d
    simp only
    omega
  | none =>
    cases decodeBcax instr with
    | some i => simpa using bcaxWords_le i
    | none => simp

theorem used_expected_le (inp : PatchInput) (k : Nat) : used (expected inp k) ≤ reserved inp k := by
  induction k with
  | zero => exact Nat.le_refl 0
  | succ k ih =>
    have hwords := wordsFor_le_reserve (inp.mem (inp.site k))
    rw [expected, reserved_succ]
    split
    · rw [used_cons]
      dsimp only
      omega
    · omega

theorem length_expected (inp : PatchInput) (k : Nat) :
    (expected inp k).length = (range k).countP fun j => emulated (inp.mem (inp.site j)) := by
  induction k with
  | zero => rfl
  | succ k ih =>
    rw [expected, range_succ, countP_append, countP_singleton, ← ih]
    split <;> simp

theorem mem_expected {p : Patch} (hp : p ∈ expected inp k) :
    ∃ j < k, emulated (inp.mem (inp.site j)) ∧ p.site = inp.site j ∧
      p.instr = inp.mem (inp.site j) := by
  induction k with
  | zero => exact absurd hp not_mem_nil
  | succ k ih =>
    rw [expected] at hp
    split at hp
    · next haccepts =>
      rcases mem_cons.mp hp with rfl | hp
      · exact ⟨k, lt_succ_self k, haccepts, rfl, rfl⟩
      · rcases ih hp with ⟨j, hj, hrest⟩
        exact ⟨j, by omega, hrest⟩
    · rcases ih hp with ⟨j, hj, hrest⟩
      exact ⟨j, by omega, hrest⟩

theorem exists_mem_expected {j : Nat} (hj : j < k) (haccepts : emulated (inp.mem (inp.site j))) :
    ∃ p ∈ expected inp k, p.site = inp.site j := by
  induction k with
  | zero => exact absurd hj (Nat.not_lt_zero j)
  | succ k ih =>
    rw [expected]
    rcases Nat.lt_succ_iff_lt_or_eq.mp hj with hlt | rfl
    · rcases ih hlt with ⟨p, hp, hsite⟩
      split
      · exact ⟨p, mem_cons_of_mem _ hp, hsite⟩
      · exact ⟨p, hp, hsite⟩
    · rw [if_pos haccepts]
      exact ⟨_, mem_cons_self, rfl⟩

end

section

variable {inp : PatchInput} {k : Nat} {σ σ' : PatchState}

/-- With room for the island and the site in range the round does not give up. -/
theorem patchStep_placed {poolEnd site : WordPtr} (hend : poolEnd.toNat + 24 < 2 ^ 62)
    (haccepts : emulated (σ.mem site))
    (hroom : σ.island.toNat + reserve (σ.mem site) ≤ poolEnd.toNat)
    (hfits : FitsBranch (wordDistance σ.island site)) :
    ∃ σ' words, patchStep poolEnd site σ = some σ' ∧ Placed poolEnd site σ σ' words := by
  have hplace : ∀ room words, σ.island.toNat + room ≤ poolEnd.toNat →
      patchStep poolEnd site σ = place poolEnd site room words σ →
        ∃ σ', patchStep poolEnd site σ = some σ' ∧ σ'.log.length = σ.log.length + 1 := by
    intro room words hroom hstep
    have hfree : ¬ poolEnd.toNat < (σ.island + BitVec.ofNat 62 room).toNat := by
      rw [toNat_add_ofNat (by omega)]
      omega
    unfold FitsBranch at hfits
    rw [hstep, place, if_neg hfree]
    exact ⟨_, if_neg (by omega), rfl⟩
  have hlogs : ∃ σ', patchStep poolEnd site σ = some σ' ∧ σ'.log.length = σ.log.length + 1 := by
    cases hlse : decodeLse (σ.mem site) with
    | some d =>
      rw [reserve, hlse] at hroom
      exact hplace 24 (emitIsland d σ.island site) hroom (by rw [patchStep, hlse])
    | none =>
      cases hbcax : decodeBcax (σ.mem site) with
      | some i =>
        rw [reserve, hlse, hbcax] at hroom
        exact hplace 5 (emitBcaxIsland i σ.island site) hroom (by rw [patchStep, hlse, hbcax])
      | none =>
        rw [emulated_eq_false.mpr ⟨hlse, hbcax⟩] at haccepts
        cases haccepts
  rcases hlogs with ⟨σ', hstep, hlength⟩
  rcases patchStep_cases hstep with rfl | ⟨words, hplaced⟩
  · omega
  · exact ⟨σ', words, hstep, hplaced⟩

theorem patchStep_of_not_emulated {poolEnd site : WordPtr}
    (h : emulated (σ.mem site) = false) : patchStep poolEnd site σ = some σ := by
  rcases emulated_eq_false.mp h with ⟨hlse, hbcax⟩
  rw [patchStep, hlse, hbcax]

structure Progress (inp : PatchInput) (k : Nat) (σ : PatchState) : Prop extends
    Patching inp k σ where
  log : σ.log = expected inp k
  island : σ.island.toNat = inp.pool.toNat + used (expected inp k)
  kept : ∀ q : WordPtr, (∀ j < k, emulated (inp.mem (inp.site j)) → q ≠ inp.site j) →
    q.toNat < inp.pool.toNat ∨ σ.island.toNat ≤ q.toNat → σ.mem q = inp.mem q

variable (hk : k < inp.codeSize / 4)

include hk

theorem site_ne {j : Nat} (hj : j < k) : inp.site k ≠ inp.site j := by
  intro heq
  have hnat := congrArg BitVec.toNat heq
  rw [toNat_site hk, toNat_site (by omega)] at hnat
  omega

theorem Progress.mem_site (h : Progress inp k σ) : σ.mem (inp.site k) = inp.mem (inp.site k) := by
  have hout := site_outside hk
  have hhigh := h.high
  exact h.kept _ (fun j hj _ => site_ne hk hj) (by omega)

theorem Progress.placed {words : List Word} (h : Progress inp k σ)
    (haccepts : emulated (inp.mem (inp.site k)))
    (hplaced : Placed inp.poolEnd (inp.site k) σ σ' words) : Progress inp (k + 1) σ' := by
  have hmem := h.mem_site hk
  have hlength : words.length = wordsFor (inp.mem (inp.site k)) := hmem ▸ hplaced.length
  have hexpected := expected_of_emulated haccepts
  rcases toNat_island h.toPatching hplaced with ⟨hnext, hend⟩
  have hisland := h.island
  have hcursor : σ.island = inp.pool + BitVec.ofNat 62 (used (expected inp k)) := by
    apply eq_of_toNat_eq
    rw [toNat_add_ofNat (by omega), hisland]
  refine ⟨h.toPatching.placed hplaced hk, ?_, ?_, ?_⟩
  · rw [hplaced.log, hexpected, h.log, hmem, hcursor]
  · rw [hnext, hexpected, used_cons, hisland]
    dsimp only
    omega
  · intro q hsites hq
    rw [mem_of_outside h.toPatching hplaced (hsites k (lt_succ_self k) haccepts) (by omega)]
    exact h.kept q (fun j hj => hsites j (by omega)) (by omega)

theorem Progress.step (h : Progress inp k σ) (hnear : Near inp)
    (hroom : inp.pool.toNat + reserved inp (inp.codeSize / 4) ≤ inp.poolEnd.toNat) :
    ∃ σ', patchStep inp.poolEnd (inp.site k) σ = some σ' ∧ Progress inp (k + 1) σ' := by
  have hmem := h.mem_site hk
  cases haccepts : emulated (inp.mem (inp.site k)) with
  | false =>
    refine ⟨σ, patchStep_of_not_emulated (by rw [hmem, haccepts]), ?_⟩
    have hsame := expected_of_not_emulated haccepts
    refine ⟨h.toPatching.mono (le_succ k), ?_, ?_, ?_⟩
    · rw [hsame, h.log]
    · rw [hsame, h.island]
    · exact fun q hsites => h.kept q fun j hj => hsites j (by omega)
  | true =>
    have hisland := h.island
    have hused := used_expected_le inp k
    have hnext := reserved_succ inp k
    have hall := reserved_mono inp (show k + 1 ≤ inp.codeSize / 4 by omega)
    have hpositive : 0 < reserve (inp.mem (inp.site k)) := by
      rw [Nat.pos_iff_ne_zero]
      intro hzero
      rw [reserve] at hzero
      split at hzero
      · cases hzero
      · next hlse =>
        rw [emulated, hlse] at haccepts
        rw [if_pos (by simpa using haccepts)] at hzero
        cases hzero
    rcases patchStep_placed inp.pool_fits (by rw [hmem, haccepts])
      (by rw [hmem]; omega) (hnear k hk σ.island (by omega) (.inl (by omega))) with
      ⟨σ', words, hstep, hplaced⟩
    exact ⟨σ', hstep, h.placed hk haccepts hplaced⟩

end

section

variable {inp : PatchInput}

theorem Progress.run {k n : Nat} (hn : k + n = inp.codeSize / 4) {σ : PatchState}
    (h : Progress inp k σ) (hnear : Near inp)
    (hroom : inp.pool.toNat + reserved inp (inp.codeSize / 4) ≤ inp.poolEnd.toNat) :
    Progress inp (inp.codeSize / 4) (patchSites inp.poolEnd ((range' k n).map inp.site) σ) := by
  induction n generalizing k σ with
  | zero => exact hn ▸ h
  | succ n ih =>
    rcases h.step (by omega) hnear hroom with ⟨σ', hstep, hnext⟩
    rw [range'_succ, map_cons, patchSites, hstep]
    exact ih (by omega) hnext

theorem progress_isaEmulPatch (hnear : Near inp)
    (hroom : inp.pool.toNat + reserved inp (inp.codeSize / 4) ≤ inp.poolEnd.toNat) :
    Progress inp (inp.codeSize / 4) (isaEmulPatch inp) := by
  rw [isaEmulPatch, range_eq_range']
  refine Progress.run (Nat.zero_add _) ⟨⟨le_refl _, inp.pool_le, ?_, ?_⟩, rfl, rfl, ?_⟩ hnear hroom
  · exact fun p hp => absurd hp not_mem_nil
  · exact fun p hp => absurd hp not_mem_nil
  · exact fun q _ _ => rfl

/-- No place is within branch range of two words that are so far from each other. -/
theorem not_fitsBranch_far {p q : WordPtr} (hq : q.toNat + 2 ^ 26 < 2 ^ 62)
    (h : FitsBranch (wordDistance p q)) :
    ¬ FitsBranch (wordDistance p (q + BitVec.ofNat 62 (2 ^ 26))) := by
  have hsum := toNat_add_ofNat hq
  unfold FitsBranch wordDistance at h ⊢
  rw [toInt_eq_toNat_cond, toNat_sub] at h ⊢
  split at h <;> split <;> omega

/-- Code in range of a pool is too short for the estimate to overflow. -/
theorem reserved_of_estimate (hnear : Near inp)
    (hpool : isaEmulEstimatePoolSize inp ≤ 4 * (inp.poolEnd.toNat - inp.pool.toNat)) :
    inp.pool.toNat + reserved inp (inp.codeSize / 4) ≤ inp.poolEnd.toNat := by
  have hle := inp.pool_le
  have hreserved := reserved_le inp (inp.codeSize / 4)
  have hshort : inp.codeSize / 4 ≤ 2 ^ 26 := by
    by_contra hlong
    have hfits := inp.code_fits
    have hfirst := hnear 0 (by omega) inp.pool (le_refl _) (.inr rfl)
    have hfar := hnear (2 ^ 26) (by omega) inp.pool (le_refl _) (.inr rfl)
    rw [PatchInput.site, BitVec.add_zero] at hfirst
    exact not_fitsBranch_far (by omega) hfirst hfar
  rw [isaEmulEstimatePoolSize, mod_eq_of_lt (by omega)] at hpool
  omega

/-- The islands follow each other without gaps; the log has the last one first. -/
theorem pairwise_expected {k : Nat} (hfits : inp.pool.toNat + used (expected inp k) < 2 ^ 62) :
    (expected inp k).Pairwise (fun p q => q.island.toNat + wordsFor q.instr ≤ p.island.toNat) ∧
    ∀ p ∈ expected inp k, p.island.toNat + wordsFor p.instr ≤
      inp.pool.toNat + used (expected inp k) := by
  induction k with
  | zero => exact ⟨.nil, fun p hp => absurd hp not_mem_nil⟩
  | succ k ih =>
    cases haccepts : emulated (inp.mem (inp.site k)) with
    | false =>
      rw [expected_of_not_emulated haccepts] at hfits ⊢
      exact ih hfits
    | true =>
      rw [expected_of_emulated haccepts, used_cons] at hfits ⊢
      rcases ih (by omega) with ⟨hpairs, hends⟩
      have hisland : (inp.pool + BitVec.ofNat 62 (used (expected inp k))).toNat =
          inp.pool.toNat + used (expected inp k) := toNat_add_ofNat (by omega)
      refine ⟨pairwise_cons.mpr ⟨fun p hp => ?_, hpairs⟩, fun p hp => ?_⟩
      · exact hisland ▸ hends p hp
      · rcases mem_cons.mp hp with rfl | hp
        · dsimp only
          omega
        · have hend := hends p hp
          omega

theorem patchSites_of_not_emulated {poolEnd : WordPtr} {sites : List WordPtr} {σ : PatchState}
    (h : ∀ w ∈ sites, emulated (σ.mem w) = false) : patchSites poolEnd sites σ = σ := by
  induction sites with
  | nil => rfl
  | cons site sites ih =>
    rw [patchSites, patchStep_of_not_emulated (h site mem_cons_self)]
    exact ih fun w hw => h w (mem_cons_of_mem site hw)

end

/-- All that is to be emulated is, and nothing else is touched. -/
structure Complete (inp : PatchInput) (out : PatchState) : Prop where
  rewritten : ∀ k < inp.codeSize / 4, emulated (inp.mem (inp.site k)) →
    ∃ p ∈ out.log, p.site = inp.site k ∧ BranchesTo out.mem p.site p.island
  kept : ∀ w : WordPtr,
    (∀ k < inp.codeSize / 4, emulated (inp.mem (inp.site k)) → w ≠ inp.site k) →
      w.toNat < inp.pool.toNat ∨ out.island.toNat ≤ w.toNat → out.mem w = inp.mem w
  instr : ∀ p ∈ out.log, p.instr = inp.mem p.site
  inside : ∀ p ∈ out.log, inp.pool.toNat ≤ p.island.toNat ∧
    p.island.toNat + wordsFor p.instr ≤ inp.poolEnd.toNat
  apart : out.log.Pairwise fun p q => q.island.toNat + wordsFor q.instr ≤ p.island.toNat
  patched : out.log.length =
    (List.range (inp.codeSize / 4)).countP fun k => emulated (inp.mem (inp.site k))
  cursor : out.island.toNat = inp.pool.toNat + (out.log.map fun p => wordsFor p.instr).sum
  again : ∀ next : PatchInput, next.mem = out.mem → next.code = inp.code →
    next.codeSize = inp.codeSize → isaEmulPatch next = ⟨out.mem, next.pool, []⟩

theorem isaEmulPatch_complete {inp : PatchInput} (hnear : Near inp)
    (hpool : isaEmulEstimatePoolSize inp ≤ 4 * (inp.poolEnd.toNat - inp.pool.toNat)) :
    Complete inp (isaEmulPatch inp) := by
  have h := progress_isaEmulPatch hnear (reserved_of_estimate hnear hpool)
  have hhigh := h.high
  have hisland := h.island
  rcases @pairwise_expected inp (inp.codeSize / 4) (by omega) with ⟨hpairs, hends⟩
  have hbranch : ∀ k < inp.codeSize / 4, emulated (inp.mem (inp.site k)) →
      ∃ p ∈ (isaEmulPatch inp).log, p.site = inp.site k ∧
        Installed inp.pool.toNat (isaEmulPatch inp) p := by
    intro k hk haccepts
    rcases exists_mem_expected hk haccepts with ⟨p, hp, hsite⟩
    rw [← h.log] at hp
    exact ⟨p, hp, hsite, h.installed p hp⟩
  refine ⟨?_, h.kept, ?_, ?_, ?_, ?_, ?_, ?_⟩
  · intro k hk haccepts
    rcases hbranch k hk haccepts with ⟨p, hp, hsite, hinstalled⟩
    exact ⟨p, hp, hsite, (branchesTo_iff hinstalled.forward).mpr hinstalled.fits⟩
  · intro p hp
    rw [h.log] at hp
    rcases mem_expected hp with ⟨j, -, -, hsite, hinstr⟩
    rw [hinstr, hsite]
  · intro p hp
    have hlow := (h.installed p hp).low
    rw [h.log] at hp
    have hend := hends p hp
    exact ⟨hlow, by omega⟩
  · rw [h.log]
    exact hpairs
  · rw [h.log, length_expected]
  · rw [h.log, hisland]
    rfl
  · intro next hmem hcode hsize
    have hleft : ∀ k < inp.codeSize / 4,
        emulated ((isaEmulPatch inp).mem (inp.site k)) = false := by
      intro k hk
      cases haccepts : emulated (inp.mem (inp.site k)) with
      | true =>
        rcases hbranch k hk haccepts with ⟨p, -, hsite, hinstalled⟩
        rw [← hsite, hinstalled.forward]
        exact emulated_of_settled (settled_encB _)
      | false =>
        have hout := site_outside hk
        rw [h.kept (inp.site k) ?_ (by omega), haccepts]
        intro j hj hother heq
        rw [heq, hother] at haccepts
        cases haccepts
    rw [isaEmulPatch, patchSites_of_not_emulated, hmem]
    intro w hw
    rcases mem_map.mp hw with ⟨k, hk, rfl⟩
    rw [mem_range, hsize] at hk
    rw [PatchInput.site, hcode, hmem]
    exact hleft k hk

/-- An `ldadd` and a `bcax` in front of another word, with a pool of just the estimated size. -/
def smallCode : PatchInput where
  mem := fun p => if p = 0x1000#62 then 0xF8200041#32 else if p = 0x1001#62 then 0xCE210443#32 else 0
  code := 0x1000#62
  codeSize := 14
  pool := 0x2000#62
  poolEnd := 0x201D#62
  code_fits := by decide
  pool_le := by decide
  pool_fits := by decide
  apart := by decide

theorem near_smallCode : Near smallCode := by
  intro k hk island hlow hhigh
  have hk3 : k < 3 := hk
  have hcode : smallCode.code.toNat = 0x1000 := rfl
  have hsite := toNat_site hk
  have hisland : island.toNat < 0x201D := by
    rcases hhigh with hlt | rfl
    · exact hlt
    · decide
  unfold FitsBranch
  rw [wordDistance_eq (by omega) (by omega)]
  omega

theorem isaEmulPatch_smallCode :
    isaEmulEstimatePoolSize smallCode = 116 ∧ Complete smallCode (isaEmulPatch smallCode) := by
  have hsize : isaEmulEstimatePoolSize smallCode = 116 := by decide
  exact ⟨hsize, isaEmulPatch_complete near_smallCode (by rw [hsize]; decide)⟩

end Machgate.PoolEstimate
