import Machgate.DylibPatches

namespace Machgate.SegmentPatches

open Arm64Encoders BcaxIsland DylibPatches LseDecode LseIsland MachineState TextPatches WordPointers
open List Option Bool
open IslandPatch (PatchState patchSites patchStep place)

/-- What `isa_emul_patch` looks for. -/
def emulated (instruction : Word) : Bool :=
  (decodeLse instruction).isSome || (decodeBcax instruction).isSome

def Near (pool : LsePool) (w : WordPtr) : Prop :=
  ∀ island : WordPtr, pool.start.toNat ≤ island.toNat → island.toNat ≤ pool.stop.toNat →
    FitsBranch (wordDistance island w)

/-- The pool has room for every island and is near every segment. -/
structure Serves (pool : LsePool) (sites : List WordPtr) (mem : WordPtr → Word) : Prop where
  room : 24 * sites.countP (fun w => emulated (mem w)) ≤ pool.stop.toNat - pool.start.toNat
  near : ∀ w ∈ sites, Near pool w

variable {pool : LsePool} {σ : PatchState} {site w : WordPtr}

theorem emulated_eq_false {instruction : Word} :
    emulated instruction = false ↔ decodeLse instruction = none ∧ decodeBcax instruction = none := by
  rw [emulated, or_eq_false_iff, isSome_eq_false_iff, isSome_eq_false_iff,
    isNone_iff_eq_none, isNone_iff_eq_none]

theorem emulated_of_settled {instruction : Word} (h : Settled instruction) :
    emulated instruction = false :=
  emulated_eq_false.mpr ⟨h.lse, h.bcax⟩

theorem place_served {room : Nat} {words : List Word}
    (hfree : σ.island.toNat + 24 ≤ pool.stop.toNat) (hroom : room ≤ 24) (hwords : words.length ≤ 24)
    (hfits : FitsBranch (wordDistance σ.island site)) :
    ∃ σ', place pool.stop site room words σ = some σ' ∧ emulated (σ'.mem site) = false ∧
      σ'.island.toNat ≤ σ.island.toNat + 24 := by
  have hleft : ¬ pool.stop.toNat < (σ.island + BitVec.ofNat 62 room).toNat := by
    rw [toNat_add_ofNat (by omega)]
    omega
  unfold FitsBranch at hfits
  rw [place, if_neg hleft]
  refine ⟨_, if_neg (by omega), ?_, ?_⟩
  · simp only [Function.update_self]
    exact emulated_of_settled (settled_encB _)
  · rw [toNat_add_ofNat (by omega)]
    omega

theorem patchStep_served
    (hfree : emulated (σ.mem site) = true → σ.island.toNat + 24 ≤ pool.stop.toNat)
    (hfits : FitsBranch (wordDistance σ.island site)) :
    ∃ σ', patchStep pool.stop site σ = some σ' ∧ emulated (σ'.mem site) = false ∧
      σ'.island.toNat ≤ σ.island.toNat + if emulated (σ.mem site) then 24 else 0 := by
  cases hlse : decodeLse (σ.mem site) with
  | some d =>
    have hemulated : emulated (σ.mem site) = true := by rw [emulated, hlse]; rfl
    have hle := islandWords_le d
    have hlength := length_emitIsland d σ.island site
    rw [patchStep, hlse, if_pos hemulated]
    exact place_served (hfree hemulated) (Nat.le_refl 24) (by omega) hfits
  | none =>
    cases hbcax : decodeBcax (σ.mem site) with
    | some i =>
      have hemulated : emulated (σ.mem site) = true := by rw [emulated, hlse, hbcax]; rfl
      have hle := bcaxWords_le i
      have hlength := length_emitBcaxIsland i σ.island site
      rw [patchStep, hlse, hbcax, if_pos hemulated]
      exact place_served (hfree hemulated) (by decide) (by omega) hfits
    | none =>
      refine ⟨σ, ?_, emulated_eq_false.mpr ⟨hlse, hbcax⟩, Nat.le_add_right ..⟩
      rw [patchStep, hlse, hbcax]

theorem emulated_of_touched {sites : List WordPtr} {before after : Word}
    (h : Touched sites w before after) (hafter : emulated after = true) : after = before := by
  rcases h with hsame | ⟨-, -, offset, rfl⟩
  · exact hsame
  · rw [emulated_of_settled (settled_encB offset)] at hafter
    cases hafter

/-- A pool with room for the sites that had something to emulate in the beginning serves them
all. -/
theorem patchSites_served {mem : WordPtr → Word} {sites : List WordPtr}
    (hlow : pool.start.toNat ≤ σ.island.toNat)
    (hfree : σ.island.toNat + 24 * sites.countP (fun w => emulated (mem w)) ≤ pool.stop.toNat)
    (hout : ∀ w ∈ sites, Outside (some pool) w) (hnear : ∀ w ∈ sites, Near pool w)
    (hmem : ∀ w ∈ sites, emulated (σ.mem w) = true → emulated (mem w) = true) :
    (∀ w ∈ sites, emulated ((patchSites pool.stop sites σ).mem w) = false) ∧
      (patchSites pool.stop sites σ).island.toNat ≤
        σ.island.toNat + 24 * sites.countP (fun w => emulated (mem w)) := by
  induction sites generalizing σ with
  | nil => exact ⟨fun w hw => absurd hw not_mem_nil, Nat.le_refl _⟩
  | cons site sites ih =>
    have hhigh : σ.island.toNat ≤ pool.stop.toNat := by omega
    rw [countP_cons] at hfree ⊢
    have hsite := hmem site mem_cons_self
    have hroom (hemulated : emulated (σ.mem site) = true) :
        σ.island.toNat + 24 ≤ pool.stop.toNat := by
      rw [if_pos (hsite hemulated)] at hfree
      omega
    obtain ⟨σ', hstep, hdone, hisland⟩ := patchStep_served hroom
      (hnear site mem_cons_self σ.island hlow hhigh)
    have hused : (if emulated (σ.mem site) = true then 24 else 0) ≤
        24 * (if emulated (mem site) = true then 1 else 0) := by
      split
      · next hemulated => rw [if_pos (hsite hemulated)]
      · exact Nat.zero_le _
    have hlow' : pool.start.toNat ≤ σ'.island.toNat :=
      (patchStep_touched (w := pool.stop) hlow hhigh hstep (.inr (Nat.le_refl _))).1.1
    have hmem' : ∀ w ∈ sites, emulated (σ'.mem w) = true → emulated (mem w) = true := by
      intro w hw hemulated
      have hw' := mem_cons_of_mem site hw
      have htouched := (patchStep_touched hlow hhigh hstep (hout w hw' pool rfl)).2
      exact hmem w hw' (emulated_of_touched htouched hemulated ▸ hemulated)
    obtain ⟨hrest, hcursor⟩ := ih hlow' (by omega) (fun w hw => hout w (mem_cons_of_mem site hw))
      (fun w hw => hnear w (mem_cons_of_mem site hw)) hmem'
    rw [patchSites, hstep]
    refine ⟨?_, by dsimp only; omega⟩
    intro w hw
    rcases mem_cons.mp hw with rfl | hw
    · have htouched : Touched sites w (σ'.mem w) ((patchSites pool.stop sites σ').mem w) :=
        (patchSites_touched hlow' (by omega) (hout w mem_cons_self pool rfl)).2
      by_contra hemulated
      rw [not_eq_false] at hemulated
      have hsame := emulated_of_touched htouched hemulated
      rw [hsame, hdone] at hemulated
      cases hemulated
    · exact hrest w hw

variable {mem : WordPtr → Word} {s : TextState} {cur : WordPtr}

theorem inPool_of_cur (hcur : s.lsePoolCur = some cur) (hlow : pool.start.toNat ≤ cur.toNat)
    (hhigh : cur.toNat ≤ pool.stop.toNat) : InPool (some pool) s := by
  intro p hp c hc
  obtain rfl : pool = p := some.inj hp
  obtain rfl : cur = c := some.inj (hcur.symm.trans hc)
  exact ⟨hlow, hhigh⟩

variable {words : List WordPtr} {segments : List (List WordPtr)}

theorem lsePatch_some (hcur : s.lsePoolCur = some cur) :
    lsePatch (some pool) words s =
      ⟨(patchSites pool.stop words { mem := s.mem, island := cur, log := [] }).mem,
        some (patchSites pool.stop words { mem := s.mem, island := cur, log := [] }).island⟩ := by
  unfold lsePatch
  rw [hcur]

theorem patchOf_patchSegment {pool : Option LsePool} (hpool : InPool pool s)
    (hw : Outside pool w) (hmem : w ∈ words) :
    patchOf ((patchSegment pool s words).mem w) = none := by
  rcases lsePatch_touched (hpool.of_cur (visits_cur s words)) hw words with hsame | hbranch
  · rw [patchSegment, hsame]
    exact visits_patched s hmem
  · obtain ⟨-, -, offset, hbranch⟩ := hbranch
    rw [patchSegment, hbranch]
    exact (settled_encB offset).patch

theorem patchSegment_served (hcur : s.lsePoolCur = some cur)
    (hlow : pool.start.toNat ≤ cur.toNat) (hout : ∀ w ∈ words, Outside (some pool) w)
    (hnear : ∀ w ∈ words, Near pool w)
    (hfree : cur.toNat + 24 * words.countP (fun w => emulated (mem w)) ≤ pool.stop.toNat)
    (hmem : ∀ w ∈ words, s.mem w = mem w ∨ Settled (s.mem w)) :
    (∀ w ∈ words, LeftAlone (some pool) ((patchSegment (some pool) s words).mem w)) ∧
      ∃ cur', (patchSegment (some pool) s words).lsePoolCur = some cur' ∧
        cur'.toNat ≤ cur.toNat + 24 * words.countP (fun w => emulated (mem w)) := by
  have hcur' : (words.foldl visitWord s).lsePoolCur = some cur := (visits_cur s words).trans hcur
  have hinput : ∀ w ∈ words, emulated ((words.foldl visitWord s).mem w) = true →
      emulated (mem w) = true := by
    intro w hw hemulated
    rcases visits_mem s words w with hsame | ⟨-, hsettled⟩
    · rw [hsame] at hemulated
      rcases hmem w hw with hsame | hsettled
      · exact hsame ▸ hemulated
      · rw [emulated_of_settled hsettled] at hemulated
        cases hemulated
    · rw [emulated_of_settled hsettled] at hemulated
      cases hemulated
  obtain ⟨hdone, hcursor⟩ := patchSites_served
    (σ := { mem := (words.foldl visitWord s).mem, island := cur, log := [] }) hlow hfree hout
    hnear hinput
  have hpool : InPool (some pool) s := inPool_of_cur hcur hlow (by omega)
  refine ⟨?_, _, congrArg TextState.lsePoolCur (lsePatch_some hcur'), hcursor⟩
  intro w hw
  have hword : emulated ((patchSegment (some pool) s words).mem w) = false := by
    rw [patchSegment, lsePatch_some hcur']
    exact hdone w hw
  obtain ⟨hlse, hbcax⟩ := emulated_eq_false.mp hword
  exact ⟨patchOf_patchSegment hpool (hout w hw) hw, fun _ => hlse, fun _ => hbcax⟩

theorem leftAlone_patchSegment {pool : Option LsePool} (hpool : InPool pool s) (hw : Outside pool w)
    (h : LeftAlone pool (s.mem w)) (words : List WordPtr) :
    LeftAlone pool ((patchSegment pool s words).mem w) := by
  rcases patchSegment_mem hpool hw words with hsame | ⟨-, hsettled⟩
  · rw [hsame]
    exact h
  · exact leftAlone_of_settled hsettled pool

theorem leftAlone_patchSegments {pool : Option LsePool}
    (hpool : InPool pool s) (hw : Outside pool w) (h : LeftAlone pool (s.mem w)) :
    LeftAlone pool ((patchSegments pool segments s).mem w) := by
  induction segments generalizing s with
  | nil => exact h
  | cons words segments ih =>
    exact ih (hpool.patchSegment words) (leftAlone_patchSegment hpool hw h words)

theorem patchSegments_served (hcur : s.lsePoolCur = some cur) (hlow : pool.start.toNat ≤ cur.toNat)
    (hout : ∀ words ∈ segments, ∀ w ∈ words, Outside (some pool) w)
    (hnear : ∀ w ∈ segments.flatten, Near pool w)
    (hfree : cur.toNat + 24 * segments.flatten.countP (fun w => emulated (mem w)) ≤
      pool.stop.toNat) (hmem : ∀ w ∈ segments.flatten, s.mem w = mem w ∨ Settled (s.mem w)) :
    ∀ words ∈ segments, ∀ w ∈ words,
      LeftAlone (some pool) ((patchSegments (some pool) segments s).mem w) := by
  induction segments generalizing s cur with
  | nil => exact fun words hwords => absurd hwords not_mem_nil
  | cons words segments ih =>
    rw [flatten_cons, countP_append] at hfree
    have hwords := hout words mem_cons_self
    have hpool : InPool (some pool) s := inPool_of_cur hcur hlow (by omega)
    obtain ⟨hdone, cur', hcur', hused⟩ := patchSegment_served hcur hlow hwords
      (fun w hw => hnear w (mem_append_left _ hw)) (by omega)
      (fun w hw => hmem w (mem_append_left _ hw))
    have hpool' := hpool.patchSegment words
    have hlow' := (hpool' pool rfl cur' hcur').1
    have hrest : ∀ words' ∈ segments, ∀ w ∈ words', Outside (some pool) w :=
      fun words' hwords' => hout words' (mem_cons_of_mem words hwords')
    have hmem' : ∀ w ∈ segments.flatten, (patchSegment (some pool) s words).mem w = mem w ∨
        Settled ((patchSegment (some pool) s words).mem w) := by
      intro w hw
      obtain ⟨words', hwords', hmemw⟩ := mem_flatten.mp hw
      rcases patchSegment_mem hpool (hrest words' hwords' w hmemw) words with hsame | ⟨-, hsettled⟩
      · rw [hsame]
        exact hmem w (mem_append_right _ hw)
      · exact Or.inr hsettled
    intro words' hwords' w hw
    rcases mem_cons.mp hwords' with rfl | hwords'
    · change LeftAlone (some pool)
        ((patchSegments (some pool) segments (patchSegment (some pool) s words')).mem w)
      exact leftAlone_patchSegments hpool' (hwords w hw) (hdone w hw)
    · exact ih hcur' hlow' hrest (fun w hw => hnear w (mem_append_right _ hw)) (by omega)
        hmem' words' hwords' w hw

theorem patchSegments_none :
    ∀ words ∈ segments, ∀ w ∈ words, LeftAlone none ((patchSegments none segments s).mem w) := by
  have hpool (s : TextState) : InPool none s := fun p hp => nomatch hp
  have hout (w : WordPtr) : Outside none w := fun p hp => nomatch hp
  induction segments generalizing s with
  | nil => exact fun words hwords => absurd hwords not_mem_nil
  | cons words segments ih =>
    intro words' hwords' w hw
    rcases mem_cons.mp hwords' with rfl | hwords'
    · change LeftAlone none ((patchSegments none segments (patchSegment none s words')).mem w)
      refine leftAlone_patchSegments (hpool _) (hout w) ⟨?_, absurd rfl, absurd rfl⟩
      exact patchOf_patchSegment (hpool s) (hout w) hw
    · exact ih words' hwords' w hw

end Machgate.SegmentPatches
