import Machgate.MachineState

namespace Machgate.ScratchRegisters

open MachineState List Option

def bit (r : Reg) : Word :=
  1#32 <<< r.toNat

def firstFree (choices : List Reg) (fallback : Reg) (excludeMask : Word) : Reg :=
  (choices.find? fun r => excludeMask &&& bit r = 0#32).getD fallback

/-- The registers that the two loops of the search try, in their order. -/
def candidates : List Reg :=
  [16#5, 15#5, 14#5, 13#5, 12#5, 11#5, 10#5, 9#5] ++
    [17#5, 18#5, 19#5, 20#5, 21#5, 22#5, 23#5, 24#5, 25#5, 26#5, 27#5, 28#5]

def pickScratch (excludeMask : Word) : Reg :=
  firstFree candidates 8#5 excludeMask

theorem bit_ne_zero : ∀ r, bit r ≠ 0#32 := by
  decide

theorem bit_and_bit (q r : Reg) : bit q &&& bit r = 0#32 ↔ r ≠ q := by
  have hand : bit q &&& bit r = if q = r then bit r else 0#32 := by
    rw [bit, bit, ← BitVec.twoPow_eq, ← BitVec.twoPow_eq, BitVec.and_twoPow, BitVec.getLsbD_twoPow]
    simp only [q.isLt, decide_true, Bool.true_and, decide_eq_true_eq, BitVec.toNat_inj]
  rw [hand]
  split
  · rename_i heq
    exact iff_of_false (bit_ne_zero r) (not_not_intro heq.symm)
  · rename_i hne
    exact iff_of_true rfl (Ne.symm hne)

def Excludes (mask : Word) (used : List Reg) : Prop :=
  ∀ r, mask &&& bit r = 0#32 ↔ r ∉ used

theorem excludes_bit (q : Reg) : Excludes (bit q) [q] := by
  intro r
  rw [bit_and_bit, mem_singleton]

theorem Excludes.or {mask : Word} {used : List Reg} (h : Excludes mask used) (q : Reg) :
    Excludes (mask ||| bit q) (q :: used) := by
  intro r
  rw [BitVec.and_or_distrib_right, BitVec.or_eq_zero_iff, h r, bit_and_bit, mem_cons, not_or,
    and_comm]

theorem firstFree_notMem {choices : List Reg} {fallback : Reg} {mask : Word} {used : List Reg}
    (hnodup : choices.Nodup) (hmask : Excludes mask used) (hfew : used.length < choices.length) :
    firstFree choices fallback mask ∉ used := by
  have hfree : ∃ r ∈ choices, r ∉ used := by
    by_contra hnone
    have hsub : choices ⊆ used := by
      intro r hr
      by_contra hmem
      exact hnone ⟨r, hr, hmem⟩
    exact absurd (hnodup.subperm hsub).length_le (by omega)
  obtain ⟨r, hr, hnot⟩ := hfree
  have hsome : (choices.find? fun r => mask &&& bit r = 0#32).isSome = true := by
    rw [find?_isSome]
    exact ⟨r, hr, by simpa using (hmask r).mpr hnot⟩
  obtain ⟨q, hq⟩ := isSome_iff_exists.mp hsome
  rw [firstFree, hq, getD_some, ← hmask q]
  simpa using find?_some hq

theorem pickScratch_notMem {mask : Word} {used : List Reg} (hmask : Excludes mask used)
    (hfew : used.length < candidates.length) : pickScratch mask ∉ used :=
  firstFree_notMem (by decide) hmask hfew

structure ScratchPair (used : List Reg) where
  s1 : Reg
  s2 : Reg
  s1_notMem : s1 ∉ used
  s2_notMem : s2 ∉ s1 :: used

structure ScratchTriple (used : List Reg) extends ScratchPair used where
  s3 : Reg
  s3_notMem : s3 ∉ s2 :: s1 :: used

section

variable {used : List Reg}

def ScratchPair.regs (p : ScratchPair used) : List Reg :=
  [p.s1, p.s2]

def ScratchTriple.regs (p : ScratchTriple used) : List Reg :=
  [p.s1, p.s2, p.s3]

theorem ScratchPair.s1_ne_s2 (p : ScratchPair used) : p.s1 ≠ p.s2 := by
  intro heq
  exact p.s2_notMem (heq ▸ mem_cons_self)

theorem ScratchPair.regs_notMem (p : ScratchPair used) : ∀ r ∈ p.regs, r ∉ used := by
  intro r hr
  rcases mem_pair.mp hr with rfl | rfl
  · exact p.s1_notMem
  · exact fun hmem => p.s2_notMem (mem_cons_of_mem _ hmem)

theorem ScratchPair.notMem_regs (p : ScratchPair used) {r : Reg} (hr : r ∈ used) : r ∉ p.regs :=
  fun hmem => p.regs_notMem r hmem hr

theorem ScratchTriple.s1_ne_s3 (p : ScratchTriple used) : p.s1 ≠ p.s3 := by
  intro heq
  exact p.s3_notMem (heq ▸ mem_cons_of_mem _ mem_cons_self)

theorem ScratchTriple.s2_ne_s3 (p : ScratchTriple used) : p.s2 ≠ p.s3 := by
  intro heq
  exact p.s3_notMem (heq ▸ mem_cons_self)

theorem ScratchTriple.regs_notMem (p : ScratchTriple used) : ∀ r ∈ p.regs, r ∉ used := by
  intro r hr
  rcases mem_cons.mp hr with rfl | hr
  · exact p.s1_notMem
  · rcases mem_pair.mp hr with rfl | rfl
    · exact fun hmem => p.s2_notMem (mem_cons_of_mem _ hmem)
    · exact fun hmem => p.s3_notMem (mem_cons_of_mem _ (mem_cons_of_mem _ hmem))

theorem ScratchTriple.notMem_regs (p : ScratchTriple used) {r : Reg} (hr : r ∈ used) : r ∉ p.regs :=
  fun hmem => p.regs_notMem r hmem hr

end

/-- The first two picks, each excluded from the next search. -/
def pickPair {mask : Word} {used : List Reg} (hmask : Excludes mask used)
    (hfew : used.length + 1 < candidates.length) : ScratchPair used where
  s1 := pickScratch mask
  s2 := pickScratch (mask ||| bit (pickScratch mask))
  s1_notMem := pickScratch_notMem hmask (by omega)
  s2_notMem := pickScratch_notMem (hmask.or _) hfew

def pickTriple {mask : Word} {used : List Reg} (hmask : Excludes mask used)
    (hfew : used.length + 2 < candidates.length) : ScratchTriple used where
  toScratchPair := pickPair hmask (by omega)
  s3 := pickScratch (mask ||| bit (pickScratch mask) |||
    bit (pickScratch (mask ||| bit (pickScratch mask))))
  s3_notMem := pickScratch_notMem ((hmask.or _).or _) hfew

end Machgate.ScratchRegisters
