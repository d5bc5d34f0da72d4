import Machgate.RmwLoop

namespace Machgate.RmwIsland

open AtomicSemantics ByteMemory CodeBlock Instructions IslandFrame LseDecode LseIsland MachineState
  LseArithmetic RmwLoop ScratchRegisters StackFrame WordPointers

def rmwResult (d : LseDecoded) (s : State) : State :=
  (stored d s).writeX d.rt (oldValue d s)

theorem savedValues_rmwResult {d : LseDecoded} (p : ScratchTriple (operands d)) (s : State) :
    savedValues p.regs (rmwResult d s) = savedValues p.regs s := by
  refine savedValues_congr (State.writeX_nzcv _ _ _) fun r hr => State.gpr_writeX_of_ne _ _ ?_
  rintro rfl
  exact p.notMem_regs (rt_mem_operands d) hr

/-- An island does its read-modify-write, undisturbed by spurious failures,
and arrives wherever its last branch leads. -/
theorem rmw_island_effect {d : LseDecoded} (hop : d.op ≠ .cas) (island origAddr : WordPtr)
    {s : State} (hrn : d.rn ≠ 31#5)
    (hapart : Apart (s.gpr d.rn) (accessBytes d.size) (s.sp - 64#64) 64) :
    ∃ s', (islandBlock d island origAddr).Completes { s with pc := toAddr island } s' ∧
      SameEffect s.sp s' (rmwResult d s) ∧
      s'.pc = (islandBlock d island origAddr).lastAddr +
        branchOffset (returnOffset island origAddr (islandWords d - 1)) := by
  have himp := implements_rmwProgram hop island origAddr
  generalize rmwScratch d = p at himp
  have hs1 : p.s1 ∈ p.regs := List.mem_cons_self
  have hne := regs_ne_sp p
  have hsp : (rmwResult d s).sp = s.sp := State.writeX_sp _ _ _
  rw [← hsp]
  refine island_completes himp hs1 hne (by decide : 3 < 4) (sequential_mov _ _ _) rfl ?_
  intro t htpc hsaved
  obtain ⟨u, htu, hupc, hold, hkeeps⟩ := rmwLoop_exits p himp hop htpc
  have hbase : t.gpr d.rn = s.gpr d.rn := hsaved.gpr d.rn (p.notMem_regs (rn_mem_operands d)) hrn
  have hrs : t.readX d.rs = s.readX d.rs := hsaved.readX (p.notMem_regs (rs_mem_operands d))
  have hread : oldValue d t = oldValue d s := by
    rw [oldValue, hbase, oldValue, readMem_of_saved hsaved (by decide : 4 ≤ 4) hapart]
  have hstored : Saved (savedValues p.regs s) p.regs (stored d s) (stored d t) := by
    have h := hsaved.write_mem (rmwValue d.op d.size (oldValue d s) (s.readX d.rs))
      (show 16 * 4 ≤ 2 ^ 64 by decide) (hsaved.apart (by decide : 4 ≤ 4) hapart)
    rw [stored, stored, hbase, hread, hrs]
    exact ⟨h.sp, h.frame, h.gpr, h.mem, h.vec⟩
  refine ⟨u, htu, hupc, ?_⟩
  rw [savedValues_rmwResult]
  exact saved_mov d.rt (hne p.s1 hs1) (hold.trans hread)
    (hstored.keeps (fun hmem => hne _ hmem rfl) hkeeps)

section

variable {i : AtomicInstr} {s : State}
  (hapart : Apart (i.target s) (accessBytes i.size) (s.sp - 64#64) 64)

include hapart

theorem sameEffect_rmwResult_iff :
    SameEffect s.sp (rmwResult (LseDecoded.ofAtomic i) s) (i.run s) ↔
      (rmwValue (LseOp.ofAtomic i.op) i.size (oldValue (LseDecoded.ofAtomic i) s)
          (s.readX i.rs)).setWidth (8 * accessBytes i.size) =
        i.op.apply (readMem s.mem (i.target s) (accessBytes i.size))
          ((s.readX i.rs).setWidth (8 * accessBytes i.size)) := by
  have hgpr : (rmwResult (LseDecoded.ofAtomic i) s).gpr = (i.run s).gpr := by
    change (State.writeX _ i.rt _).gpr = (State.writeX _ i.rt _).gpr
    unfold State.writeX
    split <;> rfl
  rw [sameEffect_writeMem_iff (accessBytes_le_two_pow i.size) hapart hgpr
    ((State.writeX_vec _ _ _).trans (i.run_vec s).symm)
    ((State.writeX_nzcv _ _ _).trans (i.run_nzcv s).symm)
    (State.writeX_mem _ _ _) (State.writeX_mem _ _ _), BitVec.setWidth_eq]
  rfl

theorem replaces_atomic_iff (hmax : i.op ≠ .umax) (hmin : i.op ≠ .umin) (hrn : i.rn ≠ 31#5)
    {island origAddr : WordPtr} (hfits : FitsBranch (wordDistance island origAddr))
    (hpc : s.pc = toAddr origAddr) :
    Replaces (islandBlock (LseDecoded.ofAtomic i) island origAddr) s (i.run s) ↔
      wordDistance island origAddr + islandWords (LseDecoded.ofAtomic i) ≤ 0x02000002 := by
  obtain ⟨s', hrun, heffect, hend⟩ := rmw_island_effect (d := LseDecoded.ofAtomic i)
    (LseOp.ofAtomic_ne_cas i.op) island origAddr hrn hapart
  rw [replaces_iff hrun heffect, sameEffect_rmwResult_iff hapart, hend, i.run_pc, hpc,
    returns_iff _ hfits]
  exact and_iff_right (setWidth_rmwValue hmax hmin _ _)

theorem hasEffect_unsigned_iff (hop : i.op = .umax ∨ i.op = .umin) (hrn : i.rn ≠ 31#5)
    (island origAddr : WordPtr) :
    HasEffect (islandBlock (LseDecoded.ofAtomic i) island origAddr) s (i.run s) ↔
      2 ≤ i.size.toNat ∨
        ((s.readX i.rs).setWidth 32).toNat < 2 ^ (8 * accessBytes i.size) ∨
        (readMem s.mem (i.target s) (accessBytes i.size)).toNat ≤
          ((s.readX i.rs).setWidth (8 * accessBytes i.size)).toNat := by
  obtain ⟨s', hrun, heffect, -⟩ := rmw_island_effect (d := LseDecoded.ofAtomic i)
    (LseOp.ofAtomic_ne_cas i.op) island origAddr hrn hapart
  rw [hasEffect_iff hrun heffect, sameEffect_rmwResult_iff hapart, ← or_assoc,
    ← comparedOperand_eq_iff]
  exact setWidth_rmwValue_unsigned hop _ _

end

/-- For every word that the decoder takes for one of these operations and every
placement that the range test accepts, the island replaces the instruction
exactly when the return displacement fits as well. -/
theorem atomic_island_replaces_iff {w : Word} {d : LseDecoded} {i : AtomicInstr} {s : State}
    {island origAddr : WordPtr} (hd : decodeLse w = some d) (hi : atomicInstr w = some i)
    (hmax : i.op ≠ .umax) (hmin : i.op ≠ .umin) (hrn : i.rn ≠ 31#5)
    (hapart : Apart (i.target s) (accessBytes i.size) (s.sp - 64#64) 64)
    (hfits : FitsBranch (wordDistance island origAddr)) (hpc : s.pc = toAddr origAddr) :
    Replaces (islandBlock d island origAddr) s (i.run s) ↔
      wordDistance island origAddr + islandWords d ≤ 0x02000002 := by
  obtain rfl := Option.some.inj (hd.symm.trans (decodeLse_of_atomicInstr hi))
  exact replaces_atomic_iff hapart hmax hmin hrn hfits hpc

/-- `ldadd x0, x1, [x2]` -/
def ldaddX : AtomicInstr where
  op := .add
  size := 3#2
  acquire := false
  release := false
  rs := 0#5
  rt := 1#5
  rn := 2#5

theorem ldadd_island_replaces :
    Replaces (islandBlock (LseDecoded.ofAtomic ldaddX) 0x100010#62 0x100000#62)
      (atSite 1#64 0#8) (ldaddX.run (atSite 1#64 0#8)) :=
  (atomic_island_replaces_iff (w := 0xF8200041#32) (i := ldaddX) (by decide) (by decide)
    (by decide) (by decide) (by decide) (apart_atSite _ 1#64 0#8) (by decide) rfl).mpr (by decide)

/-- An island at the far end of the forward range cannot get back. -/
theorem ldadd_island_not_replaces :
    decodeLse 0xF8200041#32 = some (LseDecoded.ofAtomic ldaddX) ∧
      FitsBranch (wordDistance 0x20FFFFF#62 0x100000#62) ∧
      ¬ Replaces (islandBlock (LseDecoded.ofAtomic ldaddX) 0x20FFFFF#62 0x100000#62)
        (atSite 1#64 0#8) (ldaddX.run (atSite 1#64 0#8)) := by
  refine ⟨by decide, by decide, ?_⟩
  rw [replaces_atomic_iff (i := ldaddX) (apart_atSite _ 1#64 0#8) (by decide) (by decide)
    (by decide) (by decide) rfl]
  decide

theorem unsigned_island_hasEffect_iff {w : Word} {d : LseDecoded} {i : AtomicInstr} {s : State}
    (island origAddr : WordPtr) (hd : decodeLse w = some d) (hi : atomicInstr w = some i)
    (hop : i.op = .umax ∨ i.op = .umin) (hrn : i.rn ≠ 31#5)
    (hapart : Apart (i.target s) (accessBytes i.size) (s.sp - 64#64) 64) :
    HasEffect (islandBlock d island origAddr) s (i.run s) ↔
      2 ≤ i.size.toNat ∨
        ((s.readX i.rs).setWidth 32).toNat < 2 ^ (8 * accessBytes i.size) ∨
        (readMem s.mem (i.target s) (accessBytes i.size)).toNat ≤
          ((s.readX i.rs).setWidth (8 * accessBytes i.size)).toNat := by
  obtain rfl := Option.some.inj (hd.symm.trans (decodeLse_of_atomicInstr hi))
  exact hasEffect_unsigned_iff hapart hop hrn island origAddr

/-- `ldumaxb w0, w1, [x2]` -/
def ldumaxB : AtomicInstr where
  op := .umax
  size := 0#2
  acquire := false
  release := false
  rs := 0#5
  rt := 1#5
  rn := 2#5

theorem ldumaxb_island_hasEffect :
    HasEffect (islandBlock (LseDecoded.ofAtomic ldumaxB) 0x100010#62 0x100000#62)
      (atSite 7#64 5#8) (ldumaxB.run (atSite 7#64 5#8)) :=
  (unsigned_island_hasEffect_iff (w := 0x38206041#32) (i := ldumaxB) _ _ (by decide) (by decide)
    (by decide) (by decide) (apart_atSite _ 7#64 5#8)).mpr (by decide)

/-- The operand byte is zero, the register is not: the old value is lost. -/
theorem ldumaxb_island_not_hasEffect :
    decodeLse 0x38206041#32 = some (LseDecoded.ofAtomic ldumaxB) ∧
      ¬ HasEffect (islandBlock (LseDecoded.ofAtomic ldumaxB) 0x100010#62 0x100000#62)
        (atSite 0x100#64 5#8) (ldumaxB.run (atSite 0x100#64 5#8)) := by
  refine ⟨by decide, ?_⟩
  rw [hasEffect_unsigned_iff (i := ldumaxB) (apart_atSite _ 0x100#64 5#8) (by decide) (by decide)]
  decide

end Machgate.RmwIsland
