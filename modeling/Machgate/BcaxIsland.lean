import Machgate.LseIsland

namespace Machgate.BcaxIsland

open Arm64Encoders AtomicSemantics ByteMemory CodeBlock Instructions IslandFrame LseDecode LseIsland
  MachineState ScratchRegisters StackFrame WordPointers Function List

/-- `none` is the return value 0. -/
def decodeBcax (instr : Word) : Option BcaxInstr :=
  if instr &&& 0xFFE08000#32 ≠ 0xCE200000#32 then none
  else
    some
      { vd := (instr &&& 0x1F#32).setWidth 5
        vn := ((instr >>> 5) &&& 0x1F#32).setWidth 5
        va := ((instr >>> 10) &&& 0x1F#32).setWidth 5
        vm := ((instr >>> 16) &&& 0x1F#32).setWidth 5 }

def vectorChoices : List Reg :=
  (List.range 32).reverse.map (BitVec.ofNat 5)

def vtmpOf (i : BcaxInstr) : Reg :=
  firstFree vectorChoices 31#5 (bit i.vd ||| bit i.vn ||| bit i.vm ||| bit i.va)

def bcaxBody (i : BcaxInstr) : List Word :=
  if i.va = i.vd then [encNeonBic i.vd i.vm i.vd, encNeonEor i.vd i.vn i.vd]
  else
    [encStrQPre (vtmpOf i), encNeonBic (vtmpOf i) i.vm i.va, encNeonEor i.vd i.vn (vtmpOf i),
      encLdrQPost (vtmpOf i)]

def emitBcaxIsland (i : BcaxInstr) (island origAddr : WordPtr) : List Word :=
  bcaxBody i ++ [returnBranch island origAddr (bcaxBody i).length]

theorem isBcax_iff (w : Word) : w &&& 0xFFE08000#32 = 0xCE200000#32 ↔ IsBcax w := by
  constructor
  · intro h
    exact ⟨extractLsb'_of_and_eq h (by decide), extractLsb'_of_and_eq h (by decide)⟩
  · rintro ⟨hopcode, hzero⟩
    have hmask : (0xFFE08000#32 : Word) = fieldMask 21 11 ||| fieldMask 15 1 := by decide
    rw [hmask, BitVec.and_or_distrib_left, and_fieldMask, and_fieldMask, hopcode, hzero]
    decide

theorem decodeBcax_eq (w : Word) : decodeBcax w = bcaxInstr w := by
  unfold decodeBcax bcaxInstr
  by_cases h : IsBcax w
  · rw [if_neg (not_not_intro ((isBcax_iff w).mpr h)), if_pos h,
      shift_and_setWidth w 0x1F#32 5 5 (by decide), shift_and_setWidth w 0x1F#32 10 5 (by decide),
      shift_and_setWidth w 0x1F#32 16 5 (by decide), and_setWidth_five]
    rfl
  · rw [if_pos (mt (isBcax_iff w).mp h), if_neg h]

variable (i : BcaxInstr)

theorem vtmpOf_notMem : vtmpOf i ∉ [i.va, i.vm, i.vn, i.vd] := by
  have hmask := (((excludes_bit i.vd).or i.vn).or i.vm).or i.va
  exact firstFree_notMem (by decide) hmask (by decide : 4 < 32)

def bcaxOps (i : BcaxInstr) : List Instr :=
  if i.va = i.vd then [.vbic i.vd i.vm i.vd, .veor i.vd i.vn i.vd]
  else
    [.strQPre minus16 stackPointer (vtmpOf i), .vbic (vtmpOf i) i.vm i.va,
      .veor i.vd i.vn (vtmpOf i), .ldrQPost plus16 stackPointer (vtmpOf i)]

def bcaxWords (i : BcaxInstr) : Nat :=
  if i.va = i.vd then 3 else 5

theorem length_emitBcaxIsland (island origAddr : WordPtr) :
    (emitBcaxIsland i island origAddr).length = bcaxWords i := by
  unfold emitBcaxIsland bcaxWords bcaxBody
  split <;> rfl

theorem getElem?_emitBcaxIsland (island origAddr : WordPtr) :
    (emitBcaxIsland i island origAddr)[bcaxWords i - 1]? =
      some (returnBranch island origAddr (bcaxWords i - 1)) := by
  have hlength := length_emitBcaxIsland i island origAddr
  rw [emitBcaxIsland, length_append, length_singleton] at hlength
  rw [← hlength, Nat.add_sub_cancel, emitBcaxIsland, getElem?_concat_length]

theorem bcaxWords_le : bcaxWords i ≤ 5 := by
  unfold bcaxWords
  split <;> decide

theorem three_le_bcaxWords : 3 ≤ bcaxWords i := by
  unfold bcaxWords
  split <;> decide

def bcaxBlock (i : BcaxInstr) (island origAddr : WordPtr) : Block where
  base := island
  words := emitBcaxIsland i island origAddr
  fits := by
    rw [length_emitBcaxIsland]
    exact (bcaxWords_le i).trans_lt (by decide)

theorem implements_bcax (island origAddr : WordPtr) :
    (bcaxBlock i island origAddr).Implements
      (bcaxOps i ++ [.b (returnOffset island origAddr (bcaxWords i - 1))]) := by
  have hbody : (bcaxBody i).map decode = (bcaxOps i).map some := by
    unfold bcaxBody bcaxOps
    split <;> simp
  have hlength : bcaxWords i - 1 = (bcaxBody i).length := by
    unfold bcaxWords bcaxBody
    split <;> rfl
  rw [Block.Implements, hlength]
  change (bcaxBody i ++ [_]).map decode = _
  rw [map_append, map_append, hbody, map_singleton, decode_returnBranch]
  rfl

/-- What the two instructions of an island leave in the destination: with all
of `va`, `vn` and `vd` equal, the second reads the result of the first. -/
def bcaxResult (i : BcaxInstr) (s : State) : State :=
  let cleared := s.vec i.vm &&& ~~~s.vec i.va
  { s with
    vec := Function.update s.vec i.vd
      ((if i.va = i.vd ∧ i.vn = i.vd then cleared else s.vec i.vn) ^^^ cleared) }

theorem sameEffect_bcaxOps_short {i : BcaxInstr} (h : i.va = i.vd) (s : State) :
    SameEffect s.sp (runSeq (bcaxOps i) s) (bcaxResult i s) := by
  have hops : bcaxOps i = [.vbic i.vd i.vm i.vd, .veor i.vd i.vn i.vd] := if_pos h
  have hfirst : (exec (.vbic i.vd i.vm i.vd) s).vec =
      update s.vec i.vd (s.vec i.vm &&& ~~~s.vec i.va) := by
    rw [h]
    rfl
  have hsecond : ∀ t, (exec (.veor i.vd i.vn i.vd) t).vec =
      update t.vec i.vd (t.vec i.vn ^^^ t.vec i.vd) := fun _ => rfl
  rw [hops, runSeq_cons, runSeq_cons, runSeq_nil]
  refine ⟨rfl, ?_, rfl, fun _ _ => rfl⟩
  rw [hsecond, hfirst, update_idem, update_self]
  simp only [bcaxResult, h, true_and]
  split
  · rename_i hvn
    rw [hvn, update_self]
  · rename_i hvn
    rw [update_of_ne hvn]

theorem sameEffect_bcaxOps_general {i : BcaxInstr} (h : i.va ≠ i.vd) (s : State) :
    SameEffect s.sp (runSeq (bcaxOps i) s) (bcaxResult i s) := by
  have hops : bcaxOps i = [.strQPre minus16 stackPointer (vtmpOf i), .vbic (vtmpOf i) i.vm i.va,
      .veor i.vd i.vn (vtmpOf i), .ldrQPost plus16 stackPointer (vtmpOf i)] := if_neg h
  have hfree := vtmpOf_notMem i
  simp only [mem_cons, not_mem_nil, or_false, not_or] at hfree
  obtain ⟨-, -, hvn, hvd⟩ := hfree
  rw [hops]
  generalize vtmpOf i = r at hvn hvd
  simp only [runSeq_cons, runSeq_nil]
  generalize ha : exec (.strQPre minus16 stackPointer r) s = a
  have hagpr : a.gpr = update s.gpr stackPointer (s.sp - 16#64) := by
    rw [← ha, sub_eq_add_neg]
    rfl
  have hamem : a.mem = writeMem s.mem (s.sp - 16#64) 16 (s.vec r) := by
    rw [← ha, sub_eq_add_neg]
    rfl
  have havec : a.vec = s.vec := by
    rw [← ha]
    rfl
  have hanzcv : a.nzcv = s.nzcv := by
    rw [← ha]
    rfl
  -- The slot holds the scratch register until it is loaded back.
  have hslot : readMem a.mem (a.gpr stackPointer) 16 = s.vec r := by
    rw [hamem, hagpr, update_self, readMem_writeMem _ _ _ (by decide)]
    exact BitVec.setWidth_eq _
  refine ⟨?_, ?_, hanzcv, ?_⟩
  · change update a.gpr stackPointer (a.gpr stackPointer + 16#64) = s.gpr
    rw [hagpr, update_idem, update_self, BitVec.sub_add_cancel]
    exact update_eq_self _ _
  · change update (update (update a.vec r _) i.vd (update a.vec r _ i.vn ^^^ update a.vec r _ r)) r
        (readMem a.mem (a.gpr stackPointer) 16) = _
    rw [hslot, havec, update_self, update_of_ne (Ne.symm hvn),
      update_comm (Ne.symm hvd), update_idem, update_eq_self]
    simp only [bcaxResult, h, false_and, if_false]
  · intro b hb
    change a.mem b = s.mem b
    rw [hamem]
    refine writeMem_of_not_inRange fun hin => hb ?_
    have hbase : s.sp - 16#64 = s.sp - 64#64 + BitVec.ofNat 64 48 := by
      rw [sub_add]
      rfl
    rw [hbase] at hin
    exact hin.widen (by decide) (by decide)

theorem sameEffect_bcaxOps (s : State) :
    SameEffect s.sp (runSeq (bcaxOps i) s) (bcaxResult i s) := by
  rcases eq_or_ne i.va i.vd with h | h
  · exact sameEffect_bcaxOps_short h s
  · exact sameEffect_bcaxOps_general h s

theorem xor_bic_eq_zero_iff {w : Nat} (x m : BitVec w) :
    0#w = x ^^^ (m &&& ~~~x) ↔ x = 0#w ∧ m = 0#w := by
  constructor
  · intro h
    have hbit : ∀ k, k < w → x.getLsbD k = false ∧ m.getLsbD k = false := by
      intro k hk
      have hk' := congrArg (BitVec.getLsbD · k) h
      simp only [BitVec.getLsbD_zero, BitVec.getLsbD_xor, BitVec.getLsbD_and, BitVec.getLsbD_not,
        hk, decide_true, Bool.true_and] at hk'
      revert hk'
      cases x.getLsbD k <;> cases m.getLsbD k <;> decide
    constructor
    · exact BitVec.eq_of_getLsbD_eq fun k hk => by simpa using (hbit k hk).1
    · exact BitVec.eq_of_getLsbD_eq fun k hk => by simpa using (hbit k hk).2
  · rintro ⟨rfl, rfl⟩
    simp

theorem sameEffect_bcaxResult_iff (s : State) :
    SameEffect s.sp (bcaxResult i s) (i.run s) ↔
      ¬ (i.va = i.vd ∧ i.vn = i.vd) ∨ (s.vec i.vd = 0#128 ∧ s.vec i.vm = 0#128) := by
  have hiff : SameEffect s.sp (bcaxResult i s) (i.run s) ↔
      (if i.va = i.vd ∧ i.vn = i.vd then s.vec i.vm &&& ~~~s.vec i.va else s.vec i.vn) ^^^
          (s.vec i.vm &&& ~~~s.vec i.va) =
        s.vec i.vn ^^^ (s.vec i.vm &&& ~~~s.vec i.va) := by
    constructor
    · intro h
      exact update_injective s.vec i.vd h.vec
    · intro h
      exact ⟨rfl, congrArg (update s.vec i.vd) h, rfl, fun _ _ => rfl⟩
  rw [hiff]
  split
  · rename_i heq
    rw [BitVec.xor_self, heq.1, heq.2, xor_bic_eq_zero_iff, or_iff_right (not_not_intro ⟨rfl, rfl⟩)]
  · rename_i hne
    exact iff_of_true rfl (Or.inl hne)

theorem bcax_island_effect (island origAddr : WordPtr) (s : State) :
    ∃ s', (bcaxBlock i island origAddr).Completes { s with pc := toAddr island } s' ∧
      SameEffect s.sp s' (bcaxResult i s) ∧
      s'.pc = (bcaxBlock i island origAddr).lastAddr +
        branchOffset (returnOffset island origAddr (bcaxWords i - 1)) := by
  have hseq : ∀ ins ∈ bcaxOps i, ins.Sequential = true := by
    unfold bcaxOps
    split <;> simp [Instr.Sequential]
  obtain ⟨hrun, hlast⟩ := (implements_bcax i island origAddr).completes_straight rfl hseq
    (s := { s with pc := toAddr island }) (bcaxBlock i island origAddr).addr_zero.symm
  have heffect := sameEffect_bcaxOps i { s with pc := toAddr island }
  refine ⟨_, hrun, ⟨heffect.gpr, heffect.vec, heffect.nzcv, heffect.mem⟩, ?_⟩
  rw [← hlast]
  rfl

theorem replaces_bcaxBlock_iff {s : State} {island origAddr : WordPtr}
    (hfits : FitsBranch (wordDistance island origAddr)) (hpc : s.pc = toAddr origAddr) :
    Replaces (bcaxBlock i island origAddr) s (i.run s) ↔
      (¬ (i.va = i.vd ∧ i.vn = i.vd) ∨ (s.vec i.vd = 0#128 ∧ s.vec i.vm = 0#128)) ∧
        wordDistance island origAddr + bcaxWords i ≤ 0x02000002 := by
  obtain ⟨s', hrun, heffect, hend⟩ := bcax_island_effect i island origAddr s
  have hreturn := lastBranch_iff (c := bcaxBlock i island origAddr) hfits
    (length_emitBcaxIsland i island origAddr) (three_le_bcaxWords i)
    ((bcaxWords_le i).trans (by decide))
  rw [replaces_iff hrun heffect, sameEffect_bcaxResult_iff, hend]
  refine and_congr_right fun _ => ?_
  change _ = s.pc + 4#64 ↔ _
  rw [hpc]
  exact hreturn

/-- For every BCAX word and every placement that the range test accepts, the
island replaces the instruction unless all of `va`, `vn` and `vd` are the same
register with something to lose, or the return displacement does not fit. -/
theorem bcax_island_replaces_iff {w : Word} {i d : BcaxInstr} {s : State}
    {island origAddr : WordPtr} (hd : decodeBcax w = some d) (hi : bcaxInstr w = some i)
    (hfits : FitsBranch (wordDistance island origAddr)) (hpc : s.pc = toAddr origAddr) :
    Replaces (bcaxBlock d island origAddr) s (i.run s) ↔
      (¬ (i.va = i.vd ∧ i.vn = i.vd) ∨ (s.vec i.vd = 0#128 ∧ s.vec i.vm = 0#128)) ∧
        wordDistance island origAddr + (if i.va = i.vd then 3 else 5 : Nat) ≤ 0x02000002 := by
  rw [decodeBcax_eq, hi] at hd
  obtain rfl := Option.some.inj hd
  exact replaces_bcaxBlock_iff i hfits hpc

theorem bcax_island_replaces :
    Replaces (bcaxBlock ⟨0#5, 1#5, 2#5, 3#5⟩ 0x100010#62 0x100000#62) (atSite 0#64 0#8)
      (BcaxInstr.run ⟨0#5, 1#5, 2#5, 3#5⟩ (atSite 0#64 0#8)) :=
  (bcax_island_replaces_iff (w := 0xCE220C20#32) (by decide) (by decide) (by decide) rfl).mpr
    (by decide)

/-- `bcax v0.16b, v0.16b, v1.16b, v0.16b` over registers of ones. -/
theorem bcax_island_not_replaces :
    decodeBcax 0xCE210000#32 = some ⟨0#5, 0#5, 1#5, 0#5⟩ ∧
      ¬ Replaces (bcaxBlock ⟨0#5, 0#5, 1#5, 0#5⟩ 0x100010#62 0x100000#62)
        { atSite 0#64 0#8 with vec := fun _ => 1#128 }
        (BcaxInstr.run ⟨0#5, 0#5, 1#5, 0#5⟩ { atSite 0#64 0#8 with vec := fun _ => 1#128 }) := by
  refine ⟨by decide, ?_⟩
  rw [replaces_bcaxBlock_iff _ (by decide) rfl]
  decide

end Machgate.BcaxIsland
