import Machgate.AtomicSemantics

namespace Machgate.LseDecode

open AtomicSemantics Instructions MachineState BitVec Option

inductive LseOp
  | ldadd
  | ldclr
  | ldeor
  | ldset
  | ldsmax
  | ldsmin
  | ldumax
  | ldumin
  | swp
  | cas
deriving DecidableEq, Repr

structure LseDecoded where
  op : LseOp
  size : BitVec 2
  acquire : Bool
  release : Bool
  rs : Reg
  rt : Reg
  rn : Reg
deriving DecidableEq, Repr

def lseOpOf (opc : BitVec 3) : LseOp :=
  match opc.toNat with
  | 0 => .ldadd
  | 1 => .ldclr
  | 2 => .ldeor
  | 3 => .ldset
  | 4 => .ldsmax
  | 5 => .ldsmin
  | 6 => .ldumax
  | _ => .ldumin

/-- `none` is the return value 0, with the operation `LSE_NONE`. -/
def decodeLse (instr : Word) : Option LseDecoded :=
  if instr &&& 0x3F200C00#32 = 0x38200000#32 then
    let o3 := ((instr >>> 15) &&& 1#32) == 1#32
    let opc := ((instr >>> 12) &&& 7#32).setWidth 3
    some
      { size := ((instr >>> 30) &&& 3#32).setWidth 2
        acquire := ((instr >>> 23) &&& 1#32) == 1#32
        release := ((instr >>> 22) &&& 1#32) == 1#32
        rs := ((instr >>> 16) &&& 0x1F#32).setWidth 5
        rn := ((instr >>> 5) &&& 0x1F#32).setWidth 5
        rt := (instr &&& 0x1F#32).setWidth 5
        op := if o3 then .swp else lseOpOf opc }
  else if instr &&& 0x3FA07C00#32 = 0x08A07C00#32 then
    some
      { size := ((instr >>> 30) &&& 3#32).setWidth 2
        acquire := ((instr >>> 23) &&& 1#32) == 1#32
        release := ((instr >>> 15) &&& 1#32) == 1#32
        rs := ((instr >>> 16) &&& 0x1F#32).setWidth 5
        rn := ((instr >>> 5) &&& 0x1F#32).setWidth 5
        rt := (instr &&& 0x1F#32).setWidth 5
        op := .cas }
  else none

theorem shift_and_setWidth (w m : Word) (lo n : Nat) (hm : m.setWidth n = allOnes n) :
    ((w >>> lo) &&& m).setWidth n = w.extractLsb' lo n := by
  rw [setWidth_and, hm, and_allOnes]
  apply eq_of_getLsbD_eq
  intro i hi
  rw [getLsbD_setWidth, getLsbD_ushiftRight, getLsbD_extractLsb']

theorem and_setWidth_five (w : Word) : (w &&& 0x1F#32).setWidth 5 = fieldAt w 0 := by
  have h := shift_and_setWidth w 0x1F#32 0 5 (by decide)
  rwa [ushiftRight_zero] at h

theorem shift_and_one (w : Word) (lo : Nat) : (((w >>> lo) &&& 1#32) == 1#32) = w.getLsbD lo := by
  have hbit : ∀ x : Word, (x &&& 1#32 == 1#32) = x.getLsbD 0 := by
    intro x
    rw [and_one_eq_setWidth_ofBool_getLsbD]
    cases x.getLsbD 0 <;> rfl
  rw [hbit, getLsbD_ushiftRight, Nat.add_zero]

def fieldMask (lo n : Nat) : Word :=
  (BitVec.allOnes n).setWidth 32 <<< lo

theorem and_fieldMask (w : Word) (lo n : Nat) :
    w &&& fieldMask lo n = (w.extractLsb' lo n).setWidth 32 <<< lo := by
  apply eq_of_getLsbD_eq
  intro i hi
  rw [getLsbD_and, fieldMask, getLsbD_shiftLeft, getLsbD_shiftLeft,
    getLsbD_setWidth, getLsbD_setWidth, getLsbD_extractLsb', getLsbD_allOnes]
  by_cases hlo : i < lo
  · simp [hlo]
  · rw [show lo + (i - lo) = i by omega]
    cases w.getLsbD i <;> simp

variable {w : Word}

theorem extractLsb'_of_and_eq {m v : Word} (h : w &&& m = v) {lo n : Nat}
    (hm : m.extractLsb' lo n = allOnes n) : w.extractLsb' lo n = v.extractLsb' lo n := by
  rw [← h, extractLsb'_and, hm, and_allOnes]

theorem isAtomicClass_iff (w : Word) : w &&& 0x3F200C00#32 = 0x38200000#32 ↔ IsAtomicClass w := by
  constructor
  · intro h
    exact ⟨extractLsb'_of_and_eq h (by decide), extractLsb'_of_and_eq h (by decide),
      extractLsb'_of_and_eq h (by decide)⟩
  · rintro ⟨hopcode, hone, hzero⟩
    have hmask : (0x3F200C00#32 : Word) = fieldMask 24 6 ||| fieldMask 21 1 ||| fieldMask 10 2 := by
      decide
    rw [hmask, and_or_distrib_left, and_or_distrib_left, and_fieldMask,
      and_fieldMask, and_fieldMask, hopcode, hone, hzero]
    decide

theorem isCasClass_iff (w : Word) : w &&& 0x3FA07C00#32 = 0x08A07C00#32 ↔ IsCasClass w := by
  constructor
  · intro h
    exact ⟨extractLsb'_of_and_eq h (by decide), extractLsb'_of_and_eq h (by decide),
      extractLsb'_of_and_eq h (by decide)⟩
  · rintro ⟨hopcode, hone, hrt2⟩
    have hmask : (0x3FA07C00#32 : Word) = fieldMask 23 7 ||| fieldMask 21 1 ||| fieldMask 10 5 := by
      decide
    rw [hmask, and_or_distrib_left, and_or_distrib_left, and_fieldMask,
      and_fieldMask, and_fieldMask, hopcode, hone, hrt2]
    decide

theorem not_isAtomicClass_of_isCasClass (hcas : IsCasClass w) : ¬ IsAtomicClass w := by
  intro hatomic
  have hbit : (w.extractLsb' 24 6).getLsbD 4 = (w.extractLsb' 23 7).getLsbD 5 := by
    rw [getLsbD_extractLsb', getLsbD_extractLsb']
    rfl
  rw [hatomic.1, hcas.1] at hbit
  revert hbit
  decide

def LseOp.ofAtomic : AtomicOp → LseOp
  | .add => .ldadd
  | .clr => .ldclr
  | .eor => .ldeor
  | .set => .ldset
  | .smax => .ldsmax
  | .smin => .ldsmin
  | .umax => .ldumax
  | .umin => .ldumin
  | .swp => .swp

theorem LseOp.ofAtomic_ne_cas (op : AtomicOp) : LseOp.ofAtomic op ≠ .cas := by
  cases op <;> decide

def LseDecoded.ofAtomic (i : AtomicInstr) : LseDecoded where
  op := LseOp.ofAtomic i.op
  size := i.size
  acquire := i.acquire
  release := i.release
  rs := i.rs
  rt := i.rt
  rn := i.rn

def LseDecoded.ofCas (i : CasInstr) : LseDecoded where
  op := .cas
  size := i.size
  acquire := i.acquire
  release := i.release
  rs := i.rs
  rt := i.rt
  rn := i.rn

def o3Of (w : Word) : Bool :=
  w.getLsbD 15

def opcOf (w : Word) : BitVec 3 :=
  w.extractLsb' 12 3

theorem decodeLse_of_isAtomicClass (h : IsAtomicClass w) :
    decodeLse w = some
      { size := w.extractLsb' 30 2
        acquire := w.getLsbD 23
        release := w.getLsbD 22
        rs := fieldAt w 16
        rn := fieldAt w 5
        rt := fieldAt w 0
        op := if o3Of w then .swp else lseOpOf (opcOf w) } := by
  rw [decodeLse, if_pos ((isAtomicClass_iff w).mpr h)]
  simp only [shift_and_setWidth w 3#32 30 2 (by decide), shift_and_setWidth w 7#32 12 3 (by decide),
    shift_and_setWidth w 0x1F#32 16 5 (by decide), shift_and_setWidth w 0x1F#32 5 5 (by decide),
    and_setWidth_five, shift_and_one]
  rfl

/-- Bit 23 is part of the opcode of a compare-and-swap, so every one of them is
reported as an acquire. -/
theorem decodeLse_of_isCasClass (h : IsCasClass w) :
    decodeLse w = some
      { size := w.extractLsb' 30 2
        acquire := true
        release := w.getLsbD 15
        rs := fieldAt w 16
        rn := fieldAt w 5
        rt := fieldAt w 0
        op := .cas } := by
  have hone : w.getLsbD 23 = true := by
    have hbit : (w.extractLsb' 23 7).getLsbD 0 = w.getLsbD 23 := by
      rw [getLsbD_extractLsb']
      rfl
    rw [← hbit, h.1]
    rfl
  rw [decodeLse, if_neg (mt (isAtomicClass_iff w).mp (not_isAtomicClass_of_isCasClass h)),
    if_pos ((isCasClass_iff w).mpr h)]
  simp only [shift_and_setWidth w 3#32 30 2 (by decide),
    shift_and_setWidth w 0x1F#32 16 5 (by decide), shift_and_setWidth w 0x1F#32 5 5 (by decide),
    and_setWidth_five, shift_and_one, hone]
  rfl

theorem decodeLse_eq_none (hatomic : ¬ IsAtomicClass w) (hcas : ¬ IsCasClass w) :
    decodeLse w = none := by
  rw [decodeLse, if_neg (mt (isAtomicClass_iff w).mp hatomic),
    if_neg (mt (isCasClass_iff w).mp hcas)]

theorem lseOp_of_atomicOpOf {op : AtomicOp} : ∀ (o3 : Bool) (opc : BitVec 3),
    atomicOpOf o3 opc = some op →
      (if o3 then LseOp.swp else lseOpOf opc) = LseOp.ofAtomic op := by
  cases op <;> decide

theorem lseOpOf_ne_swp : ∀ opc, lseOpOf opc ≠ .swp := by
  decide

theorem decodeLse_of_atomicInstr {i : AtomicInstr} (h : atomicInstr w = some i) :
    decodeLse w = some (LseDecoded.ofAtomic i) := by
  unfold atomicInstr at h
  split at h
  · rename_i hclass
    obtain ⟨op, hop, rfl⟩ := map_eq_some_iff.mp h
    have hlse := lseOp_of_atomicOpOf (o3Of w) (opcOf w) hop
    rw [decodeLse_of_isAtomicClass hclass, hlse]
    rfl
  · cases h

theorem decodeLse_of_casInstr {i : CasInstr} (h : casInstr w = some i) :
    decodeLse w = some { LseDecoded.ofCas i with acquire := true } := by
  unfold casInstr at h
  split at h
  · rename_i hclass
    obtain rfl := some.inj h
    exact decodeLse_of_isCasClass hclass
  · cases h

theorem decodeLse_rn {d : LseDecoded} (h : decodeLse w = some d) : d.rn = fieldAt w 5 := by
  by_cases hatomic : IsAtomicClass w
  · rw [decodeLse_of_isAtomicClass hatomic] at h
    rw [← some.inj h]
  · by_cases hcas : IsCasClass w
    · rw [decodeLse_of_isCasClass hcas] at h
      rw [← some.inj h]
    · rw [decodeLse_eq_none hatomic hcas] at h
      cases h

/-- What a faithful decoder reports: a word that it accepts is the instruction
that it names, field by field. -/
def DecodesFaithfully (w : Word) : Prop :=
  ∀ d, decodeLse w = some d →
    (d.op = .swp → o3Of w = true ∧ opcOf w = 0#3) ∧
    ((∃ i, atomicInstr w = some i ∧ d = LseDecoded.ofAtomic i) ∨
      ∃ i, casInstr w = some i ∧ d = LseDecoded.ofCas i)

theorem atomicOpOf_isSome_iff : ∀ (o3 : Bool) (opc : BitVec 3),
    (atomicOpOf o3 opc).isSome = true ↔ ¬ (o3 = true ∧ opc ≠ 0#3) := by
  decide

theorem decodesFaithfully_of_isAtomicClass (hclass : IsAtomicClass w) :
    DecodesFaithfully w ↔ ¬ (o3Of w = true ∧ opcOf w ≠ 0#3) := by
  have hnone : casInstr w = none := if_neg fun h => not_isAtomicClass_of_isCasClass h hclass
  have hsome : (atomicInstr w).isSome = (atomicOpOf (o3Of w) (opcOf w)).isSome := by
    rw [atomicInstr, if_pos hclass, isSome_map]
    rfl
  constructor
  · intro h
    obtain ⟨-, ⟨i, hi, -⟩ | ⟨i, hi, -⟩⟩ := h _ (decodeLse_of_isAtomicClass hclass)
    · rw [← atomicOpOf_isSome_iff, ← hsome, hi]
      rfl
    · rw [hnone] at hi
      cases hi
  · intro hgood d hd
    rw [← atomicOpOf_isSome_iff, ← hsome, isSome_iff_exists] at hgood
    obtain ⟨i, hi⟩ := hgood
    refine ⟨?_, Or.inl ⟨i, hi, some.inj (hd.symm.trans (decodeLse_of_atomicInstr hi))⟩⟩
    intro hswp
    rw [decodeLse_of_isAtomicClass hclass] at hd
    obtain rfl := some.inj hd
    have ho3 : o3Of w = true := by
      by_contra hfalse
      simp only [hfalse, if_false] at hswp
      exact lseOpOf_ne_swp _ hswp
    refine ⟨ho3, ?_⟩
    by_contra hopc
    have hop := (atomicOpOf_isSome_iff (o3Of w) (opcOf w)).mp (by rw [← hsome, hi]; rfl)
    exact hop ⟨ho3, hopc⟩

theorem decodesFaithfully_of_isCasClass (hclass : IsCasClass w) :
    DecodesFaithfully w ↔ w.getLsbD 22 = true := by
  have hnone : atomicInstr w = none := if_neg (not_isAtomicClass_of_isCasClass hclass)
  have hsome : casInstr w = some _ := if_pos hclass
  constructor
  · intro h
    obtain ⟨-, ⟨i, hi, -⟩ | ⟨i, hi, hd⟩⟩ := h _ (decodeLse_of_isCasClass hclass)
    · rw [hnone] at hi
      cases hi
    · obtain rfl := some.inj (hsome.symm.trans hi)
      exact (congrArg LseDecoded.acquire hd).symm
  · intro hacquire d hd
    rw [decodeLse_of_casInstr hsome] at hd
    obtain rfl := some.inj hd
    refine ⟨(nomatch ·), Or.inr ⟨_, hsome, ?_⟩⟩
    simp only [LseDecoded.ofCas, hacquire]

/-- The decoder is faithful except on two kinds of words: those of the atomic
class with `o3 = 1` and a nonzero `opc`, which it takes for swaps, and the
compare-and-swaps without acquire, which it reports as acquiring. -/
theorem decodeLse_faithful_iff (w : Word) :
    DecodesFaithfully w ↔
      ¬ (IsAtomicClass w ∧ o3Of w = true ∧ opcOf w ≠ 0#3) ∧
      ¬ (IsCasClass w ∧ w.getLsbD 22 = false) := by
  by_cases hatomic : IsAtomicClass w
  · have hcas : ¬ IsCasClass w := fun h => not_isAtomicClass_of_isCasClass h hatomic
    rw [decodesFaithfully_of_isAtomicClass hatomic]
    simp only [hatomic, hcas, true_and, false_and, not_false_eq_true, and_true]
  · by_cases hcas : IsCasClass w
    · rw [decodesFaithfully_of_isCasClass hcas]
      simp only [hatomic, hcas, true_and, false_and, not_false_eq_true, Bool.not_eq_false]
    · have hnone := decodeLse_eq_none hatomic hcas
      refine iff_of_true ?_ ⟨fun h => hatomic h.1, fun h => hcas h.1⟩
      intro d hd
      rw [hnone] at hd
      cases hd

/-- `ld64b x0, [x1]` is taken for a swap. -/
theorem not_decodesFaithfully_ld64b : ¬ DecodesFaithfully 0xF83FD020#32 := by
  rw [decodesFaithfully_of_isAtomicClass (by decide)]
  decide

end Machgate.LseDecode
