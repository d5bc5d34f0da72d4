import Machgate.LseIsland

namespace Machgate.LseArithmetic

open AtomicSemantics ByteMemory ConditionFlags Instructions LseDecode LseIsland MachineState BitVec
  StackFrame

/-- The flags behind a signed comparison: narrow operands are sign-extended
first. -/
def signedFlags (size : BitVec 2) (old value : BitVec 64) : Nzcv :=
  if size.toNat < 2 then
    let bits := if size = 0#2 then 8 else 16
    (subsResult false (sextW bits old) (sextW bits value)).2
  else (subsResult (isX size) old value).2

def chosen (size : BitVec 2) (cond : BitVec 4) (flags : Nzcv) (old value : BitVec 64) :
    BitVec 64 :=
  resultOf (isX size) (if condHolds cond flags then value else old)

/-- The register value that an island stores, from the loaded value and the
operand register. -/
def rmwValue (op : LseOp) (size : BitVec 2) (old value : BitVec 64) : BitVec 64 :=
  match op with
  | .ldadd => aluResult .add (isX size) old value
  | .ldclr => aluResult .bic (isX size) old value
  | .ldeor => aluResult .eor (isX size) old value
  | .ldset => aluResult .orr (isX size) old value
  | .ldsmax => chosen size condLt (signedFlags size old value) old value
  | .ldsmin => chosen size condGt (signedFlags size old value) old value
  | .ldumax => chosen size condLo (subsResult (isX size) old value).2 old value
  | .ldumin => chosen size condHi (subsResult (isX size) old value).2 old value
  | .swp => aluResult .orr (isX size) 0#64 value
  | .cas => old

/-- A `k`-bit value passes unchanged through the registers selected by `sf`. -/
def Carries (sf : Bool) (k : Nat) : Prop :=
  (sf = true → k = 64) ∧ (sf = false → k ≤ 32)

theorem carries_isX (size : BitVec 2) : Carries (isX size) (8 * accessBytes size) := by
  rcases size_cases size with rfl | rfl | rfl | rfl <;> exact ⟨by decide, by decide⟩

theorem AluOp.setWidth_apply (op : AluOp) {k w : Nat} (hk : k ≤ w) (x y : BitVec w) :
    (op.apply x y).setWidth k = op.apply (x.setWidth k) (y.setWidth k) := by
  cases op with
  | add => exact setWidth_add x y hk
  | bic =>
    change (x &&& ~~~y).setWidth k = x.setWidth k &&& ~~~(y.setWidth k)
    rw [setWidth_and, setWidth_not hk]
  | eor => exact setWidth_xor
  | orr => exact setWidth_or

theorem setWidth_resultOf {sf : Bool} {k : Nat} (h : Carries sf k) (x : BitVec 64) :
    (resultOf sf x).setWidth k = x.setWidth k := by
  cases sf with
  | false =>
    have hk := h.2 rfl
    rw [resultOf, if_neg Bool.false_ne_true, setWidth_setWidth_of_le _ (by omega),
      setWidth_setWidth_of_le _ hk]
  | true => rfl

theorem setWidth_aluResult {sf : Bool} {k : Nat} (h : Carries sf k) (op : AluOp)
    (x y : BitVec 64) :
    (aluResult op sf x y).setWidth k = op.apply (x.setWidth k) (y.setWidth k) := by
  cases sf with
  | false =>
    have hk := h.2 rfl
    rw [aluResult, if_neg Bool.false_ne_true, setWidth_setWidth_of_le _ (by omega),
      AluOp.setWidth_apply op hk, setWidth_setWidth_of_le _ hk, setWidth_setWidth_of_le _ hk]
  | true =>
    exact AluOp.setWidth_apply op (h.1 rfl).le x y

section

variable {size : BitVec 2} (old : BitVec (8 * accessBytes size)) (value : BitVec 64)

theorem setWidth_loaded : (old.setWidth 64).setWidth (8 * accessBytes size) = old := by
  have hle := accessBytes_le size
  rw [setWidth_setWidth_of_le _ (by omega), setWidth_eq]

theorem aluResult_mov_loaded :
    aluResult .orr (isX size) 0#64 (old.setWidth 64) = old.setWidth 64 := by
  rcases hx : isX size with _ | _
  · have hk := (carries_isX size).2 hx
    have hpow := Nat.pow_le_pow_right (by decide : 0 < 2) hk
    change (0#32 ||| (old.setWidth 64).setWidth 32).setWidth 64 = old.setWidth 64
    rw [zero_or]
    apply eq_of_toNat_eq
    simp only [toNat_setWidth]
    omega
  · exact zero_or

theorem setWidth_chosen (cond : BitVec 4) (flags : Nzcv) :
    (chosen size cond flags (old.setWidth 64) value).setWidth (8 * accessBytes size) =
      if condHolds cond flags then value.setWidth (8 * accessBytes size) else old := by
  rw [chosen, setWidth_resultOf (carries_isX size)]
  split
  · rfl
  · exact setWidth_loaded old

theorem signedFlags_eq :
    ∃ (w : Nat) (x y : BitVec w), 0 < w ∧
      signedFlags size (old.setWidth 64) value = (subtract x y).2 ∧
      x.toInt = old.toInt ∧ y.toInt = (value.setWidth (8 * accessBytes size)).toInt := by
  have hsext : ∀ (bits : Nat) (x : BitVec 64), bits ≤ 32 →
      ((sextW bits x).setWidth 32).toInt = (x.setWidth bits).toInt := by
    intro bits x hbits
    rw [sextW, setWidth_setWidth_of_le _ (by decide), setWidth_eq, toInt_signExtend_of_le hbits]
  have hold := setWidth_loaded old
  rcases size_cases size with rfl | rfl | rfl | rfl
  · refine ⟨32, _, _, by decide, rfl, (hsext 8 _ (by decide)).trans ?_, hsext 8 _ (by decide)⟩
    exact congrArg BitVec.toInt hold
  · refine ⟨32, _, _, by decide, rfl, (hsext 16 _ (by decide)).trans ?_, hsext 16 _ (by decide)⟩
    exact congrArg BitVec.toInt hold
  · exact ⟨32, _, _, by decide, rfl, congrArg BitVec.toInt hold, rfl⟩
  · exact ⟨64, _, _, by decide, rfl, congrArg BitVec.toInt hold,
      congrArg BitVec.toInt (setWidth_eq value).symm⟩

def comparedOperand (size : BitVec 2) (value : BitVec 64) : Nat :=
  if isX size then value.toNat else (value.setWidth 32).toNat

theorem unsignedFlags_eq :
    ∃ (w : Nat) (x y : BitVec w),
      (subsResult (isX size) (old.setWidth 64) value).2 = (subtract x y).2 ∧
      x.toNat = old.toNat ∧ y.toNat = comparedOperand size value := by
  have hle := accessBytes_le size
  rcases hx : isX size with _ | _
  · have hk := (carries_isX size).2 hx
    refine ⟨32, _, _, rfl, ?_, ?_⟩
    · rw [setWidth_setWidth_of_le _ (by decide), toNat_setWidth_of_le hk]
    · rw [comparedOperand, hx]
      rfl
  · refine ⟨64, _, _, rfl, ?_, ?_⟩
    · rw [toNat_setWidth_of_le (by omega)]
    · rw [comparedOperand, hx]
      rfl

end

/-- The stored bytes are those of the architectural operation for every
operation that is not an unsigned comparison. -/
theorem setWidth_rmwValue {op : AtomicOp} (hmax : op ≠ .umax) (hmin : op ≠ .umin)
    {size : BitVec 2} (old : BitVec (8 * accessBytes size)) (value : BitVec 64) :
    (rmwValue (LseOp.ofAtomic op) size (old.setWidth 64) value).setWidth (8 * accessBytes size) =
      op.apply old (value.setWidth (8 * accessBytes size)) := by
  have hcarries := carries_isX size
  have halu : ∀ aluOp, (aluResult aluOp (isX size) (old.setWidth 64) value).setWidth
      (8 * accessBytes size) = aluOp.apply old (value.setWidth (8 * accessBytes size)) := by
    intro aluOp
    rw [setWidth_aluResult hcarries, setWidth_loaded]
  obtain ⟨w, x, y, hw, hflags, hx, hy⟩ := signedFlags_eq old value
  cases op with
  | add => exact halu .add
  | clr => exact halu .bic
  | eor => exact halu .eor
  | set => exact halu .orr
  | smax =>
    simp only [LseOp.ofAtomic, rmwValue, AtomicOp.apply, setWidth_chosen, hflags,
      condHolds_lt _ _ hw, hx, hy, decide_eq_true_eq]
    split_ifs
    · omega
    · rfl
    · rfl
    · exact eq_of_toInt_eq (by omega)
  | smin =>
    simp only [LseOp.ofAtomic, rmwValue, AtomicOp.apply, setWidth_chosen, hflags,
      condHolds_gt _ _ hw, hx, hy, decide_eq_true_eq, gt_iff_lt]
  | umax => exact absurd rfl hmax
  | umin => exact absurd rfl hmin
  | swp =>
    simp only [LseOp.ofAtomic, rmwValue, AtomicOp.apply, setWidth_aluResult hcarries,
      AluOp.apply, setWidth_zero, zero_or]

theorem comparedOperand_cases (size : BitVec 2) (value : BitVec 64) :
    comparedOperand size value = (value.setWidth (8 * accessBytes size)).toNat ∨
      2 ^ (8 * accessBytes size) ≤ comparedOperand size value := by
  rw [Classical.or_iff_not_imp_right, Nat.not_le, toNat_setWidth, comparedOperand]
  intro hlt
  split at hlt
  · rename_i hx
    rw [if_pos hx, (carries_isX size).1 hx, Nat.mod_eq_of_lt value.isLt]
  · rename_i hx
    have hk := (carries_isX size).2 (Bool.eq_false_iff.mpr hx)
    rw [if_neg hx, ← Nat.mod_eq_of_lt hlt, toNat_setWidth,
      Nat.mod_mod_of_dvd _ (Nat.pow_dvd_pow 2 hk)]

theorem comparedOperand_eq_iff (size : BitVec 2) (value : BitVec 64) :
    comparedOperand size value = (value.setWidth (8 * accessBytes size)).toNat ↔
      2 ≤ size.toNat ∨ (value.setWidth 32).toNat < 2 ^ (8 * accessBytes size) := by
  have hlt := (value.setWidth (8 * accessBytes size)).isLt
  have hcases := comparedOperand_cases size value
  have hnarrow : ∀ {size}, isX size = false →
      comparedOperand size value = (value.setWidth 32).toNat := by
    intro size hx
    rw [comparedOperand, hx]
    rfl
  rcases size_cases size with rfl | rfl | rfl | rfl
  · rw [hnarrow rfl] at hcases ⊢
    refine ⟨fun h => Or.inr (h ▸ hlt), fun h => hcases.resolve_right (Nat.not_le.mpr ?_)⟩
    exact h.resolve_left (by decide)
  · rw [hnarrow rfl] at hcases ⊢
    refine ⟨fun h => Or.inr (h ▸ hlt), fun h => hcases.resolve_right (Nat.not_le.mpr ?_)⟩
    exact h.resolve_left (by decide)
  · exact iff_of_true rfl (Or.inl (le_refl 2))
  · exact iff_of_true (congrArg BitVec.toNat (setWidth_eq value).symm) (Or.inl (by decide))

/-- The unsigned comparison sees the whole register for bytes and halfwords,
which is harmless when the bits above the access are zero, and when the
operand wins the comparison anyway. -/
theorem setWidth_rmwValue_unsigned {op : AtomicOp} (hop : op = .umax ∨ op = .umin)
    {size : BitVec 2} (old : BitVec (8 * accessBytes size)) (value : BitVec 64) :
    (rmwValue (LseOp.ofAtomic op) size (old.setWidth 64) value).setWidth (8 * accessBytes size) =
        op.apply old (value.setWidth (8 * accessBytes size)) ↔
      comparedOperand size value = (value.setWidth (8 * accessBytes size)).toNat ∨
        old.toNat ≤ (value.setWidth (8 * accessBytes size)).toNat := by
  obtain ⟨w, x, y, hflags, hx, hy⟩ := unsignedFlags_eq old value
  have hcases := comparedOperand_cases size value
  rcases hop with rfl | rfl
  · simp only [LseOp.ofAtomic, rmwValue, AtomicOp.apply, setWidth_chosen, hflags, condHolds_lo,
      hx, hy, decide_eq_true_eq, ← toNat_inj, apply_ite BitVec.toNat]
    split_ifs <;> omega
  · simp only [LseOp.ofAtomic, rmwValue, AtomicOp.apply, setWidth_chosen, hflags, condHolds_hi,
      hx, hy, decide_eq_true_eq, ← toNat_inj, apply_ite BitVec.toNat]
    split_ifs <;> omega

def oldValue (d : LseDecoded) (t : State) : BitVec 64 :=
  (readMem t.mem (t.gpr d.rn) (accessBytes d.size)).setWidth 64

theorem readMem_of_saved {vs : List (BitVec 64)} {ws : List Reg} {s t : State} {a : Addr}
    {size : BitVec 2} (h : Saved vs ws s t) (hlength : vs.length ≤ 4)
    (hapart : Apart a (accessBytes size) (s.sp - 64#64) 64) :
    readMem t.mem a (accessBytes size) = readMem s.mem a (accessBytes size) :=
  readMem_congr (accessBytes_le_two_pow size) fun b hb => h.mem b (h.apart hlength hapart b hb)

theorem saved_mov {d : LseDecoded} {vs : List (BitVec 64)} {ws : List Reg} (rd : Reg) {r : Reg}
    {s t u : State} (hr : r ≠ 31#5) (hvalue : u.gpr r = oldValue d t) (h : Saved vs ws s u) :
    Saved vs ws (s.writeX rd (oldValue d t)) (runSeq (movUnlessZero (isX d.size) rd r) u) := by
  have hmov : aluResult .orr (isX d.size) 0#64 (oldValue d t) = oldValue d t :=
    aluResult_mov_loaded _
  have heffect : effect (.alu .orr (isX d.size) rd 31#5 r) u = u.writeX rd (oldValue d t) := by
    rw [← hmov, ← hvalue, ← State.readX_of_ne hr]
    rfl
  have hwritten := h.write_register rd (oldValue d t)
  unfold movUnlessZero
  split
  · rename_i hrd
    simpa only [State.writeX, hrd, if_true, runSeq_nil] using h
  · exact Saved.exec (heffect ▸ hwritten)

theorem sequential_mov (sf : Bool) (rd rn : Reg) :
    ∀ i ∈ movUnlessZero sf rd rn, i.Sequential = true := by
  unfold movUnlessZero
  split <;> simp [Instr.Sequential]

end Machgate.LseArithmetic
