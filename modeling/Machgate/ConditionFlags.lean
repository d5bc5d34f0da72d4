import Mathlib.Data.BitVec

namespace Machgate.ConditionFlags

open BitVec Bool Nat

structure Nzcv where
  n : Bool
  z : Bool
  c : Bool
  v : Bool
deriving DecidableEq, Repr

/-- The NZCV system register: the flags in bits 31 to 28. -/
def Nzcv.pack (f : Nzcv) : BitVec 64 :=
  (BitVec.ofBool f.n ++ BitVec.ofBool f.z ++ BitVec.ofBool f.c ++ BitVec.ofBool f.v ++
    0#28).setWidth 64

def Nzcv.unpack (x : BitVec 64) : Nzcv :=
  { n := x.getLsbD 31, z := x.getLsbD 30, c := x.getLsbD 29, v := x.getLsbD 28 }

@[simp] theorem Nzcv.unpack_pack (f : Nzcv) : Nzcv.unpack f.pack = f := by
  obtain ⟨n, z, c, v⟩ := f
  cases n <;> cases z <;> cases c <;> cases v <;> decide

/-- The adder of the architecture: the sum of two operands and a carry, with
the flags that describe it. -/
def addWithCarry {w : Nat} (x y : BitVec w) (carry : Bool) : BitVec w × Nzcv :=
  let unsignedSum := x.toNat + y.toNat + carry.toNat
  let signedSum := x.toInt + y.toInt + carry.toNat
  let result := BitVec.ofNat w unsignedSum
  (result,
    { n := result.msb
      z := result == 0#w
      c := decide (result.toNat ≠ unsignedSum)
      v := decide (result.toInt ≠ signedSum) })

def subtract {w : Nat} (x y : BitVec w) : BitVec w × Nzcv :=
  addWithCarry x (~~~y) true

theorem subtract_fst {w : Nat} (x y : BitVec w) : (subtract x y).1 = x - y := by
  apply eq_of_toNat_eq
  simp only [subtract, addWithCarry, toNat_ofNat, toNat_not, toNat_sub, toNat_true]
  congr 1
  omega

theorem subtract_z {w : Nat} (x y : BitVec w) : (subtract x y).2.z = (x == y) := by
  have hz : (subtract x y).2.z = ((subtract x y).1 == 0#w) := rfl
  rw [hz, subtract_fst, Bool.eq_iff_iff, beq_iff_eq, beq_iff_eq]
  exact sub_eq_zero

theorem subtract_c {w : Nat} (x y : BitVec w) :
    (subtract x y).2.c = decide (y.toNat ≤ x.toNat) := by
  have hsum : x.toNat + (~~~y).toNat + true.toNat = x.toNat + 2 ^ w - y.toNat := by
    rw [toNat_not, toNat_true]
    omega
  have hc : (subtract x y).2.c =
      decide ((BitVec.ofNat w (x.toNat + (~~~y).toNat + true.toNat)).toNat ≠
        x.toNat + (~~~y).toNat + true.toNat) := rfl
  rw [hc, hsum, toNat_ofNat, decide_eq_decide]
  constructor
  · intro h
    by_contra hlt
    exact h (mod_eq_of_lt (by omega))
  · intro hle h
    omega

theorem toNat_sub_eq_ite {w : Nat} (x y : BitVec w) :
    (x - y).toNat =
      if y.toNat ≤ x.toNat then x.toNat - y.toNat else 2 ^ w + x.toNat - y.toNat := by
  rw [toNat_sub]
  split
  · rw [mod_eq_sub_mod (by omega), mod_eq_of_lt (by omega)]
    omega
  · rw [mod_eq_of_lt (by omega)]
    omega

/-- The signed comparison survives overflow: the sign of the wrapped
difference is wrong exactly when the overflow flag says so. -/
theorem subtract_n_bne_v {w : Nat} (hw : 0 < w) (x y : BitVec w) :
    ((subtract x y).2.n != (subtract x y).2.v) = decide (x.toInt < y.toInt) := by
  have hn : (subtract x y).2.n = (subtract x y).1.msb := rfl
  have hv : (subtract x y).2.v =
      decide ((subtract x y).1.toInt ≠ x.toInt + (~~~y).toInt + (true.toNat : Int)) := rfl
  have heven : 2 ^ w = 2 * 2 ^ (w - 1) := by
    rw [← Nat.pow_succ', succ_eq_add_one, Nat.sub_add_cancel hw]
  rw [hn, hv, subtract_fst, msb_eq_toInt, Bool.eq_iff_iff]
  simp only [toInt_eq_toNat_cond, toNat_sub_eq_ite, toNat_not, toNat_true,
    bne_iff_ne, ne_eq, decide_eq_decide, decide_eq_true_eq]
  split_ifs <;> omega

def condHolds (cond : BitVec 4) (f : Nzcv) : Bool :=
  let base : Bool :=
    match (cond.extractLsb' 1 3).toNat with
    | 0 => f.z
    | 1 => f.c
    | 2 => f.n
    | 3 => f.v
    | 4 => f.c && !f.z
    | 5 => f.n == f.v
    | 6 => f.n == f.v && !f.z
    | _ => true
  if cond.getLsbD 0 && cond != 15#4 then !base else base

abbrev condNe : BitVec 4 := 0x1#4
abbrev condLo : BitVec 4 := 0x3#4
abbrev condHi : BitVec 4 := 0x8#4
abbrev condLt : BitVec 4 := 0xB#4
abbrev condGt : BitVec 4 := 0xC#4

variable {w : Nat} (x y : BitVec w)

theorem condHolds_ne : condHolds condNe (subtract x y).2 = (x != y) := by
  rw [bne, ← subtract_z]
  rfl

theorem condHolds_lo : condHolds condLo (subtract x y).2 = decide (x.toNat < y.toNat) := by
  have h : condHolds condLo (subtract x y).2 = !(subtract x y).2.c := rfl
  rw [h, subtract_c, ← decide_not, decide_eq_decide, Nat.not_le]

theorem condHolds_hi : condHolds condHi (subtract x y).2 = decide (y.toNat < x.toNat) := by
  have h : condHolds condHi (subtract x y).2 =
      ((subtract x y).2.c && !(subtract x y).2.z) := rfl
  rw [h, subtract_c, subtract_z, Bool.eq_iff_iff]
  simp only [and_eq_true, decide_eq_true_eq, not_eq_true', beq_eq_false_iff_ne, ne_eq, ← toNat_inj]
  omega

theorem condHolds_lt (hw : 0 < w) :
    condHolds condLt (subtract x y).2 = decide (x.toInt < y.toInt) := by
  rw [← subtract_n_bne_v hw, bne]
  rfl

theorem condHolds_gt (hw : 0 < w) :
    condHolds condGt (subtract x y).2 = decide (y.toInt < x.toInt) := by
  have h : condHolds condGt (subtract x y).2 =
      (!((subtract x y).2.n != (subtract x y).2.v) && !(subtract x y).2.z) := by
    rw [bne, Bool.not_not]
    rfl
  rw [h, subtract_n_bne_v hw, subtract_z, Bool.eq_iff_iff]
  simp only [and_eq_true, decide_eq_true_eq, not_eq_true', decide_eq_false_iff_not,
    beq_eq_false_iff_ne, ne_eq, ← toInt_inj]
  omega

end Machgate.ConditionFlags
