import Mathlib.Tactic.Ring
import Machgate.Instructions

namespace Machgate.WordPointers

open ByteMemory Instructions
open BitVec hiding sub_eq_add_neg

/-- A pointer to an instruction word, counted in words: the pointer itself
rules out misaligned code. -/
abbrev WordPtr := BitVec 62

def toAddr (p : WordPtr) : Addr :=
  p ++ 0#2

def wordDistance (p q : WordPtr) : Int :=
  (p - q).toInt

/-- The signed 26-bit range of a direct branch, in words. -/
def FitsBranch (distance : Int) : Prop :=
  -0x02000000 ≤ distance ∧ distance ≤ 0x01FFFFFF

instance (distance : Int) : Decidable (FitsBranch distance) :=
  inferInstanceAs (Decidable (_ ∧ _))

theorem toAddr_eq_ofInt (p : WordPtr) : toAddr p = BitVec.ofInt 64 (4 * p.toInt) := by
  have h : (toAddr p).toInt = 4 * p.toInt := toInt_append_zero
  rw [← h, ofInt_toInt]

theorem toAddr_injective : Function.Injective toAddr := by
  intro p q h
  have hp : (toAddr p).extractLsb' 2 62 = p := extractLsb'_append_eq_left
  rw [← hp, h]
  exact extractLsb'_append_eq_left

theorem toAddr_ofInt (x : Int) : toAddr (BitVec.ofInt 62 x) = BitVec.ofInt 64 (4 * x) := by
  apply eq_of_toInt_eq
  rw [toAddr_eq_ofInt, toInt_ofInt, toInt_ofInt, toInt_ofInt]
  simp only [Int.bmod_def]
  omega

theorem toAddr_add (p q : WordPtr) : toAddr (p + q) = toAddr p + toAddr q := by
  rw [toAddr_eq_ofInt p, toAddr_eq_ofInt q, ← ofInt_add, ← Int.mul_add, ← toAddr_ofInt,
    ofInt_add, ofInt_toInt, ofInt_toInt]

variable {k : Nat} {p q : WordPtr}

theorem branchOffset_eq (imm : BitVec k) :
    branchOffset imm = toAddr (BitVec.ofInt 62 imm.toInt) := by
  have h : (imm ++ 0#2).toInt = 4 * imm.toInt := toInt_append_zero
  rw [branchOffset, signExtend, h, toAddr_ofInt]

theorem toInt_immediate (hk : k ≤ 32) (x : Int) :
    ((BitVec.ofInt 32 x).setWidth k).toInt = x.bmod (2 ^ k) := by
  rw [← signExtend_eq_setWidth_of_le _ hk, toInt_signExtend, toInt_ofInt,
    Nat.min_eq_left hk, Int.bmod_bmod_of_dvd (Nat.pow_dvd_pow 2 hk)]

/-- A direct branch at `p` whose displacement was computed as the distance to
`q` arrives at `q` exactly when that distance fits. -/
theorem branch_reaches_iff (p q : WordPtr) :
    toAddr p + branchOffset ((BitVec.ofInt 32 (wordDistance q p)).setWidth 26) = toAddr q ↔
      FitsBranch (wordDistance q p) := by
  rw [branchOffset_eq, ← toAddr_add, toAddr_injective.eq_iff, toInt_immediate (by decide)]
  have hsub : p + BitVec.ofInt 62 ((wordDistance q p).bmod (2 ^ 26)) = q ↔
      BitVec.ofInt 62 ((wordDistance q p).bmod (2 ^ 26)) = q - p := by
    rw [eq_sub_iff_add_eq, add_comm]
  rw [hsub, ← toInt_inj, toInt_ofInt]
  unfold FitsBranch wordDistance
  simp only [Int.bmod_def]
  omega

theorem toAddr_next (p : WordPtr) : toAddr (p + 1#62) = toAddr p + 4#64 :=
  toAddr_add p 1#62

theorem wordDistance_return (hfits : FitsBranch (wordDistance p q)) (hk : k < 2 ^ 32) :
    wordDistance (q + 1#62) (p + BitVec.ofNat 62 k) = 1 - k - wordDistance p q := by
  have hback : q + 1#62 - (p + BitVec.ofNat 62 k) =
      BitVec.ofInt 62 (1 - k - wordDistance p q) := by
    rw [sub_eq_add_neg (1 - (k : Int)), sub_eq_add_neg (1 : Int), ofInt_add,
      ofInt_add, ofInt_neg, ofInt_neg, wordDistance, ofInt_toInt, ofInt_natCast]
    change q + 1#62 - (p + _) = 1#62 + _ + _
    ring
  obtain ⟨hlow, hhigh⟩ := hfits
  rw [wordDistance, hback, toInt_ofInt, Int.bmod_def]
  omega

/-- Code of `n` words that is in reach of `q` can branch back behind `q` with
its last word exactly when it does not start too far above. -/
theorem fitsBranch_return_iff (hfits : FitsBranch (wordDistance p q)) {n : Nat}
    (hlow : 3 ≤ n) (hhigh : n ≤ 2 ^ 32) :
    FitsBranch (wordDistance (q + 1#62) (p + BitVec.ofNat 62 (n - 1))) ↔
      wordDistance p q + n ≤ 0x02000002 := by
  rw [wordDistance_return hfits (by omega)]
  unfold FitsBranch at *
  omega

theorem toNat_add_ofNat (h : p.toNat + k < 2 ^ 62) :
    (p + BitVec.ofNat 62 k).toNat = p.toNat + k := by
  rw [BitVec.toNat_add, BitVec.toNat_ofNat, Nat.mod_eq_of_lt (a := k) (by omega),
    Nat.mod_eq_of_lt h]

theorem wordDistance_eq (hlow : q.toNat < p.toNat + 2 ^ 61)
    (hhigh : p.toNat < q.toNat + 2 ^ 61) : wordDistance p q = p.toNat - q.toNat := by
  rw [wordDistance, toInt_sub, toInt_eq_toNat_bmod, toInt_eq_toNat_bmod]
  simp only [Int.bmod_def]
  omega

def writeWords {α : Type} (mem : WordPtr → α) (base : WordPtr) (words : List α) : WordPtr → α :=
  fun p => words[(p - base).toNat]?.getD (mem p)

theorem writeWords_add {α : Type} {mem : WordPtr → α} {base : WordPtr} {words : List α}
    {w : α} (hlength : words.length ≤ 2 ^ 62) (hw : words[k]? = some w) :
    writeWords mem base words (base + BitVec.ofNat 62 k) = w := by
  have hk : k < words.length := (List.getElem?_eq_some_iff.mp hw).1
  rw [writeWords, add_sub_cancel_left, BitVec.toNat_ofNat, Nat.mod_eq_of_lt (by omega), hw,
    Option.getD_some]

theorem writeWords_of_outside {α : Type} {mem : WordPtr → α} {base : WordPtr} {words : List α}
    (hfits : base.toNat + words.length ≤ 2 ^ 62)
    (hp : p.toNat < base.toNat ∨ base.toNat + words.length ≤ p.toNat) :
    writeWords mem base words p = mem p := by
  have hout : words.length ≤ (p - base).toNat := by
    rw [toNat_sub]
    omega
  rw [writeWords, List.getElem?_eq_none hout, Option.getD_none]

end Machgate.WordPointers
