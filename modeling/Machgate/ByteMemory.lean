import Mathlib.Data.BitVec

namespace Machgate.ByteMemory

open BitVec Nat

abbrev Addr := BitVec 64

abbrev Memory := Addr → BitVec 8

/-- The byte `b` is one of the `n` bytes that start at `a`.  Addresses wrap. -/
def InRange (a : Addr) (n : Nat) (b : Addr) : Prop :=
  (b - a).toNat < n

instance (a : Addr) (n : Nat) (b : Addr) : Decidable (InRange a n b) :=
  inferInstanceAs (Decidable (_ < _))

def Apart (a : Addr) (n : Nat) (c : Addr) (m : Nat) : Prop :=
  ∀ b, InRange a n b → ¬ InRange c m b

variable {a b : Addr} {n m k w : Nat} {mem : Memory}

theorem Apart.symm {c : Addr} (h : Apart a n c m) : Apart c m a n :=
  fun b hc ha => h b ha hc

theorem apart_of_le {c : Addr} (h : a.toNat + n ≤ c.toNat)
    (hc : c.toNat + m ≤ 2 ^ 64) : Apart a n c m := by
  intro b ha hb
  rw [InRange, toNat_sub] at ha hb
  omega

theorem apart_offsets (a : Addr) {i j : Nat} (h : i + n ≤ j) (hj : j + m ≤ 2 ^ 64) :
    Apart (a + BitVec.ofNat 64 i) n (a + BitVec.ofNat 64 j) m := by
  intro b hb hb'
  have hfirst : (b - a - BitVec.ofNat 64 i).toNat < n := by rwa [BitVec.sub_sub]
  have hsecond : (b - a - BitVec.ofNat 64 j).toNat < m := by rwa [BitVec.sub_sub]
  rw [toNat_sub, toNat_ofNat] at hfirst hsecond
  omega

theorem inRange_add (hk : k < n) (hn : n ≤ 2 ^ 64)
    (hb : b = a + BitVec.ofNat 64 k) : InRange a n b := by
  subst hb
  rw [InRange, add_sub_cancel_left, toNat_ofNat, mod_eq_of_lt (by omega)]
  exact hk

theorem InRange.exists_eq (h : InRange a n b) : ∃ k, k < n ∧ b = a + BitVec.ofNat 64 k := by
  refine ⟨(b - a).toNat, h, ?_⟩
  rw [ofNat_toNat, setWidth_eq, BitVec.add_comm, BitVec.sub_add_cancel]

theorem InRange.widen
    (h : InRange (a + BitVec.ofNat 64 k) n b) (hm : k + n ≤ m) (hbound : m ≤ 2 ^ 64) :
    InRange a m b := by
  obtain ⟨j, hj, rfl⟩ := h.exists_eq
  refine inRange_add (k := k + j) (by omega) hbound ?_
  rw [ofNat_add, BitVec.add_assoc]

theorem InRange.mono (h : InRange a n b) (hm : n ≤ m) : InRange a m b :=
  Nat.lt_of_lt_of_le h hm

theorem InRange.not_below
    (h : InRange (a + BitVec.ofNat 64 k) n b) (hbound : k + n ≤ 2 ^ 64) : ¬ InRange a k b := by
  obtain ⟨j, hj, rfl⟩ := h.exists_eq
  rw [InRange, BitVec.add_assoc, ← ofNat_add, add_sub_cancel_left, toNat_ofNat,
    mod_eq_of_lt (by omega)]
  omega

def readMem (mem : Memory) (a : Addr) : (n : Nat) → BitVec (8 * n)
  | 0 => 0#0
  | n + 1 => readMem mem (a + 1#64) n ++ mem a

/-- Little-endian store of the low `n` bytes of `v`. -/
def writeMem {w : Nat} (mem : Memory) (a : Addr) (n : Nat) (v : BitVec w) : Memory :=
  fun b => if InRange a n b then v.extractLsb' (8 * (b - a).toNat) 8 else mem b

theorem getLsbD_readMem (mem : Memory) (a : Addr) (n i : Nat) :
    (readMem mem a n).getLsbD i =
      (decide (i < 8 * n) && (mem (a + BitVec.ofNat 64 (i / 8))).getLsbD (i % 8)) := by
  induction n generalizing a i with
  | zero => simp [readMem]
  | succ n ih =>
    rw [readMem, getLsbD_append]
    by_cases hi : i < 8
    · simp [hi, div_eq_of_lt hi, mod_eq_of_lt hi, show i < 8 * (n + 1) by omega]
    · have hdiv : i / 8 = 1 + (i - 8) / 8 := by omega
      have hmod : i % 8 = (i - 8) % 8 := by omega
      have hlt : i - 8 < 8 * n ↔ i < 8 * (n + 1) := by omega
      rw [if_neg hi, ih, hdiv, hmod, ofNat_add, BitVec.add_assoc, decide_eq_decide.mpr hlt]

theorem readMem_congr {mem' : Memory} (hn : n ≤ 2 ^ 64)
    (h : ∀ b, InRange a n b → mem b = mem' b) : readMem mem a n = readMem mem' a n := by
  apply eq_of_getLsbD_eq
  intro i hi
  rw [getLsbD_readMem, getLsbD_readMem]
  rw [h _ (inRange_add (k := i / 8) (by omega) hn rfl)]

theorem writeMem_of_inRange {v : BitVec w} (h : InRange a n b) :
    writeMem mem a n v b = v.extractLsb' (8 * (b - a).toNat) 8 := by
  simp [writeMem, h]

theorem writeMem_of_not_inRange
    {v : BitVec w} (h : ¬ InRange a n b) : writeMem mem a n v b = mem b := by
  simp [writeMem, h]

theorem readMem_writeMem (mem : Memory) (a : Addr) (v : BitVec w)
    (hn : n ≤ 2 ^ 64) : readMem (writeMem mem a n v) a n = v.setWidth (8 * n) := by
  apply eq_of_getLsbD_eq
  intro i hi
  have hin : InRange a n (a + BitVec.ofNat 64 (i / 8)) := inRange_add (by omega) hn rfl
  have hoff : (a + BitVec.ofNat 64 (i / 8) - a).toNat = i / 8 := by
    rw [add_sub_cancel_left, toNat_ofNat, mod_eq_of_lt (by omega)]
  rw [getLsbD_readMem, writeMem_of_inRange hin, hoff, getLsbD_extractLsb', getLsbD_setWidth]
  have hmod : i % 8 < 8 := mod_lt _ (by decide)
  simp only [hi, hmod, decide_true, Bool.true_and]
  congr 1
  omega

theorem writeMem_readMem (mem : Memory) (a : Addr) (n : Nat) :
    writeMem mem a n (readMem mem a n) = mem := by
  funext b
  by_cases hb : InRange a n b
  · have hlt : (b - a).toNat < n := hb
    rw [writeMem_of_inRange hb]
    apply eq_of_getLsbD_eq
    intro i hi
    have hdiv : (8 * (b - a).toNat + i) / 8 = (b - a).toNat := by omega
    have hmod : (8 * (b - a).toNat + i) % 8 = i := by omega
    rw [getLsbD_extractLsb', getLsbD_readMem, hdiv, hmod, ofNat_toNat,
      setWidth_eq, BitVec.add_comm, BitVec.sub_add_cancel]
    simp only [hi, decide_true, Bool.true_and, Bool.and_eq_right_iff_imp, decide_eq_true_eq]
    omega
  · exact writeMem_of_not_inRange hb

theorem writeMem_eq_iff {w' : Nat} {v : BitVec w} {v' : BitVec w'} (hn : n ≤ 2 ^ 64) :
    writeMem mem a n v = writeMem mem a n v' ↔ v.setWidth (8 * n) = v'.setWidth (8 * n) := by
  constructor
  · intro h
    rw [← readMem_writeMem mem a v hn, h, readMem_writeMem mem a v' hn]
  · intro h
    funext b
    by_cases hb : InRange a n b
    · rw [writeMem_of_inRange hb, writeMem_of_inRange hb]
      apply eq_of_getLsbD_eq
      intro i hi
      have hlt : 8 * (b - a).toNat + i < 8 * n := by
        have : (b - a).toNat < n := hb
        omega
      have hbit := congrArg (getLsbD · (8 * (b - a).toNat + i)) h
      simp only [getLsbD_setWidth, hlt, decide_true, Bool.true_and] at hbit
      rw [getLsbD_extractLsb', getLsbD_extractLsb', hbit]
    · rw [writeMem_of_not_inRange hb, writeMem_of_not_inRange hb]

theorem ite_writeMem (v : BitVec w) (hn : n ≤ 2 ^ 64) (p : Prop) [Decidable p] :
    (if p then writeMem mem a n v else mem) =
      writeMem mem a n (if p then v.setWidth (8 * n) else readMem mem a n) := by
  split
  · rw [writeMem_eq_iff hn, setWidth_eq]
  · exact (writeMem_readMem mem a n).symm

end Machgate.ByteMemory
