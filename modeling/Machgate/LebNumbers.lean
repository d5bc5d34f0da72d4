import Machgate.NativeEhFrame

namespace Machgate.LebNumbers

open RecordBuffer EhFrameRecords NativeEhFrame BitVec

/-- The loop of `read_uleb128`, which counts the bytes it has taken. -/
def readUleb128From : Nat → Nat → BitVec 64 → List Octet → BitVec 64 × Nat
  | n, _, result, [] => (result, n)
  | n, shift, result, byte :: p =>
    let result := result ||| (byte &&& 0x7f).setWidth 64 <<< shift
    if byte &&& 0x80 = 0 then (result, n + 1) else readUleb128From (n + 1) (shift + 7) result p

def readUleb128 (buf : List Octet) : BitVec 64 × Nat := readUleb128From 0 0 0 buf

def signFill (shift : Nat) (byte : Octet) (result : BitVec 64) : BitVec 64 :=
  if shift < 64 ∧ byte &&& 0x40 ≠ 0 then result ||| -((1 : BitVec 64) <<< shift) else result

/-- The loop of `read_sleb128`, whose `byte` is 0 at first. -/
def readSleb128From : Nat → Nat → BitVec 64 → Octet → List Octet → BitVec 64 × Nat
  | n, shift, result, byte, [] => (signFill shift byte result, n)
  | n, shift, result, _, byte :: p =>
    let result := result ||| (byte &&& 0x7f).setWidth 64 <<< shift
    if byte &&& 0x80 = 0 then (signFill (shift + 7) byte result, n + 1)
    else readSleb128From (n + 1) (shift + 7) result byte p

def readSleb128 (buf : List Octet) : BitVec 64 × Nat := readSleb128From 0 0 0 0 buf

/-- The loop of `eh_read_sleb128`; `none` is a test of a `byte` that was never set. -/
def readSlebFrom : Nat → BitVec 64 → Option Octet → List Octet → Option (BitVec 64 × List Octet)
  | shift, result, byte, [] => byte.map fun byte => (signFill shift byte result, [])
  | shift, result, _, byte :: p =>
    let result := result ||| (byte &&& 0x7f).setWidth 64 <<< shift
    if byte &&& 0x80 = 0 then some (signFill (shift + 7) byte result, p)
    else readSlebFrom (shift + 7) result (some byte) p

def ehReadSleb128 (p : List Octet) : Option (BitVec 64 × List Octet) := readSlebFrom 0 0 none p

/-- The loops of a kind take the same bytes, and the one of the unwinder returns what is left. -/
theorem readUleb128From_eq (n shift : Nat) (result : BitVec 64) (p : List Octet) :
    readUleb128From n shift result p = ((readUlebFrom shift result p).1,
      n + p.length - (readUlebFrom shift result p).2.length) := by
  induction p generalizing n shift result with
  | nil => rfl
  | cons byte p ih =>
    rw [readUleb128From, readUlebFrom, List.length_cons, Nat.add_comm p.length, ← Nat.add_assoc]
    split
    · rw [Nat.add_sub_cancel]
    · exact ih ..

theorem some_readSleb128From (n shift : Nat) (result : BitVec 64) (byte : Octet) (p : List Octet) :
    some (readSleb128From n shift result byte p) = (readSlebFrom shift result (some byte) p).map
      fun r => (r.1, n + p.length - r.2.length) := by
  induction p generalizing n shift result byte with
  | nil => rfl
  | cons next p ih =>
    rw [readSleb128From, readSlebFrom, List.length_cons, Nat.add_comm p.length, ← Nat.add_assoc]
    split
    · rw [Option.map_some, Nat.add_sub_cancel]
    · exact ih ..

theorem groupByte : ∀ m < 128, (BitVec.ofNat 8 m &&& 0x7f).setWidth 64 = BitVec.ofNat 64 m ∧
    (BitVec.ofNat 8 (m + 128) &&& 0x7f).setWidth 64 = BitVec.ofNat 64 m ∧
    BitVec.ofNat 8 m &&& 0x80 = 0 ∧ BitVec.ofNat 8 (m + 128) &&& 0x80 ≠ 0 ∧
    (BitVec.ofNat 8 m &&& 0x40 ≠ 0 ↔ 64 ≤ m) := by
  decide

/-- A group and the groups above it. -/
theorem group_or (v : Int) (shift : Nat) :
    BitVec.ofNat 64 (v % 128).toNat <<< shift ||| BitVec.ofInt 64 (v / 128) <<< (shift + 7) =
      BitVec.ofInt 64 v <<< shift := by
  have hlow : (v % 128).toNat < 2 ^ 7 := by omega
  have hdisjoint : BitVec.ofNat 64 (v % 128).toNat &&& BitVec.ofInt 64 (v / 128) <<< 7 = 0 := by
    apply eq_of_getLsbD_eq
    intro i hi
    rcases Nat.lt_or_ge i 7 with h | h
    · simp [h]
    · have hbit := Nat.testBit_lt_two_pow (hlow.trans_le (Nat.pow_le_pow_right (by decide) h))
      simp [getLsbD_ofNat, hbit]
  have hsum : ((v % 128).toNat : Int) + v / 128 * 128 = v := by omega
  rw [Nat.add_comm, shiftLeft_add, ← shiftLeft_or_distrib, ← add_eq_or_of_and_eq_zero _ _ hdisjoint,
    shiftLeft_eq_mul_twoPow (BitVec.ofInt 64 (v / 128))]
  change (BitVec.ofInt 64 (v % 128).toNat + BitVec.ofInt 64 (v / 128) * BitVec.ofInt 64 128) <<<
    shift = _
  rw [← ofInt_mul, ← ofInt_add, hsum]

theorem readUlebFrom_ulebGroups (rest : List Octet) {fuel v : Nat} (hfuel : fuel ≠ 0)
    (h : v < 128 ^ fuel) (shift : Nat) (result : BitVec 64) :
    readUlebFrom shift result (ulebGroups fuel v ++ rest) =
      (result ||| BitVec.ofInt 64 v <<< shift, rest) := by
  induction fuel generalizing v shift result with
  | zero => exact absurd rfl hfuel
  | succ fuel ih =>
    obtain ⟨hlast, hmore, hend, hnext, -⟩ := groupByte (v % 128) (by omega)
    have hgroup : BitVec.ofNat 64 (v % 128) <<< shift |||
        BitVec.ofInt 64 (v / 128 : Nat) <<< (shift + 7) = BitVec.ofInt 64 v <<< shift :=
      group_or v shift
    rw [ulebGroups, ← hgroup]
    split
    · next hv =>
      rw [List.cons_append, readUlebFrom, hlast, if_pos hend, hv]
      simp
    · next hv =>
      have hlt : v / 128 < 128 ^ fuel :=
        Nat.div_lt_of_lt_mul (by rwa [Nat.mul_comm, ← Nat.pow_succ])
      have hne : fuel ≠ 0 := by
        rintro rfl
        exact hv (Nat.lt_one_iff.mp hlt)
      rw [List.cons_append, readUlebFrom, hmore, if_neg hnext, ih hne hlt, BitVec.or_assoc]

theorem signFill_last {v : Int} (shift : Nat) (result : BitVec 64)
    (h : v / 128 = 0 ∧ (v % 128).toNat < 64 ∨ v / 128 = -1 ∧ 64 ≤ (v % 128).toNat) :
    signFill (shift + 7) (BitVec.ofNat 8 (v % 128).toNat)
      (result ||| BitVec.ofNat 64 (v % 128).toNat <<< shift) =
      result ||| BitVec.ofInt 64 v <<< shift := by
  have hsign := (groupByte (v % 128).toNat (by omega)).2.2.2.2
  simp only [signFill, hsign, ← group_or v shift]
  rcases h with ⟨hv, hbyte⟩ | ⟨hv, hbyte⟩
  · rw [if_neg (by omega), hv]
    simp
  · rw [hv]
    have hneg : -((1 : BitVec 64) <<< (shift + 7)) = BitVec.ofInt 64 (-1) <<< (shift + 7) := by
      rw [shiftLeft_eq_mul_twoPow, shiftLeft_eq_mul_twoPow, ← BitVec.neg_mul]
      rfl
    split
    · rw [hneg, BitVec.or_assoc]
    · next hshift => rw [shiftLeft_eq_zero (x := BitVec.ofInt 64 (-1)) (by omega), BitVec.or_zero]

theorem readSlebFrom_slebGroups (rest : List Octet) {fuel : Nat} {v : Int} (hfuel : fuel ≠ 0)
    (hlow : -128 ^ fuel ≤ 2 * v) (hhigh : 2 * v < 128 ^ fuel) (shift : Nat) (result : BitVec 64)
    (byte : Option Octet) :
    readSlebFrom shift result byte (slebGroups fuel v ++ rest) =
      some (result ||| BitVec.ofInt 64 v <<< shift, rest) := by
  induction fuel generalizing v shift result byte with
  | zero => exact absurd rfl hfuel
  | succ fuel ih =>
    obtain ⟨hlast, hmore, hend, hnext, -⟩ := groupByte (v % 128).toNat (by omega)
    rw [slebGroups]
    split
    · next hv =>
      rw [List.cons_append, readSlebFrom, hlast, if_pos hend, signFill_last shift result hv]
      rfl
    · obtain ⟨fuel, rfl⟩ : ∃ n, fuel = n + 1 := ⟨fuel - 1, by grind⟩
      rw [List.cons_append, readSlebFrom, hmore, if_neg hnext,
        ih (by omega) (by omega) (by omega), BitVec.or_assoc, group_or]

/-- Each reader takes back what the emitter of its kind wrote, and the readers of a kind agree. On
ten bytes or fewer no shift is as wide as the word. -/
theorem leb128_roundTrip (v : BitVec 64) (rest : List Octet) (first : Octet) (buf : List Octet) :
    (readUleb128 (ehfUleb128 v ++ rest) = (v, (ehfUleb128 v).length) ∧
      ehReadUleb128 (ehfUleb128 v ++ rest) = (v, rest) ∧
      readSleb128 (ehfSleb128 v ++ rest) = (v, (ehfSleb128 v).length) ∧
      ehReadSleb128 (ehfSleb128 v ++ rest) = some (v, rest)) ∧
    readUleb128 (first :: buf) = ((ehReadUleb128 (first :: buf)).1,
      (first :: buf).length - (ehReadUleb128 (first :: buf)).2.length) ∧
    some (readSleb128 (first :: buf)) = (ehReadSleb128 (first :: buf)).map fun r =>
      (r.1, (first :: buf).length - r.2.length) := by
  have hunsigned : readUlebFrom 0 0 (ehfUleb128 v ++ rest) = (v, rest) := by
    rw [ehfUleb128, readUlebFrom_ulebGroups rest (by decide) (by omega)]
    simp
  have hsigned (byte) : readSlebFrom 0 0 byte (ehfSleb128 v ++ rest) = some (v, rest) := by
    have hlow := v.le_two_mul_toInt
    have hhigh := v.two_mul_toInt_lt
    rw [ehfSleb128, readSlebFrom_slebGroups rest (by decide) (by omega) (by omega)]
    simp
  refine ⟨⟨?_, hunsigned, ?_, hsigned none⟩, ?_, ?_⟩
  · rw [readUleb128, readUleb128From_eq, hunsigned, Nat.zero_add, List.length_append,
      Nat.add_sub_cancel]
  · apply Option.some.inj
    rw [readSleb128, some_readSleb128From, hsigned, Option.map_some, Nat.zero_add,
      List.length_append, Nat.add_sub_cancel]
  · rw [readUleb128, readUleb128From_eq, Nat.zero_add, ehReadUleb128]
  · rw [readSleb128, some_readSleb128From, Nat.zero_add]
    rfl

end Machgate.LebNumbers
