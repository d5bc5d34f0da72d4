import Mathlib.Data.BitVec
import Mathlib.Data.Nat.NthRoot.Defs
import Mathlib.Data.Nat.Prime.Basic
import Mathlib.Data.Vector.Defs
import Machgate.BlockStream

/-!
SHA-256 of a string of bits, as FIPS 180-4 has it.
-/

namespace Machgate.Sha256

open BlockStream BitVec Nat
open List hiding Vector

abbrev Word := BitVec 32

abbrev Bits := List Bool

def wordBits {n : Nat} (w : BitVec n) : Bits := (range n).map w.getMsbD

def ofBits (n : Nat) (bits : Bits) : BitVec n :=
  BitVec.ofNat n (bits.foldl (fun v b => 2 * v + b.toNat) 0)

@[simp]
theorem length_wordBits {n : Nat} (w : BitVec n) : (wordBits w).length = n := by
  rw [wordBits, length_map, length_range]

theorem range_mul_flatMap {α : Type} (f : Nat → α) (width n : Nat) :
    (range (width * n)).map f =
      (range n).flatMap fun i => (range width).map fun j => f (width * i + j) := by
  induction n with
  | zero => rfl
  | succ n ih =>
    rw [Nat.mul_succ, range_add, map_append, ih, range_succ, flatMap_append,
      flatMap_singleton, map_map]
    rfl

/-- The bits of a word are those of its bytes, the most significant byte first. -/
theorem wordBits_eq_flatMap {n : Nat} (w : BitVec (8 * n)) :
    wordBits w =
      (range n).flatMap fun i => wordBits ((w >>> (8 * (n - 1 - i))).setWidth 8) := by
  rw [wordBits, range_mul_flatMap]
  refine flatMap_congr fun i hi => map_congr_left fun j hj => ?_
  rw [mem_range] at hi hj
  have hplace : 8 * n - 1 - (8 * i + j) = 8 * (n - 1 - i) + (8 - 1 - j) := by omega
  rw [getMsbD, getMsbD, getLsbD_setWidth, getLsbD_ushiftRight, hplace]
  simp only [hj, show 8 * i + j < 8 * n by omega, show 8 - 1 - j < 8 by omega, decide_true,
    Bool.true_and]

theorem foldl_bits (bits : Bits) (v : Nat) :
    bits.foldl (fun v b => 2 * v + b.toNat) v =
      2 ^ bits.length * v + bits.foldl (fun v b => 2 * v + b.toNat) 0 := by
  induction bits generalizing v with
  | nil => simp
  | cons b bits ih =>
    rw [foldl_cons, foldl_cons, ih, ih (2 * 0 + b.toNat), length_cons]
    ring

theorem foldl_wordBits (b : BitVec 8) :
    (wordBits b).foldl (fun v b => 2 * v + b.toNat) 0 = b.toNat := by
  revert b
  decide +kernel

theorem foldl_flatMap_wordBits (bytes : List (BitVec 8)) (v : Nat) :
    (bytes.flatMap wordBits).foldl (fun v b => 2 * v + b.toNat) v =
      bytes.foldl (fun v b => 256 * v + b.toNat) v := by
  induction bytes generalizing v with
  | nil => rfl
  | cons b bytes ih =>
    rw [flatMap_cons, foldl_append, foldl_cons, ih, foldl_bits, foldl_wordBits, length_wordBits]
    rfl

def ch (x y z : Word) : Word := (x &&& y) ^^^ (~~~x &&& z)

def maj (x y z : Word) : Word := (x &&& y) ^^^ (x &&& z) ^^^ (y &&& z)

def bigSigma0 (x : Word) : Word := x.rotateRight 2 ^^^ x.rotateRight 13 ^^^ x.rotateRight 22

def bigSigma1 (x : Word) : Word := x.rotateRight 6 ^^^ x.rotateRight 11 ^^^ x.rotateRight 25

def smallSigma0 (x : Word) : Word := x.rotateRight 7 ^^^ x.rotateRight 18 ^^^ x >>> 3

def smallSigma1 (x : Word) : Word := x.rotateRight 17 ^^^ x.rotateRight 19 ^^^ x >>> 10

/-- The first sixty-four primes. -/
def primes : List Nat := (range 312).filter Nat.Prime

theorem prime_iff {p : Nat} (h : p < 324) : p.Prime ↔ 2 ≤ p ∧ ∀ m < 18, m ∣ p → m = 1 ∨ m = p := by
  constructor
  · intro hp
    exact ⟨hp.two_le, fun m _ hm => (dvd_prime hp).mp hm⟩
  · rintro ⟨htwo, hdvd⟩
    by_contra hp
    have hsquare := minFac_sq_le_self (by omega) hp
    have hsmall : p.minFac < 18 := by
      by_contra hge
      have hlarge := Nat.pow_le_pow_left (Nat.le_of_not_lt hge) 2
      omega
    rcases hdvd p.minFac hsmall p.minFac_dvd with hone | hself
    · exact absurd (minFac_eq_one_iff.mp hone) (by omega)
    · exact hp (prime_def_minFac.mpr ⟨htwo, hself⟩)

theorem primes_eq :
    primes = [2, 3, 5, 7, 11, 13, 17, 19, 23, 29, 31, 37, 41, 43, 47, 53,
      59, 61, 67, 71, 73, 79, 83, 89, 97, 101, 103, 107, 109, 113, 127, 131,
      137, 139, 149, 151, 157, 163, 167, 173, 179, 181, 191, 193, 197, 199, 211, 223,
      227, 229, 233, 239, 241, 251, 257, 263, 269, 271, 277, 281, 283, 293, 307, 311] := by
  have hfilter : primes =
      (range 312).filter fun p => 2 ≤ p ∧ ∀ m < 18, m ∣ p → m = 1 ∨ m = p := by
    refine filter_congr fun p hp => ?_
    rw [decide_eq_decide]
    exact prime_iff (by rw [mem_range] at hp; omega)
  rw [hfilter]
  decide +kernel

/-- The first 32 bits of the fractional parts of the cube roots of the primes. -/
def constants : List Word := primes.map fun p => BitVec.ofNat 32 (Nat.nthRoot 3 (p * 2 ^ 96))

abbrev Hash := Vector Word 8

/-- The first 32 bits of the fractional parts of the square roots of the first eight primes. -/
def initialHash : Hash :=
  ⟨((primes.take 8).map fun p => BitVec.ofNat 32 (Nat.sqrt (p * 2 ^ 64))).toArray, by decide +kernel⟩

theorem exists_zeroCount (l : Nat) : ∃ k, (l + 1 + k) % 512 = 448 :=
  ⟨(960 - (l + 1) % 512) % 512, by omega⟩

/-- The smallest `k` with `l + 1 + k = 448` modulo 512. -/
def zeroCount (l : Nat) : Nat := Nat.find (exists_zeroCount l)

theorem zeroCount_eq (l : Nat) : zeroCount l = (960 - (l + 1) % 512) % 512 :=
  (find_eq_iff (exists_zeroCount l)).mpr ⟨by omega, fun k hk => by omega⟩

def pad (m : Bits) : Bits :=
  m ++ true :: (replicate (zeroCount m.length) false ++ wordBits (BitVec.ofNat 64 m.length))

def schedule (m : Nat → Word) (t : Nat) : Word :=
  if t < 16 then m t
  else smallSigma1 (schedule m (t - 2)) + schedule m (t - 7) + smallSigma0 (schedule m (t - 15)) +
    schedule m (t - 16)

structure Working where
  a : Word
  b : Word
  c : Word
  d : Word
  e : Word
  f : Word
  g : Word
  h : Word

def Working.ofHash (hash : Hash) : Working :=
  { a := hash[0], b := hash[1], c := hash[2], d := hash[3]
    e := hash[4], f := hash[5], g := hash[6], h := hash[7] }

def Working.round (v : Working) (k w : Word) : Working :=
  let t1 := v.h + bigSigma1 v.e + ch v.e v.f v.g + k + w
  let t2 := bigSigma0 v.a + maj v.a v.b v.c
  { a := t1 + t2, b := v.a, c := v.b, d := v.c, e := v.d + t1, f := v.e, g := v.f, h := v.g }

def Working.addTo (v : Working) (hash : Hash) : Hash :=
  #v[v.a + hash[0], v.b + hash[1], v.c + hash[2], v.d + hash[3],
    v.e + hash[4], v.f + hash[5], v.g + hash[6], v.h + hash[7]]

def blockWord (block : Bits) (j : Nat) : Word := ofBits 32 ((block.drop (32 * j)).take 32)

def compress (hash : Hash) (block : Bits) : Hash :=
  ((range 64).foldl
    (fun v t => v.round (constants.getD t 0) (schedule (blockWord block) t))
    (Working.ofHash hash)).addTo hash

structure Message where
  bits : Bits
  short : bits.length < 2 ^ 64

def sha256 (m : Message) : Bits :=
  (absorb compress 512 initialHash (pad m.bits)).toList.flatMap wordBits

end Machgate.Sha256
