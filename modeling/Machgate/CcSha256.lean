import Mathlib.Data.List.GetD
import Machgate.RecordBuffer
import Machgate.Sha256

namespace Machgate.CcSha256

open RecordBuffer BlockStream Sha256
open List hiding Vector

def ccSha256Rotr (value : BitVec 32) (bits : Nat) : BitVec 32 :=
  value >>> bits ||| value <<< (32 - bits)

def ccSha256LoadBe32 (bytes : List Octet) : BitVec 32 :=
  (bytes.getD 0 0).setWidth 32 <<< 24 ||| (bytes.getD 1 0).setWidth 32 <<< 16 |||
    (bytes.getD 2 0).setWidth 32 <<< 8 ||| (bytes.getD 3 0).setWidth 32

def ccSha256StoreBe32 (value : BitVec 32) : List Octet :=
  [(value >>> 24).setWidth 8, (value >>> 16).setWidth 8, (value >>> 8).setWidth 8, value.setWidth 8]

def roundConstants : List (BitVec 32) :=
  [0x428a2f98, 0x71374491, 0xb5c0fbcf, 0xe9b5dba5,
    0x3956c25b, 0x59f111f1, 0x923f82a4, 0xab1c5ed5,
    0xd807aa98, 0x12835b01, 0x243185be, 0x550c7dc3,
    0x72be5d74, 0x80deb1fe, 0x9bdc06a7, 0xc19bf174,
    0xe49b69c1, 0xefbe4786, 0x0fc19dc6, 0x240ca1cc,
    0x2de92c6f, 0x4a7484aa, 0x5cb0a9dc, 0x76f988da,
    0x983e5152, 0xa831c66d, 0xb00327c8, 0xbf597fc7,
    0xc6e00bf3, 0xd5a79147, 0x06ca6351, 0x14292967,
    0x27b70a85, 0x2e1b2138, 0x4d2c6dfc, 0x53380d13,
    0x650a7354, 0x766a0abb, 0x81c2c92e, 0x92722c85,
    0xa2bfe8a1, 0xa81a664b, 0xc24b8b70, 0xc76c51a3,
    0xd192e819, 0xd6990624, 0xf40e3585, 0x106aa070,
    0x19a4c116, 0x1e376c08, 0x2748774c, 0x34b0bcb5,
    0x391c0cb3, 0x4ed8aa4a, 0x5b9cca4f, 0x682e6ff3,
    0x748f82ee, 0x78a5636f, 0x84c87814, 0x8cc70208,
    0x90befffa, 0xa4506ceb, 0xbef9a3f7, 0xc67178f2]

def nextWord (words : List (BitVec 32)) (index : Nat) : BitVec 32 :=
  let s0 := ccSha256Rotr (words.getD (index - 15) 0) 7 ^^^
    ccSha256Rotr (words.getD (index - 15) 0) 18 ^^^ words.getD (index - 15) 0 >>> 3
  let s1 := ccSha256Rotr (words.getD (index - 2) 0) 17 ^^^
    ccSha256Rotr (words.getD (index - 2) 0) 19 ^^^ words.getD (index - 2) 0 >>> 10
  words.getD (index - 16) 0 + s0 + words.getD (index - 7) 0 + s1

def firstWords (block : List Octet) : List (BitVec 32) :=
  (range 16).map fun index => ccSha256LoadBe32 (block.drop (index * 4))

def blockWords (block : List Octet) : List (BitVec 32) :=
  (range' 16 48).foldl (fun words index => words ++ [nextWord words index]) (firstWords block)

def transformRound (words : List (BitVec 32)) (v : Working) (index : Nat) : Working :=
  let s1 := ccSha256Rotr v.e 6 ^^^ ccSha256Rotr v.e 11 ^^^ ccSha256Rotr v.e 25
  let choice := (v.e &&& v.f) ^^^ (~~~v.e &&& v.g)
  let temp1 := v.h + s1 + choice + roundConstants.getD index 0 + words.getD index 0
  let s0 := ccSha256Rotr v.a 2 ^^^ ccSha256Rotr v.a 13 ^^^ ccSha256Rotr v.a 22
  let majority := (v.a &&& v.b) ^^^ (v.a &&& v.c) ^^^ (v.b &&& v.c)
  let temp2 := s0 + majority
  { h := v.g, g := v.f, f := v.e, e := v.d + temp1, d := v.c, c := v.b, b := v.a
    a := temp1 + temp2 }

def addRounds (hash : Vector (BitVec 32) 8) (v : Working) : Vector (BitVec 32) 8 :=
  hash.zipWith (· + ·) #v[v.a, v.b, v.c, v.d, v.e, v.f, v.g, v.h]

def ccSha256Transform (hash : Vector (BitVec 32) 8) (block : List Octet) : Vector (BitVec 32) 8 :=
  addRounds hash <| (range 64).foldl (transformRound (blockWords block)) (.ofHash hash)

def transformBlocks : Nat → Vector (BitVec 32) 8 → List Octet → Vector (BitVec 32) 8 × List Octet
  | 0, hash, bytes => (hash, bytes)
  | fuel + 1, hash, bytes =>
    if 64 ≤ bytes.length then
      transformBlocks fuel (ccSha256Transform hash (bytes.take 64)) (bytes.drop 64)
    else (hash, bytes)

theorem transformBlocks_eq {fuel : Nat} {bytes : List Octet} (hash : Vector (BitVec 32) 8)
    (hfuel : bytes.length ≤ fuel) :
    transformBlocks fuel hash bytes =
      (absorb ccSha256Transform 64 hash bytes, residue 64 bytes) := by
  induction fuel generalizing bytes hash with
  | zero =>
    rw [absorb_of_lt _ _ (by omega), residue_of_lt (by omega)]
    rfl
  | succ fuel ih =>
    rw [transformBlocks]
    split
    · have htake : (bytes.take 64).length = 64 := by
        rw [length_take]
        omega
      have hsplit := take_append_drop 64 bytes
      rw [ih _ (by rw [length_drop]; omega), ← absorb_block_append _ (by decide) _ htake,
        ← residue_block_append (by decide) htake, hsplit]
    · next hshort => rw [absorb_of_lt _ _ (by omega), residue_of_lt (by omega)]

/-- `struct cc_sha256_ctx`, with `wbuf` as the bytes that it is used for. -/
structure Context where
  count0 : BitVec 32
  count1 : BitVec 32
  hash : Vector (BitVec 32) 8
  wbuf : Vector Octet 64

def memcpy (wbuf : Vector Octet 64) (start : Nat) (bytes : List Octet)
    (h : start + bytes.length ≤ 64) : Vector Octet 64 :=
  ⟨(wbuf.toList.take start ++ (bytes ++ wbuf.toList.drop (start + bytes.length))).toArray, by
    simp only [size_toArray, length_append, length_take, length_drop,
      Vector.length_toList]
    omega⟩

namespace Context

def bitCount (context : Context) : BitVec 64 :=
  context.count1.setWidth 64 <<< 32 ||| context.count0.setWidth 64

def used (context : Context) : Nat := ((context.bitCount >>> 3) &&& 63).toNat

theorem used_eq (context : Context) : context.used = context.bitCount.toNat / 8 % 64 := by
  rw [used, BitVec.toNat_and, BitVec.toNat_ushiftRight, Nat.shiftRight_eq_div_pow]
  exact Nat.and_two_pow_sub_one_eq_mod _ 6

def setBitCount (context : Context) (bitCount : BitVec 64) : Context :=
  { context with count0 := bitCount.setWidth 32, count1 := (bitCount >>> 32).setWidth 32 }

def finishUpdate (context : Context) (bytes : List Octet) : Context :=
  let rest := (transformBlocks bytes.length context.hash bytes).2
  { context with
    hash := (transformBlocks bytes.length context.hash bytes).1
    wbuf :=
      if rest.length = 0 then context.wbuf
      else memcpy context.wbuf 0 rest (by
        have hlength : (residue 64 bytes).length = bytes.length % 64 := length_residue bytes
        simp only [rest, transformBlocks_eq _ (le_refl _), hlength]
        omega) }

def update (context : Context) (bytes : List Octet) : Context :=
  let used := context.used
  let counted := context.setBitCount (context.bitCount + BitVec.ofNat 64 bytes.length <<< 3)
  if used ≠ 0 then
    if h : bytes.length < 64 - used then
      { counted with wbuf := memcpy counted.wbuf used bytes (by omega) }
    else
      let wbuf := memcpy counted.wbuf used (bytes.take (64 - used)) (by
        have hused := context.used_eq
        rw [length_take]
        omega)
      finishUpdate { counted with hash := ccSha256Transform counted.hash wbuf.toList, wbuf := wbuf }
        (bytes.drop (64 - used))
  else finishUpdate counted bytes

end Context

def ccSha256Init (context : Option Context) : Int × Option Context :=
  match context with
  | none => (0, none)
  | some _ =>
    (1, some
      { count0 := 0
        count1 := 0
        hash := #v[0x6a09e667, 0xbb67ae85, 0x3c6ef372, 0xa54ff53a,
          0x510e527f, 0x9b05688c, 0x1f83d9ab, 0x5be0cd19]
        wbuf := Vector.replicate 64 0 })

/-- `data` is null or the bytes from the pointer on, `length` of which are taken. -/
def ccSha256Update (context : Option Context) (data : Option (List Octet)) (length : BitVec 32) :
    Int × Option Context :=
  match context with
  | none => (0, none)
  | some context =>
    if data = none ∧ length ≠ 0 then (0, some context)
    else (1, some (context.update ((data.getD []).take length.toNat)))

def padLength (used : Nat) : Nat := if used < 56 then 56 - used else 120 - used

def padding : List Octet := 0x80 :: replicate 63 0

def lengthBytes (bitCount : BitVec 64) : List Octet :=
  (range 8).map fun i => (bitCount >>> ((7 - i) * 8)).setWidth 8

/-- The 32 bytes of the digest replace the first ones behind the pointer. -/
def ccSha256Final (digest : Option (List Octet)) (context : Option Context) :
    Int × Option (List Octet) × Option Context :=
  match context, digest with
  | some context, some old =>
    let padded := context.update (padding.take (padLength context.used))
    let final := padded.update (lengthBytes context.bitCount)
    (1, some (final.hash.toList.flatMap ccSha256StoreBe32 ++ old.drop 32),
      some { count0 := 0, count1 := 0, hash := Vector.replicate 8 0, wbuf := Vector.replicate 64 0 })
  | context, digest => (0, digest, context)

/-- Init, one update for each chunk, Final: what the calls return, and the digest. -/
def session (context : Context) (chunks : List (Option (List Octet))) (digest : List Octet) :
    List Int × Option (List Octet) :=
  let start := ccSha256Init (some context)
  let fed := chunks.foldl
    (fun (calls : List Int × Option Context) chunk =>
      let next := ccSha256Update calls.2 chunk (BitVec.ofNat 32 (chunk.getD []).length)
      (calls.1 ++ [next.1], next.2))
    ([start.1], start.2)
  let last := ccSha256Final (some digest) fed.2
  (fed.1 ++ [last.1], last.2.1)

section

theorem ccSha256Rotr_eq (value : BitVec 32) {bits : Nat} (h : bits < 32) :
    ccSha256Rotr value bits = value.rotateRight bits := by
  rw [ccSha256Rotr, BitVec.rotateRight_def, Nat.mod_eq_of_lt h]

theorem roundConstants_eq : roundConstants = constants := by
  rw [constants, primes_eq]
  decide +kernel

theorem shiftLeft_or (v : BitVec 32) (b : Octet) :
    v <<< 8 ||| b.setWidth 32 = BitVec.ofNat 32 (256 * v.toNat + b.toNat) := by
  have hdisjoint : v <<< 8 &&& b.setWidth 32 = 0#32 := by
    ext i hi
    rcases Nat.lt_or_ge i 8 with hlow | hhigh
    · simp [hlow]
    · simp [BitVec.getLsbD_of_ge b i hhigh]
  rw [← BitVec.add_eq_or_of_and_eq_zero _ _ hdisjoint]
  apply BitVec.eq_of_toNat_eq
  rw [BitVec.toNat_add, BitVec.toNat_shiftLeft, BitVec.toNat_setWidth, BitVec.toNat_ofNat,
    Nat.shiftLeft_eq]
  omega

/-- The bytes are taken in one by one, the most significant one first. -/
theorem ccSha256LoadBe32_eq (b0 b1 b2 b3 : Octet) (rest : List Octet) :
    ccSha256LoadBe32 (b0 :: b1 :: b2 :: b3 :: rest) =
      ofBits 32 ([b0, b1, b2, b3].flatMap wordBits) := by
  have hhorner : ccSha256LoadBe32 (b0 :: b1 :: b2 :: b3 :: rest) =
      ((b0.setWidth 32 <<< 8 ||| b1.setWidth 32) <<< 8 ||| b2.setWidth 32) <<< 8 |||
        b3.setWidth 32 := by
    simp only [BitVec.shiftLeft_or_distrib, ← BitVec.shiftLeft_add]
    rfl
  rw [hhorner, shiftLeft_or, shiftLeft_or, shiftLeft_or, ofBits, foldl_flatMap_wordBits]
  apply BitVec.eq_of_toNat_eq
  simp only [foldl_cons, foldl_nil, BitVec.toNat_ofNat, BitVec.toNat_setWidth]
  omega

variable {block : List Octet}

/-- The words of a block of 64 bytes are those of its 512 bits. -/
theorem ccSha256LoadBe32_drop (h : block.length = 64) {j : Nat} (hj : j < 16) :
    ccSha256LoadBe32 (block.drop (j * 4)) = blockWord (block.flatMap wordBits) j := by
  have hdrop : (block.flatMap wordBits).drop (32 * j) = (block.drop (4 * j)).flatMap wordBits := by
    rw [← drop_flatMap length_wordBits]
    congr 1
    omega
  have htake : ((block.drop (4 * j)).flatMap wordBits).take 32 =
      ((block.drop (4 * j)).take 4).flatMap wordBits :=
    take_flatMap (fun b : Octet => length_wordBits b) _ 4
  rw [blockWord, hdrop, htake, Nat.mul_comm]
  have hlength : 4 ≤ (block.drop (4 * j)).length := by
    rw [length_drop]
    omega
  match block.drop (4 * j), hlength with
  | b0 :: b1 :: b2 :: b3 :: rest, _ => exact ccSha256LoadBe32_eq b0 b1 b2 b3 rest

theorem nextWord_eq {words : List (BitVec 32)} {m : Nat → Word} {index : Nat} (hindex : 16 ≤ index)
    (h : ∀ t < index, words.getD t 0 = schedule m t) : nextWord words index = schedule m index := by
  rw [schedule, if_neg (by omega), nextWord, smallSigma0, smallSigma1]
  simp only [h (index - 15) (by omega), h (index - 2) (by omega), h (index - 16) (by omega),
    h (index - 7) (by omega), ccSha256Rotr_eq _ (show 7 < 32 by decide),
    ccSha256Rotr_eq _ (show 18 < 32 by decide), ccSha256Rotr_eq _ (show 17 < 32 by decide),
    ccSha256Rotr_eq _ (show 19 < 32 by decide)]
  ac_rfl

theorem blockWords_eq (h : block.length = 64) {t : Nat} (ht : t < 64) :
    (blockWords block).getD t 0 = schedule (blockWord (block.flatMap wordBits)) t := by
  have hloop : ∀ n, ((range' 16 n).foldl (fun words index => words ++ [nextWord words index])
        (firstWords block)).length = 16 + n ∧
      ∀ t < 16 + n, ((range' 16 n).foldl (fun words index => words ++ [nextWord words index])
        (firstWords block)).getD t 0 = schedule (blockWord (block.flatMap wordBits)) t := by
    intro n
    induction n with
    | zero =>
      refine ⟨by simp [firstWords], fun t ht => ?_⟩
      rw [schedule, if_pos ht, ← ccSha256LoadBe32_drop h ht]
      simp [firstWords, show t < 16 from ht]
    | succ n ih =>
      obtain ⟨hlength, hwords⟩ := ih
      rw [range'_concat, foldl_append, foldl_cons, foldl_nil, Nat.one_mul]
      refine ⟨by rw [length_append, hlength]; rfl, fun t ht => ?_⟩
      rcases (show t < 16 + n ∨ t = 16 + n by omega) with hlt | rfl
      · rw [getD_append _ _ _ _ (by omega)]
        exact hwords t hlt
      · rw [getD_append_right _ _ _ _ (by omega), hlength, Nat.sub_self]
        exact nextWord_eq (by omega) hwords
  exact (hloop 48).2 t ht

theorem transformRound_eq (h : block.length = 64) (v : Working) {index : Nat}
    (hindex : index < 64) :
    transformRound (blockWords block) v index =
      v.round (constants.getD index 0) (schedule (blockWord (block.flatMap wordBits)) index) := by
  rw [transformRound, blockWords_eq h hindex, roundConstants_eq]
  simp only [ccSha256Rotr_eq _ (show 6 < 32 by decide), ccSha256Rotr_eq _ (show 11 < 32 by decide),
    ccSha256Rotr_eq _ (show 25 < 32 by decide), ccSha256Rotr_eq _ (show 2 < 32 by decide),
    ccSha256Rotr_eq _ (show 13 < 32 by decide), ccSha256Rotr_eq _ (show 22 < 32 by decide)]
  rfl

variable (hash : Vector (BitVec 32) 8)

theorem addRounds_eq (v : Working) : addRounds hash v = v.addTo hash := by
  apply Vector.ext
  intro i hi
  rw [addRounds, Vector.getElem_zipWith, BitVec.add_comm]
  match i, hi with
  | 0, _ | 1, _ | 2, _ | 3, _ | 4, _ | 5, _ | 6, _ | 7, _ => rfl

theorem ccSha256Transform_eq (h : block.length = 64) :
    ccSha256Transform hash block = compress hash (block.flatMap wordBits) := by
  have hrounds : ∀ (v : Working) (indices : List Nat), (∀ t ∈ indices, t < 64) →
      indices.foldl (transformRound (blockWords block)) v =
        indices.foldl (fun v t => v.round (constants.getD t 0)
          (schedule (blockWord (block.flatMap wordBits)) t)) v := by
    intro v indices hindices
    apply foldl_ext
    intro v t ht
    exact transformRound_eq h v (hindices t ht)
  rw [compress, ← hrounds _ _ fun t ht => mem_range.mp ht, ← addRounds_eq]
  rfl

/-- The blocks of bytes that are transformed are the standard's blocks of bits. -/
theorem absorb_ccSha256Transform (bytes : List Octet) :
    absorb ccSha256Transform 64 hash bytes = absorb compress 512 hash (bytes.flatMap wordBits) := by
  have hbits : absorb compress 512 hash (bytes.flatMap wordBits) =
      absorb (fun s block => compress s (block.flatMap wordBits)) 64 hash bytes :=
    absorb_flatMap (fun b : Octet => length_wordBits b) (show 0 < 64 by decide)
      (show 0 < 8 by decide) hash bytes
  rw [hbits]
  clear hbits
  induction bytes using block_induction (show 0 < 64 by decide) generalizing hash with
  | short bytes h => rw [absorb_of_lt _ hash h, absorb_of_lt _ hash h]
  | block b bytes h ih =>
    rw [absorb_block_append _ (by decide) hash h, absorb_block_append _ (by decide) hash h,
      ccSha256Transform_eq hash h, ih]

end

section

/-- The context has taken in the message: its whole blocks are in `hash`, the rest is in `wbuf`. -/
structure Holds (context : Context) (message : List Octet) : Prop where
  count : context.bitCount = BitVec.ofNat 64 (8 * message.length)
  hash : context.hash = absorb ccSha256Transform 64 initialHash message
  wbuf : context.wbuf.toList.take (message.length % 64) = residue 64 message

variable {context : Context} {message : List Octet}

theorem toList_memcpy (wbuf : Vector Octet 64) (start : Nat) (bytes : List Octet)
    (h : start + bytes.length ≤ 64) :
    (memcpy wbuf start bytes h).toList =
      wbuf.toList.take start ++ (bytes ++ wbuf.toList.drop (start + bytes.length)) :=
  rfl

theorem take_memcpy (wbuf : Vector Octet 64) (start : Nat) (bytes : List Octet)
    (h : start + bytes.length ≤ 64) :
    (memcpy wbuf start bytes h).toList.take (start + bytes.length) =
      wbuf.toList.take start ++ bytes := by
  have hlength : (wbuf.toList.take start ++ bytes).length = start + bytes.length := by
    rw [length_append, length_take, Vector.length_toList]
    omega
  rw [toList_memcpy, ← append_assoc, take_left' hlength]

theorem bitCount_setBitCount (context : Context) (bitCount : BitVec 64) :
    (context.setBitCount bitCount).bitCount = bitCount := by
  rw [Context.bitCount, Context.setBitCount]
  ext i hi
  rcases Nat.lt_or_ge i 32 with hlow | hhigh
  · simp [hlow, BitVec.getLsbD_eq_getElem hi]
  · simp [Nat.not_lt.mpr hhigh, show i - 32 < 32 by omega, show 32 + (i - 32) = i by omega,
      BitVec.getLsbD_eq_getElem hi]

theorem Holds.used (h : Holds context message) : context.used = message.length % 64 := by
  rw [Context.used_eq, h.count, BitVec.toNat_ofNat]
  omega

theorem Holds.bitCount_add (h : Holds context message) (bytes : List Octet) :
    context.bitCount + BitVec.ofNat 64 bytes.length <<< 3 =
      BitVec.ofNat 64 (8 * (message ++ bytes).length) := by
  rw [h.count, length_append]
  apply BitVec.eq_of_toNat_eq
  simp only [BitVec.toNat_add, BitVec.toNat_shiftLeft, BitVec.toNat_ofNat, Nat.shiftLeft_eq]
  omega

theorem holds_finishUpdate {taken bytes : List Octet}
    (hcount : context.bitCount = BitVec.ofNat 64 (8 * (taken ++ bytes).length))
    (hhash : context.hash = absorb ccSha256Transform 64 initialHash taken)
    (hwhole : residue 64 taken = []) :
    Holds (context.finishUpdate bytes) (taken ++ bytes) := by
  have hrest : residue 64 (taken ++ bytes) = residue 64 bytes := by
    rw [residue_append (by decide), hwhole, nil_append]
  have hblocks := transformBlocks_eq context.hash (le_refl bytes.length)
  constructor
  · exact hcount
  · rw [Context.finishUpdate]
    dsimp only
    rw [hblocks, absorb_append _ (by decide), hwhole, nil_append, ← hhash]
  · have hlength : (residue 64 bytes).length = (taken ++ bytes).length % 64 := by
      rw [← hrest, length_residue]
    rw [hrest, Context.finishUpdate]
    simp only [hblocks]
    rw [← hlength]
    split
    · next hnone => rw [hnone, take_zero, eq_nil_of_length_eq_zero hnone]
    · have htake := take_memcpy context.wbuf 0 (residue 64 bytes) (by rw [hlength]; omega)
      simpa only [Nat.zero_add, take_zero, nil_append] using htake

theorem Holds.update (h : Holds context message) (bytes : List Octet) :
    Holds (context.update bytes) (message ++ bytes) := by
  have hused := h.used
  have hkept : (residue 64 message).length = context.used := by rw [length_residue, hused]
  have hwbuf := h.wbuf
  rw [← hused] at hwbuf
  have hcount := h.bitCount_add bytes
  have hcounted := bitCount_setBitCount context
  rw [Context.update]
  split
  · split
    · have hrest : (residue 64 message ++ bytes).length < 64 := by
        rw [length_append]
        omega
      constructor
      · exact (hcounted _).trans hcount
      · rw [absorb_append _ (by decide), absorb_of_lt _ _ hrest]
        exact h.hash
      · have hlength : (message ++ bytes).length % 64 = context.used + bytes.length := by
          rw [length_append]
          omega
        rw [residue_append (by decide), residue_of_lt hrest, hlength]
        refine (take_memcpy context.wbuf _ bytes (by omega)).trans ?_
        rw [hwbuf]
    · have hfill : context.used + (bytes.take (64 - context.used)).length = 64 := by
        rw [length_take]
        omega
      have hblock : (memcpy context.wbuf context.used (bytes.take (64 - context.used))
          (by omega)).toList = residue 64 message ++ bytes.take (64 - context.used) := by
        rw [toList_memcpy, hwbuf, hfill, drop_eq_nil_of_le (by simp), append_nil]
      have hsize : (residue 64 message ++ bytes.take (64 - context.used)).length = 64 := by
        rw [length_append, hkept, hfill]
      have hwhole : residue 64 (message ++ bytes.take (64 - context.used)) = [] := by
        apply eq_nil_of_length_eq_zero
        rw [length_residue, length_append]
        omega
      have hsplit : message ++ bytes =
          (message ++ bytes.take (64 - context.used)) ++ bytes.drop (64 - context.used) := by
        rw [append_assoc, take_append_drop]
      rw [hsplit]
      refine holds_finishUpdate ?_ ?_ hwhole
      · rw [← hsplit]
        exact (hcounted _).trans hcount
      · have hnone : ([] : List Octet).length < 64 := by decide
        rw [absorb_append _ (by decide), ← append_nil (residue 64 message ++ _),
          absorb_block_append _ (by decide) _ hsize, absorb_of_lt _ _ hnone, ← h.hash]
        exact congrArg (ccSha256Transform context.hash) hblock
  · next hnone =>
    rw [not_not] at hnone
    refine holds_finishUpdate ((hcounted _).trans hcount) h.hash ?_
    exact eq_nil_of_length_eq_zero (hkept.trans hnone)

end

theorem length_bits (bytes : List Octet) : (bytes.flatMap wordBits).length = 8 * bytes.length :=
  length_flatMap (fun b : Octet => length_wordBits b) bytes

theorem bits_lengthBytes (bitCount : BitVec 64) :
    (lengthBytes bitCount).flatMap wordBits = wordBits bitCount := by
  have hbytes : wordBits bitCount = (range 8).flatMap fun i =>
      wordBits ((bitCount >>> (8 * (8 - 1 - i))).setWidth 8) :=
    wordBits_eq_flatMap (n := 8) bitCount
  rw [hbytes, lengthBytes, flatMap_map]
  refine flatMap_congr fun i _ => ?_
  rw [Nat.mul_comm 8]

theorem bits_ccSha256StoreBe32 (value : BitVec 32) :
    (ccSha256StoreBe32 value).flatMap wordBits = wordBits value := by
  have hbytes : wordBits value = (range 4).flatMap fun i =>
      wordBits ((value >>> (8 * (4 - 1 - i))).setWidth 8) := wordBits_eq_flatMap (n := 4) value
  rw [hbytes]
  simp [ccSha256StoreBe32, range, range.loop]

theorem bits_zeros (n : Nat) :
    (replicate n (0 : Octet)).flatMap wordBits = replicate (8 * n) false := by
  have hzero : wordBits (0 : Octet) = replicate 8 false := by decide
  induction n with
  | zero => rfl
  | succ n ih =>
    rw [replicate_succ, flatMap_cons, ih, hzero, replicate_append_replicate]
    congr 1
    omega

theorem bits_padding (message : List Octet) :
    (message ++ padding.take (padLength (message.length % 64)) ++
        lengthBytes (BitVec.ofNat 64 (8 * message.length))).flatMap wordBits =
      pad (message.flatMap wordBits) := by
  have hpositive : 0 < padLength (message.length % 64) := by
    rw [padLength]
    split <;> omega
  have hle : padLength (message.length % 64) ≤ 64 := by
    rw [padLength]
    split <;> omega
  have htake : padding.take (padLength (message.length % 64)) =
      0x80 :: replicate (padLength (message.length % 64) - 1) 0 := by
    obtain ⟨n, hn⟩ := Nat.exists_eq_succ_of_ne_zero hpositive.ne'
    rw [hn] at hle ⊢
    rw [padding, take_succ_cons, take_replicate, Nat.min_eq_left (by omega)]
    rfl
  have hfirst : wordBits (0x80 : Octet) = true :: replicate 7 false := by decide
  have hzeros : 7 + 8 * (padLength (message.length % 64) - 1) = zeroCount (8 * message.length) := by
    rw [zeroCount_eq, padLength]
    split <;> omega
  rw [pad, length_bits, ← hzeros, ← replicate_append_replicate, flatMap_append,
    flatMap_append, bits_lengthBytes, htake, flatMap_cons, hfirst, bits_zeros]
  simp only [append_assoc, cons_append]

def digestBytes (message : List Octet) : List Octet :=
  (absorb ccSha256Transform 64 initialHash
    (message ++ padding.take (padLength (message.length % 64)) ++
      lengthBytes (BitVec.ofNat 64 (8 * message.length)))).toList.flatMap ccSha256StoreBe32

theorem bits_digestBytes (message : List Octet) (hshort : (message.flatMap wordBits).length < 2 ^ 64) :
    (digestBytes message).flatMap wordBits = sha256 ⟨message.flatMap wordBits, hshort⟩ := by
  rw [digestBytes, flatMap_assoc, sha256, ← bits_padding, ← absorb_ccSha256Transform]
  exact flatMap_congr fun value _ => bits_ccSha256StoreBe32 value

theorem Holds.final {context : Context} {message : List Octet} (h : Holds context message)
    (digest : List Octet) :
    (ccSha256Final (some digest) (some context)).1 = 1 ∧
      (ccSha256Final (some digest) (some context)).2.1 =
        some (digestBytes message ++ digest.drop 32) := by
  have hpadded := h.update (padding.take (padLength context.used))
  have hfinal := hpadded.update (lengthBytes context.bitCount)
  refine ⟨rfl, ?_⟩
  rw [digestBytes, ← h.count, ← h.used, ← hfinal.hash]
  rfl

theorem holds_ccSha256Init (context : Context) :
    ∃ fresh, ccSha256Init (some context) = (1, some fresh) ∧ Holds fresh [] := by
  have hhash : (#v[0x6a09e667, 0xbb67ae85, 0x3c6ef372, 0xa54ff53a,
      0x510e527f, 0x9b05688c, 0x1f83d9ab, 0x5be0cd19] : Hash) = initialHash := by decide +kernel
  refine ⟨_, rfl, ?_, ?_, rfl⟩
  · rfl
  · exact hhash

/-- The bytes of a chunk; a null pointer goes with the length 0. -/
def messageOf (chunks : List (Option (List Octet))) : List Octet := chunks.flatMap (·.getD [])

theorem session_eq (context : Context) {chunks : List (Option (List Octet))} (digest : List Octet)
    (hchunks : ∀ chunk ∈ chunks, (chunk.getD []).length < 2 ^ 32) :
    session context chunks digest =
      (replicate (chunks.length + 2) 1,
        some (digestBytes (messageOf chunks) ++ digest.drop 32)) := by
  -- one update after the other, from any context that holds what came before
  have hfeed : ∀ (returned : List Int) (context : Context) (message : List Octet),
      Holds context message → ∃ context', Holds context' (message ++ messageOf chunks) ∧
        chunks.foldl (fun (calls : List Int × Option Context) chunk =>
          let next := ccSha256Update calls.2 chunk (BitVec.ofNat 32 (chunk.getD []).length)
          (calls.1 ++ [next.1], next.2)) (returned, some context) =
        (returned ++ replicate chunks.length 1, some context') := by
    induction chunks with
    | nil =>
      intro returned context message h
      exact ⟨context, by rwa [messageOf, flatMap_nil, append_nil], by simp⟩
    | cons chunk chunks ih =>
      intro returned context message h
      have hlength := hchunks chunk mem_cons_self
      have hwidth : (BitVec.ofNat 32 (chunk.getD []).length).toNat = (chunk.getD []).length := by
        rw [BitVec.toNat_ofNat, Nat.mod_eq_of_lt hlength]
      have hcall : ccSha256Update (some context) chunk (BitVec.ofNat 32 (chunk.getD []).length) =
          (1, some (context.update (chunk.getD []))) := by
        have hdata : ¬ (chunk = none ∧ BitVec.ofNat 32 (chunk.getD []).length ≠ 0) := by
          rintro ⟨rfl, hne⟩
          exact hne rfl
        rw [ccSha256Update, if_neg hdata, hwidth, take_length]
      obtain ⟨context', hholds, hcalls⟩ := ih (fun c hc => hchunks c (mem_cons_of_mem _ hc))
        (returned ++ [1]) (context.update (chunk.getD [])) (message ++ chunk.getD [])
        (h.update (chunk.getD []))
      refine ⟨context', ?_, ?_⟩
      · rwa [messageOf, flatMap_cons, ← append_assoc]
      · rw [foldl_cons, hcall, hcalls, append_assoc, length_cons, replicate_succ]
        rfl
  obtain ⟨fresh, hinit, hfresh⟩ := holds_ccSha256Init context
  obtain ⟨context', hholds, hcalls⟩ := hfeed [1] fresh [] hfresh
  obtain ⟨hreturn, hdigest⟩ := hholds.final digest
  rw [session]
  simp only [hinit, hcalls, hreturn, hdigest, nil_append, Prod.mk.injEq, and_true]
  rw [replicate_succ, replicate_succ', cons_append, nil_append, cons_append]

/-- Whatever the chunks, the digest is the SHA-256 of the message they make up. -/
theorem session_digest (context : Context) {chunks : List (Option (List Octet))}
    (digest : List Octet) (hchunks : ∀ chunk ∈ chunks, (chunk.getD []).length < 2 ^ 32)
    (htotal : (messageOf chunks).length < 2 ^ 61) :
    ∃ bytes, session context chunks digest =
        (replicate (chunks.length + 2) 1, some (bytes ++ digest.drop 32)) ∧
      bytes.flatMap wordBits = sha256 ⟨(messageOf chunks).flatMap wordBits, by
        rw [length_bits]
        omega⟩ :=
  ⟨digestBytes (messageOf chunks), session_eq context digest hchunks, bits_digestBytes _ _⟩

/-- "abc" in two parts with an empty one between them. -/
theorem session_digest_abc :
    ∃ bytes, session ⟨0, 0, Vector.replicate 8 0, Vector.replicate 64 0⟩
          [some [0x61], none, some [0x62, 0x63]] (replicate 32 0) =
        (replicate 5 1, some (bytes ++ [])) ∧
      bytes.flatMap wordBits =
        sha256 ⟨([0x61, 0x62, 0x63] : List Octet).flatMap wordBits, by decide⟩ :=
  session_digest _ _ (by decide) (by decide)

end Machgate.CcSha256
