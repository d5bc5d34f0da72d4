import Mathlib.Data.LawfulXor.Basic
import Mathlib.Tactic.IntervalCases

namespace Machgate.SgrCipher

/-- The statics of the generator, which `sgr_extract` and `sgr_repack` both have. -/
structure Generator where
  sx : BitVec 32
  sy : BitVec 32
  sz : BitVec 32
  sw : BitVec 32
  sv : BitVec 32

def sugarSrand (seed : BitVec 32) : Generator where
  sx := seed
  sy := (seed >>> 1) + 0x159a55e5
  sz := (seed >>> 3) + 0x1f123bb5
  sw := (seed >>> 5) + 0x05491333
  sv := (seed >>> 7) + 0x34dad465

def sugarRnd (g : Generator) : BitVec 32 × Generator :=
  let t := g.sz
  let u := g.sx ^^^ (g.sx >>> 7)
  let sv := u ^^^ (u <<< 13) ^^^ g.sv ^^^ (g.sv <<< 6)
  (sv * ((t <<< 1) ||| 1), ⟨g.sy, g.sz, g.sw, g.sv, sv⟩)

def skipRnd : Nat → Generator → Generator
  | 0, g => g
  | skip + 1, g => skipRnd skip (sugarRnd g).2

/-- The generator once it is seeded and the calls to skip are made. -/
def seeded (seed : BitVec 32) : Generator :=
  let first := sugarRnd (sugarSrand seed)
  skipRnd (first.1 &&& 0xf).toNat first.2

def xorAlternate (g : Generator) : List (BitVec 8) → List (BitVec 8)
  | [] => []
  | [byte] => [byte ^^^ (sugarRnd g).1.setWidth 8]
  | byte :: kept :: rest =>
    (byte ^^^ (sugarRnd g).1.setWidth 8) :: kept :: xorAlternate (sugarRnd g).2 rest

def encodeBuffer (buf : List (BitVec 8)) (seed : BitVec 32) : List (BitVec 8) :=
  xorAlternate (seeded seed) buf

def writeBe32 (v : BitVec 32) : List (BitVec 8) :=
  [(v >>> 24).setWidth 8, (v >>> 16).setWidth 8, (v >>> 8).setWidth 8, v.setWidth 8]

/-- `none` is a read behind the buffer. -/
def readBe32 : List (BitVec 8) → Option (BitVec 32)
  | a :: b :: c :: d :: _ =>
    some ((a.setWidth 32 <<< 24) ||| (b.setWidth 32 <<< 16) ||| (c.setWidth 32 <<< 8) |||
      d.setWidth 32)
  | _ => none

def magic : BitVec 32 := 0x550f0f55

def decodeBuffer (buf : List (BitVec 8)) : Option (List (BitVec 8)) := do
  let dataLen := buf.length - 4
  let tail ← readBe32 (buf.drop dataLen)
  return xorAlternate (seeded (tail ^^^ magic)) (buf.take dataLen) ++ buf.drop dataLen

@[simp] theorem xorAlternate_xorAlternate (g : Generator) (buf : List (BitVec 8)) :
    xorAlternate g (xorAlternate g buf) = buf := by
  fun_induction xorAlternate with
  | case1 => simp [xorAlternate]
  | case2 g byte => simp [xorAlternate]
  | case3 g byte kept rest ih => simp [xorAlternate, ih]

@[simp] theorem readBe32_writeBe32 (v : BitVec 32) : readBe32 (writeBe32 v) = some v := by
  simp only [readBe32, writeBe32, Option.some.injEq]
  apply BitVec.eq_of_getLsbD_eq
  intro i hi
  interval_cases i <;> simp

/-- The trailer holds the seed, so that the decoder runs over the same bytes of the generator. -/
theorem decodeBuffer_encodeBuffer (d : List (BitVec 8)) (seed : BitVec 32) :
    decodeBuffer (encodeBuffer d seed ++ writeBe32 (seed ^^^ magic)) =
      some (d ++ writeBe32 (seed ^^^ magic)) := by
  have hlength : (encodeBuffer d seed ++ writeBe32 (seed ^^^ magic)).length - 4 =
      (encodeBuffer d seed).length := by
    simp [writeBe32]
  simp only [decodeBuffer, hlength, List.drop_left, List.take_left]
  simp [encodeBuffer]

end Machgate.SgrCipher
