import Machgate.EhFrameTable

namespace Machgate.NativeEhFrame

open ByteMemory RecordBuffer EhFrameRecords EhFrameTable

def dwEhPeUdata2 : BitVec 8 := 0x02
def dwEhPeUdata4 : BitVec 8 := 0x03
def dwEhPeUdata8 : BitVec 8 := 0x04
def dwEhPeSdata2 : BitVec 8 := 0x0a
def dwEhPeSdata4 : BitVec 8 := 0x0b
def dwEhPeSdata8 : BitVec 8 := 0x0c
def dwEhPePcrel : BitVec 8 := 0x10
def dwEhPeIndirect : BitVec 8 := 0x80
def dwEhPeOmit : BitVec 8 := 0xff

/-- The image's own `__eh_frame`: where it is mapped, its size, and the bytes mapped from its start
on; `deref` reads an indirect pointer. -/
structure NativeSection where
  addr : Addr
  size : Nat
  bytes : List Octet
  deref : Addr → BitVec 64

-- the pointers `p` and `end` of the readers are the bytes between them

def readUlebFrom : Nat → BitVec 64 → List Octet → BitVec 64 × List Octet
  | _, result, [] => (result, [])
  | shift, result, byte :: p =>
    let result := result ||| (byte &&& 0x7f).setWidth 64 <<< shift
    if byte &&& 0x80 = 0 then (result, p) else readUlebFrom (shift + 7) result p

def ehReadUleb128 (p : List Octet) : BitVec 64 × List Octet := readUlebFrom 0 0 p

def readWidth (n : Nat) (signed : Bool) (p : List Octet) : Option (BitVec 64 × List Octet) :=
  if p.length < n then none
  else
    let v := BitVec.ofNat (8 * n) (ofLeBytes (p.take n))
    some (if signed then v.signExtend 64 else v.setWidth 64, p.drop n)

/-- The formats of `eh_read_encoded_value`; `none` where it leaves the pointer alone. -/
def readFormat (encoding : BitVec 8) (p : List Octet) : Option (BitVec 64 × List Octet) :=
  let format := encoding &&& 0x0f
  if format = dwEhPeAbsptr then readWidth 8 false p
  else if format = dwEhPeUdata2 then readWidth 2 false p
  else if format = dwEhPeUdata4 then readWidth 4 false p
  else if format = dwEhPeUdata8 then readWidth 8 false p
  else if format = dwEhPeSdata2 then readWidth 2 true p
  else if format = dwEhPeSdata4 then readWidth 4 true p
  else if format = dwEhPeSdata8 then readWidth 8 true p
  else none

def ehReadEncodedValue (p : List Octet) (encoding : BitVec 8) : BitVec 64 × List Octet :=
  (readFormat encoding p).getD (0, p)

def ehReadEncodedPtr (deref : Addr → BitVec 64) (base : Addr) (p : List Octet)
    (encoding : BitVec 8) : BitVec 64 × List Octet :=
  if encoding = dwEhPeOmit then (0, p)
  else
    match readFormat encoding p with
    | none => (0, p)
    | some (value, p') =>
      let value := if encoding &&& 0x70 = dwEhPePcrel then value + base else value
      (if encoding &&& dwEhPeIndirect ≠ 0 then deref value else value, p')

/-- The `R` of an augmentation string, in the augmentation data.  The personality pointer in front
of it is only passed over. -/
def augFdeEncoding : List Octet → List Octet → BitVec 8
  | [], _ => dwEhPeAbsptr
  | _ :: _, [] => dwEhPeAbsptr
  | c :: augStr, b :: p =>
    if c = 0x4c then augFdeEncoding augStr p
    else if c = 0x50 then augFdeEncoding augStr (ehReadEncodedPtr (fun _ => 0) 0 p b).2
    else if c = 0x52 then b
    else dwEhPeAbsptr

def parseCieFdeEncoding (cieData : List Octet) : BitVec 8 :=
  if cieData.length < 5 then dwEhPeAbsptr
  else
    let augStr := (cieData.drop 5).takeWhile fun b => b ≠ 0
    let p := cieData.drop (5 + augStr.length)
    if p = [] then dwEhPeAbsptr
    else
      let factors := skipLeb (skipLeb (p.drop 1))
      let p := if field cieData 4 1 = 1 then factors.drop 1 else (ehReadUleb128 factors).2
      if augStr.head? ≠ some 0x7a then dwEhPeAbsptr
      else
        let augLen := ehReadUleb128 p
        augFdeEncoding augStr.tail (augLen.2.take augLen.1.toNat)

def parseCieHasZAugmentation (cieData : List Octet) : Bool :=
  5 ≤ cieData.length ∧ (cieData.drop 5).head? = some 0x7a

structure NativeEntry extends HdrEntry where
  cfi : List Octet

namespace NativeSection

variable (sec : NativeSection)

/-- The FDE whose data starts at `dataStart` and ends at `dataEnd`, by the CIE it points back to. -/
def fdeAt (pos dataStart dataEnd : Nat) : List NativeEntry :=
  let ciePtr := field sec.bytes dataStart 4
  let ciePos := (dataStart + 2 ^ 64 - ciePtr) % 2 ^ 64
  if ciePtr = 0 ∨ sec.size ≤ ciePos then []
  else
    let cieData := (sec.bytes.drop (ciePos + 4)).take (field sec.bytes ciePos 4)
    let fdeEnc := parseCieFdeEncoding cieData
    let fdeP := (sec.bytes.take dataEnd).drop (dataStart + 4)
    let initLoc := ehReadEncodedPtr sec.deref (sec.addr + BitVec.ofNat 64 (dataStart + 4)) fdeP fdeEnc
    let addressRange := ehReadEncodedValue initLoc.2 fdeEnc
    let cfi :=
      if parseCieHasZAugmentation cieData ∧ addressRange.2 ≠ [] then
        let augLen := ehReadUleb128 addressRange.2
        augLen.2.drop augLen.1.toNat
      else addressRange.2
    if initLoc.1 = 0 then []
    else
      [{ initialLocation := initLoc.1, addressRange := addressRange.1
         fdePtr := sec.addr + BitVec.ofNat 64 pos, cfi := cfi }]

/-- The FDEs from the record at `pos` on; `none` where the lengths lead back to a record before. -/
def parseFrom : Nat → Nat → Option (List NativeEntry)
  | 0, _ => none
  | fuel + 1, pos =>
    if sec.size < pos + 4 then some []
    else
      let length := field sec.bytes pos 4
      if length = 0 then some []
      else
        let isLong := length = 0xFFFFFFFF
        if isLong ∧ sec.size < pos + 12 then some []
        else
          let dataStart := if isLong then pos + 12 else pos + 4
          let dataEnd :=
            if isLong then (dataStart + field sec.bytes (pos + 4) 8) % 2 ^ 64
            else dataStart + length
          if sec.size < dataEnd then some []
          else (parseFrom fuel dataEnd).map (sec.fdeAt pos dataStart dataEnd ++ ·)

def parseNativeEhFrameFdes : Option (List NativeEntry) :=
  sec.parseFrom (sec.size + 1) 0

/-- The FDEs the generation works with; their instructions are parts of the section. -/
def natives : List NativeFde :=
  (sec.parseNativeEhFrameFdes.getD []).filterMap fun n =>
    if h : n.cfi.length < 2 ^ 31 then some { toHdrEntry := n.toHdrEntry, cfi := n.cfi, cfi_lt := h }
    else none

end NativeSection

end Machgate.NativeEhFrame
