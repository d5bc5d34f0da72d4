import Machgate.RecordBuffer

namespace Machgate.StartupCache

open RecordBuffer Option Nat

def machgateStartupCacheMagic : BitVec 64 := 0x5441474341474348
def machgateStartupCacheVersion : BitVec 32 := 1

/-- `sizeof(struct startup_cache_header)` and `sizeof(struct startup_cache_patch)`. -/
def sizeofHeader : Nat := 120
def sizeofPatch : Nat := 16

@[ext]
structure CacheKey where
  dev : BitVec 64
  ino : BitVec 64
  size : BitVec 64
  mtimeSec : BitVec 64
  mtimeNsec : BitVec 64
  hasUnwind : BitVec 64
  deriving DecidableEq

@[ext]
structure CacheHeader where
  magic : BitVec 64
  version : BitVec 32
  headerSize : BitVec 32
  key : CacheKey
  ehFrameSize : BitVec 64
  hdrPairsSize : BitVec 64
  patchCount : BitVec 64
  ciePersonalityOffset : BitVec 64
  fdeCount : BitVec 32
  reserved : BitVec 32
  checksum : BitVec 64
  payloadChecksum : BitVec 64
  deriving DecidableEq

def fnv1a64 (bytes : List Octet) : BitVec 64 :=
  bytes.foldl (fun hash b => (hash ^^^ b.setWidth 64) * 1099511628211) 1469598103934665603

def keyMatches (cached current : CacheKey) : Prop :=
  cached.dev = current.dev ∧ cached.ino = current.ino ∧ cached.size = current.size ∧
    cached.mtimeSec = current.mtimeSec ∧ cached.mtimeNsec = current.mtimeNsec

instance (cached current : CacheKey) : Decidable (keyMatches cached current) :=
  inferInstanceAs (Decidable (_ ∧ _))

namespace CacheHeader

def layout (h : CacheHeader) : List (Nat × Nat) :=
  [(8, h.magic.toNat), (4, h.version.toNat), (4, h.headerSize.toNat),
    (8, h.key.dev.toNat), (8, h.key.ino.toNat), (8, h.key.size.toNat),
    (8, h.key.mtimeSec.toNat), (8, h.key.mtimeNsec.toNat), (8, h.key.hasUnwind.toNat),
    (8, h.ehFrameSize.toNat), (8, h.hdrPairsSize.toNat), (8, h.patchCount.toNat),
    (8, h.ciePersonalityOffset.toNat), (4, h.fdeCount.toNat), (4, h.reserved.toNat),
    (8, h.checksum.toNat), (8, h.payloadChecksum.toNat)]

def toBytes (h : CacheHeader) : List Octet := fields h.layout

def ofBytes (bytes : List Octet) : CacheHeader :=
  { magic := BitVec.ofNat 64 (field bytes 0 8)
    version := BitVec.ofNat 32 (field bytes 8 4)
    headerSize := BitVec.ofNat 32 (field bytes 12 4)
    key :=
      { dev := BitVec.ofNat 64 (field bytes 16 8)
        ino := BitVec.ofNat 64 (field bytes 24 8)
        size := BitVec.ofNat 64 (field bytes 32 8)
        mtimeSec := BitVec.ofNat 64 (field bytes 40 8)
        mtimeNsec := BitVec.ofNat 64 (field bytes 48 8)
        hasUnwind := BitVec.ofNat 64 (field bytes 56 8) }
    ehFrameSize := BitVec.ofNat 64 (field bytes 64 8)
    hdrPairsSize := BitVec.ofNat 64 (field bytes 72 8)
    patchCount := BitVec.ofNat 64 (field bytes 80 8)
    ciePersonalityOffset := BitVec.ofNat 64 (field bytes 88 8)
    fdeCount := BitVec.ofNat 32 (field bytes 96 4)
    reserved := BitVec.ofNat 32 (field bytes 100 4)
    checksum := BitVec.ofNat 64 (field bytes 104 8)
    payloadChecksum := BitVec.ofNat 64 (field bytes 112 8) }

def headerChecksum (h : CacheHeader) : BitVec 64 :=
  fnv1a64 { h with checksum := 0, payloadChecksum := 0 }.toBytes

/-- The file size the header asks for, in 64-bit arithmetic. -/
def totalNeeded (h : CacheHeader) : BitVec 64 :=
  h.headerSize.setWidth 64 + h.ehFrameSize + h.hdrPairsSize +
    h.patchCount * BitVec.ofNat 64 sizeofPatch

end CacheHeader

def headerWidths : List Nat := [8, 4, 4, 8, 8, 8, 8, 8, 8, 8, 8, 8, 8, 4, 4, 8, 8]

theorem CacheHeader.field_toBytes (h : CacheHeader) (rest : List Octet) {k n v : Nat}
    (hk : h.layout[k]? = some (n, v)) :
    field (h.toBytes ++ rest) (headerWidths.take k).sum n = v % 256 ^ n := by
  obtain ⟨hlt, hget⟩ := List.getElem?_eq_some_iff.mp hk
  have hsplit : h.layout = h.layout.take k ++ (n, v) :: h.layout.drop (k + 1) := by
    rw [← hget, List.getElem_cons_drop, List.take_append_drop]
  have hwidths : headerWidths.take k = (h.layout.take k).map Prod.fst := by
    rw [List.map_take]
    rfl
  have hfield := field_fields (h.layout.take k) (h.layout.drop (k + 1)) n v rest
  rw [← hsplit, ← hwidths] at hfield
  exact hfield

theorem CacheHeader.ofBytes_toBytes (h : CacheHeader) (rest : List Octet) :
    CacheHeader.ofBytes (h.toBytes ++ rest) = h := by
  have hwide : ∀ (k offset : Nat) (v : BitVec 64), h.layout[k]? = some (8, v.toNat) →
      (headerWidths.take k).sum = offset →
        BitVec.ofNat 64 (field (h.toBytes ++ rest) offset 8) = v := by
    rintro k offset v hk rfl
    rw [h.field_toBytes rest hk, mod_eq_of_lt (by omega), BitVec.ofNat_toNat, BitVec.setWidth_eq]
  have hnarrow : ∀ (k offset : Nat) (v : BitVec 32), h.layout[k]? = some (4, v.toNat) →
      (headerWidths.take k).sum = offset →
        BitVec.ofNat 32 (field (h.toBytes ++ rest) offset 4) = v := by
    rintro k offset v hk rfl
    rw [h.field_toBytes rest hk, mod_eq_of_lt (by omega), BitVec.ofNat_toNat, BitVec.setWidth_eq]
  have hkey : (CacheHeader.ofBytes (h.toBytes ++ rest)).key = h.key :=
    CacheKey.ext (hwide 3 16 h.key.dev rfl (by decide)) (hwide 4 24 h.key.ino rfl (by decide))
      (hwide 5 32 h.key.size rfl (by decide)) (hwide 6 40 h.key.mtimeSec rfl (by decide))
      (hwide 7 48 h.key.mtimeNsec rfl (by decide)) (hwide 8 56 h.key.hasUnwind rfl (by decide))
  exact CacheHeader.ext (hwide 0 0 h.magic rfl (by decide)) (hnarrow 1 8 h.version rfl (by decide))
    (hnarrow 2 12 h.headerSize rfl (by decide)) hkey (hwide 9 64 h.ehFrameSize rfl (by decide))
    (hwide 10 72 h.hdrPairsSize rfl (by decide)) (hwide 11 80 h.patchCount rfl (by decide))
    (hwide 12 88 h.ciePersonalityOffset rfl (by decide)) (hnarrow 13 96 h.fdeCount rfl (by decide))
    (hnarrow 14 100 h.reserved rfl (by decide)) (hwide 15 104 h.checksum rfl (by decide))
    (hwide 16 112 h.payloadChecksum rfl (by decide))

/-- What a successful open hands out; the pointers count from the start of the mapped file. -/
structure OpenedCache where
  header : CacheHeader
  ehFrame : BitVec 64
  hdrPairs : BitVec 64
  patches : BitVec 64
  deriving DecidableEq

/-- `currentKey` is the key of the binary's `stat`. -/
def startupCacheOpen (currentKey : CacheKey) (file : List Octet) : Option OpenedCache :=
  if file.length < sizeofHeader then none
  else
    let header := CacheHeader.ofBytes file
    if header.magic ≠ machgateStartupCacheMagic then none
    else if header.version ≠ machgateStartupCacheVersion ∨
        header.headerSize ≠ BitVec.ofNat 32 sizeofHeader then none
    else if header.checksum ≠ header.headerChecksum then none
    else if ¬ keyMatches header.key currentKey then none
    else if header.totalNeeded ≠ BitVec.ofNat 64 file.length then none
    else
      let payload := header.headerSize.setWidth 64
      if fnv1a64 (file.drop header.headerSize.toNat) ≠ header.payloadChecksum then none
      else
        some { header := header, ehFrame := payload, hdrPairs := payload + header.ehFrameSize
               patches := payload + header.ehFrameSize + header.hdrPairsSize }

structure Slice where
  start : Nat
  size : Nat
  deriving DecidableEq

namespace Slice

def Within (s : Slice) (n : Nat) : Prop := s.start + s.size ≤ n

def Disjoint (s t : Slice) : Prop :=
  ∀ i, ¬ ((s.start ≤ i ∧ i < s.start + s.size) ∧ (t.start ≤ i ∧ i < t.start + t.size))

end Slice

namespace OpenedCache

variable (opened : OpenedCache)

def ehFrameSlice : Slice := ⟨opened.ehFrame.toNat, opened.header.ehFrameSize.toNat⟩
def hdrPairsSlice : Slice := ⟨opened.hdrPairs.toNat, opened.header.hdrPairsSize.toNat⟩
def patchesSlice : Slice :=
  ⟨opened.patches.toNat, opened.header.patchCount.toNat * sizeofPatch⟩

structure WellPlaced (file : List Octet) : Prop where
  next : opened.ehFrameSlice.start + opened.ehFrameSlice.size = opened.hdrPairsSlice.start
  next' : opened.hdrPairsSlice.start + opened.hdrPairsSlice.size = opened.patchesSlice.start
  ehFrame : opened.ehFrameSlice.Within file.length
  hdrPairs : opened.hdrPairsSlice.Within file.length
  patches : opened.patchesSlice.Within file.length
  disjoint : opened.ehFrameSlice.Disjoint opened.hdrPairsSlice
  disjoint' : opened.ehFrameSlice.Disjoint opened.patchesSlice
  disjoint'' : opened.hdrPairsSlice.Disjoint opened.patchesSlice

end OpenedCache

theorem startupCacheOpen_eq_some {key : CacheKey} {file : List Octet} {opened : OpenedCache} :
    startupCacheOpen key file = some opened ↔
      sizeofHeader ≤ file.length ∧
      (CacheHeader.ofBytes file).magic = machgateStartupCacheMagic ∧
      (CacheHeader.ofBytes file).version = machgateStartupCacheVersion ∧
      (CacheHeader.ofBytes file).headerSize = BitVec.ofNat 32 sizeofHeader ∧
      (CacheHeader.ofBytes file).checksum = (CacheHeader.ofBytes file).headerChecksum ∧
      keyMatches (CacheHeader.ofBytes file).key key ∧
      (CacheHeader.ofBytes file).totalNeeded = BitVec.ofNat 64 file.length ∧
      fnv1a64 (file.drop sizeofHeader) = (CacheHeader.ofBytes file).payloadChecksum ∧
      opened =
        { header := CacheHeader.ofBytes file
          ehFrame := BitVec.ofNat 64 sizeofHeader
          hdrPairs := BitVec.ofNat 64 sizeofHeader + (CacheHeader.ofBytes file).ehFrameSize
          patches := BitVec.ofNat 64 sizeofHeader + (CacheHeader.ofBytes file).ehFrameSize +
            (CacheHeader.ofBytes file).hdrPairsSize } := by
  generalize hheader : CacheHeader.ofBytes file = header
  rw [startupCacheOpen]
  simp only [hheader, ite_none_left_eq_some, not_or, not_not, Nat.not_lt, ne_eq,
    some.injEq, and_assoc]
  have hsizes : header.headerSize = BitVec.ofNat 32 sizeofHeader →
      header.headerSize.toNat = sizeofHeader ∧
        header.headerSize.setWidth 64 = BitVec.ofNat 64 sizeofHeader := by
    intro h
    rw [h]
    exact ⟨rfl, rfl⟩
  constructor
  · rintro ⟨hlength, hmagic, hversion, hsize, hsum, hkey, htotal, hpayload, rfl⟩
    obtain ⟨hnat, hwide⟩ := hsizes hsize
    rw [hnat] at hpayload
    rw [hwide]
    exact ⟨hlength, hmagic, hversion, hsize, hsum, hkey, htotal, hpayload, rfl⟩
  · rintro ⟨hlength, hmagic, hversion, hsize, hsum, hkey, htotal, hpayload, rfl⟩
    obtain ⟨hnat, hwide⟩ := hsizes hsize
    rw [hnat, hwide]
    exact ⟨hlength, hmagic, hversion, hsize, hsum, hkey, htotal, hpayload, rfl⟩

/-- Where the arrays of an accepted file are, and the one sum that was checked. -/
theorem slices_of_open {key : CacheKey} {file : List Octet} {opened : OpenedCache}
    (h : startupCacheOpen key file = some opened) :
    opened.ehFrameSlice = ⟨120, opened.header.ehFrameSize.toNat⟩ ∧
      opened.hdrPairsSlice = ⟨(120 + opened.header.ehFrameSize.toNat) % 2 ^ 64,
        opened.header.hdrPairsSize.toNat⟩ ∧
      opened.patchesSlice = ⟨(120 + opened.header.ehFrameSize.toNat +
        opened.header.hdrPairsSize.toNat) % 2 ^ 64, opened.header.patchCount.toNat * 16⟩ ∧
      (120 + opened.header.ehFrameSize.toNat + opened.header.hdrPairsSize.toNat +
        opened.header.patchCount.toNat * 16) % 2 ^ 64 = file.length % 2 ^ 64 := by
  obtain ⟨-, -, -, hsize, -, -, htotal, -, rfl⟩ := startupCacheOpen_eq_some.mp h
  have hstart : (BitVec.ofNat 64 sizeofHeader).toNat = 120 := rfl
  have htotal := congrArg BitVec.toNat htotal
  rw [CacheHeader.totalNeeded, hsize] at htotal
  simp only [BitVec.toNat_add, BitVec.toNat_mul, BitVec.toNat_ofNat, BitVec.toNat_setWidth,
    sizeofHeader, sizeofPatch] at htotal
  refine ⟨?_, ?_, ?_, ?_⟩
  · rw [OpenedCache.ehFrameSlice, hstart]
  · rw [OpenedCache.hdrPairsSlice, BitVec.toNat_add, hstart]
  · rw [OpenedCache.patchesSlice, BitVec.toNat_add, BitVec.toNat_add, hstart, mod_add_mod]
    rfl
  · dsimp only
    omega

/-- The arrays of an accepted file lie in it one behind the other exactly where the sizes of the
header add up without a carry out of 64 bits. -/
theorem wellPlaced_iff {key : CacheKey} {file : List Octet} (hfile : file.length < 2 ^ 63)
    {opened : OpenedCache} (h : startupCacheOpen key file = some opened) :
    opened.WellPlaced file ↔
      sizeofHeader + opened.header.ehFrameSize.toNat + opened.header.hdrPairsSize.toNat +
        opened.header.patchCount.toNat * sizeofPatch < 2 ^ 64 := by
  obtain ⟨hfirst, hsecond, hthird, htotal⟩ := slices_of_open h
  rw [sizeofHeader, sizeofPatch]
  constructor
  · intro hplaced
    have hnext := hplaced.next
    have hnext' := hplaced.next'
    have hlast := hplaced.patches
    rw [hfirst, hsecond] at hnext
    rw [hsecond, hthird] at hnext'
    rw [Slice.Within, hthird] at hlast
    dsimp only at hnext hnext' hlast
    omega
  · intro hsum
    rw [mod_eq_of_lt (by omega)] at hsecond hthird
    constructor <;> simp only [hfirst, hsecond, hthird, Slice.Within, Slice.Disjoint]
    case disjoint | disjoint' | disjoint'' =>
      intro i hi
      omega
    all_goals omega

/-- A header whose blob size and patch array add up to nothing. -/
def wrappedHeader : CacheHeader :=
  { magic := machgateStartupCacheMagic, version := machgateStartupCacheVersion, headerSize := 120
    key := ⟨1, 2, 3, 4, 5, 0⟩, ehFrameSize := 0xfffffffffffffff0, hdrPairsSize := 0, patchCount := 1
    ciePersonalityOffset := 19, fdeCount := 1, reserved := 0, checksum := 0
    payloadChecksum := fnv1a64 [] }

def wrappedFile : List Octet :=
  { wrappedHeader with checksum := wrappedHeader.headerChecksum }.toBytes

theorem wrappedFile_accepted :
    wrappedFile.length = 120 ∧
      (startupCacheOpen ⟨1, 2, 3, 4, 5, 0⟩ wrappedFile).map
          (fun opened => (opened.ehFrameSlice, opened.patchesSlice)) =
        some (⟨120, 2 ^ 64 - 16⟩, ⟨104, 16⟩) := by
  decide +kernel

def smallFile : List Octet :=
  let payload := List.replicate 40 0xab
  let header :=
    { wrappedHeader with ehFrameSize := 8, hdrPairsSize := 16, payloadChecksum := fnv1a64 payload }
  { header with checksum := header.headerChecksum }.toBytes ++ payload

theorem isSome_smallFile : (startupCacheOpen ⟨1, 2, 3, 4, 5, 0⟩ smallFile).isSome := by
  decide +kernel

theorem smallFile_wellPlaced :
    ((startupCacheOpen ⟨1, 2, 3, 4, 5, 0⟩ smallFile).get isSome_smallFile).WellPlaced smallFile :=
  (wellPlaced_iff (by decide +kernel) (some_get isSome_smallFile).symm).mpr (by decide +kernel)

end Machgate.StartupCache
