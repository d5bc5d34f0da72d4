import Machgate.ByteMemory
import Machgate.RecordBuffer

namespace Machgate.EhFrameRecords

open ByteMemory RecordBuffer List Nat

def dwCfaAdvanceLoc : BitVec 8 := 0x40
def dwCfaOffset : BitVec 8 := 0x80
def dwCfaNop : BitVec 8 := 0x00
def dwCfaOffsetExtended : BitVec 8 := 0x05
def dwCfaDefCfa : BitVec 8 := 0x0c
def dwEhPeAbsptr : BitVec 8 := 0x00

def dwarfRegFp : Nat := 29
def dwarfRegLr : Nat := 30
def dwarfRegSp : Nat := 31

def ulebGroups : Nat → Nat → List Octet
  | 0, _ => []
  | fuel + 1, v =>
    if v / 128 = 0 then [BitVec.ofNat 8 (v % 128)]
    else BitVec.ofNat 8 (v % 128 + 128) :: ulebGroups fuel (v / 128)

/-- A `uint64_t` takes ten groups of seven bits at most. -/
def ehfUleb128 (v : BitVec 64) : List Octet := ulebGroups 10 v.toNat

def slebGroups : Nat → Int → List Octet
  | 0, _ => []
  | fuel + 1, v =>
    let byte := (v % 128).toNat
    if (v / 128 = 0 ∧ byte < 64) ∨ (v / 128 = -1 ∧ 64 ≤ byte) then [BitVec.ofNat 8 byte]
    else BitVec.ofNat 8 (byte + 128) :: slebGroups fuel (v / 128)

def ehfSleb128 (v : BitVec 64) : List Octet := slebGroups 10 v.toInt

/-- A record with its length in front, padded to a multiple of 8 bytes in the buffer. -/
def ehfRecord (pos : Nat) (body : List Octet) : List Octet :=
  let padded := body ++ List.replicate ((8 - (pos + 4 + body.length) % 8) % 8) dwCfaNop
  leBytes 4 padded.length ++ padded

def cieBody (personalityAddr : BitVec 64) : List Octet :=
  leBytes 4 0 ++ [1] ++
    (if personalityAddr ≠ 0 then [0x7a, 0x50, 0x4c, 0x52, 0] else [0x7a, 0x52, 0]) ++
    ehfUleb128 4 ++ ehfSleb128 (-8) ++ ehfUleb128 (BitVec.ofNat 64 dwarfRegLr) ++
    (if personalityAddr ≠ 0 then
      ehfUleb128 11 ++ [dwEhPeAbsptr] ++ leBytes 8 personalityAddr.toNat ++
        [dwEhPeAbsptr, dwEhPeAbsptr]
    else ehfUleb128 1 ++ [dwEhPeAbsptr]) ++
    [dwCfaDefCfa] ++ ehfUleb128 (BitVec.ofNat 64 dwarfRegSp) ++ ehfUleb128 0

/-- The register pairs of an encoding: its bit and the first DWARF register of the pair. -/
def savedPairs : List (BitVec 32 × Nat) :=
  [(0x001, 19), (0x002, 21), (0x004, 23), (0x008, 25), (0x010, 27),
    (0x100, 72), (0x200, 74), (0x400, 76), (0x800, 78)]

def savedRegisters (encoding : BitVec 32) : List Nat :=
  savedPairs.flatMap fun pair =>
    if encoding &&& pair.1 ≠ 0 then [pair.2, pair.2 + 1] else []

-- the D registers do not fit the six bits of `DW_CFA_offset`
def cfaOffset (reg slot : Nat) : List Octet :=
  if reg < 64 then (dwCfaOffset ||| BitVec.ofNat 8 reg) :: ehfUleb128 (BitVec.ofNat 64 slot)
  else dwCfaOffsetExtended :: ehfUleb128 (BitVec.ofNat 64 reg) ++
    ehfUleb128 (BitVec.ofNat 64 slot)

def cfaOffsets (registers : List Nat) (slot : Nat) : List Octet :=
  (registers.zipIdx slot).flatMap fun saved => cfaOffset saved.1 saved.2

def frameCfi (encoding : BitVec 32) : List Octet :=
  [dwCfaAdvanceLoc ||| 1, dwCfaDefCfa] ++ ehfUleb128 (BitVec.ofNat 64 dwarfRegFp) ++
    ehfUleb128 16 ++ cfaOffset dwarfRegLr 1 ++ cfaOffset dwarfRegFp 2 ++
    cfaOffsets (savedRegisters encoding) 3

def framelessCfi (encoding : BitVec 32) : List Octet :=
  let stackSize := ((encoding &&& 0x00FFF000) >>> 12) * 16
  if 0 < stackSize then
    [dwCfaAdvanceLoc ||| 1, dwCfaDefCfa] ++ ehfUleb128 (BitVec.ofNat 64 dwarfRegSp) ++
      ehfUleb128 (stackSize.setWidth 64) ++ cfaOffsets (savedRegisters encoding) 1
  else []

structure Fde where
  cieOffset : Nat
  funcAddr : BitVec 64
  funcSize : BitVec 32
  lsdaAddr : BitVec 64
  cfi : List Octet

/-- The record of an FDE that starts at `pos`; its CIE pointer counts back from the field. -/
def fdeBody (fde : Fde) (pos : Nat) : List Octet :=
  leBytes 4 (pos + 4 - fde.cieOffset) ++ leBytes 8 fde.funcAddr.toNat ++
    leBytes 8 fde.funcSize.toNat ++
    (if fde.lsdaAddr ≠ 0 then ehfUleb128 8 ++ leBytes 8 fde.lsdaAddr.toNat
      else ehfUleb128 0) ++ fde.cfi

def emitCie (buf : List Octet) (personalityAddr : BitVec 64) : List Octet :=
  buf ++ ehfRecord buf.length (cieBody personalityAddr)

def emitFde (buf : List Octet) (fde : Fde) : List Octet :=
  buf ++ ehfRecord buf.length (fdeBody fde buf.length)

structure HdrEntry where
  initialLocation : BitVec 64
  addressRange : BitVec 64
  fdePtr : BitVec 64
  deriving DecidableEq

def scanFdes (buf : List Octet) (bufAddr : Addr) : Nat → Nat → List HdrEntry
  | 0, _ => []
  | fuel + 1, pos =>
    if pos + 4 < buf.length then
      let length := field buf pos 4
      if length = 0 then []
      else
        (if field buf (pos + 4) 4 ≠ 0 then
          [{ initialLocation := BitVec.ofNat 64 (field buf (pos + 8) 8)
             addressRange := BitVec.ofNat 64 (field buf (pos + 16) 8)
             fdePtr := bufAddr + BitVec.ofNat 64 pos }]
        else []) ++ scanFdes buf bufAddr fuel (pos + 4 + length)
    else []

inductive EhRecord
  | cie (personalityAddr : BitVec 64)
  | fde (fde : Fde)

namespace EhRecord

def body : EhRecord → Nat → List Octet
  | cie personalityAddr, _ => cieBody personalityAddr
  | fde f, pos => fdeBody f pos

def entry (bufAddr : Addr) : EhRecord → Nat → List HdrEntry
  | cie _, _ => []
  | fde f, pos =>
    [{ initialLocation := f.funcAddr
       addressRange := f.funcSize.setWidth 64
       fdePtr := bufAddr + BitVec.ofNat 64 pos }]

/-- A CIE behind which the record stands, and a length that 32 bits hold. -/
structure Fits (record : EhRecord) (pos : Nat) : Prop where
  cieOffset : ∀ f, record = fde f → f.cieOffset % 8 = 0 ∧ f.cieOffset ≤ pos
  length : ∀ at', (record.body at').length < 2 ^ 32 - 8

theorem Fits.mono {record : EhRecord} {pos pos' : Nat} (h : record.Fits pos) (hle : pos ≤ pos') :
    record.Fits pos' :=
  ⟨fun f hf => ⟨(h.cieOffset f hf).1, (h.cieOffset f hf).2.trans hle⟩, h.length⟩

end EhRecord

def emitRecord (buf : List Octet) : EhRecord → List Octet
  | .cie personalityAddr => emitCie buf personalityAddr
  | .fde f => emitFde buf f

variable (buf : List Octet)

theorem emitRecord_eq (record : EhRecord) :
    emitRecord buf record = buf ++ ehfRecord buf.length (record.body buf.length) := by
  cases record with
  | cie p | fde f => rfl

theorem length_ehfRecord_mod (pos : Nat) (body : List Octet) :
    (pos + (ehfRecord pos body).length) % 8 = 0 := by
  simp only [ehfRecord, length_append, length_leBytes, length_replicate]
  omega

theorem length_body_pos (record : EhRecord) (pos : Nat) : 4 ≤ (record.body pos).length := by
  cases record with
  | cie p =>
    simp only [EhRecord.body, cieBody, length_append, length_leBytes]
    omega
  | fde f =>
    simp only [EhRecord.body, fdeBody, length_append, length_leBytes]
    omega

theorem field_append_length (front bytes : List Octet) (k n : Nat) :
    field (front ++ bytes) (front.length + k) n = field bytes k n := by
  rw [field, field, ← drop_drop, drop_left]

def recordEntries (bufAddr : Addr) : Nat → List EhRecord → List HdrEntry
  | _, [] => []
  | pos, record :: records =>
    record.entry bufAddr pos ++
      recordEntries bufAddr (pos + (ehfRecord pos (record.body pos)).length) records

theorem field_ehfRecord_length {body : List Octet} (pos : Nat) (h : body.length < 2 ^ 32 - 8)
    (rest : List Octet) :
    4 + field (ehfRecord pos body ++ rest) 0 4 = (ehfRecord pos body).length := by
  simp only [ehfRecord, length_append, length_leBytes, length_replicate]
  rw [field, drop_zero, append_assoc, take_left' (length_leBytes ..), ofLeBytes_leBytes]
  omega

theorem fdeRecord_eq (f : Fde) (pos : Nat) :
    ∃ tail, ehfRecord pos (fdeBody f pos) =
      fields [(4, (ehfRecord pos (fdeBody f pos)).length - 4), (4, pos + 4 - f.cieOffset),
        (8, f.funcAddr.toNat), (8, f.funcSize.toNat)] ++ tail := by
  refine ⟨(if f.lsdaAddr ≠ 0 then ehfUleb128 8 ++ leBytes 8 f.lsdaAddr.toNat
      else ehfUleb128 0) ++ f.cfi ++
    replicate ((8 - (pos + 4 + (fdeBody f pos).length) % 8) % 8) dwCfaNop, ?_⟩
  have hlength : (ehfRecord pos (fdeBody f pos)).length - 4 =
      (fdeBody f pos ++ replicate
        ((8 - (pos + 4 + (fdeBody f pos).length) % 8) % 8) dwCfaNop).length := by
    rw [ehfRecord, length_append, length_leBytes, Nat.add_sub_cancel_left]
  rw [hlength, ehfRecord]
  simp only [fields, flatMap_cons, flatMap_nil, fdeBody, append_assoc, append_nil]

theorem field_cieRecord (personalityAddr : BitVec 64) (pos : Nat) (rest : List Octet) :
    field (ehfRecord pos (cieBody personalityAddr) ++ rest) 4 4 = 0 := by
  have hsplit : ∃ n tail, ehfRecord pos (cieBody personalityAddr) = fields [(4, n), (4, 0)] ++ tail := by
    simp only [ehfRecord, cieBody, fields, flatMap_cons, flatMap_nil, append_assoc, append_nil]
    exact ⟨_, _, rfl⟩
  obtain ⟨n, tail, hrecord⟩ := hsplit
  rw [hrecord, append_assoc]
  exact field_fields [(4, n)] [] 4 0 (tail ++ rest)

theorem field_fdeRecord (f : Fde) (pos : Nat) (rest : List Octet) :
    field (ehfRecord pos (fdeBody f pos) ++ rest) 4 4 = (pos + 4 - f.cieOffset) % 2 ^ 32 ∧
      field (ehfRecord pos (fdeBody f pos) ++ rest) 8 8 = f.funcAddr.toNat ∧
      field (ehfRecord pos (fdeBody f pos) ++ rest) 16 8 = f.funcSize.toNat := by
  obtain ⟨tail, hrecord⟩ := fdeRecord_eq f pos
  have haddr := f.funcAddr.isLt
  rw [hrecord, append_assoc]
  refine ⟨field_fields [(4, _)] [(8, _), (8, _)] 4 _ _, ?_, ?_⟩
  · exact (field_fields [(4, _), (4, _)] [(8, _)] 8 _ _).trans (mod_eq_of_lt (by omega))
  · exact (field_fields [(4, _), (4, _), (8, _)] [] 8 _ _).trans (mod_eq_of_lt (by omega))

/-- One round of the scan: a CIE is passed over, an FDE is listed with its place. -/
theorem scanFdes_record (record : EhRecord) (rest : List Octet)
    (bufAddr : Addr) (fuel : Nat) (haligned : buf.length % 8 = 0) (hfits : record.Fits buf.length) :
    scanFdes (emitRecord buf record ++ rest) bufAddr (fuel + 1) buf.length =
      record.entry bufAddr buf.length ++
        scanFdes (emitRecord buf record ++ rest) bufAddr fuel (emitRecord buf record).length := by
  have hlength := field_ehfRecord_length buf.length (hfits.length buf.length) rest
  have hpos := length_body_pos record buf.length
  have hmin : 8 ≤ (ehfRecord buf.length (record.body buf.length)).length := by
    simp only [ehfRecord, length_append, length_leBytes]
    omega
  have hread : ∀ k n, field (emitRecord buf record ++ rest) (buf.length + k) n =
      field (ehfRecord buf.length (record.body buf.length) ++ rest) k n := by
    intro k n
    rw [emitRecord_eq, append_assoc, field_append_length]
  have hread0 := hread 0 4
  rw [Nat.add_zero] at hread0
  have htotal : buf.length + 4 < (emitRecord buf record ++ rest).length := by
    rw [emitRecord_eq, length_append, length_append]
    omega
  have hnext : buf.length + 4 + field (ehfRecord buf.length (record.body buf.length) ++ rest) 0 4 =
      (emitRecord buf record).length := by
    rw [emitRecord_eq, length_append]
    omega
  rw [scanFdes, if_pos htotal]
  simp only [hread0, hread, hnext]
  rw [if_neg (by omega)]
  congr 1
  cases record with
  | cie p => exact if_neg (not_not.mpr (field_cieRecord p buf.length rest))
  | fde f =>
    obtain ⟨hcie, hle⟩ := hfits.cieOffset f rfl
    obtain ⟨hid, hloc, hrange⟩ := field_fdeRecord f buf.length rest
    have hne : (buf.length + 4 - f.cieOffset) % 2 ^ 32 ≠ 0 := by omega
    have hlocation : BitVec.ofNat 64 f.funcAddr.toNat = f.funcAddr := by
      rw [BitVec.ofNat_toNat, BitVec.setWidth_eq]
    change (if field (ehfRecord _ (fdeBody f _) ++ rest) 4 4 ≠ 0 then _ else _) = _
    rw [hid, if_pos hne]
    change [HdrEntry.mk (BitVec.ofNat 64 (field (ehfRecord _ (fdeBody f _) ++ rest) 8 8))
      (BitVec.ofNat 64 (field (ehfRecord _ (fdeBody f _) ++ rest) 16 8)) _] = _
    rw [hloc, hrange, hlocation, BitVec.ofNat_toNat]
    rfl

theorem length_emitRecord_mod (record : EhRecord) : (emitRecord buf record).length % 8 = 0 := by
  rw [emitRecord_eq, length_append]
  exact length_ehfRecord_mod ..

theorem foldl_emitRecord_eq (records : List EhRecord) :
    ∃ tail, records.foldl emitRecord buf = buf ++ tail := by
  induction records generalizing buf with
  | nil => exact ⟨[], (append_nil buf).symm⟩
  | cons record records ih =>
    obtain ⟨tail, htail⟩ := ih (emitRecord buf record)
    exact ⟨ehfRecord buf.length (record.body buf.length) ++ tail, by
      rw [foldl_cons, htail, emitRecord_eq, append_assoc]⟩

theorem length_emitRecord_ge (record : EhRecord) :
    buf.length + 8 ≤ (emitRecord buf record).length := by
  have := length_body_pos record buf.length
  simp only [emitRecord_eq, ehfRecord, length_append, length_leBytes]
  omega

theorem length_foldl_emitRecord_ge (records : List EhRecord) :
    buf.length + 8 * records.length ≤ (records.foldl emitRecord buf).length := by
  induction records generalizing buf with
  | nil => exact Nat.le_refl _
  | cons record records ih =>
    have hhead := length_emitRecord_ge buf record
    have hrest := ih (emitRecord buf record)
    rw [foldl_cons, length_cons]
    omega

/-- The scan lists the FDEs of the buffer, up to the zero terminator. -/
theorem scanFdes_records {buf : List Octet} {records : List EhRecord} (bufAddr : Addr)
    (haligned : buf.length % 8 = 0) (hfits : ∀ record ∈ records, record.Fits buf.length)
    {fuel : Nat} (hfuel : records.length < fuel) :
    scanFdes (records.foldl emitRecord buf ++ leBytes 4 0) bufAddr fuel buf.length =
      recordEntries bufAddr buf.length records := by
  induction records generalizing buf fuel with
  | nil =>
    obtain ⟨fuel, rfl⟩ := exists_eq_succ_of_ne_zero (Nat.ne_of_gt hfuel)
    rw [foldl_nil, scanFdes, length_append, length_leBytes]
    exact if_neg (Nat.lt_irrefl _)
  | cons record records ih =>
    obtain ⟨fuel, rfl⟩ := exists_eq_succ_of_ne_zero (Nat.ne_of_gt (zero_lt_of_lt hfuel))
    obtain ⟨tail, htail⟩ := foldl_emitRecord_eq (emitRecord buf record) records
    have hlonger : buf.length ≤ (emitRecord buf record).length := by
      rw [emitRecord_eq, length_append]
      omega
    have hrest := ih (length_emitRecord_mod buf record)
      (fun r hr => (hfits r (mem_cons_of_mem _ hr)).mono hlonger) (lt_of_succ_lt_succ hfuel)
    rw [foldl_cons, recordEntries]
    rw [htail, append_assoc] at hrest ⊢
    rw [scanFdes_record _ _ _ _ _ haligned (hfits record mem_cons_self), hrest, emitRecord_eq,
      length_append]

theorem recordEntries_append (bufAddr : Addr) (buf : List Octet) (records records' : List EhRecord) :
    recordEntries bufAddr buf.length (records ++ records') =
      recordEntries bufAddr buf.length records ++
        recordEntries bufAddr (records.foldl emitRecord buf).length records' := by
  induction records generalizing buf with
  | nil => rfl
  | cons record records ih =>
    have hlength : buf.length + (ehfRecord buf.length (record.body buf.length)).length =
        (emitRecord buf record).length := by
      rw [emitRecord_eq, length_append]
    rw [cons_append, recordEntries, recordEntries, hlength, ih, append_assoc, foldl_cons]

def EhRecord.range? : EhRecord → Option (BitVec 64 × BitVec 64)
  | .cie _ => none
  | .fde f => some (f.funcAddr, f.funcSize.setWidth 64)

theorem map_recordEntries (bufAddr : Addr) (pos : Nat) (records : List EhRecord) :
    (recordEntries bufAddr pos records).map
        (fun e => (e.initialLocation, e.addressRange)) = records.filterMap EhRecord.range? := by
  induction records generalizing pos with
  | nil => rfl
  | cons record records ih =>
    rw [recordEntries, map_append, ih]
    cases record with
    | cie p | fde f => rfl

theorem length_ulebGroups_le (fuel v : Nat) : (ulebGroups fuel v).length ≤ fuel := by
  induction fuel generalizing v with
  | zero => exact Nat.le_refl _
  | succ fuel ih =>
    rw [ulebGroups]
    split
    · exact succ_le_succ (Nat.zero_le fuel)
    · exact succ_le_succ (ih _)

theorem length_ehfUleb128_le (v : BitVec 64) : (ehfUleb128 v).length ≤ 10 :=
  length_ulebGroups_le ..

theorem length_cfaOffset_le (reg slot : Nat) : (cfaOffset reg slot).length ≤ 21 := by
  have hreg := length_ehfUleb128_le (BitVec.ofNat 64 reg)
  have hslot := length_ehfUleb128_le (BitVec.ofNat 64 slot)
  rw [cfaOffset]
  split
  · rw [length_cons]
    omega
  · rw [cons_append, length_cons, length_append]
    omega

theorem length_cfaOffsets_le (registers : List Nat) (slot : Nat) :
    (cfaOffsets registers slot).length ≤ 21 * registers.length := by
  induction registers generalizing slot with
  | nil => exact Nat.le_refl _
  | cons reg registers ih =>
    have hhead : (cfaOffset (reg, slot).1 (reg, slot).2).length ≤ 21 := length_cfaOffset_le reg slot
    have hrest := ih (slot + 1)
    rw [cfaOffsets] at hrest ⊢
    rw [zipIdx_cons, flatMap_cons, length_append, length_cons]
    omega

variable (encoding : BitVec 32)

theorem length_savedRegisters_le : (savedRegisters encoding).length ≤ 18 := by
  have hle : ∀ pairs : List (BitVec 32 × Nat), (pairs.flatMap fun pair =>
      if encoding &&& pair.1 ≠ 0 then [pair.2, pair.2 + 1] else []).length ≤ 2 * pairs.length := by
    intro pairs
    induction pairs with
    | nil => exact Nat.le_refl _
    | cons pair pairs ih =>
      rw [flatMap_cons, length_append, length_cons]
      split
      · rw [length_cons, length_singleton]
        omega
      · rw [length_nil]
        omega
  exact hle savedPairs

theorem length_frameCfi_lt : (frameCfi encoding).length < 512 := by
  have hregs := length_savedRegisters_le encoding
  have hoffsets := length_cfaOffsets_le (savedRegisters encoding) 3
  have hhead : ([dwCfaAdvanceLoc ||| 1, dwCfaDefCfa] ++ ehfUleb128 (BitVec.ofNat 64 dwarfRegFp) ++
      ehfUleb128 16 ++ cfaOffset dwarfRegLr 1 ++ cfaOffset dwarfRegFp 2).length = 8 := by decide
  rw [frameCfi, length_append, hhead]
  omega

theorem length_framelessCfi_lt : (framelessCfi encoding).length < 512 := by
  have hregs := length_savedRegisters_le encoding
  have hoffsets := length_cfaOffsets_le (savedRegisters encoding) 1
  have hsp := length_ehfUleb128_le (BitVec.ofNat 64 dwarfRegSp)
  have hsize := length_ehfUleb128_le ((((encoding &&& 0x00FFF000) >>> 12) * 16).setWidth 64)
  rw [framelessCfi]
  split
  · rw [length_append, length_append, length_append, length_cons, length_singleton]
    omega
  · decide

theorem fits_cie (personalityAddr : BitVec 64) (pos : Nat) :
    (EhRecord.cie personalityAddr).Fits pos := by
  refine ⟨fun _ hf => EhRecord.noConfusion hf, fun at' => ?_⟩
  have huleb : ∀ v, (ehfUleb128 v).length ≤ 10 := length_ehfUleb128_le
  have h4 := huleb 4
  have h30 := huleb (BitVec.ofNat 64 dwarfRegLr)
  have h31 := huleb (BitVec.ofNat 64 dwarfRegSp)
  have h11 := huleb 11
  have h1 := huleb 1
  have h0 := huleb 0
  have hsleb : (ehfSleb128 (-8)).length = 1 := by decide
  rw [EhRecord.body, cieBody]
  simp only [length_append, length_leBytes, hsleb]
  split
  · simp only [length_append, length_leBytes, length_cons, length_nil]
    omega
  · simp only [length_append, length_cons, length_nil]
    omega

theorem fits_fde {f : Fde} {pos : Nat} (hcie : f.cieOffset % 8 = 0 ∧ f.cieOffset ≤ pos)
    (hcfi : f.cfi.length < 2 ^ 31) : (EhRecord.fde f).Fits pos := by
  refine ⟨fun g hg => by cases hg; exact hcie, fun at' => ?_⟩
  have h8 := length_ehfUleb128_le 8
  have h0 := length_ehfUleb128_le 0
  rw [EhRecord.body, fdeBody]
  simp only [length_append, length_leBytes]
  split
  · simp only [length_append, length_leBytes]
    omega
  · omega

end Machgate.EhFrameRecords
