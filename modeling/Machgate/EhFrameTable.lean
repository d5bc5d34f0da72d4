import Machgate.UnwindEntries
import Machgate.EhFrameRecords

namespace Machgate.EhFrameTable

open ByteMemory RecordBuffer UnwindEntries EhFrameRecords List Option Nat Prod
open BitVec hiding and_assoc append_assoc replicate_zero

/-- An FDE of the image's own `__eh_frame`, with the instructions behind its augmentation data.
The section is part of `__TEXT`, so they are far below the 32-bit limit of a record. -/
structure NativeFde extends HdrEntry where
  cfi : List Octet
  cfi_lt : cfi.length < 2 ^ 31

structure UnwindImage where
  textBase : BitVec 64
  slide : BitVec 64
  info : UnwindInfo
  natives : List NativeFde
  nativeSize : Nat
  got : Addr → BitVec 64

/-- `mmap_near_address`: where it finds room for a size.  User addresses end far below `2 ^ 63`. -/
structure NearMap where
  answer : Nat → Option Addr
  user : ∀ size a, answer size = some a → a.toNat + size ≤ 2 ^ 63

def findNativeFde (natives : List NativeFde) (location : BitVec 64) : Option NativeFde :=
  natives.find? fun n =>
    n.initialLocation = location ∨
      (n.addressRange ≠ 0 ∧ n.initialLocation < location ∧
        location < n.initialLocation + n.addressRange)

namespace UnwindImage

variable (image : UnwindImage)

/-- The four personality slots, read through the GOT. -/
def personalities : List (BitVec 64) :=
  (List.range 4).map fun i =>
    if i < image.info.personalityArrayCount.toNat then
      image.got (image.textBase + image.slide +
        (image.info.word (image.info.personalityArraySectionOffset.toNat + 4 * i)).signExtend 64)
    else 0

def gxxPersonality : BitVec 64 :=
  if 0 < image.info.personalityArrayCount then image.personalities.getD 0 0 else 0

def funcAddr (e : CuEntry) : BitVec 64 :=
  image.textBase + image.slide + e.funcOffset.setWidth 64

def lsdaAddr (e : CuEntry) : BitVec 64 :=
  if e.encoding &&& unwindHasLsda ≠ 0 ∧ e.lsdaOffset ≠ 0 then
    image.textBase + image.slide + e.lsdaOffset.setWidth 64
  else 0

/-- The native FDE whose instructions replace the compact encoding of an entry with an LSDA. -/
def nativeCfi (e : CuEntry) : Option NativeFde :=
  if image.lsdaAddr e ≠ 0 then
    (findNativeFde image.natives (image.funcAddr e)).filter fun n => n.cfi ≠ []
  else none

end UnwindImage

def mode (e : CuEntry) : BitVec 32 := e.encoding &&& unwindArm64ModeMask

def NotFunctionStart (e : CuEntry) : Prop := e.encoding &&& unwindIsNotFunctionStart ≠ 0

def HasLsda (e : CuEntry) : Prop := e.encoding &&& unwindHasLsda ≠ 0

instance (e : CuEntry) : Decidable (NotFunctionStart e) := inferInstanceAs (Decidable (¬ _))
instance (e : CuEntry) : Decidable (HasLsda e) := inferInstanceAs (Decidable (¬ _))

def nativeRange (e : CuEntry) (n : NativeFde) : BitVec 32 :=
  if n.addressRange ≠ 0 then n.addressRange.setWidth 32 else e.funcSize

def cfiOf (e : CuEntry) : List Octet :=
  if mode e = unwindArm64ModeFrame then frameCfi e.encoding
  else if mode e = unwindArm64ModeFrameless then framelessCfi e.encoding
  else []

/-- The FDE of one round of the emission loop, if the round emits one. -/
def fdeOf (image : UnwindImage) (cieWithPersonality cieWithoutPersonality : Nat) (e : CuEntry) :
    Option Fde :=
  let cie := if HasLsda e then cieWithPersonality else cieWithoutPersonality
  match image.nativeCfi e with
  | some n =>
    some { cieOffset := cieWithPersonality, funcAddr := image.funcAddr e
           funcSize := nativeRange e n, lsdaAddr := image.lsdaAddr e, cfi := n.cfi }
  | none =>
    if mode e = unwindArm64ModeDwarf then none
    else if NotFunctionStart e then none
    else some { cieOffset := cie, funcAddr := image.funcAddr e, funcSize := e.funcSize
                lsdaAddr := image.lsdaAddr e, cfi := cfiOf e }

/-- Both CIEs; the one without a personality starts behind the other. -/
def emitCies (image : UnwindImage) : List Octet :=
  emitCie (emitCie [] image.gxxPersonality) 0

def cieWithPersonality : Nat := 0

def cieWithoutPersonality (image : UnwindImage) : Nat :=
  (emitCie [] image.gxxPersonality).length

def emitEntry (image : UnwindImage) (buf : List Octet) (e : CuEntry) : List Octet :=
  match fdeOf image cieWithPersonality (cieWithoutPersonality image) e with
  | some fde => emitFde buf fde
  | none => buf

def emitEntries (image : UnwindImage) (entries : List CuEntry) : List Octet :=
  entries.foldl (emitEntry image) (emitCies image)

def hasEntryStart (entries : List HdrEntry) (location : BitVec 64) : Bool :=
  entries.any fun e => e.initialLocation = location

/-- The synthetic FDEs with the native ones they do not shadow, by start address. -/
def mergeEntries (syn : List HdrEntry) (natives : List NativeFde) : List HdrEntry :=
  (syn ++ (natives.filter fun n => !hasEntryStart syn n.initialLocation).map
    NativeFde.toHdrEntry).insertionSort fun a b => a.initialLocation ≤ b.initialLocation

def Int32 (rel : Int) : Prop := -2 ^ 31 ≤ rel ∧ rel < 2 ^ 31

instance (rel : Int) : Decidable (Int32 rel) := inferInstanceAs (Decidable (_ ∧ _))

def relTo (base a : BitVec 64) : Int := (a - base).toInt

/-- `.eh_frame_hdr` at `hdrAddr`, or `none` where a pointer does not fit 32 bits. -/
def encodeHdr (hdrAddr bufAddr : Addr) (rows : List HdrEntry) : Option (List Octet) :=
  if Int32 (relTo (hdrAddr + 4) bufAddr) ∧
      ∀ row ∈ rows, Int32 (relTo hdrAddr row.initialLocation) ∧ Int32 (relTo hdrAddr row.fdePtr)
  then
    some ([1, 0x1b, 0x03, 0x3b] ++ leBytes 4 (bufAddr - (hdrAddr + 4)).toNat ++
      leBytes 4 rows.length ++ rows.flatMap fun row =>
        leBytes 4 (row.initialLocation - hdrAddr).toNat ++ leBytes 4 (row.fdePtr - hdrAddr).toNat)
  else none

structure Registered where
  bufAddr : Addr
  ehFrame : List Octet
  hdrAddr : Addr
  rows : List HdrEntry
  hdr : List Octet

def ehfCapacity (image : UnwindImage) (entries : List CuEntry) : Nat :=
  entries.length * 128 + image.nativeSize + 4096

/-- The tables that get registered; `none` where the generation fails or finds no entry.  A buffer
that outgrows its mapping has no defined outcome. -/
def generateAndRegister (image : UnwindImage) (ehfMap hdrMap : NearMap) : Option Registered :=
  (collectEntries image.info).bind fun entries =>
    if entries = [] then none
    else
      (ehfMap.answer (ehfCapacity image entries)).bind fun bufAddr =>
        let buf := emitEntries image entries ++ leBytes 4 0
        if ehfCapacity image entries < buf.length then none
        else
          let rows := mergeEntries (scanFdes buf bufAddr buf.length 0) image.natives
          (hdrMap.answer (12 + rows.length * 8)).bind fun hdrAddr =>
            (encodeHdr hdrAddr bufAddr rows).map fun hdr =>
              { bufAddr := bufAddr, ehFrame := buf, hdrAddr := hdrAddr, rows := rows, hdr := hdr }

def entryFde (image : UnwindImage) (e : CuEntry) : Option Fde :=
  fdeOf image cieWithPersonality (cieWithoutPersonality image) e

def entryFdes (image : UnwindImage) (entries : List CuEntry) : List Fde :=
  entries.filterMap (entryFde image)

theorem emitEntries_eq (image : UnwindImage) (entries : List CuEntry) :
    emitEntries image entries =
      ((entryFdes image entries).map EhRecord.fde).foldl emitRecord (emitCies image) := by
  rw [emitEntries, entryFdes, foldl_map, foldl_filterMap]
  congr 1
  funext buf e
  rw [emitEntry, entryFde]
  cases fdeOf image cieWithPersonality (cieWithoutPersonality image) e with
  | none | some f => rfl

variable {image : UnwindImage} {e : CuEntry} {entries : List CuEntry} {f : Fde} {pc : Addr}
  {ehfMap hdrMap : NearMap} {out : Registered}

/-- An entry is given an FDE by its native instructions, or as a function start with a compact
encoding. -/
theorem entryFde_eq_some_iff :
    entryFde image e = some f ↔
      (∃ n, image.nativeCfi e = some n ∧
        f = { cieOffset := 0, funcAddr := image.funcAddr e, funcSize := nativeRange e n
              lsdaAddr := image.lsdaAddr e, cfi := n.cfi }) ∨
      (image.nativeCfi e = none ∧ mode e ≠ unwindArm64ModeDwarf ∧ ¬ NotFunctionStart e ∧
        f = { cieOffset := if HasLsda e then 0 else cieWithoutPersonality image
              funcAddr := image.funcAddr e, funcSize := e.funcSize
              lsdaAddr := image.lsdaAddr e, cfi := cfiOf e }) := by
  rw [entryFde, fdeOf]
  cases image.nativeCfi e with
  | none =>
    dsimp only
    simp only [reduceCtorEq, false_and, exists_false, false_or, true_and]
    split
    · next hmode => simp [hmode]
    · next hmode =>
      split
      · next hstart => simp [hstart]
      · next hstart =>
        rw [some.injEq, and_iff_right hmode, and_iff_right hstart, eq_comm]
        rfl
  | some n =>
    simp only [some.injEq, reduceCtorEq, false_and, or_false]
    constructor
    · rintro rfl
      exact ⟨n, rfl, rfl⟩
    · rintro ⟨_, rfl, rfl⟩
      rfl

theorem funcAddr_entryFde (h : entryFde image e = some f) : f.funcAddr = image.funcAddr e := by
  rcases entryFde_eq_some_iff.mp h with ⟨n, -, rfl⟩ | ⟨-, -, -, rfl⟩
  · rfl
  · rfl

theorem length_cfiOf_lt (e : CuEntry) : (cfiOf e).length < 2 ^ 31 := by
  have hframe := length_frameCfi_lt e.encoding
  have hframeless := length_framelessCfi_lt e.encoding
  rw [cfiOf]
  split
  · omega
  · split
    · omega
    · decide

theorem fits_entryFde
    (h : entryFde image e = some f) : (EhRecord.fde f).Fits (emitCies image).length := by
  have hcie : (cieWithoutPersonality image) % 8 = 0 :=
    length_emitRecord_mod [] (.cie image.gxxPersonality)
  have hle : cieWithoutPersonality image ≤ (emitCies image).length := by
    rw [cieWithoutPersonality, emitCies]
    exact (sublist_append_left ..).length_le
  rcases entryFde_eq_some_iff.mp h with ⟨n, -, rfl⟩ | ⟨-, -, -, rfl⟩
  · exact fits_fde ⟨rfl, Nat.zero_le _⟩ n.cfi_lt
  · apply fits_fde
    · change (if _ then _ else _) % 8 = 0 ∧ (if _ then _ else _) ≤ _
      split
      · exact ⟨rfl, Nat.zero_le _⟩
      · exact ⟨hcie, hle⟩
    · exact length_cfiOf_lt e

/-- The scan of the finished buffer finds the FDE of every entry that was given one. -/
theorem scanFdes_emitEntries (image : UnwindImage) (entries : List CuEntry) (bufAddr : Addr) :
    scanFdes (emitEntries image entries ++ leBytes 4 0) bufAddr
        (emitEntries image entries ++ leBytes 4 0).length 0 =
      recordEntries bufAddr (emitCies image).length
        ((entryFdes image entries).map EhRecord.fde) := by
  have hlength := length_foldl_emitRecord_ge (emitCies image)
    ((entryFdes image entries).map EhRecord.fde)
  have hfirst := length_emitRecord_ge [] (.cie image.gxxPersonality)
  have hsecond := length_emitRecord_ge (emitRecord [] (.cie image.gxxPersonality)) (.cie 0)
  have hcies : emitCies image =
      emitRecord (emitRecord [] (.cie image.gxxPersonality)) (.cie 0) := rfl
  rw [← hcies] at hsecond
  rw [← emitEntries_eq] at hlength
  obtain ⟨tail, htail⟩ := foldl_emitRecord_eq (emitCies image)
    ((entryFdes image entries).map EhRecord.fde)
  rw [← emitEntries_eq] at htail
  obtain ⟨fuel, hfuel⟩ : ∃ fuel, (emitEntries image entries ++ leBytes 4 0).length = fuel + 2 := by
    refine ⟨(emitEntries image entries ++ leBytes 4 0).length - 2, ?_⟩
    rw [length_append, length_leBytes]
    omega
  have hskip : ∀ fuel, scanFdes (emitEntries image entries ++ leBytes 4 0) bufAddr (fuel + 2) 0 =
      scanFdes (emitEntries image entries ++ leBytes 4 0) bufAddr fuel (emitCies image).length := by
    intro fuel
    have hone := scanFdes_record [] (.cie image.gxxPersonality)
      (ehfRecord (cieWithoutPersonality image) (cieBody 0) ++ (tail ++ leBytes 4 0)) bufAddr
      (fuel + 1) rfl (fits_cie ..)
    have htwo := scanFdes_record _ (.cie 0) (tail ++ leBytes 4 0) bufAddr fuel
      (length_emitRecord_mod [] (.cie image.gxxPersonality)) (fits_cie ..)
    rw [← hcies, ← append_assoc, ← htail] at htwo
    rw [← append_assoc] at hone
    have hbuf : emitRecord [] (.cie image.gxxPersonality) ++
        ehfRecord (cieWithoutPersonality image) (cieBody 0) = emitCies image := rfl
    rw [hbuf, ← append_assoc, ← htail] at hone
    exact hone.trans htwo
  rw [hfuel, hskip, emitEntries_eq]
  apply scanFdes_records
  · rw [hcies]
    exact length_emitRecord_mod ..
  · intro record hrecord
    obtain ⟨f, hf, rfl⟩ := mem_map.mp hrecord
    obtain ⟨e, -, he⟩ := mem_filterMap.mp hf
    exact fits_entryFde he
  · rw [length_append, length_leBytes] at hfuel
    omega

theorem generateAndRegister_eq_some (h : generateAndRegister image ehfMap hdrMap = some out) :
    ∃ entries, collectEntries image.info = some entries ∧
      ehfMap.answer (ehfCapacity image entries) = some out.bufAddr ∧
      out.ehFrame = emitEntries image entries ++ leBytes 4 0 ∧
      out.ehFrame.length ≤ ehfCapacity image entries ∧
      out.rows = mergeEntries (recordEntries out.bufAddr (emitCies image).length
        ((entryFdes image entries).map EhRecord.fde)) image.natives ∧
      encodeHdr out.hdrAddr out.bufAddr out.rows = some out.hdr := by
  obtain ⟨entries, hentries, h⟩ := bind_eq_some_iff.mp h
  refine ⟨entries, hentries, ?_⟩
  split at h
  · cases h
  · obtain ⟨bufAddr, hbuf, h⟩ := bind_eq_some_iff.mp h
    simp only [scanFdes_emitEntries] at h
    split at h
    · cases h
    · next hcapacity =>
      obtain ⟨hdrAddr, -, h⟩ := bind_eq_some_iff.mp h
      obtain ⟨hdr, hhdr, rfl⟩ := map_eq_some_iff.mp h
      exact ⟨hbuf, rfl, Nat.le_of_not_lt hcapacity, rfl, hhdr⟩

theorem mem_mergeEntries {syn : List HdrEntry} {natives : List NativeFde} {row : HdrEntry} :
    row ∈ mergeEntries syn natives ↔
      row ∈ syn ∨ ∃ n ∈ natives, (∀ e ∈ syn, e.initialLocation ≠ n.initialLocation) ∧
        n.toHdrEntry = row := by
  rw [mergeEntries, mem_insertionSort, mem_append, List.mem_map]
  simp only [mem_filter, hasEntryStart, Bool.not_eq_true', List.any_eq_false,
    decide_eq_true_eq, and_assoc]

def Emits (image : UnwindImage) (e : CuEntry) : Prop :=
  (image.nativeCfi e).isSome ∨ mode e ≠ unwindArm64ModeDwarf ∧ ¬ NotFunctionStart e

theorem isSome_entryFde_iff : (entryFde image e).isSome ↔ Emits image e := by
  rw [isSome_iff_exists, Emits]
  simp only [entryFde_eq_some_iff]
  cases image.nativeCfi e with
  | none | some n => simp

theorem inRange_funcAddr_iff {n : Nat} (hn : n ≤ 2 ^ 32) :
    InRange (image.funcAddr e) n pc ↔
      e.funcOffset.toNat ≤ (pc - (image.textBase + image.slide)).toNat ∧
        (pc - (image.textBase + image.slide)).toNat < e.funcOffset.toNat + n := by
  have hoffset := e.funcOffset.isLt
  have hpc := (pc - (image.textBase + image.slide)).isLt
  have hsub : pc - image.funcAddr e =
      pc - (image.textBase + image.slide) - e.funcOffset.setWidth 64 := by
    rw [UnwindImage.funcAddr, sub_eq_add_neg, neg_add, sub_eq_add_neg,
      sub_eq_add_neg, sub_eq_add_neg, add_assoc]
  have hwidth : (e.funcOffset.setWidth 64).toNat = e.funcOffset.toNat := by
    rw [toNat_setWidth, mod_eq_of_lt (by omega)]
  rw [InRange, hsub, toNat_sub, hwidth]
  omega

theorem eq_of_inRange
    (h : collectEntries image.info = some entries) {f : CuEntry} (he : e ∈ entries)
    (hf : f ∈ entries) (hpe : InRange (image.funcAddr e) e.funcSize.toNat pc)
    (hpf : InRange (image.funcAddr f) f.funcSize.toNat pc) : e = f := by
  have hesize := e.funcSize.isLt
  have hfsize := f.funcSize.isLt
  rw [inRange_funcAddr_iff (by omega)] at hpe hpf
  exact eq_of_overlap h he hf hpe hpf

/-- The FDEs that the header lists, by start and range: those of the entries, and the native ones
that none of them shadows. -/
def Listed (image : UnwindImage) (entries : List CuEntry) (start : Addr) (range : BitVec 64) : Prop :=
  (∃ e ∈ entries, ∃ f, entryFde image e = some f ∧
    (image.funcAddr e, f.funcSize.setWidth 64) = (start, range)) ∨
  ∃ n ∈ image.natives, (∀ e ∈ entries, Emits image e → image.funcAddr e ≠ n.initialLocation) ∧
    (n.initialLocation, n.addressRange) = (start, range)

theorem exists_row_iff {bufAddr : Addr} {pos : Nat} {start : Addr} {range : BitVec 64} :
    (∃ row ∈ mergeEntries (recordEntries bufAddr pos ((entryFdes image entries).map EhRecord.fde))
        image.natives, (row.initialLocation, row.addressRange) = (start, range)) ↔
      Listed image entries start range := by
  have hranges := map_recordEntries bufAddr pos ((entryFdes image entries).map EhRecord.fde)
  rw [filterMap_map] at hranges
  have hmem : ∀ p : BitVec 64 × BitVec 64,
      (∃ row ∈ recordEntries bufAddr pos ((entryFdes image entries).map EhRecord.fde),
        (row.initialLocation, row.addressRange) = p) ↔
      ∃ e ∈ entries, ∃ f, entryFde image e = some f ∧
        (image.funcAddr e, f.funcSize.setWidth 64) = p := by
    intro p
    rw [← List.mem_map, hranges, mem_filterMap]
    constructor
    · rintro ⟨f, hf, hp⟩
      obtain ⟨e, he, hef⟩ := mem_filterMap.mp hf
      cases hp
      exact ⟨e, he, f, hef, by rw [funcAddr_entryFde hef]⟩
    · rintro ⟨e, he, f, hef, rfl⟩
      exact ⟨f, mem_filterMap.mpr ⟨e, he, hef⟩, by rw [← funcAddr_entryFde hef]; rfl⟩
  have hshadow : ∀ n : NativeFde,
      (∀ row ∈ recordEntries bufAddr pos ((entryFdes image entries).map EhRecord.fde),
        row.initialLocation ≠ n.initialLocation) ↔
      ∀ e ∈ entries, Emits image e → image.funcAddr e ≠ n.initialLocation := by
    intro n
    constructor
    · intro h e he hemits heq
      obtain ⟨f, hef⟩ := isSome_iff_exists.mp (isSome_entryFde_iff.mpr hemits)
      obtain ⟨row, hrow, hp⟩ := (hmem _).mpr ⟨e, he, f, hef, rfl⟩
      exact h row hrow ((mk.inj hp).1.trans heq)
    · intro h row hrow heq
      obtain ⟨e, he, f, hef, hp⟩ := (hmem _).mp ⟨row, hrow, rfl⟩
      exact h e he (isSome_entryFde_iff.mp (hef ▸ rfl)) ((mk.inj hp).1.trans heq)
  rw [Listed, ← hmem]
  simp only [mem_mergeEntries, hshadow]
  constructor
  · rintro ⟨row, hrow | ⟨n, hn, hfree, rfl⟩, hp⟩
    · exact .inl ⟨row, hrow, hp⟩
    · exact .inr ⟨n, hn, hfree, hp⟩
  · rintro (⟨row, hrow, hp⟩ | ⟨n, hn, hfree, hp⟩)
    · exact ⟨row, .inl hrow, hp⟩
    · exact ⟨n.toHdrEntry, .inr ⟨n, hn, hfree, rfl⟩, hp⟩

/-- The search of an unwinder in the table: the last row that does not start behind the pc. -/
def findRow (table : List HdrEntry) (pc : Addr) : Option HdrEntry :=
  (table.filter fun row => row.initialLocation ≤ pc).getLast?

/-- In whatever order `qsort` leaves the rows, the search ends at one that covers the pc. -/
def Reaches (rows : List HdrEntry) (pc : Addr) : Prop :=
  ∀ table : List HdrEntry, table.Perm rows →
    table.Pairwise (fun a b => a.initialLocation ≤ b.initialLocation) →
    ∃ row, findRow table pc = some row ∧ InRange row.initialLocation row.addressRange.toNat pc

/-- Of the FDEs that do not start behind the pc, the last ones start here, and they cover it. -/
def Decides (image : UnwindImage) (entries : List CuEntry) (pc start : Addr) : Prop :=
  start ≤ pc ∧ ∀ start' range, Listed image entries start' range → start' ≤ pc →
    start' < start ∨ start' = start ∧ InRange start' range.toNat pc

theorem findRow_eq_some {table : List HdrEntry} {row : HdrEntry} {R : HdrEntry → HdrEntry → Prop}
    (hsorted : table.Pairwise R) (h : findRow table pc = some row) :
    row ∈ table ∧ row.initialLocation ≤ pc ∧
      ∀ row' ∈ table, row'.initialLocation ≤ pc → row' = row ∨ R row' row := by
  obtain ⟨init, hinit⟩ := getLast?_eq_some_iff.mp h
  have hmem : ∀ row', row' ∈ init ++ [row] ↔ row' ∈ table ∧ row'.initialLocation ≤ pc := by
    intro row'
    rw [← hinit, mem_filter, decide_eq_true_eq]
  have hlast := hsorted.filter fun row => decide (row.initialLocation ≤ pc)
  rw [hinit, pairwise_append] at hlast
  obtain ⟨hrow, hle⟩ := (hmem row).mp (mem_append_right _ mem_cons_self)
  refine ⟨hrow, hle, fun row' hrow' hle' => ?_⟩
  rcases mem_append.mp ((hmem row').mpr ⟨hrow', hle'⟩) with hfirst | hsame
  · exact .inr (hlast.2.2 row' hfirst row mem_cons_self)
  · exact .inl (mem_singleton.mp hsame)

/-- Some order has a given row behind all others with its start. -/
theorem exists_last (rows : List HdrEntry) (d : HdrEntry) :
    ∃ table : List HdrEntry, table.Perm rows ∧ table.Pairwise fun a b =>
      a.initialLocation ≤ b.initialLocation ∧
        (a = d → a.initialLocation = b.initialLocation → b = d) := by
  classical
  let R : HdrEntry → HdrEntry → Prop := fun a b =>
    a.initialLocation ≤ b.initialLocation ∧ (a = d → a.initialLocation = b.initialLocation → b = d)
  have : Std.Total R := ⟨fun a b => by grind⟩
  have : IsTrans HdrEntry R := ⟨fun a b c => by grind⟩
  exact ⟨rows.insertionSort R, perm_insertionSort R rows, pairwise_insertionSort R rows⟩

theorem reaches_iff {rows : List HdrEntry}
    (hrows : ∀ start range, (∃ row ∈ rows, (row.initialLocation, row.addressRange) =
      (start, range)) ↔ Listed image entries start range) :
    Reaches rows pc ↔
      ∃ start range, Listed image entries start range ∧ Decides image entries pc start := by
  constructor
  · intro h
    -- A row is found; every other one with its start is found too, in an order that has it last.
    have hfind : ∀ d, ∃ row ∈ rows, row.initialLocation ≤ pc ∧
        InRange row.initialLocation row.addressRange.toNat pc ∧
        ∀ row' ∈ rows, row'.initialLocation ≤ pc → row'.initialLocation ≤ row.initialLocation ∧
          (row' = d → row'.initialLocation = row.initialLocation → row = d) := by
      intro d
      obtain ⟨table, hperm, hsorted⟩ := exists_last rows d
      obtain ⟨row, hrow, hcovers⟩ := h table hperm (hsorted.imp And.left)
      obtain ⟨hmem, hle, hlast⟩ := findRow_eq_some hsorted hrow
      refine ⟨row, hperm.mem_iff.mp hmem, hle, hcovers, fun row' hrow' hle' => ?_⟩
      rcases hlast row' (hperm.mem_iff.mpr hrow') hle' with rfl | hless
      · exact ⟨BitVec.le_refl _, fun hd _ => hd⟩
      · exact hless
    obtain ⟨row, hrow, hle, -, hlast⟩ := hfind ⟨0, 0, 0⟩
    refine ⟨_, _, (hrows _ _).mp ⟨row, hrow, rfl⟩, hle, fun start range hlisted hstart => ?_⟩
    obtain ⟨d, hd, hp⟩ := (hrows _ _).mpr hlisted
    obtain ⟨rfl, rfl⟩ := mk.inj hp
    obtain ⟨row', hrow', hle', hcovers', hlast'⟩ := hfind d
    by_cases heq : d.initialLocation = row.initialLocation
    · have hsame : d.initialLocation = row'.initialLocation :=
        BitVec.le_antisymm (hlast' d hd hstart).1 (heq ▸ (hlast row' hrow' hle').1)
      obtain rfl := (hlast' d hd hstart).2 rfl hsame
      exact .inr ⟨heq, hcovers'⟩
    · exact .inl (BitVec.lt_of_le_ne (hlast d hd hstart).1 heq)
  · rintro ⟨start, range, hlisted, hle, hdecides⟩ table hperm hsorted
    obtain ⟨d, hd, hp⟩ := (hrows _ _).mpr hlisted
    obtain ⟨rfl, rfl⟩ := mk.inj hp
    have hmem : d ∈ table.filter fun row => row.initialLocation ≤ pc :=
      mem_filter.mpr ⟨hperm.mem_iff.mpr hd, decide_eq_true hle⟩
    obtain ⟨row, hrow⟩ := isSome_iff_exists.mp
      (getLast?_isSome.mpr (ne_nil_of_mem hmem))
    obtain ⟨hrow', hstart, hlast⟩ := findRow_eq_some hsorted hrow
    refine ⟨row, hrow, ?_⟩
    have hup : d.initialLocation ≤ row.initialLocation := by
      rcases hlast d (hperm.mem_iff.mpr hd) hle with rfl | hless
      · exact BitVec.le_refl _
      · exact hless
    rcases hdecides _ _ ((hrows _ _).mp ⟨row, hperm.mem_iff.mp hrow', rfl⟩) hstart with
      hless | ⟨-, hcovers⟩
    · exact absurd hup (BitVec.not_le.mpr hless)
    · exact hcovers

def skipLeb : List Octet → List Octet
  | [] => []
  | b :: bytes => if b &&& 0x80 = 0 then bytes else skipLeb bytes

/-- The `P` of an augmentation string, in the augmentation data. -/
def augPersonality : List Octet → List Octet → Option (BitVec 64)
  | [], _ => none
  | c :: aug, data =>
    if c = 0x50 then some (BitVec.ofNat 64 (field data 1 8)) else augPersonality aug (data.drop 1)

/-- The personality routine an unwinder reads from a CIE with an absolute pointer. -/
def ciePersonality (cie : List Octet) : Option (BitVec 64) :=
  let aug := (cie.drop 9).takeWhile fun b => b ≠ 0
  let factors := cie.drop (9 + aug.length + 1)
  let data := skipLeb ((skipLeb (skipLeb factors)).drop 1)
  if aug.head? = some 0x7a then augPersonality aug.tail data else none

/-- The routine named by the CIE that the FDE at `pos` points back to. -/
def fdePersonality (ehFrame : List Octet) (pos : Nat) : Option (BitVec 64) :=
  ciePersonality (ehFrame.drop (pos + 4 - field ehFrame (pos + 4) 4))

def personalityIndex (e : CuEntry) : Nat :=
  ((e.encoding &&& unwindPersonalityMask) >>> 28).toNat

/-- The routine an index selects; the indices of an encoding count from 1. -/
def UnwindImage.personalityRoutine (image : UnwindImage) (index : Nat) : Option (BitVec 64) :=
  if index = 0 ∨ image.personalities.getD (index - 1) 0 = 0 then none
  else some (image.personalities.getD (index - 1) 0)

theorem cieBody_eq {personalityAddr : BitVec 64} (h : personalityAddr ≠ 0) :
    cieBody personalityAddr =
      [0, 0, 0, 0, 1, 0x7a, 0x50, 0x4c, 0x52, 0, 4, 0x78, 30, 11, 0] ++
        (leBytes 8 personalityAddr.toNat ++ [0, 0, 0x0c, 31, 0]) := by
  have h4 : ehfUleb128 4 = [4] := by decide
  have h8 : ehfSleb128 (-8) = [0x78] := by decide
  have h30 : ehfUleb128 (BitVec.ofNat 64 dwarfRegLr) = [30] := by decide
  have h11 : ehfUleb128 11 = [11] := by decide
  have h31 : ehfUleb128 (BitVec.ofNat 64 dwarfRegSp) = [31] := by decide
  have h0 : ehfUleb128 0 = [0] := by decide
  rw [cieBody, if_pos h, if_pos h, h4, h8, h30, h11, h31, h0]
  simp only [append_assoc]
  rfl

def cieFront : List Octet :=
  [28, 0, 0, 0, 0, 0, 0, 0, 1, 0x7a, 0x50, 0x4c, 0x52, 0, 4, 0x78, 30, 11, 0]

theorem cieRecord_eq {personalityAddr : BitVec 64} (h : personalityAddr ≠ 0) :
    ehfRecord 0 (cieBody personalityAddr) =
      cieFront ++ (leBytes 8 personalityAddr.toNat ++ [0, 0, 0x0c, 31, 0]) := by
  have hlength : (cieBody personalityAddr).length = 28 := by
    rw [cieBody_eq h, length_append, length_append, length_leBytes]
    rfl
  have hpad : (8 - (0 + 4 + 28) % 8) % 8 = 0 := rfl
  rw [ehfRecord, hlength, hpad, replicate_zero, append_nil, hlength, cieBody_eq h]
  rfl

theorem ciePersonality_cie (personalityAddr : BitVec 64) (rest : List Octet) :
    ciePersonality (ehfRecord 0 (cieBody personalityAddr) ++ rest) =
      if personalityAddr = 0 then none else some personalityAddr := by
  by_cases h : personalityAddr = 0
  · subst h
    rfl
  · have hread : ciePersonality
        (cieFront ++ (leBytes 8 personalityAddr.toNat ++ ([0, 0, 0x0c, 31, 0] ++ rest))) =
        some (BitVec.ofNat 64 (field (0 :: (leBytes 8 personalityAddr.toNat ++
          ([0, 0, 0x0c, 31, 0] ++ rest))) 1 8)) := rfl
    rw [cieRecord_eq h, append_assoc, append_assoc, hread, if_neg h, field,
      drop_succ_cons, drop_zero, take_left' (length_leBytes ..), ofLeBytes_leBytes,
      mod_eq_of_lt, BitVec.ofNat_toNat, BitVec.setWidth_eq]
    exact personalityAddr.isLt

theorem personalityRoutine_one (image : UnwindImage) :
    image.personalityRoutine 1 =
      if image.gxxPersonality = 0 then none else some image.gxxPersonality := by
  have hgxx : image.gxxPersonality = image.personalities.getD 0 0 := by
    rw [UnwindImage.gxxPersonality]
    split
    · rfl
    · next hcount =>
      have hzero : ¬ 0 < image.info.personalityArrayCount.toNat := hcount
      change _ = (if 0 < image.info.personalityArrayCount.toNat then _ else _)
      rw [if_neg hzero]
  rw [UnwindImage.personalityRoutine, hgxx]
  simp

theorem emitEntries_append (image : UnwindImage) (before : List CuEntry)
    (hfde : entryFde image e = some f) (after : List CuEntry) :
    ∃ tail, emitEntries image (before ++ e :: after) = emitFde (emitEntries image before) f ++ tail := by
  have hstep : emitEntry image (emitEntries image before) e =
      emitRecord (emitEntries image before) (.fde f) := by
    rw [emitEntry, ← entryFde, hfde]
    rfl
  have hrest : ∀ buf, ∃ tail, after.foldl (emitEntry image) buf = buf ++ tail := by
    intro buf
    induction after generalizing buf with
    | nil => exact ⟨[], (append_nil buf).symm⟩
    | cons g after ih =>
      obtain ⟨tail, htail⟩ := ih (emitEntry image buf g)
      rw [foldl_cons, htail, emitEntry]
      cases fdeOf image cieWithPersonality (cieWithoutPersonality image) g with
      | none => exact ⟨tail, rfl⟩
      | some fde => exact ⟨_, append_assoc ..⟩
  obtain ⟨tail, htail⟩ := hrest (emitRecord (emitEntries image before) (.fde f))
  refine ⟨tail, ?_⟩
  rw [emitEntries, foldl_append, foldl_cons, ← emitEntries, hstep, htail]
  rfl

theorem entryFde_row
    (hfde : entryFde image e = some f) (before after : List CuEntry) (bufAddr : Addr) :
    ⟨f.funcAddr, f.funcSize.setWidth 64,
        bufAddr + BitVec.ofNat 64 (emitEntries image before).length⟩ ∈
      recordEntries bufAddr (emitCies image).length
        ((entryFdes image (before ++ e :: after)).map EhRecord.fde) := by
  have hsplit : entryFdes image (before ++ e :: after) =
      entryFdes image before ++ f :: entryFdes image after := by
    rw [entryFdes, filterMap_append, filterMap_cons_some hfde]
    rfl
  rw [hsplit, map_append, recordEntries_append, ← emitEntries_eq, map_cons, recordEntries]
  exact mem_append_right _ (mem_append_left _ mem_cons_self)

/-- Both pointers of the header fit 32 bits, so a registered FDE lies within 4 GiB of the CIEs. -/
theorem pos_lt_of_int32 {bufAddr hdrAddr : Addr} {pos : Nat} (hpos : pos < 2 ^ 63)
    (hbuf : Int32 (relTo (hdrAddr + 4) bufAddr))
    (hfde : Int32 (relTo hdrAddr (bufAddr + BitVec.ofNat 64 pos))) : pos + 4 < 2 ^ 32 := by
  have hsum : bufAddr + BitVec.ofNat 64 pos - hdrAddr =
      bufAddr - (hdrAddr + 4) + BitVec.ofNat 64 (pos + 4) := by
    have hh := hdrAddr.isLt
    have h4 : (4 : BitVec 64).toNat = 4 := rfl
    apply eq_of_toNat_eq
    simp only [toNat_add, toNat_sub, toNat_ofNat, h4]
    omega
  have hwidth : (BitVec.ofNat 64 (pos + 4)).toNat = pos + 4 := by
    rw [toNat_ofNat, mod_eq_of_lt (by omega)]
  rw [Int32, relTo, hsum, toInt_eq_toNat_bmod, toNat_add, hwidth] at hfde
  rw [Int32, relTo, toInt_eq_toNat_bmod] at hbuf
  have := (bufAddr - (hdrAddr + 4)).isLt
  simp only [Int.bmod_def] at hbuf hfde
  omega

theorem pos_lt_of_registered (h : generateAndRegister image ehfMap hdrMap = some out)
    {before after : List CuEntry} (hentries : collectEntries image.info = some (before ++ e :: after))
    (hfde : entryFde image e = some f) : (emitEntries image before).length + 4 < 2 ^ 32 := by
  obtain ⟨entries, hentries', hbuf, hframe, hcapacity, hrows, hhdr⟩ := generateAndRegister_eq_some h
  obtain rfl : entries = before ++ e :: after := some.inj (hentries'.symm.trans hentries)
  obtain ⟨tail, htail⟩ := emitEntries_append image before hfde after
  have hmapped := ehfMap.user _ _ hbuf
  have hpos : (emitEntries image before).length < 2 ^ 63 := by
    have hlonger := length_emitRecord_ge (emitEntries image before) (.fde f)
    change _ ≤ (emitFde (emitEntries image before) f).length at hlonger
    rw [hframe, htail, length_append, length_append] at hcapacity
    omega
  have hrow : ⟨f.funcAddr, f.funcSize.setWidth 64,
      out.bufAddr + BitVec.ofNat 64 (emitEntries image before).length⟩ ∈ out.rows := by
    rw [hrows, mem_mergeEntries]
    exact .inl (entryFde_row hfde before after out.bufAddr)
  rw [encodeHdr] at hhdr
  split at hhdr
  · next hfits => exact pos_lt_of_int32 hpos hfits.1 (hfits.2 _ hrow).2
  · cases hhdr

/-- The FDE of an entry with an LSDA names the routine of the entry's own index exactly where that
is the routine of index 1. -/
theorem fde_personality_iff {image : UnwindImage} {ehfMap hdrMap : NearMap} {out : Registered}
    (h : generateAndRegister image ehfMap hdrMap = some out) {before after : List CuEntry}
    {e : CuEntry} (hentries : collectEntries image.info = some (before ++ e :: after))
    (hlsda : HasLsda e) (hemits : Emits image e) :
    fdePersonality out.ehFrame (emitEntries image before).length =
        image.personalityRoutine (personalityIndex e) ↔
      image.personalityRoutine (personalityIndex e) = image.personalityRoutine 1 := by
  obtain ⟨f, hfde⟩ := isSome_iff_exists.mp (isSome_entryFde_iff.mpr hemits)
  have hcie : f.cieOffset = 0 := by
    rcases entryFde_eq_some_iff.mp hfde with ⟨n, -, rfl⟩ | ⟨-, -, -, rfl⟩
    · rfl
    · exact if_pos hlsda
  have hpos := pos_lt_of_registered h hentries hfde
  obtain ⟨entries, hentries', -, hframe, -⟩ := generateAndRegister_eq_some h
  obtain rfl : entries = before ++ e :: after := some.inj (hentries'.symm.trans hentries)
  obtain ⟨tail, htail⟩ := emitEntries_append image before hfde after
  have hpointer : field out.ehFrame ((emitEntries image before).length + 4) 4 =
      (emitEntries image before).length + 4 := by
    rw [hframe, htail, emitFde, append_assoc, append_assoc, field_append_length,
      (field_fdeRecord f _ _).1, hcie, Nat.sub_zero, mod_eq_of_lt hpos]
  have hfront : ∃ rest, out.ehFrame = ehfRecord 0 (cieBody image.gxxPersonality) ++ rest := by
    obtain ⟨tail, htail⟩ := foldl_emitRecord_eq (emitCies image)
      ((entryFdes image (before ++ e :: after)).map EhRecord.fde)
    rw [← emitEntries_eq] at htail
    rw [hframe, htail, emitCies, emitCie, emitCie, nil_append, append_assoc, append_assoc]
    exact ⟨_, rfl⟩
  obtain ⟨rest, hrest⟩ := hfront
  rw [fdePersonality, hpointer, Nat.sub_self, drop_zero, hrest, ciePersonality_cie,
    ← personalityRoutine_one, eq_comm]

/-- An Objective-C function with a cold part in front of a C++ function, each with an LSDA. -/
def splitInfo : UnwindInfo :=
  { bytes := fields [(4, 1), (4, 28), (4, 0), (4, 28), (4, 2), (4, 36), (4, 2),
      (4, 0x4000), (4, 0x4008),
      (4, 0x1000), (4, 76), (4, 60), (4, 0x10c0), (4, 0), (4, 76),
      (4, 0x1000), (4, 0x3000), (4, 0x1080), (4, 0x3010),
      (4, 2), (2, 8), (2, 3),
      (4, 0x1000), (4, 0x64000000), (4, 0x1040), (4, 0x84000000), (4, 0x1080), (4, 0x54000000)]
    size := 108 }

def splitImage : UnwindImage :=
  { textBase := 0x100000000, slide := 0, info := splitInfo, natives := [], nativeSize := 0
    got := fun a => if a = 0x100004000 then 0x7f0000001000 else 0x7f0000002000 }

def objcEntry : CuEntry := ⟨0x1000, 0x40, 0x64000000, 0x3000⟩
def coldEntry : CuEntry := ⟨0x1040, 0x40, 0x84000000, 0⟩
def cxxEntry : CuEntry := ⟨0x1080, 256, 0x54000000, 0x3010⟩

theorem collectEntries_splitInfo :
    collectEntries splitInfo = some ([objcEntry, coldEntry] ++ cxxEntry :: []) := by
  decide +kernel

def mapAt (a : Addr) (ha : a.toNat < 2 ^ 62) : NearMap :=
  { answer := fun size => if size < 2 ^ 62 then some a else none
    user := fun size b h => by
      split at h
      · cases h
        omega
      · cases h }

def splitTables : Option Registered :=
  generateAndRegister splitImage (mapAt 0x102000000 (by decide)) (mapAt 0x104000000 (by decide))

theorem isSome_splitTables : splitTables.isSome := by
  decide +kernel

theorem cxxEntry_personality :
    fdePersonality (splitTables.get isSome_splitTables).ehFrame
        (emitEntries splitImage [objcEntry, coldEntry]).length =
      splitImage.personalityRoutine (personalityIndex cxxEntry) :=
  (fde_personality_iff (some_get isSome_splitTables).symm collectEntries_splitInfo
    (by decide) (.inr (by decide))).mpr (by decide)

theorem objcEntry_personality :
    collectEntries splitImage.info = some ([] ++ objcEntry :: [coldEntry, cxxEntry]) ∧
      HasLsda objcEntry ∧
      (splitTables.map fun out =>
        fdePersonality out.ehFrame (emitEntries splitImage []).length) =
        some (some 0x7f0000001000) ∧
      splitImage.personalityRoutine (personalityIndex objcEntry) = some 0x7f0000002000 := by
  decide +kernel

end Machgate.EhFrameTable
