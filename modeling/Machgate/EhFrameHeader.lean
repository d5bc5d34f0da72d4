import Machgate.EhFrameTable

namespace Machgate.EhFrameHeader

open ByteMemory RecordBuffer UnwindEntries EhFrameRecords EhFrameTable List BitVec Option Nat Prod

/-- What `qsort` promises for `cmp_hdr_entry`.  It does not say which of two rows with one start
comes first. -/
structure QSort where
  sort : List HdrEntry → List HdrEntry
  perm : ∀ rows, (sort rows).Perm rows
  sorted : ∀ rows, (sort rows).Pairwise fun a b => a.initialLocation ≤ b.initialLocation

def unshadowed (syn : List HdrEntry) (natives : List NativeFde) : List HdrEntry :=
  (natives.filter fun n => !hasEntryStart syn n.initialLocation).map NativeFde.toHdrEntry

/-- `eh_frame_generate_and_register` with the rows in any order that `qsort` may leave them. -/
def generateWith (qsort : QSort) (image : UnwindImage) (ehfMap hdrMap : NearMap) :
    Option Registered :=
  (collectEntries image.info).bind fun entries =>
    if entries = [] then none
    else
      (ehfMap.answer (ehfCapacity image entries)).bind fun bufAddr =>
        let buf := emitEntries image entries ++ leBytes 4 0
        if ehfCapacity image entries < buf.length then none
        else
          let syn := scanFdes buf bufAddr buf.length 0
          let rows := qsort.sort (syn ++ unshadowed syn image.natives)
          (hdrMap.answer (12 + rows.length * 8)).bind fun hdrAddr =>
            (encodeHdr hdrAddr bufAddr rows).map fun hdr =>
              { bufAddr := bufAddr, ehFrame := buf, hdrAddr := hdrAddr, rows := rows, hdr := hdr }

def insertionQSort : QSort where
  sort := fun rows => rows.insertionSort fun a b => a.initialLocation ≤ b.initialLocation
  perm := fun rows => List.perm_insertionSort _ rows
  sorted := fun rows => by
    have : Std.Total fun a b : HdrEntry => a.initialLocation ≤ b.initialLocation :=
      ⟨fun a b => BitVec.le_total _ _⟩
    have : IsTrans HdrEntry fun a b => a.initialLocation ≤ b.initialLocation :=
      ⟨fun a b c => BitVec.le_trans⟩
    exact List.pairwise_insertionSort _ rows

theorem generateWith_eq_some {qsort : QSort} {image : UnwindImage} {ehfMap hdrMap : NearMap}
    {out : Registered} (h : generateWith qsort image ehfMap hdrMap = some out) :
    ∃ entries syn, collectEntries image.info = some entries ∧
      out.ehFrame = emitEntries image entries ++ leBytes 4 0 ∧
      syn = recordEntries out.bufAddr (emitCies image).length
        ((entryFdes image entries).map EhRecord.fde) ∧
      out.rows = qsort.sort (syn ++ unshadowed syn image.natives) ∧
      encodeHdr out.hdrAddr out.bufAddr out.rows = some out.hdr := by
  obtain ⟨entries, hentries, h⟩ := bind_eq_some_iff.mp h
  split at h
  · cases h
  · obtain ⟨bufAddr, -, h⟩ := bind_eq_some_iff.mp h
    simp only [scanFdes_emitEntries] at h
    split at h
    · cases h
    · obtain ⟨hdrAddr, -, h⟩ := bind_eq_some_iff.mp h
      obtain ⟨hdr, hhdr, rfl⟩ := map_eq_some_iff.mp h
      exact ⟨entries, _, hentries, rfl, rfl, rfl, hhdr⟩

def relative (hdrAddr : Addr) (rel : Nat) : Addr := hdrAddr + (BitVec.ofNat 32 rel).signExtend 64

def decodeRow (hdrAddr : Addr) (bytes : List Octet) : Addr × Addr :=
  (relative hdrAddr (field bytes 0 4), relative hdrAddr (field bytes 4 4))

/-- The table as an unwinder reads it: start address and address of the FDE. -/
def decodeHdr (hdrAddr : Addr) (hdr : List Octet) : Option (List (Addr × Addr)) :=
  if hdr.take 4 = [1, 0x1b, 0x03, 0x3b] then
    some ((List.range (field hdr 8 4)).map fun i => decodeRow hdrAddr (hdr.drop (12 + 8 * i)))
  else none

variable {hdrAddr bufAddr : Addr} {fdes : List Fde}

theorem relative_eq {a : Addr} (h : Int32 (relTo hdrAddr a)) :
    relative hdrAddr ((a - hdrAddr).toNat % 256 ^ 4) = a := by
  obtain ⟨hlow, hhigh⟩ := h
  rw [relTo] at hlow hhigh
  have hnarrow : BitVec.ofNat 32 ((a - hdrAddr).toNat % 256 ^ 4) = (a - hdrAddr).setWidth 32 := by
    apply eq_of_toNat_eq
    rw [toNat_ofNat, toNat_setWidth]
    exact mod_mod _ _
  have hwide : ((a - hdrAddr).setWidth 32).signExtend 64 = a - hdrAddr := by
    apply eq_of_toInt_eq
    rw [toInt_signExtend_of_le (by decide), toInt_setWidth]
    rw [toInt_eq_toNat_bmod] at hlow hhigh ⊢
    simp only [Int.bmod_def] at hlow hhigh ⊢
    omega
  rw [relative, hnarrow, hwide, BitVec.add_comm, BitVec.sub_add_cancel]

def rowBytes (hdrAddr : Addr) (row : HdrEntry) : List Octet :=
  leBytes 4 (row.initialLocation - hdrAddr).toNat ++ leBytes 4 (row.fdePtr - hdrAddr).toNat

theorem decodeRow_rowBytes {row : HdrEntry}
    (hstart : Int32 (relTo hdrAddr row.initialLocation)) (hfde : Int32 (relTo hdrAddr row.fdePtr))
    (rest : List Octet) :
    decodeRow hdrAddr (rowBytes hdrAddr row ++ rest) = (row.initialLocation, row.fdePtr) := by
  have hfields : rowBytes hdrAddr row = fields
      [(4, (row.initialLocation - hdrAddr).toNat), (4, (row.fdePtr - hdrAddr).toNat)] := by
    simp [rowBytes, fields]
  have hfirst := field_fields [] [(4, (row.fdePtr - hdrAddr).toNat)] 4
    (row.initialLocation - hdrAddr).toNat rest
  have hsecond := field_fields [(4, (row.initialLocation - hdrAddr).toNat)] [] 4
    (row.fdePtr - hdrAddr).toNat rest
  simp only [nil_append, List.cons_append, map_nil, map_cons, sum_nil,
    sum_cons, Nat.add_zero] at hfirst hsecond
  rw [decodeRow, hfields, hfirst, hsecond, relative_eq hstart, relative_eq hfde]

theorem map_drop_flatMap {α β : Type} {encode : α → List Octet} {width : Nat}
    (hwidth : ∀ a, (encode a).length = width) {decode : List Octet → β} {value : α → β}
    {rows : List α} (h : ∀ a ∈ rows, ∀ rest, decode (encode a ++ rest) = value a) :
    (range rows.length).map (fun i => decode ((rows.flatMap encode).drop (width * i))) =
      rows.map value := by
  induction rows with
  | nil => rfl
  | cons a rows ih =>
    have htail : ∀ i, ((a :: rows).flatMap encode).drop (width * (i + 1)) =
        (rows.flatMap encode).drop (width * i) := by
      intro i
      rw [flatMap_cons, Nat.mul_succ, Nat.add_comm, ← drop_drop, ← hwidth a, drop_left]
    rw [length_cons, range_succ_eq_map, map_cons, List.map_map, map_cons,
      ← ih fun b hb => h b (mem_cons_of_mem a hb)]
    congr 1
    · rw [Nat.mul_zero, drop_zero, flatMap_cons]
      exact h a mem_cons_self _
    · refine map_congr_left fun i _ => ?_
      rw [Function.comp_apply, htail]

def hdrFront (hdrAddr bufAddr : Addr) (count : Nat) : List (Nat × Nat) :=
  [(1, 1), (1, 0x1b), (1, 0x03), (1, 0x3b), (4, (bufAddr - (hdrAddr + 4)).toNat), (4, count)]

theorem encodeHdr_eq_some {rows : List HdrEntry} {hdr : List Octet}
    (h : encodeHdr hdrAddr bufAddr rows = some hdr) :
    (∀ row ∈ rows, Int32 (relTo hdrAddr row.initialLocation) ∧ Int32 (relTo hdrAddr row.fdePtr)) ∧
      hdr = fields (hdrFront hdrAddr bufAddr rows.length) ++ rows.flatMap (rowBytes hdrAddr) := by
  rw [encodeHdr] at h
  split at h
  · next hfits =>
    refine ⟨hfits.2, (some.inj h).symm.trans ?_⟩
    simp only [hdrFront, fields, flatMap_cons, flatMap_nil, append_nil, List.append_assoc]
    rfl
  · cases h

theorem decodeHdr_encodeHdr {rows : List HdrEntry} {hdr : List Octet}
    (h : encodeHdr hdrAddr bufAddr rows = some hdr) (hint : rows.length < 2 ^ 31) :
    decodeHdr hdrAddr hdr = some (rows.map fun row => (row.initialLocation, row.fdePtr)) ∧
      field hdr 8 4 = rows.length ∧ hdr.length = 12 + 8 * rows.length := by
  obtain ⟨hfits, rfl⟩ := encodeHdr_eq_some h
  have hwidth : ∀ row, (rowBytes hdrAddr row).length = 8 := fun row => by simp [rowBytes]
  have hcount : field (fields (hdrFront hdrAddr bufAddr rows.length) ++
      rows.flatMap (rowBytes hdrAddr)) 8 4 = rows.length := by
    refine (field_fields [(1, 1), (1, 0x1b), (1, 0x03), (1, 0x3b), (4, _)] [] 4 _ _).trans ?_
    exact mod_eq_of_lt (by omega)
  have hdrop : (fields (hdrFront hdrAddr bufAddr rows.length) ++
      rows.flatMap (rowBytes hdrAddr)).drop 12 = rows.flatMap (rowBytes hdrAddr) :=
    drop_fields (hdrFront hdrAddr bufAddr rows.length) _
  refine ⟨?_, hcount, ?_⟩
  · have hfront : (fields (hdrFront hdrAddr bufAddr rows.length) ++
        rows.flatMap (rowBytes hdrAddr)).take 4 = [1, 0x1b, 0x03, 0x3b] := by
      simp [hdrFront, fields, leBytes]
    rw [decodeHdr, if_pos hfront, hcount]
    simp only [← drop_drop, hdrop]
    exact congrArg some (map_drop_flatMap hwidth fun row hrow =>
      decodeRow_rowBytes (hfits row hrow).1 (hfits row hrow).2)
  · rw [length_append, length_fields, length_flatMap]
    simp only [hwidth, map_const', sum_replicate_nat]
    exact congrArg (12 + ·) (Nat.mul_comm _ _)

def placed : Nat → List Fde → List (Nat × Fde)
  | _, [] => []
  | pos, f :: fdes => (pos, f) :: placed (pos + (ehfRecord pos (fdeBody f pos)).length) fdes

theorem map_snd_placed (pos : Nat) (fdes : List Fde) : (placed pos fdes).map snd = fdes := by
  induction fdes generalizing pos with
  | nil => rfl
  | cons f fdes ih => rw [placed, map_cons, ih]

theorem recordEntries_eq_placed (bufAddr : Addr) (pos : Nat) (fdes : List Fde) :
    recordEntries bufAddr pos (fdes.map EhRecord.fde) = (placed pos fdes).map fun p =>
      ⟨p.2.funcAddr, p.2.funcSize.setWidth 64, bufAddr + BitVec.ofNat 64 p.1⟩ := by
  induction fdes generalizing pos with
  | nil => rfl
  | cons f fdes ih => simp [recordEntries, placed, EhRecord.entry, EhRecord.body, ih]

theorem drop_placed {buf : List Octet} {p : Nat × Fde} (hp : p ∈ placed buf.length fdes) :
    ∃ tail, ((fdes.map EhRecord.fde).foldl emitRecord buf).drop p.1 =
      ehfRecord p.1 (fdeBody p.2 p.1) ++ tail := by
  induction fdes generalizing buf with
  | nil => cases hp
  | cons f fdes ih =>
    have hnext : buf.length + (ehfRecord buf.length (fdeBody f buf.length)).length =
        (emitRecord buf (.fde f)).length := by
      rw [emitRecord_eq, length_append]
      rfl
    rw [map_cons, foldl_cons]
    rw [placed, mem_cons, hnext] at hp
    rcases hp with rfl | hp
    · obtain ⟨tail, htail⟩ := foldl_emitRecord_eq (emitRecord buf (.fde f)) (fdes.map EhRecord.fde)
      refine ⟨tail, ?_⟩
      rw [htail, emitRecord_eq, List.append_assoc, drop_left]
      rfl
    · exact ih hp

theorem placed_ge {pos : Nat} {p : Nat × Fde} (hp : p ∈ placed pos fdes) : pos ≤ p.1 := by
  induction fdes generalizing pos with
  | nil => cases hp
  | cons f fdes ih =>
    rw [placed, mem_cons] at hp
    rcases hp with rfl | hp
    · exact le_refl _
    · exact (Nat.le_add_right _ _).trans (ih hp)

theorem pairwise_placed (pos : Nat) (fdes : List Fde) :
    (placed pos fdes).Pairwise fun p q => p.1 + (ehfRecord p.1 (fdeBody p.2 p.1)).length ≤ q.1 := by
  induction fdes generalizing pos with
  | nil => exact .nil
  | cons f fdes ih => exact .cons (fun q hq => placed_ge hq) (ih _)

/-- What the registered tables say about the image: the FDEs of the compact entries stand in
`.eh_frame`, and the header lists them with the native ones that none of them replaces. -/
structure Describes (image : UnwindImage) (entries : List CuEntry) (out : Registered)
    (records : List (Nat × Fde)) (table : List (Addr × Addr)) : Prop where
  emitted : records.map Prod.snd = entryFdes image entries
  apart : records.Pairwise fun p q => p.1 + (ehfRecord p.1 (fdeBody p.2 p.1)).length ≤ q.1
  record : ∀ p ∈ records, ∃ tail, out.ehFrame.drop p.1 = ehfRecord p.1 (fdeBody p.2 p.1) ++ tail
  count : field out.hdr 8 4 = table.length ∧ out.hdr.length = 12 + 8 * table.length
  sorted : table.Pairwise fun a b => a.1 ≤ b.1
  exact : table.Perm
    (records.map (fun p => (p.2.funcAddr, out.bufAddr + BitVec.ofNat 64 p.1)) ++
      (image.natives.filter fun n => ∀ f ∈ entryFdes image entries,
        f.funcAddr ≠ n.initialLocation).map fun n => (n.initialLocation, n.fdePtr))

theorem unshadowed_eq {natives : List NativeFde} {pos : Nat} :
    (unshadowed (recordEntries bufAddr pos (fdes.map EhRecord.fde)) natives).map
        (fun row => (row.initialLocation, row.fdePtr)) =
      (natives.filter fun n => ∀ f ∈ fdes, f.funcAddr ≠ n.initialLocation).map
        fun n => (n.initialLocation, n.fdePtr) := by
  have hfilter : ∀ n : NativeFde,
      (!hasEntryStart (recordEntries bufAddr pos (fdes.map EhRecord.fde)) n.initialLocation) =
        decide (∀ f ∈ fdes, f.funcAddr ≠ n.initialLocation) := by
    intro n
    have hany : hasEntryStart (recordEntries bufAddr pos (fdes.map EhRecord.fde))
        n.initialLocation = (((placed pos fdes).map snd).any fun f =>
          f.funcAddr = n.initialLocation) := by
      rw [hasEntryStart, recordEntries_eq_placed, List.any_map, List.any_map]
      rfl
    rw [hany, map_snd_placed, Bool.eq_iff_iff]
    simp
  rw [unshadowed, List.map_map, filter_congr fun n _ => hfilter n]
  rfl

theorem hdr_describes {qsort : QSort} {image : UnwindImage} {ehfMap hdrMap : NearMap}
    {out : Registered} (h : generateWith qsort image ehfMap hdrMap = some out)
    (hint : out.rows.length < 2 ^ 31) :
    ∃ entries records table, collectEntries image.info = some entries ∧
      decodeHdr out.hdrAddr out.hdr = some table ∧ Describes image entries out records table := by
  obtain ⟨entries, syn, hentries, hframe, hsyn, hrows, hhdr⟩ := generateWith_eq_some h
  obtain ⟨hdecode, hcount, hlength⟩ := decodeHdr_encodeHdr hhdr hint
  refine ⟨entries, placed (emitCies image).length (entryFdes image entries), _, hentries, hdecode, ?_⟩
  constructor
  case emitted => exact map_snd_placed _ _
  case apart => exact pairwise_placed _ _
  case record =>
    intro p hp
    obtain ⟨tail, htail⟩ := drop_placed hp
    refine ⟨tail ++ leBytes 4 0, ?_⟩
    have hinside : p.1 ≤ (emitEntries image entries).length := by
      by_contra hout
      rw [← emitEntries_eq, drop_eq_nil_of_le (by omega)] at htail
      have hnil := (append_eq_nil_iff.mp htail.symm).1
      simp [ehfRecord, leBytes] at hnil
    rw [hframe, drop_append_of_le_length hinside, emitEntries_eq, htail, List.append_assoc]
  case count =>
    rw [length_map]
    exact ⟨hcount, hlength⟩
  case sorted =>
    rw [pairwise_map, hrows]
    exact qsort.sorted _
  case exact =>
    rw [hrows]
    refine ((qsort.perm _).map _).trans ?_
    rw [map_append, hsyn, unshadowed_eq, recordEntries_eq_placed, List.map_map]
    exact List.Perm.refl _

/-- One native FDE at the start of an emitted one and one in front of all of them. -/
def mixedImage : UnwindImage :=
  { splitImage with
    natives := [⟨⟨0x100001000, 0x40, 0x100005000⟩, [0x41], by decide⟩,
      ⟨⟨0x100000800, 0x20, 0x100005040⟩, [0x41], by decide⟩]
    nativeSize := 0x80 }

def mixedTables : Option Registered :=
  generateWith insertionQSort mixedImage (mapAt 0x102100000 (by decide))
    (mapAt 0x104100000 (by decide))

theorem isSome_mixedTables : mixedTables.isSome := by
  decide +kernel

theorem hdr_describes_mixedImage :
    (mixedTables.get isSome_mixedTables).rows.length = 3 ∧
      ∃ entries records table, collectEntries mixedImage.info = some entries ∧
        decodeHdr (mixedTables.get isSome_mixedTables).hdrAddr
          (mixedTables.get isSome_mixedTables).hdr = some table ∧
        Describes mixedImage entries (mixedTables.get isSome_mixedTables) records table := by
  have hrows : (mixedTables.get isSome_mixedTables).rows.length = 3 := by decide +kernel
  exact ⟨hrows, hdr_describes (some_get isSome_mixedTables).symm (by omega)⟩

end Machgate.EhFrameHeader
