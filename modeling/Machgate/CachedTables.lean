import Machgate.CopiedPrograms

namespace Machgate.CachedTables

open ByteMemory RecordBuffer UnwindEntries EhFrameRecords EhFrameTable NativeEhFrame CallFrame
open List Option
open FdeLayout

/-- What the generating process keeps for the startup cache. -/
structure CachedFrame where
  ehFrame : List Octet
  hdrPairs : List (BitVec 64 × BitVec 64)
  personalityOffset : Nat

/-- Where `emit_cie` put the personality pointer; 0 if it had none to put. -/
def ciePersonalityValueOffset (image : UnwindImage) : Nat :=
  if image.gxxPersonality ≠ 0 then 19 else 0

def pendingCache (image : UnwindImage) (out : Registered) : Option CachedFrame :=
  let offset := ciePersonalityValueOffset image
  if image.slide = 0 ∧ 0 < offset ∧ offset + 8 ≤ out.ehFrame.length then
    some { ehFrame := out.ehFrame
           hdrPairs := out.rows.map fun row => (row.initialLocation, row.fdePtr - out.bufAddr)
           personalityOffset := offset }
  else none

def overwrite (bytes : List Octet) (offset : Nat) (new : List Octet) : List Octet :=
  bytes.take offset ++ new ++ bytes.drop (offset + new.length)

structure CachedTable where
  ehFrameCopy : Addr
  ehFrame : List Octet
  hdrCopy : Addr
  rows : List (BitVec 64 × Addr)
  hdr : List Octet

/-- The header over the copy; unlike the generating path it does not check the pointer to it. -/
def encodeCachedHdr (hdrCopy ehFrameCopy : Addr) (rows : List (BitVec 64 × Addr)) :
    Option (List Octet) :=
  if rows.all fun row => Int32 (relTo hdrCopy row.1) ∧ Int32 (relTo hdrCopy row.2) then
    some ([1, 0x1b, 0x03, 0x3b] ++ leBytes 4 (ehFrameCopy - (hdrCopy + 4)).toNat ++
      leBytes 4 rows.length ++ rows.flatMap fun row =>
        leBytes 4 (row.1 - hdrCopy).toNat ++ leBytes 4 (row.2 - hdrCopy).toNat)
  else none

/-- A later process: the blob is copied near its text, its own personality routine is put in, and
the pairs are rebased on the copy. -/
def ehFrameRegisterCached (cache : CachedFrame) (personality : BitVec 64)
    (copyMap hdrMap : NearMap) : Option CachedTable :=
  if cache.ehFrame = [] then none
  else
    (copyMap.answer cache.ehFrame.length).bind fun ehFrameCopy =>
      let rows := cache.hdrPairs.map fun pair => (pair.1, ehFrameCopy + pair.2)
      (hdrMap.answer (12 + rows.length * 8)).bind fun hdrCopy =>
        (encodeCachedHdr hdrCopy ehFrameCopy rows).map fun hdr =>
          { ehFrameCopy := ehFrameCopy, hdrCopy := hdrCopy, rows := rows, hdr := hdr
            ehFrame :=
              if cache.personalityOffset + 8 ≤ cache.ehFrame.length then
                overwrite cache.ehFrame cache.personalityOffset (leBytes 8 personality.toNat)
              else cache.ehFrame }

/-- The FDE an unwinder reads at an address: from the blob, or from the memory outside it. -/
def fdeAt (ehFrameAddr : Addr) (ehFrame : List Octet) (outside : Addr → Option FdeView) (a : Addr) :
    Option FdeView :=
  if InRange ehFrameAddr ehFrame.length a then readFde ehFrame (a - ehFrameAddr).toNat
  else outside a

/-- The two tables map the same addresses to the same FDEs, whatever is read outside the blobs, as
long as both processes read the native FDEs alike. -/
def SameTable (image : UnwindImage) (out : Registered) (table : CachedTable) : Prop :=
  ∀ outside outside' : Addr → Option FdeView,
    (∀ n ∈ image.natives, outside' n.fdePtr = outside n.fdePtr) →
      table.rows.map (fun row => (row.1, fdeAt table.ehFrameCopy table.ehFrame outside' row.2)) =
        out.rows.map fun row =>
          (row.initialLocation, fdeAt out.bufAddr out.ehFrame outside row.fdePtr)

variable {image : UnwindImage} {entries : List CuEntry} {out : Registered} {new : List Octet}
  {cache : CachedFrame} {table : CachedTable}

theorem overwrite_append {front : List Octet} {offset : Nat}
    (h : offset + new.length ≤ front.length) (rest : List Octet) :
    overwrite (front ++ rest) offset new = overwrite front offset new ++ rest := by
  rw [overwrite, overwrite, take_append_of_le_length (by omega), drop_append_of_le_length h]
  simp only [append_assoc]

theorem length_overwrite {bytes : List Octet} {offset : Nat}
    (h : offset + new.length ≤ bytes.length) : (overwrite bytes offset new).length = bytes.length := by
  rw [overwrite, length_append, length_append, length_take, length_drop]
  omega

theorem overwrite_middle (front old rest : List Octet) (h : new.length = old.length) :
    overwrite (front ++ (old ++ rest)) front.length new = front ++ (new ++ rest) := by
  rw [overwrite, h, take_left, ← drop_drop, drop_left, drop_left, append_assoc]

/-- Another personality pointer is not looked at when the CIE is read. -/
theorem readCie_overwrite {personalityAddr : BitVec 64} (h : personalityAddr ≠ 0) (v : Nat)
    (rest : List Octet) :
    readCie (overwrite (ehfRecord 0 (cieBody personalityAddr) ++ rest) 19 (leBytes 8 v)) =
      some (emittedCie personalityAddr) := by
  have hpatched := overwrite_middle cieFront (leBytes 8 personalityAddr.toNat)
    ([0, 0, 0x0c, 31, 0] ++ rest) ((length_leBytes 8 v).trans (length_leBytes 8 _).symm)
  have hlength : field (cieFront ++ (leBytes 8 v ++ ([0, 0, 0x0c, 31, 0] ++ rest))) 0 4 = 28 := rfl
  have hfront : cieFront.length = 19 := rfl
  rw [hfront] at hpatched
  rw [cieRecord_eq h, append_assoc, append_assoc, hpatched, readCie, hlength, emittedCie,
    if_pos h, if_pos h]
  rfl

theorem exists_entry_of_row {bufAddr : Addr} {row : HdrEntry}
    (h : row ∈ recordEntries bufAddr (emitCies image).length
      ((entryFdes image entries).map EhRecord.fde)) :
    ∃ before e after f, entries = before ++ e :: after ∧ entryFde image e = some f ∧
      row = ⟨f.funcAddr, f.funcSize.setWidth 64,
        bufAddr + BitVec.ofNat 64 (emitEntries image before).length⟩ := by
  induction entries using reverseRecOn with
  | nil => cases h
  | append_singleton entries e ih =>
    have hsplit : entryFdes image (entries ++ [e]) =
        entryFdes image entries ++ (entryFde image e).toList := by
      rw [entryFdes, filterMap_append]
      cases hfde : entryFde image e with
      | none => rw [filterMap_cons_none hfde]; rfl
      | some f => rw [filterMap_cons_some hfde]; rfl
    rw [hsplit, map_append, recordEntries_append, ← emitEntries_eq, mem_append] at h
    rcases h with h | h
    · obtain ⟨before, e', after, f, rfl, hfde, hrow⟩ := ih h
      exact ⟨before, e', after ++ [e], f, by simp, hfde, hrow⟩
    · cases hfde : entryFde image e with
      | none =>
        rw [hfde] at h
        cases h
      | some f =>
        rw [hfde] at h
        exact ⟨entries, e, [], f, rfl, hfde, mem_singleton.mp h⟩

theorem readCie_overwrite_entry (hgxx : image.gxxPersonality ≠ 0)
    {e : CuEntry} {f : Fde} (hfde : entryFde image e = some f) (v : Nat) (rest : List Octet) :
    readCie ((overwrite (emitCies image ++ rest) 19 (leBytes 8 v)).drop f.cieOffset) =
      some (emittedCie (entryPersonality image e)) := by
  have hfirst : (ehfRecord 0 (cieBody image.gxxPersonality)).length = 32 := by
    rw [cieRecord_eq hgxx, length_append, length_append, length_leBytes]
    rfl
  have hsecond : cieWithoutPersonality image = 32 := hfirst
  have hcies : emitCies image = ehfRecord 0 (cieBody image.gxxPersonality) ++
      ehfRecord 32 (cieBody 0) := by
    rw [← hsecond]
    rfl
  have hshort : 19 + (leBytes 8 v).length ≤ (ehfRecord 0 (cieBody image.gxxPersonality)).length := by
    rw [hfirst, length_leBytes]
    omega
  rw [(cieOffset_entryFde hfde).1, entryPersonality, hcies, append_assoc]
  split
  · rw [drop_zero]
    exact readCie_overwrite hgxx v _
  · rw [overwrite_append hshort, hsecond, drop_left' ((length_overwrite hshort).trans hfirst)]
    exact readCie_cie 0 rfl _

theorem readFde_overwrite (hgxx : image.gxxPersonality ≠ 0)
    {before : List CuEntry} {e : CuEntry} {f : Fde} (hfde : entryFde image e = some f)
    (hpos : (emitEntries image before).length + 4 < 2 ^ 32) (v : Nat) (rest : List Octet) :
    readFde (overwrite (emitFde (emitEntries image before) f ++ rest) 19 (leBytes 8 v))
        (emitEntries image before).length =
      readFde (emitFde (emitEntries image before) f ++ rest) (emitEntries image before).length := by
  obtain ⟨own, hown⟩ := emitEntries_front image before
  have hcies : (emitCies image).length = 56 := by rw [length_emitCies, ciesSize, if_pos hgxx]
  have hlonger : (emitCies image).length ≤ (emitEntries image before).length := by
    rw [hown, length_append]
    omega
  have hshort : 19 + (leBytes 8 v).length ≤ (emitEntries image before).length := by
    rw [length_leBytes]
    omega
  have hlength := length_overwrite hshort
  have hpatched : overwrite (emitFde (emitEntries image before) f ++ rest) 19 (leBytes 8 v) =
      emitFde (overwrite (emitEntries image before) 19 (leBytes 8 v)) f ++ rest := by
    rw [emitFde, emitFde, hlength, append_assoc, overwrite_append hshort, append_assoc]
  have hcie : readCie ((emitFde (overwrite (emitEntries image before) 19 (leBytes 8 v)) f ++
      rest).drop f.cieOffset) = some (emittedCie (entryPersonality image e)) := by
    rw [← hpatched, emitFde, hown, append_assoc, append_assoc]
    exact readCie_overwrite_entry hgxx hfde v _
  have hread := readFde_emitFde rest (by rw [hlength]; exact hpos)
    (by rw [hlength]; exact (fits_entryFde hfde).mono hlonger) hcie
  rw [hlength] at hread
  rw [hpatched, hread, readFde_entryFde hfde hpos rest]

theorem pendingCache_eq_some (h : pendingCache image out = some cache) :
    image.gxxPersonality ≠ 0 ∧ 27 ≤ out.ehFrame.length ∧
      cache = ⟨out.ehFrame,
        out.rows.map fun row => (row.initialLocation, row.fdePtr - out.bufAddr), 19⟩ := by
  rw [pendingCache] at h
  split at h
  · next hcond =>
    obtain ⟨-, hpos, hlength⟩ := hcond
    have hgxx : image.gxxPersonality ≠ 0 := by
      intro hzero
      rw [ciePersonalityValueOffset, if_neg (not_not.mpr hzero)] at hpos
      exact Nat.lt_irrefl 0 hpos
    have hoffset : ciePersonalityValueOffset image = 19 := if_pos hgxx
    rw [hoffset] at h hlength
    cases h
    exact ⟨hgxx, hlength, rfl⟩
  · cases h

theorem ehFrameRegisterCached_eq_some {personality : BitVec 64} {copyMap hdrMap : NearMap}
    (h : ehFrameRegisterCached cache personality copyMap hdrMap = some table)
    (hlength : cache.personalityOffset + 8 ≤ cache.ehFrame.length) :
    table.rows = cache.hdrPairs.map (fun pair => (pair.1, table.ehFrameCopy + pair.2)) ∧
      table.ehFrame =
        overwrite cache.ehFrame cache.personalityOffset (leBytes 8 personality.toNat) := by
  have hne : cache.ehFrame ≠ [] := by
    intro hnil
    rw [hnil, length_nil] at hlength
    omega
  rw [ehFrameRegisterCached, if_neg hne] at h
  obtain ⟨ehFrameCopy, -, h⟩ := bind_eq_some_iff.mp h
  obtain ⟨hdrCopy, -, h⟩ := bind_eq_some_iff.mp h
  obtain ⟨hdr, -, rfl⟩ := map_eq_some_iff.mp h
  exact ⟨rfl, if_pos hlength⟩

/-- The later process has the blob with another personality pointer, and its rows rebased. -/
structure Reload (out : Registered) (table : CachedTable) : Prop where
  rows : table.rows = out.rows.map fun row =>
    (row.initialLocation, table.ehFrameCopy + (row.fdePtr - out.bufAddr))
  ehFrame : ∃ v, table.ehFrame = overwrite out.ehFrame 19 (leBytes 8 v)
  length : table.ehFrame.length = out.ehFrame.length

theorem reload_of_cache (hcache : pendingCache image out = some cache) {personality : BitVec 64}
    {copyMap hdrMap : NearMap}
    (htable : ehFrameRegisterCached cache personality copyMap hdrMap = some table) :
    Reload out table := by
  obtain ⟨-, hlength, rfl⟩ := pendingCache_eq_some hcache
  obtain ⟨hrows, hframe⟩ := ehFrameRegisterCached_eq_some htable hlength
  refine ⟨by rw [hrows, List.map_map]; rfl, ⟨_, hframe⟩, ?_⟩
  rw [hframe, length_overwrite (by rw [length_leBytes]; exact hlength)]

namespace Reload

variable (r : Reload out table)

include r

theorem inRange_iff (a : Addr) :
    InRange table.ehFrameCopy table.ehFrame.length (table.ehFrameCopy + (a - out.bufAddr)) ↔
      InRange out.bufAddr out.ehFrame.length a := by
  rw [InRange, InRange, add_sub_cancel_left, r.length]

theorem fdeAt_row {ehfMap hdrMap : NearMap} (hgxx : image.gxxPersonality ≠ 0)
    (h : generateAndRegister image ehfMap hdrMap = some out)
    (hentries : collectEntries image.info = some entries) {row : HdrEntry}
    (hrow : row ∈ recordEntries out.bufAddr (emitCies image).length
      ((entryFdes image entries).map EhRecord.fde)) (outside outside' : Addr → Option FdeView) :
    fdeAt table.ehFrameCopy table.ehFrame outside'
        (table.ehFrameCopy + (row.fdePtr - out.bufAddr)) =
      fdeAt out.bufAddr out.ehFrame outside row.fdePtr := by
  obtain ⟨v, hframe⟩ := r.ehFrame
  obtain ⟨entries', hentries', -, hout, -⟩ := generateAndRegister_eq_some h
  obtain rfl : entries' = entries := some.inj (hentries'.symm.trans hentries)
  obtain ⟨before, e, after, f, rfl, hfde, rfl⟩ := exists_entry_of_row hrow
  have hpos := pos_lt_of_registered h hentries hfde
  obtain ⟨tail, htail⟩ := emitEntries_append image before hfde after
  have hlonger := length_emitRecord_ge (emitEntries image before) (.fde f)
  change _ ≤ (emitFde (emitEntries image before) f).length at hlonger
  have hoffset : (out.bufAddr + BitVec.ofNat 64 (emitEntries image before).length -
      out.bufAddr).toNat = (emitEntries image before).length := by
    rw [add_sub_cancel_left, BitVec.toNat_ofNat, Nat.mod_eq_of_lt (by omega)]
  have hinside : InRange out.bufAddr out.ehFrame.length
      (out.bufAddr + BitVec.ofNat 64 (emitEntries image before).length) := by
    rw [InRange, hoffset, hout, htail, length_append, length_append]
    omega
  rw [fdeAt, fdeAt, if_pos ((r.inRange_iff _).mpr hinside), if_pos hinside, add_sub_cancel_left,
    hoffset, hframe, hout, htail, append_assoc]
  exact readFde_overwrite hgxx hfde hpos _ _

theorem fdeAt_native {a : Addr} (hapart : ¬ InRange out.bufAddr out.ehFrame.length a)
    (outside : Addr → Option FdeView) :
    fdeAt table.ehFrameCopy table.ehFrame outside (table.ehFrameCopy + (a - out.bufAddr)) =
      outside (table.ehFrameCopy + (a - out.bufAddr)) :=
  if_neg (mt (r.inRange_iff a).mp hapart)

theorem sameTable_iff :
    SameTable image out table ↔
      ∀ outside outside' : Addr → Option FdeView,
        (∀ n ∈ image.natives, outside' n.fdePtr = outside n.fdePtr) → ∀ row ∈ out.rows,
          fdeAt table.ehFrameCopy table.ehFrame outside'
              (table.ehFrameCopy + (row.fdePtr - out.bufAddr)) =
            fdeAt out.bufAddr out.ehFrame outside row.fdePtr := by
  rw [SameTable, r.rows]
  simp only [List.map_map, map_inj_left, Function.comp_apply, Prod.mk.injEq, true_and]

end Reload

/-- A native FDE has no row of its own exactly where an entry with an FDE starts at its start. -/
theorem shadowed_iff {bufAddr : Addr} {location : BitVec 64} :
    (∃ row ∈ recordEntries bufAddr (emitCies image).length
        ((entryFdes image entries).map EhRecord.fde), row.initialLocation = location) ↔
      ∃ e ∈ entries, Emits image e ∧ image.funcAddr e = location := by
  constructor
  · rintro ⟨row, hrow, rfl⟩
    obtain ⟨before, e, after, f, rfl, hfde, rfl⟩ := exists_entry_of_row hrow
    exact ⟨e, by simp, isSome_entryFde_iff.mp (isSome_iff_exists.mpr ⟨f, hfde⟩),
      (funcAddr_entryFde hfde).symm⟩
  · rintro ⟨e, he, hemits, rfl⟩
    obtain ⟨before, after, rfl⟩ := append_of_mem he
    obtain ⟨f, hfde⟩ := isSome_iff_exists.mp (isSome_entryFde_iff.mpr hemits)
    exact ⟨_, entryFde_row hfde before after bufAddr, funcAddr_entryFde hfde⟩

/-- The table of the cache is the generated one exactly where the blob is copied to the address it
was generated at, or every native FDE starts where an entry with an FDE of its own does. -/
theorem cached_table_iff {image : UnwindImage} {ehfMap hdrMap copyMap hdrMap' : NearMap}
    {out : Registered} (h : generateAndRegister image ehfMap hdrMap = some out)
    {entries : List CuEntry} (hentries : collectEntries image.info = some entries)
    {cache : CachedFrame} (hcache : pendingCache image out = some cache) {personality : BitVec 64}
    {table : CachedTable}
    (htable : ehFrameRegisterCached cache personality copyMap hdrMap' = some table)
    (hapart : ∀ n ∈ image.natives, ¬ InRange out.bufAddr out.ehFrame.length n.fdePtr) :
    SameTable image out table ↔
      table.ehFrameCopy = out.bufAddr ∨
        ∀ n ∈ image.natives, ∃ e ∈ entries, Emits image e ∧
          image.funcAddr e = n.initialLocation := by
  have hgxx := (pendingCache_eq_some hcache).1
  have r := reload_of_cache hcache htable
  obtain ⟨entries', hentries', -, -, -, hmerge, -⟩ := generateAndRegister_eq_some h
  obtain rfl : entries' = entries := some.inj (hentries'.symm.trans hentries)
  rw [r.sameTable_iff]
  constructor
  · intro hsame
    rw [or_iff_not_imp_left]
    intro hmoved n hn
    by_contra hshadow
    have hrow : n.toHdrEntry ∈ out.rows := by
      rw [hmerge, mem_mergeEntries]
      exact .inr ⟨n, hn, fun row hrow heq => hshadow (shadowed_iff.mp ⟨row, hrow, heq⟩), rfl⟩
    have hne : table.ehFrameCopy + (n.fdePtr - out.bufAddr) ≠ n.fdePtr := by
      intro hback
      rw [← eq_sub_iff_add_eq, sub_sub_cancel] at hback
      exact hmoved hback
    -- only the native FDE itself can be read outside the blobs
    let here : Addr → Option FdeView := fun a =>
      if a = n.fdePtr then some ⟨⟨[], ⟨0, 0⟩, []⟩, 0, 0, 0, []⟩ else none
    have heq := hsame here here (fun _ _ => rfl) _ hrow
    rw [r.fdeAt_native (hapart n hn), fdeAt, if_neg (hapart n hn),
      show here (table.ehFrameCopy + (n.fdePtr - out.bufAddr)) = none from if_neg hne,
      show here n.fdePtr = some _ from if_pos rfl] at heq
    cases heq
  · intro hcond outside outside' hagree row hrow
    rw [hmerge, mem_mergeEntries] at hrow
    rcases hrow with hrow | ⟨n, hn, hshadow, rfl⟩
    · exact r.fdeAt_row hgxx h hentries hrow outside outside'
    · rcases hcond with hsame | hall
      · rw [r.fdeAt_native (hapart n hn), fdeAt, if_neg (hapart n hn), hsame, add_sub_cancel,
          hagree n hn]
      · obtain ⟨row, hrow, hstart⟩ := shadowed_iff.mpr (hall n hn)
        exact absurd hstart (hshadow row hrow)

def splitCache : Option CachedFrame :=
  pendingCache splitImage (splitTables.get isSome_splitTables)

theorem isSome_splitCache : splitCache.isSome := by
  decide +kernel

def splitReload : Option CachedTable :=
  ehFrameRegisterCached (splitCache.get isSome_splitCache) 0x7f1000001000
    (mapAt 0x103000000 (by decide)) (mapAt 0x105000000 (by decide))

theorem isSome_splitReload : splitReload.isSome := by
  decide +kernel

theorem splitReload_same :
    SameTable splitImage (splitTables.get isSome_splitTables)
      (splitReload.get isSome_splitReload) :=
  (cached_table_iff (some_get isSome_splitTables).symm collectEntries_splitInfo
    (some_get isSome_splitCache).symm (some_get isSome_splitReload).symm
    (fun _ hn => absurd hn not_mem_nil)).mpr (.inr fun _ hn => absurd hn not_mem_nil)

def loneSection : NativeSection :=
  { addr := 0x100008000, size := 52
    bytes := fields [(4, 16), (4, 0), (1, 1), (1, 0x7a), (1, 0x52), (1, 0), (1, 4), (1, 0x78), (1, 30),
      (1, 1), (1, 0), (1, 0x0c), (1, 31), (1, 0),
      (4, 28), (4, 24), (8, 0x100002000), (8, 0x40), (1, 0),
      (1, 0x41), (1, 0x0e), (1, 16), (4, 0)]
    deref := fun _ => 0 }

def loneImage : UnwindImage :=
  { splitImage with natives := loneSection.natives, nativeSize := loneSection.size }

def loneOutside (a : Addr) : Option FdeView :=
  if InRange loneSection.addr loneSection.size a then
    readFde loneSection.bytes (a - loneSection.addr).toNat
  else none

/-- Its row is rebased on the copy with the others, and finds no FDE there. -/
theorem loneImage_lost :
    ((generateAndRegister loneImage (mapAt 0x102000000 (by decide))
        (mapAt 0x104000000 (by decide))).bind fun out =>
      (pendingCache loneImage out).bind fun cache =>
        (ehFrameRegisterCached cache 0x7f1000001000 (mapAt 0x103000000 (by decide))
            (mapAt 0x105000000 (by decide))).map fun table =>
          (out.rows.map fun row => (row.initialLocation,
              (fdeAt out.bufAddr out.ehFrame loneOutside row.fdePtr).map FdeView.start),
            table.rows.map fun row => (row.1,
              (fdeAt table.ehFrameCopy table.ehFrame loneOutside row.2).map FdeView.start))) =
      some ([(0x100001000, some 0x100001000), (0x100001080, some 0x100001080),
          (0x100002000, some 0x100002000)],
        [(0x100001000, some 0x100001000), (0x100001080, some 0x100001080),
          (0x100002000, none)]) := by
  decide +kernel

end Machgate.CachedTables
