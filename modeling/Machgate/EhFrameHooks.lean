import Machgate.EhFrameHeader

namespace Machgate.EhFrameHooks

open ByteMemory RecordBuffer UnwindEntries EhFrameRecords EhFrameTable EhFrameHeader Option

/-- The statics that `_dl_find_object` reads. -/
structure Hook where
  machoTextStart : Addr
  machoTextEnd : Addr
  machoEhFrameHdr : Addr
  machoEhFrameHdrSize : Nat
deriving DecidableEq

structure DlFindObject where
  mapStart : Addr
  mapEnd : Addr
  ehFrame : Addr
  ehDbase : Addr
  ehCount : BitVec 32
deriving DecidableEq

/-- `_dl_find_object`, with the C library's own function for the pcs that are not the image's. -/
def dlFindObject (hook : Hook) (real : Addr → Option DlFindObject) (pc : Addr) :
    Option DlFindObject :=
  if hook.machoEhFrameHdr ≠ 0 ∧ hook.machoTextStart ≤ pc ∧ pc < hook.machoTextEnd then
    some { mapStart := hook.machoTextStart, mapEnd := hook.machoTextEnd
           ehFrame := hook.machoEhFrameHdr, ehDbase := hook.machoTextStart
           ehCount := BitVec.ofNat 32 (if 12 ≤ hook.machoEhFrameHdrSize then
             (hook.machoEhFrameHdrSize - 12) / 8 else 0) }
  else real pc

def mapFailed : Addr := BitVec.allOnes 64

/-- `eh_frame_generate_and_register` with its result and the statics it leaves; the image is `none`
without `__unwind_info`.  There is no outcome where the records outgrow their buffer. -/
def ehFrameGenerateAndRegister (qsort : QSort) (image : Option UnwindImage) (textSize : BitVec 64)
    (ehfMap hdrMap : NearMap) (hook : Hook) : Option (Int × Hook) :=
  match image with
  | none => some (-1, hook)
  | some image =>
    match collectEntries image.info with
    | none => some (-1, hook)
    | some [] => some (0, hook)
    | some entries =>
      match ehfMap.answer (ehfCapacity image entries) with
      | none => some (-1, hook)
      | some bufAddr =>
        let buf := emitEntries image entries ++ leBytes 4 0
        if ehfCapacity image entries < buf.length then none
        else
          let start := image.textBase + image.slide
          let hook := { hook with machoTextStart := start, machoTextEnd := start + textSize }
          let syn := scanFdes buf bufAddr buf.length 0
          let rows := qsort.sort (syn ++ unshadowed syn image.natives)
          match hdrMap.answer (12 + rows.length * 8) with
          | none => some (-1, { hook with machoEhFrameHdr := mapFailed })
          | some hdrAddr =>
            let hook := { hook with machoEhFrameHdr := hdrAddr }
            match encodeHdr hdrAddr bufAddr rows with
            | none => some (-1, hook)
            | some hdr => some (0, { hook with machoEhFrameHdrSize := hdr.length })

/-- The failures in front of the statement that stores the text range. -/
def FailsEarly (image : Option UnwindImage) (ehfMap : NearMap) : Prop :=
  ∀ im entries, image = some im → collectEntries im.info = some entries →
    ehfMap.answer (ehfCapacity im entries) = none

def Hook.Serves (hook : Hook) : Prop :=
  hook.machoEhFrameHdr ≠ 0 ∧ hook.machoTextStart < hook.machoTextEnd

/-- The size that is asked for `.eh_frame_hdr`: eight bytes for the FDE of each entry and for each
native one that starts elsewhere. -/
def hdrSize (im : UnwindImage) (entries : List CuEntry) : Nat :=
  12 + ((entryFdes im entries).length + (im.natives.filter fun n =>
    ∀ f ∈ entryFdes im entries, f.funcAddr ≠ n.initialLocation).length) * 8

/-- The statics after a call that fails once it has stored the text range. -/
def lateHook (im : UnwindImage) (entries : List CuEntry) (textSize : BitVec 64) (hdrMap : NearMap)
    (hook : Hook) : Hook :=
  { machoTextStart := im.textBase + im.slide
    machoTextEnd := im.textBase + im.slide + textSize
    machoEhFrameHdr := (hdrMap.answer (hdrSize im entries)).getD mapFailed
    machoEhFrameHdrSize := hook.machoEhFrameHdrSize }

section

variable {qsort : QSort} {image : Option UnwindImage} {textSize : BitVec 64}
  {ehfMap hdrMap : NearMap} {hook hook' : Hook}

theorem length_rows (im : UnwindImage) (entries : List CuEntry) (bufAddr : Addr) :
    12 + (qsort.sort (recordEntries bufAddr (emitCies im).length
      ((entryFdes im entries).map EhRecord.fde) ++ unshadowed (recordEntries bufAddr
      (emitCies im).length ((entryFdes im entries).map EhRecord.fde)) im.natives)).length * 8 =
      hdrSize im entries := by
  have hnatives := congrArg List.length
    (@unshadowed_eq bufAddr (entryFdes im entries) im.natives (emitCies im).length)
  rw [List.length_map, List.length_map] at hnatives
  rw [hdrSize, (qsort.perm _).length_eq, List.length_append, hnatives, recordEntries_eq_placed,
    List.length_map, ← List.length_map (f := Prod.snd), map_snd_placed]

/-- What a failed call leaves: the statics as they were, or the new range with a pointer that is
either `MAP_FAILED` or the header that could not be filled. -/
theorem failed_cases
    (h : ehFrameGenerateAndRegister qsort image textSize ehfMap hdrMap hook = some (-1, hook')) :
    hook' = hook ∧ FailsEarly image ehfMap ∨ ¬ FailsEarly image ehfMap ∧ ∃ im entries,
      image = some im ∧ collectEntries im.info = some entries ∧
        hook' = lateHook im entries textSize hdrMap hook := by
  unfold ehFrameGenerateAndRegister at h
  split at h
  · cases h
    exact .inl ⟨rfl, fun _ _ him => by cases him⟩
  · next im =>
    split at h
    · next hnone =>
      cases h
      refine .inl ⟨rfl, fun _ _ him hentries => ?_⟩
      cases him
      rw [hnone] at hentries
      cases hentries
    · cases h
    · next entries _ hentries =>
      split at h
      · next hbuf =>
        cases h
        refine .inl ⟨rfl, fun _ _ him hentries' => ?_⟩
        cases him
        obtain rfl := some.inj (hentries.symm.trans hentries')
        exact hbuf
      · next bufAddr hbuf =>
        have hlate : ¬ FailsEarly (some im) ehfMap := fun hearly => by
          rw [hearly im entries rfl hentries] at hbuf
          cases hbuf
        refine .inr ⟨hlate, im, entries, rfl, hentries, ?_⟩
        simp only [scanFdes_emitEntries, length_rows] at h
        split at h
        · cases h
        · split at h
          · next hhdr =>
            cases h
            rw [lateHook, hhdr]
            rfl
          · next hdrAddr hhdr =>
            split at h
            · cases h
              rw [lateHook, hhdr]
              rfl
            · cases h

theorem sameAnswers_iff (hsize : hook'.machoEhFrameHdrSize = hook.machoEhFrameHdrSize) :
    (∀ real pc, dlFindObject hook' real pc = dlFindObject hook real pc) ↔
      (¬ hook.Serves ∧ ¬ hook'.Serves) ∨
        (hook'.machoTextStart = hook.machoTextStart ∧ hook'.machoTextEnd = hook.machoTextEnd ∧
          hook'.machoEhFrameHdr = hook.machoEhFrameHdr) := by
  have hidle : ∀ {k : Hook}, ¬ k.Serves → ∀ real pc, dlFindObject k real pc = real pc := by
    intro k hk real pc
    refine if_neg fun ⟨hhdr, hlow, hhigh⟩ => hk ⟨hhdr, BitVec.not_le.mp fun hle => ?_⟩
    exact BitVec.not_lt.mpr (BitVec.le_trans hle hlow) hhigh
  have hfirst : ∀ {k : Hook}, k.Serves → ∀ real, ∃ found,
      dlFindObject k real k.machoTextStart = some found ∧ found.mapStart = k.machoTextStart ∧
        found.mapEnd = k.machoTextEnd ∧ found.ehFrame = k.machoEhFrameHdr := by
    intro k hk real
    exact ⟨_, if_pos ⟨hk.1, BitVec.le_refl _, hk.2⟩, rfl, rfl, rfl⟩
  constructor
  · intro hsame
    by_cases hserves : hook.Serves
    · obtain ⟨found, hfound, hstart, hend, hhdr⟩ := hfirst hserves fun _ => none
      rw [← hsame, dlFindObject, ite_none_right_eq_some] at hfound
      obtain ⟨-, hfound⟩ := hfound
      obtain rfl := some.inj hfound
      exact .inr ⟨hstart, hend, hhdr⟩
    · refine .inl ⟨hserves, fun hserves' => ?_⟩
      obtain ⟨found, hfound, -⟩ := hfirst hserves' fun _ => none
      rw [hsame, hidle hserves] at hfound
      cases hfound
  · rintro (⟨hserves, hserves'⟩ | ⟨hstart, hend, hhdr⟩) real pc
    · rw [hidle hserves, hidle hserves']
    · rw [dlFindObject, dlFindObject, hstart, hend, hhdr, hsize]

/-- After a failed call the answers are the same exactly if it failed before it stored the range, or
the hook answered for no pc and the range is empty or the header at address zero, or both were
stored before. -/
theorem failed_sameAnswers_iff
    (h : ehFrameGenerateAndRegister qsort image textSize ehfMap hdrMap hook = some (-1, hook')) :
    (∀ real pc, dlFindObject hook' real pc = dlFindObject hook real pc) ↔
      FailsEarly image ehfMap ∨ ∃ im entries, image = some im ∧
        collectEntries im.info = some entries ∧
        ((¬ hook.Serves ∧ ((hdrMap.answer (hdrSize im entries)).getD mapFailed = 0 ∨
            im.textBase + im.slide + textSize ≤ im.textBase + im.slide)) ∨
          (im.textBase + im.slide = hook.machoTextStart ∧
            im.textBase + im.slide + textSize = hook.machoTextEnd ∧
            (hdrMap.answer (hdrSize im entries)).getD mapFailed = hook.machoEhFrameHdr)) := by
  rcases failed_cases h with ⟨rfl, hearly⟩ | ⟨hlate, im, entries, rfl, hentries, rfl⟩
  · exact iff_of_true (fun _ _ => rfl) (.inl hearly)
  · have hsize : (lateHook im entries textSize hdrMap hook).machoEhFrameHdrSize =
        hook.machoEhFrameHdrSize := rfl
    have hserves : ¬ (lateHook im entries textSize hdrMap hook).Serves ↔
        (hdrMap.answer (hdrSize im entries)).getD mapFailed = 0 ∨
          im.textBase + im.slide + textSize ≤ im.textBase + im.slide := by
      rw [Hook.Serves, not_and_or, not_not, BitVec.not_lt]
      rfl
    rw [or_iff_right hlate, sameAnswers_iff hsize, hserves]
    constructor
    · exact fun hsame => ⟨im, entries, rfl, hentries, hsame⟩
    · rintro ⟨im', entries', him, hentries', hsame⟩
      cases him
      obtain rfl := some.inj (hentries.symm.trans hentries')
      exact hsame

end

def noRoom : NearMap := ⟨fun _ => none, fun _ _ h => by cases h⟩

def unregistered : Hook := ⟨0, 0, 0, 0⟩

theorem bufferAddr_user : (0x102000000 : Addr).toNat < 2 ^ 62 := by decide

/-- No room for the header of an image whose text segment has `textSize` bytes. -/
def headerless (textSize : BitVec 64) : Option (Int × Hook) :=
  ehFrameGenerateAndRegister insertionQSort (some splitImage) textSize
    (mapAt 0x102000000 bufferAddr_user) noRoom unregistered

theorem emptyText_sameAnswers :
    headerless 0 = some (-1, ⟨0x100000000, 0x100000000, mapFailed, 0⟩) ∧
      ∀ real pc, dlFindObject ⟨0x100000000, 0x100000000, mapFailed, 0⟩ real pc =
        dlFindObject unregistered real pc := by
  have hfails : headerless 0 = some (-1, ⟨0x100000000, 0x100000000, mapFailed, 0⟩) := by
    decide +kernel
  refine ⟨hfails, (failed_sameAnswers_iff hfails).mpr (.inr ⟨splitImage, _, rfl,
    collectEntries_splitInfo, .inl ⟨fun h => h.1 rfl, .inr ?_⟩⟩)⟩
  exact BitVec.le_refl _

theorem headerless_serves_mapFailed :
    headerless 0x4000 = some (-1, ⟨0x100000000, 0x100004000, mapFailed, 0⟩) ∧
      dlFindObject unregistered (fun _ => none) 0x100001000 = none ∧
      dlFindObject ⟨0x100000000, 0x100004000, mapFailed, 0⟩ (fun _ => none) 0x100001000 =
        some ⟨0x100000000, 0x100004000, mapFailed, 0x100000000, 0⟩ :=
  ⟨by decide +kernel, by decide, by decide⟩

end Machgate.EhFrameHooks
