import Machgate.CallFrame
import Machgate.NativeEhFrame

namespace Machgate.FdeLayout

open ByteMemory RecordBuffer UnwindEntries EhFrameRecords EhFrameTable NativeEhFrame CallFrame
open List Option Nat

def padding (pos : Nat) (body : List Octet) : Nat := (8 - (pos + 4 + body.length) % 8) % 8

theorem body_ehfRecord {body : List Octet} (pos : Nat) (h : body.length < 2 ^ 32 - 8)
    (rest : List Octet) :
    ((ehfRecord pos body ++ rest).drop 4).take (field (ehfRecord pos body ++ rest) 0 4) =
      body ++ replicate (padding pos body) dwCfaNop := by
  have hlength := field_ehfRecord_length pos h rest
  have hrecord : (ehfRecord pos body).length =
      4 + (body ++ replicate (padding pos body) dwCfaNop).length := by
    rw [ehfRecord, length_append, length_leBytes, padding]
  have hfield : field (ehfRecord pos body ++ rest) 0 4 =
      (body ++ replicate (padding pos body) dwCfaNop).length := by omega
  rw [hfield, ehfRecord, append_assoc, drop_left' (length_leBytes ..)]
  exact take_left

def zPLR : List Octet := [0x7a, 0x50, 0x4c, 0x52]
def zR : List Octet := [0x7a, 0x52]

def emittedCie (personalityAddr : BitVec 64) : Cie :=
  { augmentation := if personalityAddr ≠ 0 then zPLR else zR
    factors := ⟨4, -8⟩
    initial := [0x0c, 31, 0] ++ if personalityAddr ≠ 0 then [] else [0, 0, 0, 0] }

variable {pos : Nat} {f : Fde} {image : UnwindImage} {e : CuEntry}

theorem readCie_cie (personalityAddr : BitVec 64) (hpos : pos % 8 = 0) (rest : List Octet) :
    readCie (ehfRecord pos (cieBody personalityAddr) ++ rest) = some (emittedCie personalityAddr) := by
  have hshort := (fits_cie personalityAddr pos).length 0
  change (cieBody personalityAddr).length < _ at hshort
  rw [readCie, body_ehfRecord pos hshort rest]
  by_cases h : personalityAddr = 0
  · subst h
    have hpad : padding pos (cieBody 0) = 4 := by
      change (8 - (pos + 4 + 16) % 8) % 8 = 4
      omega
    rw [hpad]
    rfl
  · have hlength : (cieBody personalityAddr).length = 28 := by
      rw [cieBody_eq h, length_append, length_append, length_leBytes]
      rfl
    have hpad : padding pos (cieBody personalityAddr) = 0 := by
      rw [padding, hlength]
      omega
    rw [hpad, cieBody_eq h, emittedCie, if_pos h, if_pos h]
    rfl

theorem declaredLength_emittedCie (personalityAddr : BitVec 64) :
    (emittedCie personalityAddr).declaredLength = if personalityAddr ≠ 0 then 8 else 0 := by
  by_cases h : personalityAddr = 0
  · subst h
    rfl
  · rw [if_pos h, Cie.declaredLength, emittedCie, if_pos h]
    rfl

theorem ite_eight_eq_iff {p q : Prop} [Decidable p] [Decidable q] :
    (if p then 8 else 0) = (if q then 8 else 0) ↔ (p ↔ q) := by
  split
  · next hp => simp [hp]
  · next hp => simp [hp]

def lsdaField (f : Fde) : List Octet :=
  if f.lsdaAddr ≠ 0 then leBytes 8 f.lsdaAddr.toNat else []

def fdeHeader (f : Fde) (pos : Nat) : List (Nat × Nat) :=
  [(4, pos + 4 - f.cieOffset), (8, f.funcAddr.toNat), (8, f.funcSize.toNat)]

theorem fdeBody_eq (f : Fde) (pos : Nat) :
    fdeBody f pos =
      fields (fdeHeader f pos) ++
        (BitVec.ofNat 8 (lsdaField f).length :: (lsdaField f ++ f.cfi)) := by
  have h8 : ehfUleb128 8 = [8] := by decide
  have h0 : ehfUleb128 0 = [0] := by decide
  rw [fdeBody, lsdaField, h8, h0]
  simp only [fdeHeader, fields, flatMap_cons, flatMap_nil, append_assoc, append_nil]
  split
  · rfl
  · rfl

theorem length_lsdaField (f : Fde) : (lsdaField f).length = if f.lsdaAddr ≠ 0 then 8 else 0 := by
  rw [lsdaField]
  split
  · exact length_leBytes ..
  · rfl

/-- An unwinder finds the fields of an emitted FDE, and behind its augmentation length the LSDA
pointer, the instructions and the padding. -/
theorem readFde_emitFde {buf : List Octet} {cie : Cie} (rest : List Octet)
    (hpos : buf.length + 4 < 2 ^ 32) (hfits : (EhRecord.fde f).Fits buf.length)
    (hcie : readCie ((emitFde buf f ++ rest).drop f.cieOffset) = some cie) :
    readFde (emitFde buf f ++ rest) buf.length =
      some { cie := cie, start := f.funcAddr.toNat, range := f.funcSize.toNat
             augLength := (lsdaField f).length
             behindLength := lsdaField f ++ f.cfi ++
               replicate (padding buf.length (fdeBody f buf.length)) dwCfaNop } := by
  have hshort : (fdeBody f buf.length).length < 2 ^ 32 - 8 := hfits.length buf.length
  have hle := (hfits.cieOffset f rfl).2
  have hdrop : (emitFde buf f ++ rest).drop buf.length =
      ehfRecord buf.length (fdeBody f buf.length) ++ rest := by
    rw [emitFde, append_assoc, drop_left]
  have hpointer : ∀ tail, field (fields (fdeHeader f buf.length) ++ tail) 0 4 =
      (buf.length + 4 - f.cieOffset) % 256 ^ 4 := field_fields [] [(8, _), (8, _)] 4 _
  have hstart : ∀ tail, field (fields (fdeHeader f buf.length) ++ tail) 4 8 = f.funcAddr.toNat % 256 ^ 8 :=
    field_fields [(4, _)] [(8, _)] 8 _
  have hrange : ∀ tail, field (fields (fdeHeader f buf.length) ++ tail) 12 8 = f.funcSize.toNat % 256 ^ 8 :=
    field_fields [(4, _), (8, _)] [] 8 _
  have hbehind : ∀ tail, (fields (fdeHeader f buf.length) ++ tail).drop 20 = tail :=
    drop_fields (fdeHeader f buf.length)
  have hback : buf.length + 4 - (buf.length + 4 - f.cieOffset) % 256 ^ 4 = f.cieOffset := by
    rw [mod_eq_of_lt (by omega)]
    omega
  have huleb : ∀ tail, readUleb (BitVec.ofNat 8 (lsdaField f).length :: tail) =
      some ((lsdaField f).length, tail) := by
    intro tail
    rw [length_lsdaField]
    split
    · rfl
    · rfl
  rw [readFde, hdrop, body_ehfRecord _ hshort]
  rw [fdeBody_eq, append_assoc, cons_append]
  simp only [hpointer, hstart, hrange, hbehind, hback, hcie, huleb, bind_some,
    map_some]
  rw [mod_eq_of_lt (by omega), mod_eq_of_lt (by omega)]

/-- Reading the FDE at `pos` by its CIE takes the augmentation data of `f` and no more: the LSDA
pointer the CIE declares is there, and behind it stand the instructions. -/
def ReadsByCie (ehFrame : List Octet) (pos : Nat) (f : Fde) : Prop :=
  ∃ view, readFde ehFrame pos = some view ∧ view.augLength = view.cie.declaredLength ∧
    view.lsda = (if f.lsdaAddr ≠ 0 then some f.lsdaAddr.toNat else none) ∧
    ∃ n < 8, view.behindLength.drop view.cie.declaredLength =
      f.cfi ++ List.replicate n dwCfaNop

theorem readsByCie_iff {ehFrame : List Octet} {n start range : Nat} {cie : Cie} (hn : n < 8)
    (hread : readFde ehFrame pos = some
      { cie := cie, start := start, range := range, augLength := (lsdaField f).length
        behindLength := lsdaField f ++ f.cfi ++ replicate n dwCfaNop }) :
    ReadsByCie ehFrame pos f ↔ cie.declaredLength = (lsdaField f).length := by
  constructor
  · rintro ⟨view, hview, hlength, -⟩
    rw [hread, some.injEq] at hview
    rw [← hview] at hlength
    exact hlength.symm
  · intro hdeclared
    refine ⟨_, hread, hdeclared.symm, ?_, n, hn, ?_⟩
    · have hlsda := f.lsdaAddr.isLt
      rw [FdeView.lsda, hdeclared, length_lsdaField]
      by_cases h : f.lsdaAddr = 0
      · rw [if_neg (not_not.mpr h), if_neg (not_not.mpr h)]
        rfl
      · rw [if_pos h, if_pos h, if_pos rfl, lsdaField, if_pos h, field, drop_zero,
          append_assoc, take_left' (length_leBytes ..), ofLeBytes_leBytes, mod_eq_of_lt (by omega)]
    · rw [hdeclared, append_assoc, drop_left]

theorem emitEntries_front (image : UnwindImage) (entries : List CuEntry) :
    ∃ rest, emitEntries image entries = emitCies image ++ rest := by
  rw [emitEntries_eq]
  exact foldl_emitRecord_eq ..

theorem hasLsda_of_nativeCfi {n : NativeFde} (h : image.nativeCfi e = some n) : HasLsda e := by
  rw [UnwindImage.nativeCfi] at h
  split at h
  · next hlsda =>
    rw [UnwindImage.lsdaAddr] at hlsda
    split at hlsda
    · next hflag => exact hflag.1
    · exact absurd rfl hlsda
  · cases h

theorem cieOffset_entryFde (h : entryFde image e = some f) :
    f.cieOffset = (if HasLsda e then 0 else cieWithoutPersonality image) ∧
      f.lsdaAddr = image.lsdaAddr e := by
  rcases entryFde_eq_some_iff.mp h with ⟨n, hn, rfl⟩ | ⟨-, -, -, rfl⟩
  · exact ⟨(if_pos (hasLsda_of_nativeCfi hn)).symm, rfl⟩
  · exact ⟨rfl, rfl⟩

def entryPersonality (image : UnwindImage) (e : CuEntry) : BitVec 64 :=
  if HasLsda e then image.gxxPersonality else 0

theorem readCie_entryFde (h : entryFde image e = some f) (rest : List Octet) :
    readCie ((emitCies image ++ rest).drop f.cieOffset) =
      some (emittedCie (entryPersonality image e)) := by
  have hsecond : cieWithoutPersonality image % 8 = 0 :=
    length_emitRecord_mod [] (.cie image.gxxPersonality)
  have hcies : emitCies image = emitCie [] image.gxxPersonality ++
      ehfRecord (cieWithoutPersonality image) (cieBody 0) := rfl
  rw [(cieOffset_entryFde h).1, entryPersonality, hcies, append_assoc]
  split
  · rw [drop_zero, emitCie, nil_append]
    exact readCie_cie _ rfl _
  · rw [cieWithoutPersonality, drop_left]
    exact readCie_cie _ hsecond _

theorem readFde_entryFde {before : List CuEntry}
    (hfde : entryFde image e = some f) (hpos : (emitEntries image before).length + 4 < 2 ^ 32)
    (rest : List Octet) :
    readFde (emitFde (emitEntries image before) f ++ rest) (emitEntries image before).length =
      some { cie := emittedCie (entryPersonality image e)
             start := f.funcAddr.toNat, range := f.funcSize.toNat
             augLength := (lsdaField f).length
             behindLength := lsdaField f ++ f.cfi ++ replicate
               (padding (emitEntries image before).length
                 (fdeBody f (emitEntries image before).length)) dwCfaNop } := by
  obtain ⟨own, hown⟩ := emitEntries_front image before
  have hlonger : (emitCies image).length ≤ (emitEntries image before).length := by
    rw [hown, length_append]
    omega
  apply readFde_emitFde rest hpos ((fits_entryFde hfde).mono hlonger)
  rw [emitFde, hown, append_assoc, append_assoc]
  exact readCie_entryFde hfde _

theorem readsByCie_entry_iff {ehfMap hdrMap : NearMap} {out : Registered}
    (h : generateAndRegister image ehfMap hdrMap = some out) {before after : List CuEntry}
    (hentries : collectEntries image.info = some (before ++ e :: after))
    (hfde : entryFde image e = some f) :
    ReadsByCie out.ehFrame (emitEntries image before).length f ↔
      (entryPersonality image e ≠ 0 ↔ image.lsdaAddr e ≠ 0) := by
  obtain ⟨entries, hentries', -, hframe, -⟩ := generateAndRegister_eq_some h
  obtain rfl : entries = before ++ e :: after := some.inj (hentries'.symm.trans hentries)
  obtain ⟨tail, htail⟩ := emitEntries_append image before hfde after
  have hread := readFde_entryFde hfde (pos_lt_of_registered h hentries hfde) (tail ++ leBytes 4 0)
  rw [hframe, htail, append_assoc, readsByCie_iff (by rw [padding]; omega) hread,
    declaredLength_emittedCie, length_lsdaField, (cieOffset_entryFde hfde).2, ite_eight_eq_iff]

/-- Every emitted FDE has the augmentation data its CIE declares exactly where each entry with the
LSDA flag has both a personality routine to name and an LSDA to point to, or neither. -/
theorem augmentation_shape_iff {image : UnwindImage} {ehfMap hdrMap : NearMap} {out : Registered}
    (h : generateAndRegister image ehfMap hdrMap = some out) {entries : List CuEntry}
    (hentries : collectEntries image.info = some entries) :
    (∀ before e after f, entries = before ++ e :: after → entryFde image e = some f →
        ReadsByCie out.ehFrame (emitEntries image before).length f) ↔
      ∀ e ∈ entries, Emits image e → HasLsda e →
        (image.gxxPersonality ≠ 0 ↔ image.lsdaAddr e ≠ 0) := by
  constructor
  · intro hreads e he hemits hflag
    obtain ⟨before, after, rfl⟩ := append_of_mem he
    obtain ⟨f, hfde⟩ := isSome_iff_exists.mp (isSome_entryFde_iff.mpr hemits)
    have hiff := (readsByCie_entry_iff h hentries hfde).mp (hreads before e after f rfl hfde)
    rwa [entryPersonality, if_pos hflag] at hiff
  · rintro hshape before e after f rfl hfde
    have hemits := isSome_entryFde_iff.mp (isSome_iff_exists.mpr ⟨f, hfde⟩)
    refine (readsByCie_entry_iff h hentries hfde).mpr ?_
    rw [entryPersonality]
    split
    · next hflag => exact hshape e (by simp) hemits hflag
    · next hflag =>
      have hlsda : image.lsdaAddr e = 0 := if_neg fun hand => hflag hand.1
      rw [hlsda]

theorem cxxEntry_augmentation :
    ReadsByCie (splitTables.get isSome_splitTables).ehFrame
      (emitEntries splitImage [objcEntry, coldEntry]).length
      { cieOffset := 0, funcAddr := 0x100001080, funcSize := 256, lsdaAddr := 0x100003010
        cfi := frameCfi 0x54000000 } := by
  refine (augmentation_shape_iff (some_get isSome_splitTables).symm
    collectEntries_splitInfo).mpr ?_ [objcEntry, coldEntry] cxxEntry [] _ rfl
    (entryFde_eq_some_iff.mpr (.inr ⟨by decide, by decide, by decide, rfl⟩))
  intro e he hemits hflag
  rcases mem_append.mp he with he | he
  · rcases mem_pair.mp he with rfl | rfl
    · decide
    · exact absurd hflag (by decide)
  · obtain rfl := mem_singleton.mp he
    decide

/-- A C++ function with the LSDA flag that the LSDA index does not list. -/
def unlistedInfo : UnwindInfo :=
  { bytes := fields [(4, 1), (4, 28), (4, 0), (4, 28), (4, 1), (4, 32), (4, 2),
      (4, 0x4000),
      (4, 0x1000), (4, 56), (4, 56), (4, 0x1040), (4, 0), (4, 56),
      (4, 2), (2, 8), (2, 1), (4, 0x1000), (4, 0x54000000)]
    size := 72 }

def unlistedImage : UnwindImage := { splitImage with info := unlistedInfo }

def unlistedEntry : CuEntry := ⟨0x1000, 256, 0x54000000, 0⟩

/-- The eight bytes of its instructions are read as the LSDA pointer. -/
theorem unlistedEntry_augmentation :
    collectEntries unlistedImage.info = some ([] ++ unlistedEntry :: []) ∧
      (entryFde unlistedImage unlistedEntry).map (fun f => (f.lsdaAddr, f.cfi)) =
        some (0, [0x41, 0x0c, 29, 16, 0x9e, 1, 0x9d, 2]) ∧
      ((generateAndRegister unlistedImage (mapAt 0x102000000 (by decide))
          (mapAt 0x104000000 (by decide))).bind fun out =>
        (readFde out.ehFrame (emitEntries unlistedImage []).length).map fun view =>
          (view.augLength, view.cie.declaredLength, view.lsda,
            view.behindLength.drop view.cie.declaredLength)) =
        some (0, 8, some 0x29d019e101d0c41, List.replicate 7 dwCfaNop) := by
  decide +kernel

/-- The bytes of an FDE: 24 in front of the augmentation length, a multiple of 8 in all. -/
def fdeSize (f : Fde) : Nat := (25 + (lsdaField f).length + f.cfi.length + 7) / 8 * 8

def ciesSize (image : UnwindImage) : Nat := if image.gxxPersonality ≠ 0 then 56 else 48

theorem length_ehfRecord (hpos : pos % 8 = 0) (body : List Octet) :
    (ehfRecord pos body).length = (4 + body.length + 7) / 8 * 8 := by
  simp only [ehfRecord, length_append, length_leBytes, length_replicate]
  omega

theorem length_fdeRecord (hpos : pos % 8 = 0) (f : Fde) :
    (ehfRecord pos (fdeBody f pos)).length = fdeSize f := by
  rw [length_ehfRecord hpos, fdeBody_eq, length_append, length_fields, fdeSize,
    length_cons, length_append]
  change (4 + (20 + _) + 7) / 8 * 8 = _
  congr 2
  omega

theorem length_foldl_emitRecord {buf : List Octet} (hbuf : buf.length % 8 = 0) (fdes : List Fde) :
    ((fdes.map EhRecord.fde).foldl emitRecord buf).length =
      buf.length + (fdes.map fdeSize).sum := by
  induction fdes generalizing buf with
  | nil => rfl
  | cons f fdes ih =>
    rw [map_cons, foldl_cons, ih (length_emitRecord_mod buf (.fde f)), emitRecord_eq,
      length_append, map_cons, sum_cons, ← Nat.add_assoc]
    exact congrArg (buf.length + · + _) (length_fdeRecord hbuf f)

theorem length_emitCies (image : UnwindImage) : (emitCies image).length = ciesSize image := by
  have hcies : ∀ p : BitVec 64, (emitCie [] p).length = if p ≠ 0 then 32 else 24 := by
    intro p
    rw [emitCie, nil_append, length_nil, length_ehfRecord rfl]
    by_cases hp : p = 0
    · subst hp
      rfl
    · rw [cieBody_eq hp, if_pos hp, length_append, length_append, length_leBytes]
      rfl
  have hfirst : (emitCie [] image.gxxPersonality).length % 8 = 0 :=
    length_emitRecord_mod [] (.cie image.gxxPersonality)
  rw [emitCies, emitCie, length_append, length_ehfRecord hfirst, hcies, ciesSize]
  split
  · rfl
  · rfl

theorem length_emitEntries (image : UnwindImage) (entries : List CuEntry) :
    (emitEntries image entries).length =
      ciesSize image + ((entryFdes image entries).map fdeSize).sum := by
  rw [emitEntries_eq, length_foldl_emitRecord, length_emitCies]
  exact length_emitRecord_mod (emitRecord [] (.cie image.gxxPersonality)) (.cie 0)

/-- Every write stays inside the buffer exactly where the CIEs, the FDEs of the entries and the
terminator fit the size it was given. -/
theorem write_position_iff (image : UnwindImage) (entries : List CuEntry) :
    (∀ written, written <+: emitEntries image entries ++ leBytes 4 0 →
        written.length ≤ ehfCapacity image entries) ↔
      ciesSize image + ((entryFdes image entries).map fdeSize).sum + 4 ≤
        entries.length * 128 + image.nativeSize + 4096 := by
  have htotal : (emitEntries image entries ++ leBytes 4 0).length =
      ciesSize image + ((entryFdes image entries).map fdeSize).sum + 4 := by
    rw [length_append, length_emitEntries, length_leBytes]
  rw [← htotal]
  constructor
  · intro h
    exact h _ (prefix_refl _)
  · intro h written hprefix
    exact hprefix.length_le.trans h

/-- One native FDE with 1600 bytes of instructions, for the functions at 0x1000 to 0x10ff. -/
def longSection : NativeSection :=
  { addr := 0x100008000, size := 1648
    bytes := fields [(4, 16), (4, 0), (1, 1), (1, 0x7a), (1, 0x52), (1, 0), (1, 4), (1, 0x78), (1, 30),
      (1, 1), (1, 0), (1, 0x0c), (1, 31), (1, 0),
      (4, 1621), (4, 24), (8, 0x100001000), (8, 0x100), (1, 0)] ++ List.replicate 1603 dwCfaNop
    deref := fun _ => 0 }

def fourInfo : UnwindInfo :=
  { bytes := fields [(4, 1), (4, 28), (4, 0), (4, 28), (4, 1), (4, 32), (4, 2),
      (4, 0x4000),
      (4, 0x1000), (4, 88), (4, 56), (4, 0x1100), (4, 0), (4, 88),
      (4, 0x1000), (4, 0x3000), (4, 0x1040), (4, 0x3010),
      (4, 0x1080), (4, 0x3020), (4, 0x10c0), (4, 0x3030),
      (4, 2), (2, 8), (2, 4), (4, 0x1000), (4, 0x53000000), (4, 0x1040), (4, 0x53000000),
      (4, 0x1080), (4, 0x53000000), (4, 0x10c0), (4, 0x53000000)]
    size := 128 }

def fourImage : UnwindImage :=
  { splitImage with info := fourInfo, natives := longSection.natives, nativeSize := longSection.size }

def fourEntries : List CuEntry :=
  [⟨0x1000, 0x40, 0x53000000, 0x3000⟩, ⟨0x1040, 0x40, 0x53000000, 0x3010⟩,
    ⟨0x1080, 0x40, 0x53000000, 0x3020⟩, ⟨0x10c0, 256, 0x53000000, 0x3030⟩]

theorem fourImage_overflow :
    collectEntries fourImage.info = some fourEntries ∧
      (longSection.parseNativeEhFrameFdes.map fun ns =>
        ns.map fun n => (n.initialLocation, n.addressRange, n.cfi.length)) =
        some [(0x100001000, 0x100, 1600)] ∧
      ehfCapacity fourImage fourEntries = 6256 ∧
      (emitEntries fourImage fourEntries ++ leBytes 4 0).length = 6620 := by
  refine ⟨by decide +kernel, by decide +kernel, rfl, ?_⟩
  rw [length_append, length_emitEntries]
  decide +kernel

end Machgate.FdeLayout
