import Machgate.UnwindEntries

namespace Machgate.UnwindCollection

open RecordBuffer UnwindEntries List BitVec Function Nat

section

variable (info : UnwindInfo)

def pageTotal (idx : Nat) : Nat :=
  let page := (info.secondLevelPage idx).toNat
  if page = 0 ∨ info.size ≤ page then 0
  else if info.word page = unwindSecondLevelCompressed then (info.half (page + 6)).toNat
  else if info.word page = unwindSecondLevelRegular then (info.half (page + 6)).toNat
  else 0

def total : BitVec 32 :=
  (List.range (info.indexCount.toNat - 1)).foldl
    (fun total idx => total + BitVec.ofNat 32 (pageTotal info idx)) 0

/-- The loop over a page in the second pass, which stops when the array is full. -/
def fillPage (total : BitVec 32) (entries page : List CuEntry) : List CuEntry :=
  page.foldl (fun entries e => if (entries.length : Int) < total.toInt then entries ++ [e] else entries)
    entries

/-- `collect_entries` with its two passes; `callocs` tells whether the array can be had. -/
def collectPasses (callocs : Bool) : Option (List CuEntry) :=
  if info.version ≠ 1 then none
  else if total info = 0 then some []
  else if callocs = false then none
  else
    let entries := (List.range (info.indexCount.toNat - 1)).foldl
      (fun entries idx => fillPage (total info) entries (info.pageEntries idx)) []
    some (setSizes (entries.foldl insertEntry []))

end

section

variable (info : UnwindInfo)

def hasPage (idx : Nat) : Prop := info.secondLevelPage idx ≠ 0

instance (idx : Nat) : Decidable (hasPage info idx) := inferInstanceAs (Decidable (¬ _))

def entryCount (idx : Nat) : Nat := (info.half ((info.secondLevelPage idx).toNat + 6)).toNat

/-- The second-level entries, by the number of their index entry and their place in its page. -/
def secondLevel : List (Nat × Nat) :=
  (List.range (info.indexCount.toNat - 1)).flatMap fun idx =>
    if hasPage info idx then (List.range (entryCount info idx)).map (Prod.mk idx) else []

/-- The encodings that a compressed page can refer to: the common ones and then its own. -/
def palette (page : Nat) : List (BitVec 32) :=
  (List.range info.commonEncodingsArrayCount.toNat).map
      (fun i => info.word (info.commonEncodingsArraySectionOffset.toNat + 4 * i)) ++
    (List.range (info.half (page + 10)).toNat).map
      (fun i => info.word (page + (info.half (page + 8)).toNat + 4 * i))

/-- The function offset and the encoding of an entry, by the kind of its page. -/
def described (idx i : Nat) : BitVec 32 × BitVec 32 :=
  let page := (info.secondLevelPage idx).toNat
  let start := page + (info.half (page + 4)).toNat
  if info.word page = unwindSecondLevelRegular then
    (info.word (start + 8 * i), info.word (start + 8 * i + 4))
  else
    let entry := info.word (start + 4 * i)
    (info.functionOffset idx + (entry &&& 0x00FFFFFF), (palette info page).getD (entry >>> 24).toNat 0)

def lsdaCount (idx : Nat) : Nat :=
  ((info.lsdaIndexArray (idx + 1)).toNat - (info.lsdaIndexArray idx).toNat) / 8

def lsdaFunction (idx m : Nat) : BitVec 32 := info.word ((info.lsdaIndexArray idx).toNat + 8 * m)

def lsdaOf (idx m : Nat) : BitVec 32 := info.word ((info.lsdaIndexArray idx).toNat + 8 * m + 4)

/-- The first LSDA of the function in the range of the index entry, 0 if it has none. -/
def linearSearch (idx : Nat) (funcOffset : BitVec 32) : BitVec 32 :=
  (((List.range (lsdaCount info idx)).find? fun m => lsdaFunction info idx m = funcOffset).map
    (lsdaOf info idx)).getD 0

/-- What there is to know of a function but for its size. -/
structure Record where
  funcOffset : BitVec 32
  encoding : BitVec 32
  lsdaOffset : BitVec 32
  deriving DecidableEq

def recordOf (e : CuEntry) : Record := ⟨e.funcOffset, e.encoding, e.lsdaOffset⟩

def denoted (entry : Nat × Nat) : Record :=
  let d := described info entry.1 entry.2
  ⟨d.1, d.2, if d.2 &&& unwindHasLsda ≠ 0 then linearSearch info entry.1 d.1 else 0⟩

/-- A section as the linker writes it.  A function has one LSDA, and 32-bit offsets leave no room
for `2 ^ 31` entries. -/
structure WellFormed : Prop where
  version : info.version = 1
  few : (secondLevel info).length < 2 ^ 31
  inside : ∀ idx < info.indexCount.toNat - 1, hasPage info idx →
    (info.secondLevelPage idx).toNat < info.size
  kind : ∀ idx < info.indexCount.toNat - 1, hasPage info idx →
    info.word (info.secondLevelPage idx).toNat = unwindSecondLevelCompressed ∨
      info.word (info.secondLevelPage idx).toNat = unwindSecondLevelRegular
  ranges : ∀ idx < info.indexCount.toNat - 1,
    (info.lsdaIndexArray idx).toNat ≤ (info.lsdaIndexArray (idx + 1)).toNat
  sorted : ∀ idx < info.indexCount.toNat - 1, ∀ i j, i ≤ j → j < lsdaCount info idx →
    lsdaFunction info idx i ≤ lsdaFunction info idx j
  single : ∀ idx < info.indexCount.toNat - 1, ∀ i < lsdaCount info idx, ∀ j < lsdaCount info idx,
    lsdaFunction info idx i = lsdaFunction info idx j → lsdaOf info idx i = lsdaOf info idx j

end

section

variable {info : UnwindInfo} {idx : Nat} {funcOffset : BitVec 32}

theorem lsdaSearch_of_absent {fuel : Nat} {lo hi : Int} (hlo : 0 ≤ lo)
    (h : ∀ m : Nat, lo ≤ m → m ≤ hi → lsdaFunction info idx m ≠ funcOffset) :
    info.lsdaSearch (info.lsdaIndexArray idx).toNat funcOffset fuel lo hi = 0 := by
  induction fuel generalizing lo hi with
  | zero => rfl
  | succ fuel ih =>
    rw [UnwindInfo.lsdaSearch]
    split
    · have hne := h ((lo + hi) / 2).toNat (by omega) (by omega)
      rw [lsdaFunction] at hne
      rw [if_neg hne]
      split
      · exact ih (by omega) fun m hm => h m (by omega)
      · exact ih hlo fun m hm hm' => h m hm (by omega)
    · rfl

theorem lsdaSearch_of_mem
    (hsorted : ∀ i j, i ≤ j → j < lsdaCount info idx →
      lsdaFunction info idx i ≤ lsdaFunction info idx j)
    (hsingle : ∀ i < lsdaCount info idx, ∀ j < lsdaCount info idx,
      lsdaFunction info idx i = lsdaFunction info idx j → lsdaOf info idx i = lsdaOf info idx j)
    {m : Nat} (hm : lsdaFunction info idx m = funcOffset) {fuel : Nat} {lo hi : Int} (hlo : 0 ≤ lo)
    (hlow : lo ≤ m) (hhigh : m ≤ hi) (hcount : hi < lsdaCount info idx) (hfuel : hi - lo < fuel) :
    info.lsdaSearch (info.lsdaIndexArray idx).toNat funcOffset fuel lo hi = lsdaOf info idx m := by
  induction fuel generalizing lo hi with
  | zero => omega
  | succ fuel ih =>
    rw [UnwindInfo.lsdaSearch, if_pos (by omega)]
    dsimp only
    split
    · next heq => exact hsingle _ (by omega) m (by omega) (heq.trans hm.symm)
    · next hne =>
      split
      · next hlt =>
        have hafter : ((lo + hi) / 2).toNat < m := by
          by_contra hle
          have hge := hsorted m ((lo + hi) / 2).toNat (by omega) (by omega)
          rw [hm] at hge
          exact absurd hlt (BitVec.not_lt.mpr hge)
        exact ih (by omega) (by omega) hhigh hcount (by omega)
      · next hnlt =>
        have hbefore : m < ((lo + hi) / 2).toNat := by
          by_contra hle
          have hge := hsorted ((lo + hi) / 2).toNat m (by omega) (by omega)
          rw [hm] at hge
          exact hne (BitVec.le_antisymm hge (BitVec.not_lt.mp hnlt))
        exact ih hlo hlow (by omega) (by omega) (by omega)

theorem lsdaOffset_eq_linearSearch (h : WellFormed info) (hidx : idx < info.indexCount.toNat - 1)
    {encoding : BitVec 32} :
    info.lsdaOffset idx funcOffset encoding =
      if encoding &&& unwindHasLsda ≠ 0 then linearSearch info idx funcOffset else 0 := by
  have hcount : (info.lsdaIndexArray (idx + 1) - info.lsdaIndexArray idx).toNat / 8 =
      lsdaCount info idx := by
    rw [toNat_sub_of_le (le_def.mpr (h.ranges idx hidx)), lsdaCount]
  rw [UnwindInfo.lsdaOffset]
  congr 1
  rw [linearSearch]
  cases hfind : (range (lsdaCount info idx)).find? fun m =>
      lsdaFunction info idx m = funcOffset with
  | none =>
    rw [find?_eq_none] at hfind
    refine lsdaSearch_of_absent (le_refl 0) fun m _ hm => ?_
    simpa using hfind m (mem_range.mpr (by omega))
  | some m =>
    have hfound := find?_some hfind
    have hm := mem_range.mp (mem_of_find?_eq_some hfind)
    exact lsdaSearch_of_mem (h.sorted idx hidx) (h.single idx hidx) (by simpa using hfound)
      (le_refl 0) (by omega) (by omega) (by omega) (by omega)

end

section

variable {info : UnwindInfo} {idx i : Nat}

theorem toNat_shiftRight_lt (entry : BitVec 32) : (entry >>> 24).toNat < 256 := by
  rw [toNat_ushiftRight, shiftRight_eq_div_pow]
  omega

theorem shiftRight_and (entry : BitVec 32) : (entry >>> 24) &&& (0xFF : BitVec 32) = entry >>> 24 := by
  have hlt := toNat_shiftRight_lt entry
  apply eq_of_toNat_eq
  exact (and_two_pow_sub_one_eq_mod _ 8).trans (mod_eq_of_lt hlt)

theorem compressedEncoding_eq_palette (page : Nat) (enc : BitVec 32) :
    info.compressedEncoding page enc = (palette info page).getD enc.toNat 0 := by
  rw [UnwindInfo.compressedEncoding, palette, getD_eq_getElem?_getD, getElem?_append]
  simp only [length_map, length_range, lt_def]
  split
  · next hcommon => simp [hcommon]
  · have hsub : (enc - info.commonEncodingsArrayCount).toNat =
        enc.toNat - info.commonEncodingsArrayCount.toNat :=
      toNat_sub_of_le (le_def.mpr (by omega))
    have hwidth : ((info.half (page + 10)).setWidth 32).toNat = (info.half (page + 10)).toNat := by
      rw [toNat_setWidth]
      omega
    rw [hsub, hwidth]
    split
    · next hlocal => simp [hlocal]
    · next hlocal => simp [hlocal]

theorem recordOf_cuEntry (h : WellFormed info) (hidx : idx < info.indexCount.toNat - 1)
    (funcOffset encoding : BitVec 32) :
    recordOf (info.cuEntry idx funcOffset encoding) =
      ⟨funcOffset, encoding,
        if encoding &&& unwindHasLsda ≠ 0 then linearSearch info idx funcOffset else 0⟩ := by
  rw [← lsdaOffset_eq_linearSearch h hidx]
  rfl

/-- A page gives its entries as the format describes them. -/
theorem map_recordOf_pageEntries (h : WellFormed info) (hidx : idx < info.indexCount.toNat - 1) :
    (info.pageEntries idx).map recordOf =
      (if hasPage info idx then (range (entryCount info idx)).map (Prod.mk idx) else []).map
        (denoted info) := by
  rw [UnwindInfo.pageEntries]
  cases Decidable.em (hasPage info idx) with
  | inr hnone =>
    have hzero : (info.secondLevelPage idx).toNat = 0 := by
      rw [not_not.mp hnone]
      rfl
    rw [if_pos (.inl hzero), if_neg hnone]
    rfl
  | inl hpage =>
    have hinside := h.inside idx hidx hpage
    have hnonzero : (info.secondLevelPage idx).toNat ≠ 0 := fun hzero =>
      hpage (eq_of_toNat_eq hzero)
    rw [if_neg (by omega), if_pos hpage, map_map]
    rcases h.kind idx hidx hpage with hkind | hkind
    · rw [if_pos hkind, map_map]
      refine map_congr_left fun i _ => ?_
      have hregular : info.word (info.secondLevelPage idx).toNat ≠ unwindSecondLevelRegular := by
        rw [hkind]
        decide
      simp only [comp_apply, UnwindInfo.compressedEntry, recordOf_cuEntry h hidx,
        compressedEncoding_eq_palette, shiftRight_and, denoted, described, if_neg hregular]
    · have hcompressed : info.word (info.secondLevelPage idx).toNat ≠
          unwindSecondLevelCompressed := by
        rw [hkind]
        decide
      rw [if_neg hcompressed, if_pos hkind, map_map]
      refine map_congr_left fun i _ => ?_
      simp only [comp_apply, UnwindInfo.regularEntry, recordOf_cuEntry h hidx, denoted,
        described, if_pos hkind]

theorem map_recordOf_flatMap (h : WellFormed info) :
    ((range (info.indexCount.toNat - 1)).flatMap info.pageEntries).map recordOf =
      (secondLevel info).map (denoted info) := by
  rw [map_flatMap, secondLevel, map_flatMap]
  exact flatMap_congr fun idx hidx => map_recordOf_pageEntries h (mem_range.mp hidx)

end

section

variable {info : UnwindInfo}

theorem pageTotal_eq (idx : Nat) : pageTotal info idx = (info.pageEntries idx).length := by
  rw [pageTotal, UnwindInfo.pageEntries]
  split
  · rfl
  · split
    · simp
    · split
      · simp
      · rfl

theorem total_eq :
    total info = BitVec.ofNat 32
      ((range (info.indexCount.toNat - 1)).flatMap info.pageEntries).length := by
  have hfold : ∀ (idxs : List Nat) (start : Nat),
      idxs.foldl (fun total idx => total + BitVec.ofNat 32 (pageTotal info idx))
          (BitVec.ofNat 32 start) =
        BitVec.ofNat 32 (start + (idxs.flatMap info.pageEntries).length) := by
    intro idxs
    induction idxs with
    | nil => exact fun start => rfl
    | cons idx idxs ih =>
      intro start
      rw [foldl_cons, ← ofNat_add, ih, pageTotal_eq, flatMap_cons, length_append, Nat.add_assoc]
  have hzero := hfold (range (info.indexCount.toNat - 1)) 0
  rwa [Nat.zero_add] at hzero

theorem fillPage_eq {total : BitVec 32} {entries page : List CuEntry}
    (h : ((entries.length + page.length : Nat) : Int) ≤ total.toInt) :
    fillPage total entries page = entries ++ page := by
  rw [fillPage]
  induction page generalizing entries with
  | nil => simp
  | cons e page ih =>
    rw [length_cons] at h
    rw [foldl_cons, if_pos (by omega), ih (by rw [length_append, length_singleton]; omega)]
    simp

theorem foldl_fillPage {total : BitVec 32} {idxs : List Nat} {entries : List CuEntry}
    (h : ((entries.length + (idxs.flatMap info.pageEntries).length : Nat) : Int) ≤ total.toInt) :
    idxs.foldl (fun entries idx => fillPage total entries (info.pageEntries idx)) entries =
      entries ++ idxs.flatMap info.pageEntries := by
  induction idxs generalizing entries with
  | nil => simp
  | cons idx idxs ih =>
    rw [flatMap_cons, length_append] at h
    rw [foldl_cons, fillPage_eq (by omega), ih (by rw [length_append]; omega),
      flatMap_cons, List.append_assoc]

/-- Both passes see the same entries, so that the count of the first is enough for the second. -/
theorem collectPasses_eq
    (hfew : ((range (info.indexCount.toNat - 1)).flatMap info.pageEntries).length < 2 ^ 31) :
    collectPasses info true = collectEntries info := by
  have hint : (total info).toInt =
      ((range (info.indexCount.toNat - 1)).flatMap info.pageEntries).length := by
    rw [total_eq, toInt_ofNat']
    exact Int.bmod_eq_of_le (by omega) (by omega)
  rw [collectPasses, collectEntries]
  split
  · rfl
  · split
    · next hzero =>
      rw [hzero] at hint
      have hnil : (range (info.indexCount.toNat - 1)).flatMap info.pageEntries = [] :=
        eq_nil_of_length_eq_zero (Int.natCast_eq_zero.mp (hint.symm.trans rfl))
      rw [hnil]
      rfl
    · rw [foldl_fillPage (by rw [hint]; simp)]
      rfl

end

theorem perm_insertEntry (sorted : List CuEntry) (tmp : CuEntry) :
    (insertEntry sorted tmp).Perm (tmp :: sorted) := by
  refine perm_middle.trans ?_
  rw [rdropWhile_append_rtakeWhile]

theorem perm_foldl_insertEntry (entries sorted : List CuEntry) :
    (entries.foldl insertEntry sorted).Perm (sorted ++ entries) := by
  induction entries generalizing sorted with
  | nil => simp
  | cons e entries ih =>
    refine (ih (insertEntry sorted e)).trans ?_
    refine ((perm_insertEntry sorted e).append_right entries).trans ?_
    exact perm_middle.symm

theorem map_recordOf_setSizes (entries : List CuEntry) :
    (setSizes entries).map recordOf = entries.map recordOf := by
  induction entries with
  | nil => rfl
  | cons e entries ih =>
    cases entries with
    | nil => rfl
    | cons f rest => exact congrArg (recordOf e :: ·) ih

theorem sorted_setSizes {entries : List CuEntry} (h : Sorted entries) : Sorted (setSizes entries) := by
  have hoffsets := map_funcOffset_setSizes entries
  rw [Sorted, ← pairwise_map (f := CuEntry.funcOffset) (R := fun a b => a.toNat ≤ b.toNat)] at h ⊢
  rwa [hoffsets]

def Adjoining : List CuEntry → Prop
  | e :: f :: rest =>
    e.funcOffset.toNat + e.funcSize.toNat = f.funcOffset.toNat ∧ Adjoining (f :: rest)
  | _ => True

theorem adjoining_setSizes {entries : List CuEntry} (h : Sorted entries) :
    Adjoining (setSizes entries) := by
  induction entries with
  | nil => trivial
  | cons e entries ih =>
    cases entries with
    | nil => trivial
    | cons f rest =>
      have hle := rel_of_pairwise_cons h mem_cons_self
      have hsize : (f.funcOffset - e.funcOffset).toNat =
          f.funcOffset.toNat - e.funcOffset.toNat :=
        toNat_sub_of_le (le_def.mpr hle)
      have hrest := ih (Pairwise.of_cons h)
      cases rest with
      | nil =>
        refine ⟨?_, trivial⟩
        change e.funcOffset.toNat + (f.funcOffset - e.funcOffset).toNat = f.funcOffset.toNat
        omega
      | cons g rest =>
        refine ⟨?_, hrest⟩
        change e.funcOffset.toNat + (f.funcOffset - e.funcOffset).toNat = f.funcOffset.toNat
        omega

/-- For a well-formed section: one record for each entry of the second level, in the order of the
functions, each of which extends to the next one. -/
theorem collectPasses_wellFormed {info : UnwindInfo} (h : WellFormed info) :
    ∃ entries, collectPasses info true = some entries ∧
      (entries.map recordOf).Perm ((secondLevel info).map (denoted info)) ∧
      Sorted entries ∧ Adjoining entries := by
  have hrecords := map_recordOf_flatMap h
  have hfew : ((range (info.indexCount.toNat - 1)).flatMap info.pageEntries).length < 2 ^ 31 := by
    rw [← length_map recordOf, hrecords, length_map]
    exact h.few
  generalize hpages : (range (info.indexCount.toNat - 1)).flatMap info.pageEntries = pages at *
  have hsorted : Sorted (pages.foldl insertEntry []) := sorted_foldl_insertEntry pages .nil
  refine ⟨setSizes (pages.foldl insertEntry []), ?_, ?_, sorted_setSizes hsorted,
    adjoining_setSizes hsorted⟩
  · rw [collectPasses_eq (by rw [hpages]; exact hfew), collectEntries, if_neg (not_not.mpr h.version)]
    rw [hpages]
  · rw [map_recordOf_setSizes, ← hrecords]
    exact (perm_foldl_insertEntry pages []).map recordOf

/-- A compressed page of two functions, the second of which has an LSDA, and a regular one. -/
def smallSection : UnwindInfo :=
  { bytes :=
      [1, 28, 1, 32, 0, 32, 3, 0x04000000].flatMap (leBytes 4) ++
        [0x1000, 76, 68, 0x1800, 100, 76, 0x2000, 0, 76].flatMap (leBytes 4) ++
        [0x1010, 0x3000].flatMap (leBytes 4) ++
        leBytes 4 3 ++ [12, 2, 20, 1].flatMap (leBytes 2) ++
        [0x00000000, 0x01000010, 0x44000000].flatMap (leBytes 4) ++
        leBytes 4 2 ++ [8, 1].flatMap (leBytes 2) ++ [0x1800, 0x02000000].flatMap (leBytes 4)
    size := 116 }

theorem wellFormed_smallSection : WellFormed smallSection where
  version := by decide
  few := by decide +kernel
  inside := by decide +kernel
  kind := by decide +kernel
  ranges := by decide +kernel
  sorted := by
    intro idx hidx i j hij hj
    have hcount : ∀ idx < smallSection.indexCount.toNat - 1, lsdaCount smallSection idx ≤ 1 := by
      decide +kernel
    have heq : i = j := by
      have := hcount idx hidx
      omega
    rw [heq]
    exact BitVec.le_refl _
  single := by decide +kernel

theorem collectPasses_smallSection :
    ∃ entries, collectPasses smallSection true = some entries ∧
      (entries.map recordOf).Perm
        [⟨0x1000, 0x04000000, 0⟩, ⟨0x1010, 0x44000000, 0x3000⟩, ⟨0x1800, 0x02000000, 0⟩] ∧
      Sorted entries ∧ Adjoining entries := by
  obtain ⟨entries, hentries, hperm, hrest⟩ := collectPasses_wellFormed wellFormed_smallSection
  refine ⟨entries, hentries, ?_, hrest⟩
  have hdenoted : (secondLevel smallSection).map (denoted smallSection) =
      [⟨0x1000, 0x04000000, 0⟩, ⟨0x1010, 0x44000000, 0x3000⟩, ⟨0x1800, 0x02000000, 0⟩] := by
    decide +kernel
  rwa [hdenoted] at hperm

end Machgate.UnwindCollection
