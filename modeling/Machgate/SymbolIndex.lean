import Mathlib.Data.List.TakeWhile
import Machgate.BucketChains
import Machgate.RecordBuffer

namespace Machgate.SymbolIndex

open BucketChains RecordBuffer List Option BitVec Nat

def cString (bytes : List Octet) : List Octet :=
  bytes.takeWhile fun b => b ≠ 0#8

structure SegmentCommand64 where
  vmaddr : BitVec 64
  fileoff : BitVec 64
  filesize : BitVec 64

structure SymtabCommand where
  symoff : BitVec 32
  nsyms : BitVec 32
  stroff : BitVec 32
  strsize : BitVec 32

inductive SymbolCommand
  | segment64 (seg : SegmentCommand64)
  | symtab (cmd : SymtabCommand)
  | other

structure LoadCommand where
  cmdsize : BitVec 32
  body : SymbolCommand

structure Nlist64 where
  nStrx : BitVec 32
  nType : BitVec 8
  nSect : BitVec 8
  nDesc : BitVec 16
  nValue : BitVec 64
  deriving DecidableEq

structure MachoSymbolResult where
  addr : BitVec 64
  type : BitVec 8
  desc : BitVec 16
  sect : BitVec 8
  deriving DecidableEq

/-- The entries and the string table at the addresses the load commands give; the string table
goes on behind `strsize` with the bytes mapped there. -/
structure SymbolTable where
  syms : List Nlist64
  strtab : List Octet
  strsize : BitVec 32
  nsyms_lt : syms.length < 2 ^ 32

structure Image where
  sizeofcmds : BitVec 32
  cmds : List LoadCommand
  slide : BitVec 64
  tableAt : (syms strtab : BitVec 64) → SymtabCommand → SymbolTable

/-- The commands a scan of the header reaches. -/
def scannedCommands (sizeofcmds : BitVec 32) : BitVec 32 → List LoadCommand → List SymbolCommand
  | _, [] => []
  | p, lc :: rest =>
    if p < sizeofcmds then lc.body :: scannedCommands sizeofcmds (p + lc.cmdsize) rest else []

def findSymtab (cmds : List SymbolCommand) : Option SymtabCommand :=
  cmds.foldl (fun found lc => match lc with
    | .symtab cmd => some cmd
    | _ => found) none

def locateTables (symtab : SymtabCommand) (slide : BitVec 64) (cmds : List SymbolCommand) :
    BitVec 64 × BitVec 64 :=
  cmds.foldl (fun found lc => match lc with
    | .segment64 seg =>
      if seg.fileoff ≤ symtab.symoff.setWidth 64 ∧
          symtab.symoff.setWidth 64 < seg.fileoff + seg.filesize then
        let base := seg.vmaddr + slide
        (base + (symtab.symoff.setWidth 64 - seg.fileoff),
          base + (symtab.stroff.setWidth 64 - seg.fileoff))
      else found
    | _ => found) (0, 0)

def symbolTable (image : Image) : Option SymbolTable :=
  let cmds := scannedCommands image.sizeofcmds 0 image.cmds
  match findSymtab cmds with
  | none => none
  | some symtab =>
    let found := locateTables symtab image.slide cmds
    if found.1 = 0 ∨ found.2 = 0 then none else some (image.tableAt found.1 found.2 symtab)

namespace SymbolTable

variable (t : SymbolTable) (nl : Nlist64)

def symName : List Octet :=
  cString (t.strtab.drop nl.nStrx.toNat)

end SymbolTable

def nStab : BitVec 8 := 0xe0
def nType : BitVec 8 := 0x0e
def nSect : BitVec 8 := 0x0e

/-- The entries the scan compares with the name. -/
def Scanned (t : SymbolTable) (nl : Nlist64) : Prop :=
  nl.nType &&& nStab = 0 ∧ nl.nType &&& nType = nSect ∧ nl.nStrx < t.strsize

def Indexed (t : SymbolTable) (nl : Nlist64) : Prop :=
  nl.nType &&& nStab = 0 ∧ nl.nType &&& nType = nSect ∧
    (nl.nStrx ≠ 0 ∧ nl.nStrx < t.strsize) ∧ t.symName nl ≠ []

instance (t : SymbolTable) (nl : Nlist64) : Decidable (Scanned t nl) :=
  inferInstanceAs (Decidable (_ ∧ _))

instance (t : SymbolTable) (nl : Nlist64) : Decidable (Indexed t nl) :=
  inferInstanceAs (Decidable (_ ∧ _))

theorem Indexed.scanned {t : SymbolTable} {nl : Nlist64} (h : Indexed t nl) : Scanned t nl :=
  ⟨h.1, h.2.1, h.2.2.1.2⟩

def machoNameHash (name : List Octet) : BitVec 32 :=
  ((cString name).foldl
    (fun hash b => (hash ^^^ b.setWidth 64) * 1099511628211#64) 1469598103934665603#64).setWidth 32
    &&& 262143#32

def int32 (i : Nat) : Int :=
  (BitVec.ofNat 32 i).toInt

abbrev MachoSymIndex := Chains (BitVec 32)

def machoSymIndexBuild (t : SymbolTable) (garbage : Nat → Int) : MachoSymIndex :=
  t.syms.zipIdx.foldl (fun index e =>
    if Indexed t e.1 then push int32 index (machoNameHash (t.symName e.1), e.2) else index)
    (empty garbage)

def symbolResult (slide : BitVec 64) (nl : Nlist64) : MachoSymbolResult :=
  { addr := nl.nValue + slide, type := nl.nType, desc := nl.nDesc, sect := nl.nSect }

def indexLookup (t : SymbolTable) (index : MachoSymIndex) (name : List Octet) : Option Nlist64 :=
  (search index
    (fun i => (t.syms[i]?.map t.symName) = some (cString name)) (t.syms.length + 1)
    (index.head (machoNameHash name))).bind fun i => t.syms[i]?

def scanLookup (t : SymbolTable) (name : List Octet) : Option Nlist64 :=
  t.syms.find? fun nl => Scanned t nl ∧ t.symName nl = cString name

/-- `index` is the memory `malloc` gave for the links, if it gave any. -/
def lookupMachoSymbolResult (image : Image) (index : Option (Nat → Int)) (name : List Octet) :
    Option MachoSymbolResult :=
  match symbolTable image with
  | none => none
  | some t =>
    match index with
    | some garbage =>
      (indexLookup t (machoSymIndexBuild t garbage) name).map (symbolResult image.slide)
    | none => (scanLookup t name).map (symbolResult image.slide)

variable {t : SymbolTable} {name : List Octet} {garbage : Nat → Int} {i : Nat}

theorem int32_of_lt (h : i < 2 ^ 31) : int32 i = i := by
  rw [int32, toInt_eq_toNat_cond, toNat_ofNat]
  have hmod : i % 2 ^ 32 = i := mod_eq_of_lt (by omega)
  rw [hmod, if_pos (by omega)]

theorem int32_nonneg_iff (h : i < 2 ^ 32) : 0 ≤ int32 i ↔ i < 2 ^ 31 := by
  constructor
  · intro hnonneg
    by_contra hge
    rw [int32, toInt_eq_toNat_cond, toNat_ofNat, mod_eq_of_lt h, if_neg (by omega)] at hnonneg
    omega
  · intro hlt
    rw [int32_of_lt hlt]
    omega

def indexEntries (t : SymbolTable) : List (BitVec 32 × Nat) :=
  t.syms.zipIdx.filterMap fun e =>
    if Indexed t e.1 then some (machoNameHash (t.symName e.1), e.2) else none

theorem machoSymIndexBuild_eq (t : SymbolTable) (garbage : Nat → Int) :
    machoSymIndexBuild t garbage = build int32 garbage (indexEntries t) := by
  rw [machoSymIndexBuild, build, indexEntries, foldl_filterMap]
  congr 1
  funext index e
  by_cases h : Indexed t e.1
  · simp only [h, if_true]
  · simp only [h, if_false]

theorem mem_indexEntries {e : BitVec 32 × Nat} :
    e ∈ indexEntries t ↔
      ∃ nl, t.syms[e.2]? = some nl ∧ Indexed t nl ∧ machoNameHash (t.symName nl) = e.1 := by
  simp only [indexEntries, mem_filterMap, mem_zipIdx_iff_getElem?]
  constructor
  · rintro ⟨⟨nl, i⟩, hget, hsome⟩
    split at hsome
    · next hindexed =>
      cases hsome
      exact ⟨nl, hget, hindexed, rfl⟩
    · cases hsome
  · rintro ⟨nl, hget, hindexed, hhash⟩
    refine ⟨(nl, e.2), hget, ?_⟩
    rw [if_pos hindexed, hhash]

theorem pairwise_indexEntries (t : SymbolTable) :
    (indexEntries t).Pairwise fun d e => d.2 < e.2 := by
  have hzip : t.syms.zipIdx.Pairwise fun d e => d.2 < e.2 := by
    rw [← pairwise_map (f := Prod.snd), zipIdx_map_snd]
    exact pairwise_lt_range'
  apply hzip.filterMap
  rintro d d' hlt e he e' he'
  split at he
  · split at he'
    · cases he
      cases he'
      exact hlt
    · cases he'
  · cases he

theorem lt_of_mem_indexEntries {e : BitVec 32 × Nat}
    (h : e ∈ indexEntries t) : e.2 < t.syms.length := by
  obtain ⟨nl, hget, -⟩ := mem_indexEntries.mp h
  exact (List.getElem?_eq_some_iff.mp hget).1

/-- The positions of the indexed entries of one bucket, in the order the lookup visits them. -/
def bucketOf (t : SymbolTable) (name : List Octet) : List Nat :=
  positions (indexEntries t) (machoNameHash name)

theorem mem_bucketOf :
    i ∈ bucketOf t name ↔
      ∃ nl, t.syms[i]? = some nl ∧ Indexed t nl ∧
        machoNameHash (t.symName nl) = machoNameHash name :=
  mem_positions.trans mem_indexEntries

theorem pairwise_bucketOf (t : SymbolTable) (name : List Octet) :
    (bucketOf t name).Pairwise fun i j => j < i :=
  pairwise_positions (pairwise_indexEntries t) _

theorem length_bucketOf_le (t : SymbolTable) (name : List Octet) :
    (bucketOf t name).length ≤ t.syms.length := by
  rw [bucketOf, positions, length_reverse, length_map]
  calc ((indexEntries t).filter _).length
      ≤ (indexEntries t).length := length_filter_le ..
    _ ≤ t.syms.zipIdx.length := length_filterMap_le ..
    _ = t.syms.length := length_zipIdx

/-- Every indexed entry of the name's bucket stands at a position `int32_t` can hold. -/
def Addressable (t : SymbolTable) (name : List Octet) : Prop :=
  ∀ i nl, t.syms[i]? = some nl → Indexed t nl →
    machoNameHash (t.symName nl) = machoNameHash name → i < 2 ^ 31

theorem mem_bucketOf_lt (h : i ∈ bucketOf t name) : i < 2 ^ 32 :=
  (lt_of_mem_indexEntries (mem_positions.mp h)).trans t.nsyms_lt

theorem takeWhile_bucketOf_of_addressable (h : Addressable t name) :
    ((bucketOf t name).takeWhile fun i => 0 ≤ int32 i) = bucketOf t name := by
  rw [takeWhile_eq_self_iff]
  intro i hi
  obtain ⟨nl, hget, hindexed, hhash⟩ := mem_bucketOf.mp hi
  exact decide_eq_true ((int32_nonneg_iff (mem_bucketOf_lt hi)).mpr (h i nl hget hindexed hhash))

-- the newest entry of the bucket is its highest position, so one position too high hides them all
theorem takeWhile_bucketOf_of_not_addressable (h : ¬ Addressable t name) :
    ((bucketOf t name).takeWhile fun i => 0 ≤ int32 i) = [] := by
  obtain ⟨i, hi, hhigh⟩ : ∃ i ∈ bucketOf t name, ¬ i < 2 ^ 31 := by
    by_contra hall
    push Not at hall
    exact h fun i nl hget hindexed hhash => hall i (mem_bucketOf.mpr ⟨nl, hget, hindexed, hhash⟩)
  have horder := pairwise_bucketOf t name
  have hbound := @mem_bucketOf_lt t name
  generalize bucketOf t name = l at hi horder hbound
  rcases l with _ | ⟨j, l⟩
  · rfl
  · have hj : i ≤ j := by
      rcases mem_cons.mp hi with rfl | hi
      · exact Nat.le_refl _
      · exact Nat.le_of_lt (rel_of_pairwise_cons horder hi)
    apply takeWhile_cons_of_neg
    rw [decide_eq_true_eq, int32_nonneg_iff (hbound mem_cons_self)]
    omega

theorem search_index (t : SymbolTable) (garbage : Nat → Int) (name : List Octet)
    (p : Nat → Bool) :
    search (machoSymIndexBuild t garbage) p (t.syms.length + 1)
        ((machoSymIndexBuild t garbage).head (machoNameHash name)) =
      ((bucketOf t name).takeWhile fun i => 0 ≤ int32 i).find? p := by
  rw [machoSymIndexBuild_eq]
  apply search_of_follows
  · apply follows_build (pairwise_indexEntries t)
    intro e he hnonneg
    have hlt := (lt_of_mem_indexEntries he).trans t.nsyms_lt
    exact int32_of_lt ((int32_nonneg_iff hlt).mp hnonneg)
  · calc ((bucketOf t name).takeWhile fun i => 0 ≤ int32 i).length
        ≤ (bucketOf t name).length := (takeWhile_sublist _).length_le
      _ ≤ t.syms.length := length_bucketOf_le t name
      _ < t.syms.length + 1 := lt_succ_self _

@[simp]
theorem cString_cString (name : List Octet) : cString (cString name) = cString name :=
  takeWhile_idem

theorem machoNameHash_cString (name : List Octet) :
    machoNameHash (cString name) = machoNameHash name := by
  rw [machoNameHash, machoNameHash, cString_cString]

def FirstAt (t : SymbolTable) (p : Nlist64 → Prop) (i : Nat) (nl : Nlist64) : Prop :=
  t.syms[i]? = some nl ∧ p nl ∧ ∀ k e, k < i → t.syms[k]? = some e → ¬ p e

def LastAt (t : SymbolTable) (p : Nlist64 → Prop) (j : Nat) (nl : Nlist64) : Prop :=
  t.syms[j]? = some nl ∧ p nl ∧ ∀ k e, j < k → t.syms[k]? = some e → ¬ p e

theorem scanLookup_eq_some_iff {nl : Nlist64} :
    scanLookup t name = some nl ↔
      ∃ i, FirstAt t (fun e => Scanned t e ∧ t.symName e = cString name) i nl := by
  rw [scanLookup, find?_eq_some_iff_getElem]
  constructor
  · rintro ⟨hp, i, hi, rfl, hbefore⟩
    refine ⟨i, List.getElem?_eq_getElem hi, of_decide_eq_true hp, fun k e hk he => ?_⟩
    obtain ⟨hlt, rfl⟩ := List.getElem?_eq_some_iff.mp he
    simpa only [Bool.not_eq_true', decide_eq_false_iff_not] using hbefore k hk
  · rintro ⟨i, hget, hp, hbefore⟩
    obtain ⟨hi, rfl⟩ := List.getElem?_eq_some_iff.mp hget
    refine ⟨decide_eq_true hp, i, hi, rfl, fun k hk => ?_⟩
    simpa only [Bool.not_eq_true', decide_eq_false_iff_not] using
      hbefore k _ hk (List.getElem?_eq_getElem (hk.trans hi))

/-- The index returns the last one it holds, and nothing where the bucket's newest position does
not fit `int32_t`. -/
theorem indexLookup_eq_some_iff {nl : Nlist64} :
    indexLookup t (machoSymIndexBuild t garbage) name = some nl ↔
      Addressable t name ∧
        ∃ j, LastAt t (fun e => Indexed t e ∧ t.symName e = cString name) j nl := by
  have hbucket : ∀ {k e}, t.syms[k]? = some e → Indexed t e → t.symName e = cString name →
      k ∈ bucketOf t name := by
    intro k e hget hindexed hname
    exact mem_bucketOf.mpr ⟨e, hget, hindexed, by rw [hname, machoNameHash_cString]⟩
  rw [indexLookup, search_index, bind_eq_some_iff]
  by_cases haddr : Addressable t name
  · rw [takeWhile_bucketOf_of_addressable haddr]
    simp only [haddr, true_and]
    constructor
    · rintro ⟨j, hfind, hget⟩
      rw [find_eq_some_iff_of_pairwise_gt (pairwise_bucketOf t name)] at hfind
      obtain ⟨hmem, hname, hafter⟩ := hfind
      obtain ⟨e, hget', hindexed, -⟩ := mem_bucketOf.mp hmem
      obtain rfl : e = nl := some.inj (hget'.symm.trans hget)
      refine ⟨j, hget, ⟨hindexed, by simpa [hget] using hname⟩, ?_⟩
      rintro k d hjk hd ⟨hdindexed, hdname⟩
      have := hafter k (hbucket hd hdindexed hdname) hjk
      simp [hd, hdname] at this
    · rintro ⟨j, hget, ⟨hindexed, hname⟩, hafter⟩
      refine ⟨j, ?_, hget⟩
      rw [find_eq_some_iff_of_pairwise_gt (pairwise_bucketOf t name)]
      refine ⟨hbucket hget hindexed hname, by simp [hget, hname], fun k hk hjk => ?_⟩
      obtain ⟨e, he, heindexed, -⟩ := mem_bucketOf.mp hk
      have := hafter k e hjk he
      simpa [he, heindexed] using this
  · simp [takeWhile_bucketOf_of_not_addressable haddr, haddr]

/-- No entry the scan compares bears the name, or the first of them and the last one the index
holds have one value. -/
def BindsAlike (t : SymbolTable) (name : List Octet) : Prop :=
  (∀ nl ∈ t.syms, Scanned t nl → t.symName nl ≠ cString name) ∨
    Addressable t name ∧ ∃ i j first last,
      FirstAt t (fun e => Scanned t e ∧ t.symName e = cString name) i first ∧
      LastAt t (fun e => Indexed t e ∧ t.symName e = cString name) j last ∧
      first.nValue = last.nValue

theorem scanLookup_eq_none_iff :
    scanLookup t name = none ↔ ∀ nl ∈ t.syms, Scanned t nl → t.symName nl ≠ cString name := by
  simp [scanLookup, find?_eq_none]

theorem indexLookup_eq_none_of_scanLookup (h : scanLookup t name = none) :
    indexLookup t (machoSymIndexBuild t garbage) name = none := by
  rw [scanLookup_eq_none_iff] at h
  rw [eq_none_iff_forall_not_mem]
  intro nl hnl
  obtain ⟨-, j, hget, ⟨hindexed, hname⟩, -⟩ := indexLookup_eq_some_iff.mp hnl
  exact h nl (mem_of_getElem? hget) hindexed.scanned hname

theorem bindsAlike_iff :
    (indexLookup t (machoSymIndexBuild t garbage) name).map Nlist64.nValue =
      (scanLookup t name).map Nlist64.nValue ↔ BindsAlike t name := by
  constructor
  · intro h
    rcases hscan : scanLookup t name with _ | first
    · exact .inl (scanLookup_eq_none_iff.mp hscan)
    · rw [hscan] at h
      obtain ⟨last, hindex, hvalue⟩ := map_eq_some_iff.mp h
      obtain ⟨haddr, j, hlast⟩ := indexLookup_eq_some_iff.mp hindex
      obtain ⟨i, hfirst⟩ := scanLookup_eq_some_iff.mp hscan
      exact .inr ⟨haddr, i, j, first, last, hfirst, hlast, hvalue.symm⟩
  · rintro (hnone | ⟨haddr, i, j, first, last, hfirst, hlast, hvalue⟩)
    · have hscan := scanLookup_eq_none_iff.mpr hnone
      rw [hscan, indexLookup_eq_none_of_scanLookup hscan]
    · rw [scanLookup_eq_some_iff.mpr ⟨i, hfirst⟩, indexLookup_eq_some_iff.mpr ⟨haddr, j, hlast⟩]
      exact congrArg some hvalue.symm

theorem map_addr_eq_iff (slide : BitVec 64) (a b : Option Nlist64) :
    (a.map (symbolResult slide)).map MachoSymbolResult.addr =
        (b.map (symbolResult slide)).map MachoSymbolResult.addr ↔
      a.map Nlist64.nValue = b.map Nlist64.nValue := by
  rcases a with _ | a
  · rcases b with _ | b
    · simp
    · simp
  · rcases b with _ | b
    · simp
    · simp [symbolResult]

/-- Whether an index could be built does not change the address of a name exactly where the
symbol table binds it alike. -/
theorem index_lookup_eq_scan_iff (image : Image) (garbage : Nat → Int) (name : List Octet) :
    (lookupMachoSymbolResult image (some garbage) name).map MachoSymbolResult.addr =
        (lookupMachoSymbolResult image none name).map MachoSymbolResult.addr ↔
      ∀ t, symbolTable image = some t → BindsAlike t name := by
  rcases htable : symbolTable image with _ | t
  · simp [lookupMachoSymbolResult, htable]
  · simp only [lookupMachoSymbolResult, htable, map_addr_eq_iff, bindsAlike_iff]
    constructor
    · rintro h _ ⟨⟩
      exact h
    · intro h
      exact h t rfl

def localTwins : Image :=
  { sizeofcmds := 96
    cmds := [⟨72, .segment64 ⟨0x100000000, 0, 0x4000⟩⟩, ⟨24, .symtab ⟨0x2000, 2, 0x2020, 4⟩⟩]
    slide := 0
    tableAt := fun _ _ _ =>
      { syms := [⟨1, 0x0e, 1, 0, 0x100001000⟩, ⟨1, 0x0e, 1, 0, 0x100002000⟩]
        strtab := [0, 0x5f, 0x66, 0]
        strsize := 4
        nsyms_lt := by decide } }

theorem localTwins_lookups_differ :
    (lookupMachoSymbolResult localTwins (some fun _ => 0) [0x5f, 0x66, 0]).map
        MachoSymbolResult.addr = some 0x100002000 ∧
      (lookupMachoSymbolResult localTwins none [0x5f, 0x66, 0]).map
        MachoSymbolResult.addr = some 0x100001000 := by
  decide +kernel

end Machgate.SymbolIndex
