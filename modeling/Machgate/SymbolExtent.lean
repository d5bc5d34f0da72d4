import Machgate.SymbolIndex

namespace Machgate.SymbolExtent

open RecordBuffer SymbolIndex List Option

structure SymEntry where
  vmaddr : BitVec 64
  nStrx : BitVec 32
  nSect : BitVec 8
deriving DecidableEq

/-- An image with the end of each of its sections, in the order of the segment commands. -/
structure ExtentImage extends Image where
  ends : List (BitVec 64)

/-- What `qsort` promises for `sym_cmp`: symbols of one address come in any order. -/
structure QSort where
  sort : List SymEntry → List SymEntry
  perm : ∀ syms, (sort syms).Perm syms
  sorted : ∀ syms, (sort syms).Pairwise fun a b => a.vmaddr ≤ b.vmaddr

def collect (t : SymbolTable) : List SymEntry :=
  (t.syms.filter fun nl => Scanned t nl).map fun nl => ⟨nl.nValue, nl.nStrx, nl.nSect⟩

def sectionEnd (ends : List (BitVec 64)) (sect : BitVec 8) : BitVec 64 :=
  ((0 :: ends)[sect.toNat]?).getD 0

structure ExtentCache where
  mh : BitVec 64
  syms : List SymEntry
  table : SymbolTable
  ends : List (BitVec 64)

section

variable (qsort : QSort) (images : BitVec 64 → ExtentImage)

/-- The cache of an image, by the address of its header. -/
def freshCache (mh : BitVec 64) : Option ExtentCache :=
  (symbolTable (images mh).toImage).map fun t =>
    ⟨mh, qsort.sort (collect t), t, (images mh).ends⟩

def buildExtentCache (cache : Option ExtentCache) (mh : BitVec 64) : Option ExtentCache :=
  if cache.map (·.mh) = some mh then cache else freshCache qsort images mh

/-- The end of the symbol `e` with the entries behind it; an address 0 counts as none. -/
def extentEnd (ends : List (BitVec 64)) (e : SymEntry) (rest : List SymEntry) : BitVec 64 :=
  let next := ((rest.find? (·.nSect = e.nSect)).map (·.vmaddr)).getD 0
  if next = 0 then sectionEnd ends e.nSect else next

def findExtent (ends : List (BitVec 64)) (named : SymEntry → Bool) (syms : List SymEntry) :
    Option (BitVec 64 × BitVec 64) :=
  match syms.dropWhile fun e => !named e with
  | [] => none
  | e :: rest =>
    if extentEnd ends e rest ≤ e.vmaddr then none else some (e.vmaddr, extentEnd ends e rest)

def named (t : SymbolTable) (name : List Octet) (e : SymEntry) : Bool :=
  cString (t.strtab.drop e.nStrx.toNat) = cString name

def resolverSymbolExtent (cache : Option ExtentCache) (mh : BitVec 64) (name : List Octet) :
    Option (BitVec 64 × BitVec 64) × Option ExtentCache :=
  let cache := buildExtentCache qsort images cache mh
  (cache.bind fun c => (findExtent c.ends (named c.table name) c.syms).map fun extent =>
    (extent.1 + (images mh).slide, extent.2 + (images mh).slide), cache)

def cacheAfter (queries : List (BitVec 64 × List Octet)) : Option ExtentCache :=
  queries.foldl (fun cache q => (resolverSymbolExtent qsort images cache q.1 q.2).2) none

end

/-- `hi` is the least greater symbol address of the entry's section, or the section's end. -/
def IsBound (syms : List SymEntry) (ends : List (BitVec 64)) (e : SymEntry) (hi : BitVec 64) :
    Prop :=
  (∃ d ∈ syms, d.nSect = e.nSect ∧ e.vmaddr < d.vmaddr ∧ hi = d.vmaddr ∧
      ∀ d' ∈ syms, d'.nSect = e.nSect → e.vmaddr < d'.vmaddr → hi ≤ d'.vmaddr) ∨
    (∀ d ∈ syms, d.nSect = e.nSect → ¬ e.vmaddr < d.vmaddr) ∧ hi = sectionEnd ends e.nSect

section

variable (t : SymbolTable) (image : ExtentImage) (name : List Octet) (addr : BitVec 64)

def BoundsAt (hi : BitVec 64) : Prop :=
  ∃ e ∈ collect t, named t name e ∧ e.vmaddr + image.slide = addr ∧
    IsBound (collect t) image.ends e hi

def IsExtent (answer : Option (BitVec 64 × BitVec 64)) : Prop :=
  ∃ hi, BoundsAt t image name addr hi ∧ answer = some (addr, hi + image.slide)

/-- In the sorted table the first entry of the name is at `addr`, and the next one of its section
is behind it and not beside it; without one, the section ends behind it. -/
def Separate (syms : List SymEntry) : Prop :=
  ∃ e rest, (syms.dropWhile fun e => !named t name e) = e :: rest ∧
    e.vmaddr + image.slide = addr ∧
    match rest.find? (·.nSect = e.nSect) with
    | none => e.vmaddr < sectionEnd image.ends e.nSect
    | some d =>
      if d.vmaddr = 0 then
        e.vmaddr < sectionEnd image.ends e.nSect ∧
          BoundsAt t image name addr (sectionEnd image.ends e.nSect)
      else e.vmaddr < d.vmaddr

variable {t image name addr}

/-- What the walk behind a symbol of the sorted table finds bounds the symbol. -/
theorem isBound_next (ends : List (BitVec 64)) {syms before rest : List SymEntry} {e : SymEntry}
    (hperm : (before ++ e :: rest).Perm syms)
    (hsorted : (before ++ e :: rest).Pairwise fun a b => a.vmaddr ≤ b.vmaddr) :
    match rest.find? (·.nSect = e.nSect) with
    | none => IsBound syms ends e (sectionEnd ends e.nSect)
    | some d => e.vmaddr < d.vmaddr → IsBound syms ends e d.vmaddr := by
  obtain ⟨-, htail, hcross⟩ := pairwise_append.mp hsorted
  have hgreater : ∀ d ∈ syms, e.vmaddr < d.vmaddr → d ∈ rest := by
    intro d hd hlt
    rcases mem_append.mp (hperm.mem_iff.mpr hd) with hbefore | hbehind
    · exact absurd hlt (BitVec.not_lt.mpr (hcross d hbefore e mem_cons_self))
    · rcases mem_cons.mp hbehind with rfl | hrest
      · exact absurd hlt (BitVec.lt_irrefl _)
      · exact hrest
  split
  · next hnone =>
    refine .inr ⟨fun d hd hsect hlt => ?_, rfl⟩
    exact (find?_eq_none.mp hnone d (hgreater d hd hlt)) (decide_eq_true hsect)
  · next d hfound =>
    intro hlt
    obtain ⟨hsect, first, last, rfl, hfirst⟩ := find?_eq_some_iff_append.mp hfound
    have hd : d ∈ before ++ e :: (first ++ d :: last) := by simp
    refine .inl ⟨d, hperm.mem_iff.mp hd, of_decide_eq_true hsect, hlt, rfl, ?_⟩
    intro d' hd' hsect' hlt'
    rcases mem_append.mp (hgreater d' hd' hlt') with hin | hin
    · simpa [hsect'] using hfirst d' hin
    · rcases mem_cons.mp hin with rfl | hin
      · exact BitVec.le_refl _
      · have hlast := (pairwise_append.mp (pairwise_cons.mp htail).2).2.1
        exact (pairwise_cons.mp hlast).1 d' hin

theorem bounded_iff {before rest : List SymEntry} {e : SymEntry}
    (hperm : (before ++ e :: rest).Perm (collect t))
    (hsorted : (before ++ e :: rest).Pairwise fun a b => a.vmaddr ≤ b.vmaddr)
    (hnamed : named t name e) (haddr : e.vmaddr + image.slide = addr) :
    (match rest.find? (·.nSect = e.nSect) with
      | none => e.vmaddr < sectionEnd image.ends e.nSect
      | some d =>
        if d.vmaddr = 0 then
          e.vmaddr < sectionEnd image.ends e.nSect ∧
            BoundsAt t image name addr (sectionEnd image.ends e.nSect)
        else e.vmaddr < d.vmaddr) ↔
      e.vmaddr < extentEnd image.ends e rest ∧
        BoundsAt t image name addr (extentEnd image.ends e rest) := by
  have hmem : e ∈ collect t := hperm.mem_iff.mp (by simp)
  have hbound := isBound_next image.ends hperm hsorted
  rw [extentEnd]
  cases hfind : rest.find? (·.nSect = e.nSect) with
  | none =>
    rw [hfind] at hbound
    exact (and_iff_left ⟨e, hmem, hnamed, haddr, hbound⟩).symm
  | some d =>
    rw [hfind] at hbound
    by_cases hzero : d.vmaddr = 0
    · simp [hzero]
    · simp only [hzero, if_false, map_some, getD_some]
      exact (and_iff_left_of_imp fun hlt => ⟨e, hmem, hnamed, haddr, hbound hlt⟩).symm

theorem isExtent_iff {syms : List SymEntry} (hperm : syms.Perm (collect t))
    (hsorted : syms.Pairwise fun a b => a.vmaddr ≤ b.vmaddr) :
    IsExtent t image name addr ((findExtent image.ends (named t name) syms).map fun extent =>
        (extent.1 + image.slide, extent.2 + image.slide)) ↔
      Separate t image name addr syms := by
  rw [findExtent, Separate]
  cases hdrop : syms.dropWhile fun e => !named t name e with
  | nil => simp [IsExtent]
  | cons e rest =>
    have hsplit := takeWhile_append_dropWhile (p := fun e => !named t name e) (l := syms)
    rw [hdrop] at hsplit
    have hnamed : named t name e := by
      have hhead := head?_dropWhile_not (fun e => !named t name e) syms
      simpa [hdrop] using hhead
    rw [← hsplit] at hperm hsorted
    constructor
    · rintro ⟨hi, hbounds, hanswer⟩
      obtain ⟨extent, hfound, heq⟩ := map_eq_some_iff.mp hanswer
      obtain ⟨hlt, hextent⟩ := ite_none_left_eq_some.mp hfound
      obtain rfl := some.inj hextent
      obtain ⟨haddr, hhi⟩ := Prod.mk.inj heq
      refine ⟨e, rest, rfl, haddr, (bounded_iff hperm hsorted hnamed haddr).mpr ⟨?_, ?_⟩⟩
      · exact BitVec.not_le.mp hlt
      · have hend : extentEnd image.ends e rest = hi := (BitVec.add_left_inj _).mp hhi
        rwa [hend]
    · rintro ⟨_, _, ⟨rfl, rfl⟩, haddr, hnext⟩
      obtain ⟨hlt, hbounds⟩ := (bounded_iff hperm hsorted hnamed haddr).mp hnext
      refine ⟨_, hbounds, ?_⟩
      simp only [if_neg (BitVec.not_le.mpr hlt), map_some, haddr]

end

variable (qsort : QSort) (images : BitVec 64 → ExtentImage)

def Cached (cache : Option ExtentCache) : Prop :=
  cache = none ∨ ∃ mh, cache = freshCache qsort images mh

variable {qsort images}

theorem buildExtentCache_eq {cache : Option ExtentCache} (h : Cached qsort images cache)
    (mh : BitVec 64) : buildExtentCache qsort images cache mh = freshCache qsort images mh := by
  rw [buildExtentCache]
  split
  · next hmh =>
    rcases h with rfl | ⟨mh', rfl⟩
    · cases hmh
    · simp only [freshCache, Option.map_map, map_eq_some_iff] at hmh
      obtain ⟨t, -, rfl⟩ := hmh
      rfl
  · rfl

theorem cached_cacheAfter (queries : List (BitVec 64 × List Octet)) :
    Cached qsort images (cacheAfter qsort images queries) := by
  have hfold : ∀ cache, Cached qsort images cache → Cached qsort images (queries.foldl
      (fun cache q => (resolverSymbolExtent qsort images cache q.1 q.2).2) cache) := by
    induction queries with
    | nil => exact fun _ h => h
    | cons q queries ih => exact fun cache h => ih _ (.inr ⟨q.1, buildExtentCache_eq h q.1⟩)
  exact hfold none (.inl rfl)

def resolverLookupSymbol (image : Image) (index : Option (Nat → Int)) (name : List Octet) :
    BitVec 64 :=
  ((lookupMachoSymbolResult image index name).map MachoSymbolResult.addr).getD 0

/-- A query after any other ones. -/
theorem resolverSymbolExtent_iff (qsort : QSort) (images : BitVec 64 → ExtentImage)
    (queries : List (BitVec 64 × List Octet)) (mh : BitVec 64) {t : SymbolTable}
    (htable : symbolTable (images mh).toImage = some t)
    (index : Option (Nat → Int)) (name : List Octet) :
    IsExtent t (images mh) name (resolverLookupSymbol (images mh).toImage index name)
        (resolverSymbolExtent qsort images (cacheAfter qsort images queries) mh name).1 ↔
      Separate t (images mh) name (resolverLookupSymbol (images mh).toImage index name)
        (qsort.sort (collect t)) := by
  rw [resolverSymbolExtent, buildExtentCache_eq (cached_cacheAfter queries), freshCache, htable]
  exact isExtent_iff (qsort.perm _) (qsort.sorted _)

def insertionQSort : QSort where
  sort := fun syms => syms.insertionSort fun a b => a.vmaddr ≤ b.vmaddr
  perm := fun syms => List.perm_insertionSort _ syms
  sorted := fun syms => by
    have : Std.Total fun a b : SymEntry => a.vmaddr ≤ b.vmaddr := ⟨fun a b => BitVec.le_total _ _⟩
    have : IsTrans SymEntry fun a b => a.vmaddr ≤ b.vmaddr := ⟨fun a b c => BitVec.le_trans⟩
    exact List.pairwise_insertionSort _ syms

def aliasTable : SymbolTable :=
  { syms := [⟨1, 0x0f, 1, 0, 0x100001000⟩, ⟨4, 0x0f, 1, 0, 0x100001000⟩]
    strtab := [0, 0x5f, 0x61, 0, 0x5f, 0x62, 0], strsize := 7, nsyms_lt := by decide }

def aliasImage : ExtentImage :=
  { sizeofcmds := 96
    cmds := [⟨72, .segment64 ⟨0x100000000, 0, 0x4000⟩⟩, ⟨24, .symtab ⟨0x2000, 2, 0x2020, 7⟩⟩]
    slide := 0, tableAt := fun _ _ _ => aliasTable, ends := [0x100002000] }

theorem alias_extent_iff :
    symbolTable aliasImage.toImage = some aliasTable ∧
      (IsExtent aliasTable aliasImage [0x5f, 0x62] 0x100001000
          (resolverSymbolExtent insertionQSort (fun _ => aliasImage) none 0 [0x5f, 0x62]).1 ↔
        Separate aliasTable aliasImage [0x5f, 0x62] 0x100001000
          (insertionQSort.sort (collect aliasTable))) := by
  have htable : symbolTable aliasImage.toImage = some aliasTable := by rfl
  have haddr : resolverLookupSymbol aliasImage.toImage none [0x5f, 0x62] = 0x100001000 := by decide
  refine ⟨htable, ?_⟩
  have hiff := resolverSymbolExtent_iff insertionQSort (fun _ => aliasImage) [] 0 htable none
    [0x5f, 0x62]
  rwa [haddr] at hiff

theorem alias_without_extent :
    resolverLookupSymbol aliasImage.toImage none [0x5f, 0x61] = 0x100001000 ∧
      (resolverSymbolExtent insertionQSort (fun _ => aliasImage) none 0 [0x5f, 0x61]).1 = none := by
  decide

end Machgate.SymbolExtent
