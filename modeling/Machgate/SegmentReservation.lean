import Machgate.GateReach
import Machgate.IslandPool

namespace Machgate.SegmentReservation

open ByteMemory FixedMapping GatePools GateReach List BitVec Option
open IslandPool (LoadResults)

/-- `LC_SEGMENT_64`, for a segment that ends inside the address space. -/
structure Segment where
  segname : List Char
  vmaddr : Addr
  vmsize : BitVec 64
  filesize : BitVec 64
  maxprot : BitVec 32
  initprot : BitVec 32
  fits : vmaddr.toNat + vmsize.toNat ≤ 2 ^ 63

def machgatePoolPadding : BitVec 64 := 0x400000#64

/-- `VM_PROT_*` and `PROT_*` have the same bits. -/
def nativeProt (prot : BitVec 32) : BitVec 32 := prot &&& 7

namespace Segment

variable (seg : Segment)

def loadable : Bool := seg.segname ≠ "__PAGEZERO".toList && seg.vmsize ≠ 0

def useprot : BitVec 32 :=
  if nativeProt seg.initprot &&& 4 ≠ 0 then nativeProt seg.maxprot else nativeProt seg.initprot

def mapSize : BitVec 64 := if seg.filesize < seg.vmsize then seg.filesize else seg.vmsize

end Segment

/-- What the kernel answers.  A mapping at a fixed address is asked for with the mappings made so
far; user addresses are below `2 ^ 63`. -/
structure Kernel (page : PageSize) where
  reserve : Addr → BitVec 64 → Option Addr
  fixed : List Region → Addr → BitVec 64 → Bool
  reserve_below : ∀ hint size result, reserve hint size = some result →
    result.toNat + size.toNat ≤ 2 ^ 63
  reserve_aligned : ∀ hint size result, reserve hint size = some result →
    page.bytes.toNat ∣ result.toNat
  fixed_aligned : ∀ mapped address size, fixed mapped address size →
    page.bytes.toNat ∣ address.toNat

/-- The first loop, with `base` at the largest number until a segment is found. -/
structure Span where
  base : Addr
  mmapSize : BitVec 64

def spanStep (span : Span) (seg : Segment) : Span :=
  if seg.loadable then
    let base := if span.base = BitVec.allOnes 64 then seg.vmaddr else span.base
    let segEnd := seg.vmaddr + seg.vmsize - base
    { base, mmapSize := if segEnd > span.mmapSize then segEnd else span.mmapSize }
  else span

def spanOf (segs : List Segment) : Span := segs.foldl spanStep ⟨BitVec.allOnes 64, 0⟩

/-- The mappings made, and the segments without one: a failure is passed over for a segment at
address zero without access. -/
structure Mapped where
  mappings : List Region
  refused : List Segment

section

variable {page : PageSize} (k : Kernel page) (slide : Addr)

def pages (page : PageSize) (address : Addr) (size : BitVec 64) : Region where
  start := address.toNat
  size := (size.toNat + page.bytes.toNat - 1) / page.bytes.toNat * page.bytes.toNat

def mapAnonymous (m : Mapped) (seg : Segment) : Option Mapped :=
  if seg.filesize < seg.vmsize then
    if k.fixed m.mappings (seg.vmaddr + slide) seg.vmsize then
      some { m with mappings := pages page (seg.vmaddr + slide) seg.vmsize :: m.mappings }
    else none
  else some m

def mapFile (m : Mapped) (seg : Segment) : Option Mapped :=
  if seg.filesize > 0 then
    if k.fixed m.mappings (seg.vmaddr + slide) seg.mapSize then
      some { m with mappings := pages page (seg.vmaddr + slide) seg.mapSize :: m.mappings }
    else if seg.vmaddr = 0 ∧ seg.useprot = 0 then some { m with refused := seg :: m.refused }
    else none
  else some m

/-- The second loop; `none` where the process exits. -/
def mapSegments : Mapped → List Segment → Option Mapped
  | m, [] => some m
  | m, seg :: rest =>
    if seg.loadable then
      ((mapAnonymous k slide m seg).bind fun next => mapFile k slide next seg).bind fun next =>
        mapSegments next rest
    else mapSegments m rest

structure Layout where
  reservation : Region
  mapped : Mapped
  results : LoadResults

def Layout.pool (layout : Layout) : Region :=
  ⟨layout.results.poolBase.toNat, layout.results.poolSize.toNat⟩

/-- The part of `load64` that maps the segments. -/
def load (segs : List Segment) : Option Layout :=
  let span := spanOf segs
  let mmapAligned := alignUp span.mmapSize page.bytes
  let totalSize := mmapAligned + machgatePoolPadding
  (k.reserve span.base totalSize).bind fun reservation =>
    (mapSegments k (reservation - span.base) ⟨[], []⟩ segs).map fun mapped =>
      { reservation := ⟨reservation.toNat, totalSize.toNat⟩
        mapped
        results := ⟨reservation + mmapAligned, machgatePoolPadding, 0⟩ }

end

section

variable {segs : List Segment} {first : Segment}

theorem vmaddr_ne_allOnes (seg : Segment) : seg.vmaddr ≠ allOnes 64 := by
  intro h
  have hfits := seg.fits
  rw [h, toNat_allOnes] at hfits
  omega

theorem spanStep_of_loadable {span : Span} {seg : Segment} (h : seg.loadable) :
    (spanStep span seg).base = if span.base = allOnes 64 then seg.vmaddr else span.base := by
  rw [spanStep, if_pos h]

theorem base_foldl {span : Span} (h : span.base ≠ allOnes 64) (segs : List Segment) :
    (segs.foldl spanStep span).base = span.base := by
  induction segs generalizing span with
  | nil => rfl
  | cons seg rest ih =>
    have hstep : (spanStep span seg).base = span.base := by
      by_cases hload : seg.loadable
      · rw [spanStep_of_loadable hload, if_neg h]
      · rw [spanStep, if_neg hload]
    rw [foldl_cons, ih (hstep ▸ h), hstep]

theorem base_spanOf (hfirst : segs.find? (·.loadable) = some first) :
    (spanOf segs).base = first.vmaddr := by
  have hfold : ∀ size, (segs.foldl spanStep ⟨allOnes 64, size⟩).base = first.vmaddr := by
    intro size
    induction segs with
    | nil => cases hfirst
    | cons seg rest ih =>
      by_cases hload : seg.loadable
      · rw [find?_cons_of_pos hload] at hfirst
        cases hfirst
        have hbase : (spanStep ⟨allOnes 64, size⟩ first).base = first.vmaddr := by
          rw [spanStep_of_loadable hload, if_pos rfl]
        rw [foldl_cons, base_foldl (hbase ▸ vmaddr_ne_allOnes first), hbase]
      · rw [find?_cons_of_neg hload] at hfirst
        rw [foldl_cons, spanStep, if_neg hload]
        exact ih hfirst
  exact hfold 0

def extent (base : Addr) (seg : Segment) : Nat := seg.vmaddr.toNat - base.toNat + seg.vmsize.toNat

theorem extent_le (base : Addr) (seg : Segment) : extent base seg ≤ 2 ^ 63 := by
  have hfits := seg.fits
  rw [extent]
  omega

variable {base : Addr}

theorem toNat_segEnd {seg : Segment} (h : base ≤ seg.vmaddr) :
    (seg.vmaddr + seg.vmsize - base).toNat = extent base seg := by
  have hfits := seg.fits
  rw [le_def] at h
  rw [extent, toNat_sub, toNat_add]
  omega

/-- The size found covers `seg`, and stays inside the address space. -/
structure Covers (base : Addr) (size : BitVec 64) (segs : List Segment) : Prop where
  bound : size.toNat ≤ 2 ^ 63
  extent_le : ∀ seg ∈ segs, seg.loadable → extent base seg ≤ size.toNat

theorem spanStep_size {size : BitVec 64} {seg : Segment}
    (hbase : base ≠ allOnes 64) (hseg : seg.loadable → base ≤ seg.vmaddr)
    (hsize : size.toNat ≤ 2 ^ 63) :
    size.toNat ≤ (spanStep ⟨base, size⟩ seg).mmapSize.toNat ∧
      Covers base (spanStep ⟨base, size⟩ seg).mmapSize [seg] := by
  by_cases hload : seg.loadable
  · have hend := toNat_segEnd (hseg hload)
    have hle := extent_le base seg
    simp only [spanStep, if_pos hload, if_neg hbase]
    split
    · rename_i hgt
      rw [gt_iff_lt, lt_def, hend] at hgt
      rw [hend]
      refine ⟨Nat.le_of_lt hgt, hend ▸ hle, ?_⟩
      intro other hother _
      rw [mem_singleton.mp hother, hend]
    · rename_i hle'
      rw [gt_iff_lt, lt_def, hend, Nat.not_lt] at hle'
      refine ⟨Nat.le_refl _, hsize, ?_⟩
      intro other hother _
      rwa [mem_singleton.mp hother]
  · rw [spanStep, if_neg hload]
    refine ⟨Nat.le_refl _, hsize, ?_⟩
    intro other hother hother'
    rw [mem_singleton.mp hother] at hother'
    exact absurd hother' hload

theorem covers_foldl {size : BitVec 64} (hbase : base ≠ allOnes 64)
    (hsegs : ∀ seg ∈ segs, seg.loadable → base ≤ seg.vmaddr) (hsize : size.toNat ≤ 2 ^ 63) :
    size.toNat ≤ (segs.foldl spanStep ⟨base, size⟩).mmapSize.toNat ∧
      Covers base (segs.foldl spanStep ⟨base, size⟩).mmapSize segs := by
  induction segs generalizing size with
  | nil => exact ⟨Nat.le_refl _, hsize, fun seg hseg => absurd hseg not_mem_nil⟩
  | cons seg rest ih =>
    obtain ⟨hgrow, hbound, hcovers⟩ := spanStep_size hbase (hsegs seg mem_cons_self) hsize
    have hstep : spanStep ⟨base, size⟩ seg = ⟨base, (spanStep ⟨base, size⟩ seg).mmapSize⟩ := by
      have hkeep : (spanStep ⟨base, size⟩ seg).base = base := @base_foldl ⟨base, size⟩ hbase [seg]
      exact congrArg (fun b => Span.mk b _) hkeep
    rw [foldl_cons, hstep]
    obtain ⟨hgrow', hbound', hcovers'⟩ := ih (fun s hs => hsegs s (mem_cons_of_mem seg hs)) hbound
    refine ⟨hgrow.trans hgrow', hbound', ?_⟩
    intro s hs hload
    rcases mem_cons.mp hs with rfl | hs
    · exact (hcovers s (mem_singleton.mpr rfl) hload).trans hgrow'
    · exact hcovers' s hs hload

theorem covers_spanOf (hfirst : segs.find? (·.loadable) = some first)
    (hsegs : ∀ seg ∈ segs, seg.loadable → first.vmaddr ≤ seg.vmaddr) :
    Covers first.vmaddr (spanOf segs).mmapSize segs := by
  have hfold : Covers first.vmaddr (segs.foldl spanStep ⟨allOnes 64, 0⟩).mmapSize segs := by
    induction segs with
    | nil => cases hfirst
    | cons seg rest ih =>
      have hrest : ∀ s ∈ rest, s.loadable → first.vmaddr ≤ s.vmaddr := fun s hs =>
        hsegs s (mem_cons_of_mem seg hs)
      by_cases hload : seg.loadable
      · rw [find?_cons_of_pos hload] at hfirst
        cases hfirst
        -- The first segment sets the base, and is taken in with that base.
        have hstep : spanStep ⟨allOnes 64, 0⟩ first = spanStep ⟨first.vmaddr, 0⟩ first := by
          simp only [spanStep, if_pos hload, if_true, if_neg (vmaddr_ne_allOnes first)]
        rw [foldl_cons, hstep, ← foldl_cons]
        exact (covers_foldl (vmaddr_ne_allOnes first) hsegs (Nat.zero_le _)).2
      · rw [find?_cons_of_neg hload] at hfirst
        rw [foldl_cons, spanStep, if_neg hload]
        obtain ⟨hbound, hcovers⟩ := ih hfirst hrest
        refine ⟨hbound, ?_⟩
        intro s hs hs'
        rcases mem_cons.mp hs with rfl | hs
        · exact absurd hs' hload
        · exact hcovers s hs hs'
  exact hfold

end

variable {page : PageSize} {k : Kernel page} {slide : Addr} {m m' : Mapped} {seg : Segment}
  {segs : List Segment}

inductive Places (page : PageSize) (slide : Addr) (seg : Segment) : Region → Prop
  | pages (size : BitVec 64) (hle : size ≤ seg.vmsize) (hpos : 0 < size.toNat)
      (haligned : page.bytes.toNat ∣ (seg.vmaddr + slide).toNat) :
      Places page slide seg (pages page (seg.vmaddr + slide) size)

theorem pages_pos {address : Addr} {size : BitVec 64} (h : 0 < size.toNat) :
    0 < (pages page address size).size := by
  have hpage : 0 < page.bytes.toNat := Nat.lt_of_lt_of_le (by decide) page.bytes_bounds.1
  exact Nat.mul_pos (Nat.div_pos (by omega) hpage) hpage

structure Adds (page : PageSize) (slide : Addr) (segs : List Segment) (m m' : Mapped) : Prop where
  kept : ∀ r ∈ m.mappings, r ∈ m'.mappings
  added : ∀ r ∈ m'.mappings, r ∈ m.mappings ∨ ∃ seg ∈ segs, seg.loadable ∧ Places page slide seg r
  refused : m'.refused = [] → m.refused = [] ∧ ∀ seg ∈ segs, seg.loadable →
    ∃ r ∈ m'.mappings, Places page slide seg r

theorem Adds.refl (page : PageSize) (slide : Addr) (m : Mapped) : Adds page slide [] m m where
  kept := fun _ hr => hr
  added := fun _ hr => .inl hr
  refused := fun h => ⟨h, fun _ hseg => absurd hseg not_mem_nil⟩

variable {next : Mapped}

theorem Adds.cons (h : Adds page slide [seg] m next)
    (h' : Adds page slide segs next m') : Adds page slide (seg :: segs) m m' where
  kept := fun r hr => h'.kept r (h.kept r hr)
  added := by
    intro r hr
    rcases h'.added r hr with hr | ⟨s, hs, hplaces⟩
    · rcases h.added r hr with hr | ⟨s, hs, hplaces⟩
      · exact .inl hr
      · rw [mem_singleton.mp hs] at hplaces
        exact .inr ⟨seg, mem_cons_self, hplaces⟩
    · exact .inr ⟨s, mem_cons_of_mem seg hs, hplaces⟩
  refused := by
    intro hrefused
    obtain ⟨hnext, hsegs⟩ := h'.refused hrefused
    obtain ⟨hm, hseg⟩ := h.refused hnext
    refine ⟨hm, ?_⟩
    intro s hs hload
    rcases mem_cons.mp hs with rfl | hs
    · obtain ⟨r, hr, hplaces⟩ := hseg s (mem_singleton.mpr rfl) hload
      exact ⟨r, h'.kept r hr, hplaces⟩
    · exact hsegs s hs hload

theorem adds_skipped (h : ¬ seg.loadable) : Adds page slide [seg] m m where
  kept := fun _ hr => hr
  added := fun _ hr => .inl hr
  refused := fun hm => ⟨hm, fun _ hs hload => absurd (mem_singleton.mp hs ▸ hload) h⟩

theorem mapSize_le (seg : Segment) : seg.mapSize ≤ seg.vmsize := by
  rw [Segment.mapSize, le_def]
  split
  · rename_i hlt
    exact Nat.le_of_lt hlt
  · exact Nat.le_refl _

theorem vmsize_pos (h : seg.loadable) : 0 < seg.vmsize.toNat := by
  simp only [Segment.loadable, Bool.and_eq_true, decide_eq_true_eq] at h
  exact Nat.pos_of_ne_zero fun hzero => h.2 (eq_of_toNat_eq hzero)

theorem adds_push (hload : seg.loadable) {r : Region} (hplaces : Places page slide seg r) :
    Adds page slide [seg] m { m with mappings := r :: m.mappings } where
  kept := fun _ hr => mem_cons_of_mem r hr
  added := by
    intro q hq
    rcases mem_cons.mp hq with rfl | hq
    · exact .inr ⟨seg, mem_singleton.mpr rfl, hload, hplaces⟩
    · exact .inl hq
  refused := by
    intro hm
    refine ⟨hm, fun s hs _ => ?_⟩
    rw [mem_singleton.mp hs]
    exact ⟨r, mem_cons_self, hplaces⟩

theorem Adds.push (h : Adds page slide [seg] m next) (hload : seg.loadable)
    {r : Region} (hplaces : Places page slide seg r) :
    Adds page slide [seg] m { next with mappings := r :: next.mappings } where
  kept := fun q hq => mem_cons_of_mem r (h.kept q hq)
  added := by
    intro q hq
    rcases mem_cons.mp hq with rfl | hq
    · exact .inr ⟨seg, mem_singleton.mpr rfl, hload, hplaces⟩
    · exact h.added q hq
  refused := by
    intro hnext
    obtain ⟨hm, hsegs⟩ := h.refused hnext
    refine ⟨hm, fun s hs hs' => ?_⟩
    obtain ⟨q, hq, hq'⟩ := hsegs s hs hs'
    exact ⟨q, mem_cons_of_mem r hq, hq'⟩

theorem Adds.refuse (h : Adds page slide [seg] m next) :
    Adds page slide [seg] m { next with refused := seg :: next.refused } where
  kept := h.kept
  added := h.added
  refused := fun hnil => absurd hnil (cons_ne_nil _ _)

theorem mapAnonymous_cases (hload : seg.loadable) (h : mapAnonymous k slide m seg = some m') :
    m' = m ∧ ¬ seg.filesize < seg.vmsize ∨
      ∃ r, Places page slide seg r ∧ m' = { m with mappings := r :: m.mappings } := by
  rw [mapAnonymous] at h
  split at h
  · split at h
    · rename_i hfixed
      cases h
      exact .inr ⟨_, .pages seg.vmsize (BitVec.le_refl _) (vmsize_pos hload)
        (k.fixed_aligned _ _ _ hfixed), rfl⟩
    · cases h
  · rename_i hsizes
    cases h
    exact .inl ⟨rfl, hsizes⟩

theorem mapFile_cases (hload : seg.loadable) (h : mapFile k slide m seg = some m') :
    m' = m ∧ seg.filesize.toNat = 0 ∨
      (∃ r, Places page slide seg r ∧ m' = { m with mappings := r :: m.mappings }) ∨
      m' = { m with refused := seg :: m.refused } := by
  rw [mapFile] at h
  split at h
  · rename_i hfilesize
    split at h
    · rename_i hfixed
      cases h
      refine .inr (.inl ⟨_, .pages seg.mapSize (mapSize_le seg) ?_
        (k.fixed_aligned _ _ _ hfixed), rfl⟩)
      rw [Segment.mapSize]
      split
      · exact hfilesize
      · exact vmsize_pos hload
    · split at h
      · cases h
        exact .inr (.inr rfl)
      · cases h
  · rename_i hfilesize
    cases h
    exact .inl ⟨rfl, Nat.eq_zero_of_not_pos hfilesize⟩

/-- A segment is mapped at least once, unless its only mapping was refused. -/
theorem adds_segment (hload : seg.loadable)
    (h : ((mapAnonymous k slide m seg).bind fun next => mapFile k slide next seg) = some m') :
    Adds page slide [seg] m m' := by
  obtain ⟨next, hanon, hfile⟩ := bind_eq_some_iff.mp h
  rcases mapAnonymous_cases hload hanon with ⟨rfl, hsizes⟩ | ⟨r, hplaces, rfl⟩
  · rcases mapFile_cases hload hfile with ⟨rfl, hzero⟩ | ⟨r, hplaces, rfl⟩ | rfl
    · have hpos := vmsize_pos hload
      rw [lt_def] at hsizes
      omega
    · exact adds_push hload hplaces
    · exact ⟨fun _ hr => hr, fun _ hr => .inl hr, fun hnil => absurd hnil (cons_ne_nil _ _)⟩
  · have hnext : Adds page slide [seg] m { m with mappings := r :: m.mappings } :=
      adds_push hload hplaces
    rcases mapFile_cases hload hfile with ⟨rfl, -⟩ | ⟨r', hplaces', rfl⟩ | rfl
    · exact hnext
    · exact hnext.push hload hplaces'
    · exact hnext.refuse

theorem adds_mapSegments (h : mapSegments k slide m segs = some m') :
    Adds page slide segs m m' := by
  induction segs generalizing m with
  | nil =>
    cases h
    exact Adds.refl page slide _
  | cons seg rest ih =>
    rw [mapSegments] at h
    split at h
    · rename_i hload
      obtain ⟨next, hseg, hrest⟩ := bind_eq_some_iff.mp h
      exact (adds_segment hload hseg).cons (ih hrest)
    · rename_i hload
      exact (adds_skipped hload).cons (ih h)

end Machgate.SegmentReservation
