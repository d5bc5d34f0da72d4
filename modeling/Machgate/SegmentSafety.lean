import Machgate.SegmentReservation

namespace Machgate.SegmentSafety

open ByteMemory FixedMapping GatePools GateReach SegmentReservation BitVec List Option

/-- All mappings lie inside the reservation and apart from the pool, which lies inside too; so
nothing outside the reservation is replaced. -/
def Safe (layout : Layout) : Prop :=
  layout.pool.Within layout.reservation ∧
    ∀ m ∈ layout.mapped.mappings, m.Within layout.reservation ∧ m.Disjoint layout.pool ∧
      ∀ other : Region, other.Disjoint layout.reservation → other.Disjoint m

/-- The first segment that is mapped has the lowest address. -/
def LowestFirst (segs : List Segment) : Prop :=
  ∀ first ∈ segs.find? (·.loadable), ∀ seg ∈ segs, seg.loadable → first.vmaddr ≤ seg.vmaddr

section

variable {page : PageSize} {k : Kernel page} {segs : List Segment} {layout : Layout}

theorem toNat_alignUp (page : PageSize) {size : BitVec 64} (h : size.toNat ≤ 2 ^ 63) :
    (alignUp size page.bytes).toNat =
        (size.toNat + page.bytes.toNat - 1) / page.bytes.toNat * page.bytes.toNat ∧
      size.toNat ≤ (alignUp size page.bytes).toNat ∧
        (alignUp size page.bytes).toNat ≤ size.toNat + page.bytes.toNat := by
  obtain ⟨hlow, hhigh⟩ := page.bytes_bounds
  have hsum : (size + page.bytes - 1#64).toNat = size.toNat + page.bytes.toNat - 1 := by
    rw [toNat_sub, toNat_add, toNat_ofNat]
    omega
  obtain ⟨hle, hlt, -⟩ := aligned_alignUp page size
  refine ⟨?_, by omega, by omega⟩
  change (alignDown (size + page.bytes - 1#64) page.bytes).toNat = _
  rw [toNat_alignDown, hsum]

theorem roundUp_offset {p offset : Nat} (size : Nat) (hp : 0 < p) (h : p ∣ offset) :
    offset + (size + p - 1) / p * p = (offset + size + p - 1) / p * p := by
  obtain ⟨q, rfl⟩ := h
  have hsum : p * q + size + p - 1 = p * q + (size + p - 1) := by omega
  rw [hsum, Nat.mul_add_div hp, Nat.add_mul, Nat.mul_comm q p]

theorem load_eq (h : load k segs = some layout) :
    ∃ reservation mapped, reservation.toNat +
        (alignUp (spanOf segs).mmapSize page.bytes + machgatePoolPadding).toNat ≤ 2 ^ 63 ∧
      page.bytes.toNat ∣ reservation.toNat ∧
      Adds page (reservation - (spanOf segs).base) segs ⟨[], []⟩ mapped ∧
      layout = ⟨⟨reservation.toNat,
        (alignUp (spanOf segs).mmapSize page.bytes + machgatePoolPadding).toNat⟩, mapped,
        ⟨reservation + alignUp (spanOf segs).mmapSize page.bytes, machgatePoolPadding, 0⟩⟩ := by
  obtain ⟨reservation, hreserve, hmap⟩ := bind_eq_some_iff.mp h
  obtain ⟨mapped, hmapped, rfl⟩ := map_eq_some_iff.mp hmap
  exact ⟨reservation, mapped, k.reserve_below _ _ _ hreserve, k.reserve_aligned _ _ _ hreserve,
    adds_mapSegments hmapped, rfl⟩

theorem spanOf_none (h : segs.find? (·.loadable) = none) : spanOf segs = ⟨allOnes 64, 0⟩ := by
  have hnone := find?_eq_none.mp h
  rw [spanOf]
  clear h
  induction segs with
  | nil => rfl
  | cons seg rest ih =>
    rw [foldl_cons, spanStep, if_neg (hnone seg mem_cons_self)]
    exact ih fun s hs => hnone s (mem_cons_of_mem seg hs)

theorem LowestFirst.covers (h : LowestFirst segs) :
    Covers (spanOf segs).base (spanOf segs).mmapSize segs ∧
      ∀ seg ∈ segs, seg.loadable → (spanOf segs).base ≤ seg.vmaddr := by
  cases hfirst : segs.find? (·.loadable) with
  | none =>
    have hnone := find?_eq_none.mp hfirst
    rw [spanOf_none hfirst]
    exact ⟨⟨Nat.zero_le _, fun seg hseg hload => absurd hload (hnone seg hseg)⟩,
      fun seg hseg hload => absurd hload (hnone seg hseg)⟩
  | some first =>
    rw [base_spanOf hfirst]
    exact ⟨covers_spanOf hfirst (h first hfirst), h first hfirst⟩

/-- A segment above the base lies in front of the pool. -/
theorem places_below {reservation base : Addr} {size : BitVec 64} {seg : Segment} {r : Region}
    (hbelow : reservation.toNat + size.toNat ≤ 2 ^ 63)
    (haligned : page.bytes.toNat ∣ reservation.toNat) (hbase : base ≤ seg.vmaddr)
    (hextent : extent base seg ≤ size.toNat) (hplaces : Places page (reservation - base) seg r) :
    reservation.toNat ≤ r.start ∧
      r.start + r.size ≤ reservation.toNat + (alignUp size page.bytes).toNat := by
  have hpage : 0 < page.bytes.toNat := Nat.lt_of_lt_of_le (by decide) page.bytes_bounds.1
  obtain ⟨mapSize, hle, -, hstart⟩ := hplaces
  rw [le_def] at hle hbase
  rw [extent] at hextent
  have haddress : (seg.vmaddr + (reservation - base)).toNat =
      reservation.toNat + (seg.vmaddr.toNat - base.toNat) := by
    rw [toNat_add, toNat_sub]
    omega
  rw [haddress] at hstart
  have hoffset := (Nat.dvd_add_right haligned).mp hstart
  have hround := roundUp_offset mapSize.toNat hpage hoffset
  have hmono : (seg.vmaddr.toNat - base.toNat + mapSize.toNat + page.bytes.toNat - 1) /
      page.bytes.toNat * page.bytes.toNat ≤
        (size.toNat + page.bytes.toNat - 1) / page.bytes.toNat * page.bytes.toNat :=
    Nat.mul_le_mul_right _ (Nat.div_le_div_right (by omega))
  rw [(toNat_alignUp page (by omega)).1]
  simp only [pages, haddress]
  omega

/-- A segment below the base is mapped outside the reservation. -/
theorem places_outside {reservation base : Addr} {total : Nat} {seg : Segment} {r : Region}
    (hbelow : reservation.toNat + total ≤ 2 ^ 63) (hbase : base.toNat ≤ 2 ^ 63)
    (hlow : seg.vmaddr < base) (hplaces : Places page (reservation - base) seg r) :
    ¬ r.Within ⟨reservation.toNat, total⟩ := by
  obtain ⟨mapSize, -, hpos, -⟩ := hplaces
  have hsize := @pages_pos page (seg.vmaddr + (reservation - base)) mapSize hpos
  rintro ⟨hstart, hend⟩
  rw [lt_def] at hlow
  simp only [pages, toNat_add, toNat_sub] at hstart hend hsize
  omega

end

theorem safe_iff {page : PageSize} {k : Kernel page} {segs : List Segment} {layout : Layout}
    (h : load k segs = some layout) (hmapped : layout.mapped.refused = []) :
    Safe layout ↔ LowestFirst segs := by
  obtain ⟨reservation, mapped, hbelow, haligned, hadds, rfl⟩ := load_eq h
  constructor
  · rintro ⟨-, hmappings⟩ first hfirst seg hseg hload
    by_contra hlow
    rw [base_spanOf hfirst] at hadds
    obtain ⟨r, hr, hplaces⟩ := (hadds.refused hmapped).2 seg hseg hload
    have hfits := first.fits
    have hlow' : seg.vmaddr < first.vmaddr := BitVec.not_le.mp hlow
    exact places_outside hbelow (by omega) hlow' hplaces (hmappings r hr).1
  · intro hlowest
    obtain ⟨⟨hbound, hextent⟩, hbase⟩ := hlowest.covers
    obtain ⟨-, hle, hge⟩ := toNat_alignUp page hbound
    have hpage := page.bytes_bounds.2
    have hpadding : machgatePoolPadding.toNat = 0x400000 := rfl
    have htotal : (alignUp (spanOf segs).mmapSize page.bytes + machgatePoolPadding).toNat =
        (alignUp (spanOf segs).mmapSize page.bytes).toNat + 0x400000 := by
      rw [toNat_add, hpadding]
      omega
    have hpool : (reservation + alignUp (spanOf segs).mmapSize page.bytes).toNat =
        reservation.toNat + (alignUp (spanOf segs).mmapSize page.bytes).toNat := by
      rw [toNat_add]
      omega
    refine ⟨?_, ?_⟩
    · simp only [Layout.pool, Region.Within, hpool, htotal, hpadding]
      omega
    · intro r hr
      obtain ⟨seg, hseg, hload, hplaces⟩ := (hadds.added r hr).resolve_left not_mem_nil
      obtain ⟨hstart, hend⟩ := places_below (by omega) haligned (hbase seg hseg hload)
        (hextent seg hseg hload) hplaces
      have hwithin : r.Within ⟨reservation.toNat,
          (alignUp (spanOf segs).mmapSize page.bytes + machgatePoolPadding).toNat⟩ :=
        ⟨hstart, by simp only [htotal]; omega⟩
      refine ⟨hwithin, Or.inl ?_, fun other hother => ?_⟩
      · simp only [Layout.pool, hpool]
        omega
      · exact hother.within ⟨Nat.le_refl _, Nat.le_refl _⟩ hwithin

def sixteenKilobytes : PageSize := ⟨14, Nat.le_of_ble_eq_true rfl, Nat.le_of_ble_eq_true rfl⟩

/-- A kernel that reserves memory at one place and maps every aligned segment. -/
def plainReserve (size : BitVec 64) : Option Addr :=
  if size.toNat ≤ 2 ^ 40 then some 0x10000000000#64 else none

theorem plainReserve_some {size : BitVec 64} {result : Addr} (h : plainReserve size = some result) :
    result.toNat + size.toNat ≤ 2 ^ 63 ∧ sixteenKilobytes.bytes.toNat ∣ result.toNat := by
  rw [plainReserve] at h
  split at h
  · cases h
    refine ⟨?_, by decide⟩
    rw [show (0x10000000000#64).toNat = 0x10000000000 from rfl]
    omega
  · cases h

def plainKernel : Kernel sixteenKilobytes where
  reserve := fun _ size => plainReserve size
  fixed := fun _ address _ => address.toNat % sixteenKilobytes.bytes.toNat == 0
  reserve_below := fun _ _ _ h => (plainReserve_some h).1
  reserve_aligned := fun _ _ _ h => (plainReserve_some h).2
  fixed_aligned := fun _ _ _ h => Nat.dvd_of_mod_eq_zero (beq_iff_eq.mp h)

def textSegment : Segment :=
  ⟨"__TEXT".toList, 0x100000000, 0x4000, 0x4000, 5, 5, Nat.le_of_ble_eq_true rfl⟩

def dataSegment : Segment :=
  ⟨"__DATA".toList, 0x100004000, 0x8000, 0x4000, 3, 3, Nat.le_of_ble_eq_true rfl⟩

def summary (layout : Layout) : (Nat × Nat) × List (Nat × Nat) :=
  ((layout.reservation.start, layout.reservation.size),
    layout.mapped.mappings.map fun m => (m.start, m.size))

/-- With the data segment listed first, the text segment is mapped over the page in front of the
reservation. -/
theorem dataFirst_outside :
    (load plainKernel [dataSegment, textSegment]).map summary =
      some ((0x10000000000, 0x408000),
        [(0xffffffc000, 0x4000), (0x10000000000, 0x4000), (0x10000000000, 0x8000)]) := by
  decide +kernel

theorem lowestFirst_textFirst : LowestFirst [textSegment, dataSegment] := by
  intro first hfirst seg hseg _
  obtain rfl : textSegment = first := some.inj hfirst
  rcases mem_cons.mp hseg with rfl | hseg
  · exact BitVec.le_refl _
  · rw [mem_singleton.mp hseg]
    decide

theorem textFirst_safe :
    ∃ layout, load plainKernel [textSegment, dataSegment] = some layout ∧ Safe layout :=
  ⟨_, rfl, (safe_iff (rfl : load plainKernel [textSegment, dataSegment] = some _) rfl).mpr
    lowestFirst_textFirst⟩

end Machgate.SegmentSafety
