import Machgate.PoolArrangement

namespace Machgate.LoadedCode

open Arm64Encoders ByteMemory FixedMapping GateIsland GatePatch GatePools GateReach MachineState
  PoolArrangement WordPointers List Function BitVec
open IslandPool (LoadResults machgatePoolAlloc machgatePoolAlloc_eq alignPageSize
  toNat_and_not_pageMask)

def poolRegion (lr : LoadResults) : Region := ⟨lr.poolBase.toNat, lr.poolSize.toNat⟩

structure AdjacentPool (image : Macho) (lr : LoadResults) (space : AddressSpace) : Prop where
  word : lr.poolBase.toNat % 4 = 0
  size_le : lr.poolSize.toNat ≤ 2 ^ 63
  used_le : lr.poolUsed.toNat ≤ lr.poolSize.toNat
  top : lr.poolBase.toNat + lr.poolSize.toNat ≤ 2 ^ 64 - 4096
  mapped : space.Covers (poolRegion lr)
  off_code : ∀ sect ∈ image.sections, (poolRegion lr).Disjoint (image.sectionRegion sect)

structure LoadedImage extends Macho where
  lr : LoadResults
  space : AddressSpace
  mapped_fits : ∀ r ∈ space.mapped, r.start + r.size ≤ 2 ^ 64
  code_mapped : ∀ sect ∈ toMacho.sections, space.Covers (toMacho.sectionRegion sect)
  pool : lr.poolBase ≠ 0#64 → AdjacentPool toMacho lr space

namespace LoadedImage

variable (image : LoadedImage)

def codeRegions : List Region := image.sections.map image.sectionRegion

def IsCode (w : WordPtr) : Prop := ∃ sect ∈ image.sections, w ∈ image.sectionWords sect

def patch (m : Mapper) (page : PageSize) (dispatcher : Addr) : Option Gate :=
  syscallGatePatch m page dispatcher image.toMacho image.lr image.space

end LoadedImage

section

variable {image : LoadedImage} {pools : List GatePool}

theorem machgatePoolAlloc_within (h : AdjacentPool image.toMacho image.lr image.space)
    (hbase : (machgatePoolAlloc image.lr syscallGatePoolSize).1 ≠ 0#64) :
    (machgatePoolAlloc image.lr syscallGatePoolSize).1.toNat % 4 = 0 ∧
      (⟨(machgatePoolAlloc image.lr syscallGatePoolSize).1.toNat,
        syscallGatePoolSize.toNat⟩ : Region).Within (poolRegion image.lr) := by
  obtain ⟨hword, hsize, hused, htop, -, -⟩ := h
  have hgate : syscallGatePoolSize.toNat = 0x40000 := rfl
  rw [machgatePoolAlloc_eq] at hbase ⊢
  split_ifs at hbase ⊢ with hroom
  · exact absurd rfl hbase
  · have hfits := BitVec.not_lt.mp (not_or.mp hroom).2
    have hmask : (IslandPool.pageSize - 1#64).toNat = 4095 := rfl
    have hoff : (alignPageSize image.lr.poolUsed).toNat ≤ image.lr.poolUsed.toNat + 4095 ∧
        (alignPageSize image.lr.poolUsed).toNat % 4 = 0 := by
      rw [alignPageSize, toNat_and_not_pageMask, toNat_add, hmask]
      omega
    rw [le_def, toNat_add] at hfits
    have hsum : (image.lr.poolBase + alignPageSize image.lr.poolUsed).toNat =
        image.lr.poolBase.toNat + (alignPageSize image.lr.poolUsed).toNat := by
      rw [toNat_add]
      omega
    rw [hsum]
    refine ⟨by omega, Nat.le_add_right _ _, ?_⟩
    change _ + _ + syscallGatePoolSize.toNat ≤ image.lr.poolBase.toNat + image.lr.poolSize.toNat
    omega

theorem arranged_nil : Arranged image.codeRegions image.space [] where
  sound := fun _ hp => absurd hp not_mem_nil
  apart := Pairwise.nil
  covered := fun _ hp => absurd hp not_mem_nil
  code_covered := forall_mem_map.mpr image.code_mapped
  off_code := fun _ hp => absurd hp not_mem_nil

theorem arranged_adjacentPools (h : adjacentPools image.lr = some pools) :
    Arranged image.codeRegions image.space pools := by
  rw [adjacentPools] at h
  split_ifs at h with hnull
  · obtain rfl := Option.some.inj h
    exact arranged_nil
  · obtain ⟨rfl, -⟩ := registerGatePool_eq_some h
    have hbase : image.lr.poolBase ≠ 0#64 := by
      intro hzero
      rw [machgatePoolAlloc_eq, if_pos (Or.inl hzero)] at hnull
      exact hnull rfl
    have hadjacent := image.pool hbase
    obtain ⟨hword, hwithin⟩ := machgatePoolAlloc_within hadjacent hnull
    apply arranged_nil.concat hword
    · exact hwithin.2.trans hadjacent.top
    · exact fun _ hp => absurd hp not_mem_nil
    · obtain ⟨r, hr, hpool⟩ := hadjacent.mapped
      exact ⟨r, hr, hwithin.trans hpool⟩
    · refine forall_mem_map.mpr fun sect hsect => ?_
      exact (hadjacent.off_code sect hsect).within hwithin ⟨le_refl _, le_refl _⟩

end

def wordRegion (w : WordPtr) : Region := ⟨4 * w.toNat, 4⟩

section

variable {image : LoadedImage} {space : AddressSpace} {pools : List GatePool} {pool : GatePool}
  {w v island : WordPtr}

theorem ne_of_disjoint (h : (wordRegion w).Disjoint (wordRegion v)) : w ≠ v := by
  rintro rfl
  change 4 * w.toNat + 4 ≤ 4 * w.toNat ∨ 4 * w.toNat + 4 ≤ 4 * w.toNat at h
  omega

theorem wordRegion_within_block {k : Nat} (hk : k < syscallGateIslandWords)
    (hfits : island.toNat + syscallGateIslandWords < 2 ^ 62) :
    (wordRegion (island + BitVec.ofNat 62 k)).Within (block island) := by
  rw [wordRegion, toNat_add_ofNat (by omega), block]
  constructor
  · dsimp only
    omega
  · dsimp only
    omega

theorem isCode_within (h : image.IsCode w) : ∃ c ∈ image.codeRegions, (wordRegion w).Within c := by
  obtain ⟨sect, hsect, hw⟩ := h
  obtain ⟨i, hi, rfl⟩ := mem_map.mp hw
  rw [mem_range] at hi
  obtain ⟨r, hr, hwithin⟩ := image.code_mapped sect hsect
  have hend := hwithin.2.trans (image.mapped_fits r hr)
  change 4 * (image.code sect).toNat + sect.size.toNat ≤ 2 ^ 64 at hend
  refine ⟨_, mem_map_of_mem hsect, ?_⟩
  rw [wordRegion, toNat_add_ofNat (by omega), Macho.sectionRegion]
  constructor
  · dsimp only
    omega
  · dsimp only
    omega

theorem block_disjoint_code (h : Arranged image.codeRegions space pools) (hpool : pool ∈ pools)
    (hblock : (block island).Within pool.region) (hw : image.IsCode w) :
    (block island).Disjoint (wordRegion w) := by
  obtain ⟨c, hc, hwithin⟩ := isCode_within hw
  exact (h.off_code pool hpool c hc).within hblock hwithin

theorem encB_ne_darwinSvc0x80 (x : BitVec 32) : encB x ≠ darwinSvc0x80 := by
  intro h
  have hbit := congrArg (getLsbD · 31) h
  simp [encB, darwinSvc0x80] at hbit

end

variable {dispatcher : Addr} {g : Gate} {instr w : WordPtr} {space : AddressSpace}
  {pools : List GatePool} {i : Nat} {pool : GatePool}

theorem mem_placeIsland_of_disjoint (hfits : pool.cur.toNat + syscallGateIslandWords ≤ 2 ^ 62)
    (hne : w ≠ instr) (h : (block pool.cur).Disjoint (wordRegion w)) :
    (placeIsland dispatcher g instr space pools i pool).mem w = g.mem w := by
  change update _ instr _ w = _
  rw [update_of_ne hne]
  apply writeWords_of_outside hfits
  rw [length_emitIsland]
  rcases h with h | h
  · right
    change 4 * pool.cur.toNat + 4 * syscallGateIslandWords ≤ 4 * w.toNat at h
    omega
  · left
    change 4 * w.toNat + 4 ≤ 4 * pool.cur.toNat at h
    omega

theorem mem_placeIsland_island {k : Nat} {v : Word}
    (hne : pool.cur + BitVec.ofNat 62 k ≠ instr)
    (hv : (emitIsland dispatcher pool.cur instr)[k]? = some v) :
    (placeIsland dispatcher g instr space pools i pool).mem (pool.cur + BitVec.ofNat 62 k) = v := by
  change update _ instr _ _ = _
  rw [update_of_ne hne]
  exact writeWords_add (by rw [length_emitIsland]; decide) hv

theorem mem_placeIsland_instr :
    (placeIsland dispatcher g instr space pools i pool).mem instr =
      encB (BitVec.ofInt 32 (wordDistance pool.cur instr)) :=
  update_self _ _ _

end Machgate.LoadedCode
