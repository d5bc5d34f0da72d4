import Mathlib.Data.List.Pairwise
import Machgate.GatePatch

namespace Machgate.PoolArrangement

open ByteMemory FixedMapping GateIsland GatePatch GatePools GateReach WordPointers List Bool

/-- The next island is inside the pool or at its end, and the pool is not in the last page. -/
structure Sound (pool : GatePool) : Prop where
  low : pool.base.toNat ≤ pool.cur.toNat
  high : pool.cur.toNat ≤ pool.base.toNat + pool.size.toNat / 4
  top : pool.region.start + pool.region.size ≤ 2 ^ 64 - 4096

def Apart (p q : GatePool) : Prop := p.region.Disjoint q.region

instance : Std.Symm Apart := ⟨fun _ _ h => h.symm⟩

/-- The pools are apart from each other and from the code, and all of it is mapped. -/
structure Arranged (code : List Region) (space : AddressSpace) (pools : List GatePool) : Prop where
  sound : ∀ p ∈ pools, Sound p
  apart : pools.Pairwise Apart
  covered : ∀ p ∈ pools, space.Covers p.region
  code_covered : ∀ c ∈ code, space.Covers c
  off_code : ∀ p ∈ pools, ∀ c ∈ code, p.region.Disjoint c

def block (island : WordPtr) : Region := ⟨4 * island.toNat, 4 * syscallGateIslandWords⟩

def Uses (pool : GatePool) (island : WordPtr) : Prop :=
  pool.base.toNat ≤ island.toNat ∧ island.toNat + syscallGateIslandWords ≤ pool.cur.toNat

section

variable {pool : GatePool} {instr island : WordPtr}

theorem Sound.serves (h : Sound pool) (hserves : pool.serves instr = true) :
    pool.cur.toNat + syscallGateIslandWords ≤ pool.base.toNat + pool.size.toNat / 4 ∧
      FitsBranch (wordDistance pool.cur instr) := by
  obtain ⟨hlow, hhigh, htop⟩ := h
  change 4 * pool.base.toNat + pool.size.toNat ≤ _ at htop
  rw [GatePool.serves, and_eq_true, islandReachable_iff, not_eq_true',
    decide_eq_false_iff_not, BitVec.not_lt, BitVec.le_def, GatePool.stop,
    toNat_add_ofNat (by rw [syscallGateIslandWords]; omega), toNat_add_ofNat (by omega)] at hserves
  exact hserves

theorem Uses.block_within (h : Uses pool island) (hsound : Sound pool) :
    (block island).Within pool.region := by
  obtain ⟨hlow, hhigh⟩ := h
  have hle := hsound.high
  constructor
  · change 4 * pool.base.toNat ≤ 4 * island.toNat
    omega
  · change 4 * island.toNat + 4 * syscallGateIslandWords ≤ 4 * pool.base.toNat + pool.size.toNat
    omega

theorem Uses.fits (h : Uses pool island) (hsound : Sound pool) :
    island.toNat + syscallGateIslandWords < 2 ^ 62 := by
  obtain ⟨-, hhigh⟩ := h
  obtain ⟨-, hle, htop⟩ := hsound
  omega

end

section

variable {pool : GatePool} {instr island : WordPtr}

theorem toNat_cur_advance (h : Sound pool) :
    pool.advance.cur.toNat = pool.cur.toNat + syscallGateIslandWords := by
  obtain ⟨-, hhigh, htop⟩ := h
  change 4 * pool.base.toNat + pool.size.toNat ≤ _ at htop
  exact toNat_add_ofNat (by rw [syscallGateIslandWords]; omega)

theorem sound_advance (h : Sound pool) (hserves : pool.serves instr = true) :
    Sound pool.advance := by
  obtain ⟨hroom, -⟩ := h.serves hserves
  have hcur := toNat_cur_advance h
  have hlow := h.low
  refine ⟨?_, ?_, h.top⟩
  · change pool.base.toNat ≤ _
    omega
  · change _ ≤ pool.base.toNat + pool.size.toNat / 4
    omega

theorem uses_advance (h : Sound pool) : Uses pool.advance pool.cur :=
  ⟨h.low, (toNat_cur_advance h).ge⟩

theorem Uses.advance (h : Sound pool) (huses : Uses pool island) : Uses pool.advance island := by
  refine ⟨huses.1, huses.2.trans ?_⟩
  rw [toNat_cur_advance h]
  exact Nat.le_add_right _ _

end

variable {code : List Region} {space space' : AddressSpace} {pools pools' : List GatePool} {i : Nat}
  {pool : GatePool} {instr island : WordPtr}

theorem map_region_set (hpool : pools[i]? = some pool) :
    (pools.set i pool.advance).map GatePool.region = pools.map GatePool.region := by
  apply ext_getElem?
  intro j
  rw [getElem?_map, getElem?_map, getElem?_set]
  split_ifs with hij hi
  · rw [← hij, hpool]
    rfl
  · rw [← hij, getElem?_eq_none (Nat.not_lt.mp hi)]
  · rfl

theorem exists_uses_set (hpool : pools[i]? = some pool) (hsound : Sound pool)
    (h : ∃ q ∈ pools, Uses q island) : ∃ q ∈ pools.set i pool.advance, Uses q island := by
  obtain ⟨q, hq, huses⟩ := h
  obtain ⟨j, hj⟩ := mem_iff_getElem?.mp hq
  rcases eq_or_ne i j with rfl | hij
  · obtain rfl : pool = q := Option.some.inj (hpool.symm.trans hj)
    have hi : i < pools.length := (List.getElem?_eq_some_iff.mp hpool).1
    exact ⟨_, mem_set hi _, huses.advance hsound⟩
  · refine ⟨q, mem_of_getElem? (i := j) ?_, huses⟩
    rw [getElem?_set_ne hij, hj]

theorem exists_uses_of_supplies {g : Gate} (h : Supplies g instr space pools)
    (huses : ∃ q ∈ g.pools, Uses q island) : ∃ q ∈ pools, Uses q island := by
  rcases h with _ | ⟨base, -, hadds⟩
  · exact huses
  · obtain ⟨q, hq, hisland⟩ := huses
    refine ⟨q, ?_, hisland⟩
    rw [hadds.pools_eq]
    exact mem_append_left _ hq

namespace Arranged

theorem advance (h : Arranged code space pools) (hpool : pools[i]? = some pool)
    (hserves : pool.serves instr = true) : Arranged code space (pools.set i pool.advance) := by
  have hmem := mem_of_getElem? hpool
  constructor
  · intro p hp
    rcases mem_or_eq_of_mem_set hp with hp | rfl
    · exact h.sound p hp
    · exact sound_advance (h.sound pool hmem) hserves
  · have hapart : ((pools.set i pool.advance).map GatePool.region).Pairwise Region.Disjoint := by
      rw [map_region_set hpool]
      exact pairwise_map.mpr h.apart
    rwa [pairwise_map] at hapart
  · intro p hp
    rcases mem_or_eq_of_mem_set hp with hp | rfl
    · exact h.covered p hp
    · exact h.covered pool hmem
  · exact h.code_covered
  · intro p hp
    rcases mem_or_eq_of_mem_set hp with hp | rfl
    · exact h.off_code p hp
    · exact h.off_code pool hmem

theorem mono (h : Arranged code space pools) (hextends : space.Extends space') :
    Arranged code space' pools where
  sound := h.sound
  apart := h.apart
  covered := fun p hp => (h.covered p hp).mono hextends
  code_covered := fun c hc => (h.code_covered c hc).mono hextends
  off_code := h.off_code

theorem concat {base : Addr} {size : BitVec 64} (h : Arranged code space pools)
    (hword : base.toNat % 4 = 0) (htop : base.toNat + size.toNat ≤ 2 ^ 64 - 4096)
    (hpools : ∀ p ∈ pools, p.region.Disjoint ⟨base.toNat, size.toNat⟩)
    (hcovers : space.Covers ⟨base.toNat, size.toNat⟩)
    (hcode : ∀ c ∈ code, Region.Disjoint ⟨base.toNat, size.toNat⟩ c) :
    Arranged code space (pools ++ [newPool base size]) := by
  have hregion : (newPool base size).region = ⟨base.toNat, size.toNat⟩ := by
    change (⟨4 * (toWord base).toNat, size.toNat⟩ : Region) = _
    rw [toNat_toWord, Nat.mul_div_cancel' (Nat.dvd_of_mod_eq_zero hword)]
  have hsplit : ∀ p ∈ pools ++ [newPool base size], p ∈ pools ∨ p = newPool base size := by
    intro p hp
    rwa [mem_append, mem_singleton] at hp
  constructor
  · intro p hp
    rcases hsplit p hp with hp | rfl
    · exact h.sound p hp
    · refine ⟨le_refl _, Nat.le_add_right _ _, ?_⟩
      rw [hregion]
      exact htop
  · rw [pairwise_append]
    refine ⟨h.apart, pairwise_singleton _ _, ?_⟩
    intro p hp q hq
    obtain rfl := mem_singleton.mp hq
    rw [Apart, hregion]
    exact hpools p hp
  · intro p hp
    rcases hsplit p hp with hp | rfl
    · exact h.covered p hp
    · rw [hregion]
      exact hcovers
  · exact h.code_covered
  · intro p hp
    rcases hsplit p hp with hp | rfl
    · exact h.off_code p hp
    · rw [hregion]
      exact hcode

theorem add {base : Addr} {size : BitVec 64} (h : Arranged code space pools)
    (hword : base.toNat % 4 = 0) (hadds : Adds size space space' pools pools' base) :
    Arranged code space' pools' := by
  obtain ⟨hobtains, rfl⟩ := hadds
  apply (h.mono hobtains.extends_).concat hword hobtains.below_top
  · exact fun p hp => hobtains.disjoint (h.covered p hp)
  · exact hobtains.covers
  · exact fun c hc => (hobtains.disjoint (h.code_covered c hc)).symm

theorem supplies {g : Gate} (h : Arranged code g.space g.pools)
    (hsupplies : Supplies g instr space pools) : Arranged code space pools := by
  rcases hsupplies with _ | ⟨base, hnear, hadds⟩
  · exact h
  · exact h.add hnear.word hadds

theorem block_disjoint (h : Arranged code space pools) (hpool : pools[i]? = some pool)
    (hserves : pool.serves instr = true) (huses : ∃ q ∈ pools, Uses q island) :
    (block island).Disjoint (block pool.cur) := by
  obtain ⟨q, hq, hisland⟩ := huses
  have hmem := mem_of_getElem? hpool
  have hsound := h.sound pool hmem
  rcases eq_or_ne q pool with rfl | hne
  · left
    change 4 * island.toNat + 4 * syscallGateIslandWords ≤ 4 * q.cur.toNat
    have hbelow := hisland.2
    omega
  · have hcur := (uses_advance hsound).block_within (sound_advance hsound hserves)
    exact (h.apart.forall hq hmem hne).within (hisland.block_within (h.sound q hq)) hcur

end Arranged

end Machgate.PoolArrangement
