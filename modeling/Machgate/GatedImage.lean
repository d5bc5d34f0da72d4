import Machgate.LoadedCode

namespace Machgate.GatedImage

open Arm64Encoders ByteMemory FixedMapping GateIsland GatePatch GatePools GateReach LoadedCode
open List Option
open MachineState PoolArrangement WordPointers
open IslandPatch (BranchesTo branchesTo_iff)

structure Placed (dispatcher : Addr) (image : LoadedImage) (g : Gate) (p : Patch) : Prop where
  code : image.IsCode p.site
  svc : image.mem p.site = darwinSvc0x80
  used : ∃ pool ∈ g.pools, Uses pool p.island
  fits : FitsBranch (wordDistance p.island p.site)
  forward : g.mem p.site = encB (BitVec.ofInt 32 (wordDistance p.island p.site))
  words : ∀ k w, (emitIsland dispatcher p.island p.site)[k]? = some w →
    g.mem (p.island + BitVec.ofNat 62 k) = w

/-- The run has come past the words `done`. -/
structure Gating (dispatcher : Addr) (image : LoadedImage) (done : List WordPtr) (g : Gate) :
    Prop where
  arranged : Arranged image.codeRegions g.space g.pools
  placed : ∀ p ∈ g.log, Placed dispatcher image g p
  own : g.log.Pairwise fun p q => p.site ≠ q.site ∧ (block p.island).Disjoint (block q.island)
  reached : ∀ site ∈ done, image.mem site = darwinSvc0x80 → ∃ p ∈ g.log, p.site = site
  kept : ∀ w, image.IsCode w → (∀ p ∈ g.log, p.site ≠ w) → g.mem w = image.mem w

section

variable {m : Mapper} {page : PageSize} {dispatcher : Addr} {image : LoadedImage}
  {done : List WordPtr} {g next : Gate} {instr : WordPtr} {space : AddressSpace}
  {pools : List GatePool} {i : Nat} {pool : GatePool} {p : Patch}

theorem Placed.place (h : Placed dispatcher image g p)
    (harranged : Arranged image.codeRegions space pools) (hsupplies : Supplies g instr space pools)
    (hpool : pools[i]? = some pool) (hserves : pool.serves instr = true) (hinstr : image.IsCode instr)
    (hne : p.site ≠ instr) :
    Placed dispatcher image (placeIsland dispatcher g instr space pools i pool) p := by
  have hmem := mem_of_getElem? hpool
  have hsound := harranged.sound pool hmem
  have hused := exists_uses_of_supplies hsupplies h.used
  have hcur : (block pool.cur).Within pool.region :=
    (uses_advance hsound).block_within (sound_advance hsound hserves)
  have hfits := (uses_advance hsound).fits (sound_advance hsound hserves)
  refine ⟨h.code, h.svc, exists_uses_set hpool hsound hused, h.fits, ?_, ?_⟩
  · rw [mem_placeIsland_of_disjoint hfits.le hne (block_disjoint_code harranged hmem hcur h.code)]
    exact h.forward
  · intro k w hw
    obtain ⟨q, hq, huses⟩ := hused
    have hk : k < syscallGateIslandWords := (List.getElem?_eq_some_iff.mp hw).1
    have hword := wordRegion_within_block hk (huses.fits (harranged.sound q hq))
    have hblock := huses.block_within (harranged.sound q hq)
    have hcode := block_disjoint_code harranged hq hblock hinstr
    have hdisjoint := harranged.block_disjoint hpool hserves ⟨q, hq, huses⟩
    rw [mem_placeIsland_of_disjoint hfits.le]
    · exact h.words k w hw
    · exact ne_of_disjoint (hcode.within hword ⟨le_refl _, le_refl _⟩)
    · exact hdisjoint.symm.within ⟨le_refl _, le_refl _⟩ hword

theorem placed_placeIsland (harranged : Arranged image.codeRegions space pools)
    (hpool : pools[i]? = some pool) (hserves : pool.serves instr = true)
    (hinstr : image.IsCode instr) (hsvc : image.mem instr = darwinSvc0x80) :
    Placed dispatcher image (placeIsland dispatcher g instr space pools i pool)
      ⟨instr, pool.cur⟩ := by
  have hmem := mem_of_getElem? hpool
  have hsound := harranged.sound pool hmem
  have huses := uses_advance hsound
  have hadvance := sound_advance hsound hserves
  have hi : i < pools.length := (List.getElem?_eq_some_iff.mp hpool).1
  refine ⟨hinstr, hsvc, ⟨_, mem_set hi _, huses⟩, (hsound.serves hserves).2,
    mem_placeIsland_instr, ?_⟩
  intro k w hw
  have hk : k < syscallGateIslandWords := (List.getElem?_eq_some_iff.mp hw).1
  have hword := wordRegion_within_block hk (huses.fits hadvance)
  have hcode := block_disjoint_code harranged hmem (huses.block_within hadvance) hinstr
  exact mem_placeIsland_island (ne_of_disjoint (hcode.within hword ⟨le_refl _, le_refl _⟩)) hw

namespace Gating

theorem unpatched (h : Gating dispatcher image done g) (hmem : g.mem instr = darwinSvc0x80) :
    ∀ p ∈ g.log, p.site ≠ instr := by
  rintro p hp rfl
  rw [(h.placed p hp).forward] at hmem
  exact encB_ne_darwinSvc0x80 _ hmem

theorem skip (h : Gating dispatcher image done g) (hinstr : image.IsCode instr)
    (hmem : g.mem instr ≠ darwinSvc0x80) : Gating dispatcher image (done ++ [instr]) g := by
  refine ⟨h.arranged, h.placed, h.own, ?_, h.kept⟩
  intro site hsite hsvc
  rcases mem_append.mp hsite with hdone | hlast
  · exact h.reached site hdone hsvc
  · obtain rfl := mem_singleton.mp hlast
    -- a word that is no longer the instruction it was has been rewritten
    by_contra hnone
    push Not at hnone
    exact hmem ((h.kept site hinstr hnone).trans hsvc)

theorem patch (h : Gating dispatcher image done g) (hinstr : image.IsCode instr)
    (hmem : g.mem instr = darwinSvc0x80)
    (hpatch : patchInstruction m page dispatcher g instr = some next) :
    Gating dispatcher image (done ++ [instr]) next := by
  obtain ⟨space, pools, i, pool, hsupplies, hpool, hserves, rfl⟩ := patchInstruction_eq_some hpatch
  have hsites := h.unpatched hmem
  have hsvc := (h.kept instr hinstr hsites).symm.trans hmem
  have harranged := h.arranged.supplies hsupplies
  have hpooled := mem_of_getElem? hpool
  have hsound := harranged.sound pool hpooled
  have hadvance := sound_advance hsound hserves
  constructor
  · exact harranged.advance hpool hserves
  · intro p hp
    rcases mem_cons.mp hp with rfl | hp
    · exact placed_placeIsland harranged hpool hserves hinstr hsvc
    · exact (h.placed p hp).place harranged hsupplies hpool hserves hinstr (hsites p hp)
  · refine pairwise_cons.mpr ⟨?_, h.own⟩
    intro p hp
    have hused := exists_uses_of_supplies hsupplies (h.placed p hp).used
    exact ⟨(hsites p hp).symm, (harranged.block_disjoint hpool hserves hused).symm⟩
  · intro site hsite hsite'
    rcases mem_append.mp hsite with hdone | hlast
    · obtain ⟨p, hp, hpsite⟩ := h.reached site hdone hsite'
      exact ⟨p, mem_cons_of_mem _ hp, hpsite⟩
    · exact ⟨_, mem_cons_self, (mem_singleton.mp hlast).symm⟩
  · intro w hw hlog
    have hne : w ≠ instr := (hlog _ mem_cons_self).symm
    have hblock := (uses_advance hsound).block_within hadvance
    have hfits := (uses_advance hsound).fits hadvance
    rw [mem_placeIsland_of_disjoint hfits.le hne (block_disjoint_code harranged hpooled hblock hw)]
    exact h.kept w hw fun p hp => hlog p (mem_cons_of_mem _ hp)

theorem patchWords {words : List WordPtr} (h : Gating dispatcher image done g)
    (hwords : ∀ w ∈ words, image.IsCode w)
    (hrun : GatePatch.patchWords m page dispatcher g words = some next) :
    Gating dispatcher image (done ++ words) next := by
  induction words generalizing g done with
  | nil =>
    obtain rfl := some.inj hrun
    rwa [append_nil]
  | cons instr rest ih =>
    have hinstr := hwords instr mem_cons_self
    have hrest : ∀ w ∈ rest, image.IsCode w := fun w hw => hwords w (mem_cons_of_mem _ hw)
    rw [append_cons]
    rw [GatePatch.patchWords] at hrun
    split_ifs at hrun with hmem
    · exact ih (h.skip hinstr hmem) hrest hrun
    · obtain ⟨step, hstep, hrun⟩ := bind_eq_some_iff.mp hrun
      exact ih (h.patch hinstr (not_not.mp hmem) hstep) hrest hrun

theorem patchSections {sects : List Section64} (h : Gating dispatcher image done g)
    (hsects : ∀ sect ∈ sects, sect ∈ image.sections)
    (hrun : GatePatch.patchSections m page dispatcher image.toMacho g sects = some next) :
    Gating dispatcher image (done ++ sects.flatMap image.sectionWords) next := by
  induction sects generalizing g done with
  | nil =>
    obtain rfl := some.inj hrun
    rwa [flatMap_nil, append_nil]
  | cons sect rest ih =>
    obtain ⟨step, hstep, hrun⟩ := bind_eq_some_iff.mp hrun
    have hsect := hsects sect mem_cons_self
    rw [flatMap_cons, ← append_assoc]
    exact ih (h.patchWords (fun w hw => ⟨sect, hsect, hw⟩) hstep)
      (fun s hs => hsects s (mem_cons_of_mem _ hs)) hrun

theorem start (hpools : Arranged image.codeRegions image.space pools) :
    Gating dispatcher image []
      { mem := image.mem, pools := pools, space := image.space, log := [] } where
  arranged := hpools
  placed := fun _ hp => absurd hp not_mem_nil
  own := Pairwise.nil
  reached := fun _ hsite => absurd hsite not_mem_nil
  kept := fun _ _ _ => rfl

end Gating

theorem gating_of_patch (h : image.patch m page dispatcher = some g) :
    Gating dispatcher image (image.sections.flatMap image.sectionWords) g := by
  obtain ⟨pools, hpools, hrun⟩ := bind_eq_some_iff.mp h
  exact (Gating.start (arranged_adjacentPools hpools)).patchSections (fun _ hsect => hsect) hrun

end

/-- The site branches to an island inside a pool, in reach, that resumes behind the site. -/
structure Leads (dispatcher : Addr) (g : Gate) (p : Patch) : Prop where
  branches : BranchesTo g.mem p.site p.island
  fits : FitsBranch (wordDistance p.island p.site)
  inside : ∃ pool ∈ g.pools, (block p.island).Within pool.region
  words : ∀ k w, (emitIsland dispatcher p.island p.site)[k]? = some w →
    g.mem (p.island + BitVec.ofNat 62 k) = w
  resumes : g.mem (resumeLiteral p.island + 1#62) ++ g.mem (resumeLiteral p.island) =
    toAddr p.site + 4#64

theorem Placed.leads {dispatcher : Addr} {image : LoadedImage} {g : Gate} {p : Patch}
    (h : Placed dispatcher image g p) (hsound : ∀ pool ∈ g.pools, Sound pool) :
    Leads dispatcher g p := by
  obtain ⟨pool, hpool, huses⟩ := h.used
  refine ⟨(branchesTo_iff h.forward).mpr h.fits, h.fits,
    ⟨pool, hpool, huses.block_within (hsound pool hpool)⟩, h.words, ?_⟩
  have hlow := h.words 94 _ rfl
  have hhigh := h.words 95 _ rfl
  have hnext : resumeLiteral p.island + 1#62 = p.island + BitVec.ofNat 62 95 := by
    rw [resumeLiteral, add_assoc]
    rfl
  have hliteral : resumeLiteral p.island = p.island + BitVec.ofNat 62 94 := rfl
  rw [hnext, hhigh, hliteral, hlow, pointer_of_words, toAddr_next]

/-- Every `svc #0x80` of the instruction sections leads to an island of its own; the other words
are what they were; the pools are apart. -/
structure Gated (dispatcher : Addr) (image : LoadedImage) (g : Gate) : Prop where
  patched : ∀ site, image.IsCode site → image.mem site = darwinSvc0x80 →
    ∃ p ∈ g.log, p.site = site ∧ Leads dispatcher g p
  own : g.log.Pairwise fun p q => p.site ≠ q.site ∧ (block p.island).Disjoint (block q.island)
  others : ∀ w, image.IsCode w → image.mem w ≠ darwinSvc0x80 → g.mem w = image.mem w
  pools : g.pools.Pairwise Apart

theorem gated_of_patch (m : Mapper) (page : PageSize) (dispatcher : Addr) (image : LoadedImage)
    (g : Gate) (h : image.patch m page dispatcher = some g) : Gated dispatcher image g := by
  have hgating := gating_of_patch h
  constructor
  · intro site hcode hsvc
    obtain ⟨sect, hsect, hword⟩ := hcode
    obtain ⟨p, hp, hsite⟩ := hgating.reached site (mem_flatMap.mpr ⟨sect, hsect, hword⟩) hsvc
    exact ⟨p, hp, hsite, (hgating.placed p hp).leads hgating.arranged.sound⟩
  · exact hgating.own
  · intro w hcode hother
    apply hgating.kept w hcode
    rintro p hp rfl
    exact hother (hgating.placed p hp).svc
  · exact hgating.arranged.apart

def grant (mapped : List Region) (hint : Addr) (size : BitVec 64) : Option Addr :=
  if hint.toNat + size.toNat ≤ 2 ^ 64 - 4096 ∧
      mapped.all (fun r => decide (r.Disjoint ⟨hint.toNat, size.toNat⟩)) = true then some hint
  else none

theorem grant_eq_some {mapped : List Region} {hint result : Addr} {size : BitVec 64}
    (h : grant mapped hint size = some result) :
    result.toNat + size.toNat ≤ 2 ^ 64 - 4096 ∧
      ∀ r ∈ mapped, r.Disjoint ⟨result.toNat, size.toNat⟩ := by
  rw [grant] at h
  split_ifs at h with hfree
  obtain rfl := some.inj h
  exact ⟨hfree.1, fun r hr => of_decide_eq_true (all_eq_true.mp hfree.2 r hr)⟩

def grantFree : Mapper where
  mmap := fun _ => grant
  below_top := fun _ _ _ _ _ h => (grant_eq_some h).1
  fresh := fun _ _ _ _ _ h => (grant_eq_some h).2

def fourKiB : PageSize where
  shift := 12
  low := le_refl 12
  high := Nat.le_of_ble_eq_true rfl

def twoCalls : Macho where
  mem := fun w => if w = 0x4000001#62 then encNop else darwinSvc0x80
  slide := 0#62
  sizeofcmds := 152#32
  cmds := [⟨152#32, some ⟨5#32, [⟨0x4000000#62, 12#64, 0x80000400#32⟩]⟩⟩]

theorem twoCalls_mapped : ∀ sect ∈ twoCalls.sections,
    AddressSpace.Covers ⟨[⟨0x10000000, 4096⟩], 0⟩ (twoCalls.sectionRegion sect) := by
  intro sect hsect
  obtain rfl : sect = ⟨0x4000000#62, 12#64, 0x80000400#32⟩ := mem_singleton.mp hsect
  exact ⟨_, mem_cons_self, by decide⟩

def loadedTwoCalls : LoadedImage where
  toMacho := twoCalls
  lr := ⟨0#64, 0#64, 0#64⟩
  space := ⟨[⟨0x10000000, 4096⟩], 0⟩
  mapped_fits := fun _ hr => List.mem_singleton.mp hr ▸ Nat.le_of_ble_eq_true rfl
  code_mapped := twoCalls_mapped
  pool := fun h => absurd rfl h

/-- Both islands are in the pool that is mapped for the first call. -/
theorem twoCalls_gated : ∃ g, loadedTwoCalls.patch grantFree fourKiB 0x9000#64 = some g ∧
    g.log.map (fun p => (p.site, p.island)) =
      [(0x4000002#62, 0x3FF0060#62), (0x4000000#62, 0x3FF0000#62)] ∧
    Gated 0x9000#64 loadedTwoCalls g := by
  have hrun : (loadedTwoCalls.patch grantFree fourKiB 0x9000#64).map
      (fun g => g.log.map fun p => (p.site, p.island)) =
        some [(0x4000002#62, 0x3FF0060#62), (0x4000000#62, 0x3FF0000#62)] := by decide +kernel
  obtain ⟨g, hg, hlog⟩ := map_eq_some_iff.mp hrun
  exact ⟨g, hg, hlog, gated_of_patch grantFree fourKiB 0x9000#64 loadedTwoCalls g hg⟩

end Machgate.GatedImage
