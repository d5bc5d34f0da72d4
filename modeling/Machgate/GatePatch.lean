import Machgate.GateReach
import Machgate.IslandPool

namespace Machgate.GatePatch

open Arm64Encoders ByteMemory FixedMapping GateIsland GatePools GateReach MachineState WordPointers
open Option List Bool Prod
open IslandPool (LoadResults machgatePoolAlloc)

def darwinSvc0x80 : Word := 0xD4001001#32

structure Patch where
  site : WordPtr
  island : WordPtr

/-- The memory, the registered pools, what is mapped, and the sites rewritten so far, the last one
first. -/
structure Gate where
  mem : WordPtr → Word
  pools : List GatePool
  space : AddressSpace
  log : List Patch

def gatePoolFor (m : Mapper) (page : PageSize) (g : Gate) (instr : WordPtr) :
    Option (AddressSpace × List GatePool × Nat) :=
  match findGatePool g.pools instr with
  | some i => some (g.space, g.pools, i)
  | none =>
    let near := allocateGatePoolNear m page instr g.pools g.space
    near.2.map fun pools => (near.1, pools, g.pools.length)

/-- An island at the start of what is left of `pools[i]`, and the branch to it. -/
def placeIsland (dispatcher : Addr) (g : Gate) (instr : WordPtr) (space : AddressSpace)
    (pools : List GatePool) (i : Nat) (pool : GatePool) : Gate where
  mem := Function.update
    (writeWords g.mem pool.cur (emitIsland dispatcher pool.cur instr)) instr
    (encB (BitVec.ofInt 32 (wordDistance pool.cur instr)))
  pools := pools.set i pool.advance
  space := space
  log := { site := instr, island := pool.cur } :: g.log

def patchInstruction (m : Mapper) (page : PageSize) (dispatcher : Addr) (g : Gate)
    (instr : WordPtr) : Option Gate :=
  (gatePoolFor m page g instr).bind fun (space, pools, i) =>
    pools[i]?.map (placeIsland dispatcher g instr space pools i)

def patchWords (m : Mapper) (page : PageSize) (dispatcher : Addr) : Gate → List WordPtr → Option Gate
  | g, [] => some g
  | g, instr :: rest =>
    if g.mem instr ≠ darwinSvc0x80 then patchWords m page dispatcher g rest
    else (patchInstruction m page dispatcher g instr).bind fun next =>
      patchWords m page dispatcher next rest

structure Section64 where
  addr : WordPtr
  size : BitVec 64
  flags : BitVec 32

structure SegmentCommand64 where
  maxprot : BitVec 32
  sections : List Section64

/-- A load command; `none` stands for the commands that are no segments. -/
structure LoadCommand where
  cmdsize : BitVec 32
  segment : Option SegmentCommand64

def scannedSegments (sizeofcmds : BitVec 32) : BitVec 32 → List LoadCommand → List SegmentCommand64
  | _, [] => []
  | offset, lc :: rest =>
    if offset < sizeofcmds then
      lc.segment.toList ++ scannedSegments sizeofcmds (offset + lc.cmdsize) rest
    else []

def SegmentCommand64.executable (seg : SegmentCommand64) : Bool := seg.maxprot &&& 4#32 ≠ 0#32

def Section64.hasInstructions (sect : Section64) : Bool :=
  sect.flags &&& 0x400#32 ≠ 0#32 || sect.flags &&& 0x80000000#32 ≠ 0#32

/-- The image as it was mapped; instructions are aligned, so the slide and the section addresses
are counted in words. -/
structure Macho where
  mem : WordPtr → Word
  slide : WordPtr
  sizeofcmds : BitVec 32
  cmds : List LoadCommand

namespace Macho

variable (image : Macho)

def sections : List Section64 :=
  ((scannedSegments image.sizeofcmds 0#32 image.cmds).filter (·.executable)).flatMap fun seg =>
    seg.sections.filter (·.hasInstructions)

def code (sect : Section64) : WordPtr := sect.addr + image.slide

def sectionWords (sect : Section64) : List WordPtr :=
  (List.range (sect.size.toNat / 4)).map fun i => image.code sect + BitVec.ofNat 62 i

def sectionRegion (sect : Section64) : Region := ⟨4 * (image.code sect).toNat, sect.size.toNat⟩

end Macho

def patchSections (m : Mapper) (page : PageSize) (dispatcher : Addr) (image : Macho) :
    Gate → List Section64 → Option Gate
  | g, [] => some g
  | g, sect :: rest => (patchWords m page dispatcher g (image.sectionWords sect)).bind fun next =>
    patchSections m page dispatcher image next rest

/-- The pools a run starts with: the one beside the image, if there is room for it. -/
def adjacentPools (lr : LoadResults) : Option (List GatePool) :=
  let pool := (machgatePoolAlloc lr syscallGatePoolSize).1
  if pool = 0#64 then some [] else registerGatePool [] pool syscallGatePoolSize

/-- The state it ends in, with `none` for -1.  The number it returns is the length of the log. -/
def syscallGatePatch (m : Mapper) (page : PageSize) (dispatcher : Addr) (image : Macho)
    (lr : LoadResults) (space : AddressSpace) : Option Gate :=
  (adjacentPools lr).bind fun pools =>
    patchSections m page dispatcher image { mem := image.mem, pools, space, log := [] }
      image.sections

variable {m : Mapper} {page : PageSize} {g : Gate} {instr : WordPtr} {space : AddressSpace}
  {pools : List GatePool} {i : Nat}

/-- The pools a site can choose from: those there were, or these and a new one in reach. -/
inductive Supplies (g : Gate) (instr : WordPtr) : AddressSpace → List GatePool → Prop
  | kept : Supplies g instr g.space g.pools
  | added {space : AddressSpace} {pools : List GatePool} (base : Addr)
      (hnear : Near (toAddr instr) base)
      (hadds : Adds syscallGatePoolSize g.space space g.pools pools base) :
      Supplies g instr space pools

theorem serves_newPool {base : Addr} (hnear : Near (toAddr instr) base)
    (htop : base.toNat + syscallGatePoolSize.toNat ≤ 2 ^ 64 - 4096) :
    (newPool base syscallGatePoolSize).serves instr = true := by
  have hsize : syscallGatePoolSize.toNat = 0x40000 := rfl
  have hword := toNat_toWord base
  rw [GatePool.serves, and_eq_true, islandReachable_iff]
  refine ⟨?_, hnear.fitsBranch⟩
  rw [not_eq_true', decide_eq_false_iff_not, BitVec.not_lt, BitVec.le_def]
  change (toWord base + BitVec.ofNat 62 syscallGateIslandWords).toNat ≤
    (toWord base + BitVec.ofNat 62 (syscallGatePoolSize.toNat / 4)).toNat
  rw [toNat_add_ofNat (by rw [syscallGateIslandWords]; omega), toNat_add_ofNat (by omega),
    syscallGateIslandWords]
  omega

theorem gatePoolFor_eq_some (h : gatePoolFor m page g instr = some (space, pools, i)) :
    Supplies g instr space pools ∧ ∃ pool, pools[i]? = some pool ∧ pool.serves instr = true := by
  rw [gatePoolFor] at h
  rcases hfind : findGatePool g.pools instr with _ | j
  · rw [hfind] at h
    obtain ⟨pools', hnear, heq⟩ := map_eq_some_iff.mp h
    obtain ⟨rfl, rfl, rfl⟩ : _ = space ∧ pools' = pools ∧ _ = i := by
      simpa only [mk.injEq] using heq
    obtain ⟨base, hbase, hadds⟩ := allocateGatePoolNear_eq_some hnear
    refine ⟨.added base hbase hadds, newPool base syscallGatePoolSize, ?_, ?_⟩
    · rw [hadds.pools_eq, getElem?_concat_length]
    · exact serves_newPool hbase hadds.obtains.below_top
  · rw [hfind] at h
    obtain ⟨rfl, rfl, rfl⟩ : g.space = space ∧ g.pools = pools ∧ j = i := by
      simpa only [some.injEq, mk.injEq] using h
    obtain ⟨hj, hserves, -⟩ := findIdx?_eq_some_iff_getElem.mp hfind
    exact ⟨.kept, _, getElem?_eq_getElem hj, hserves⟩

theorem patchInstruction_eq_some {dispatcher : Addr} {next : Gate}
    (h : patchInstruction m page dispatcher g instr = some next) :
    ∃ space pools i pool, Supplies g instr space pools ∧ pools[i]? = some pool ∧
      pool.serves instr = true ∧ next = placeIsland dispatcher g instr space pools i pool := by
  obtain ⟨⟨space, pools, i⟩, hfor, hplace⟩ := bind_eq_some_iff.mp h
  obtain ⟨hsupplies, pool, hpool, hserves⟩ := gatePoolFor_eq_some hfor
  refine ⟨space, pools, i, pool, hsupplies, hpool, hserves, ?_⟩
  change Option.map (placeIsland dispatcher g instr space pools i) pools[i]? = some next at hplace
  rw [hpool] at hplace
  exact (some.inj hplace).symm

end Machgate.GatePatch
