import Machgate.FixedMapping
import Machgate.GateIsland

namespace Machgate.GatePools

open ByteMemory FixedMapping GateIsland WordPointers
open BitVec hiding not_or

/-- A page size of the platform: 4 to 64 KiB. -/
structure PageSize where
  shift : Nat
  low : 12 ≤ shift
  high : shift ≤ 16

namespace PageSize

variable (page : PageSize)

def bytes : BitVec 64 := BitVec.ofNat 64 (2 ^ page.shift)

theorem toNat_bytes : page.bytes.toNat = 2 ^ page.shift := by
  have hshift : 2 ^ page.shift ≤ 2 ^ 16 := Nat.pow_le_pow_right (by decide) page.high
  rw [bytes, BitVec.toNat_ofNat, Nat.mod_eq_of_lt (by omega)]

theorem bytes_bounds : 4096 ≤ page.bytes.toNat ∧ page.bytes.toNat ≤ 65536 := by
  rw [page.toNat_bytes]
  exact ⟨Nat.pow_le_pow_right (n := 2) (by decide) page.low,
    Nat.pow_le_pow_right (n := 2) (by decide) page.high⟩

theorem four_dvd : 4 ∣ page.bytes.toNat := by
  rw [page.toNat_bytes]
  exact Nat.pow_dvd_pow 2 ((by decide : 2 ≤ 12).trans page.low)

end PageSize

def syscallGatePoolSize : BitVec 64 := 0x40000#64

def syscallGateMaxPools : Nat := 256

def syscallGateSearchStep : BitVec 64 := 0x100000#64

def range : BitVec 64 := 0x8000000#64

def alignDown (value alignment : BitVec 64) : BitVec 64 := value &&& ~~~(alignment - 1#64)

def alignUp (value alignment : BitVec 64) : BitVec 64 :=
  (value + alignment - 1#64) &&& ~~~(alignment - 1#64)

def arm64BranchInRange (byteOffset : BitVec 64) : Bool :=
  if byteOffset &&& 3#64 ≠ 0#64 then false
  else
    decide (-0x02000000 ≤ (byteOffset.sshiftRight 2).toInt ∧
      (byteOffset.sshiftRight 2).toInt < 0x02000000)

def islandReachable (instr island : WordPtr) : Bool :=
  arm64BranchInRange (toAddr island - toAddr instr)

def toWord (a : Addr) : WordPtr := a.extractLsb' 2 62

structure GatePool where
  base : WordPtr
  size : BitVec 64
  cur : WordPtr

namespace GatePool

def stop (pool : GatePool) : WordPtr := pool.base + BitVec.ofNat 62 (pool.size.toNat / 4)

def serves (instr : WordPtr) (pool : GatePool) : Bool :=
  !decide (pool.stop < pool.cur + BitVec.ofNat 62 syscallGateIslandWords) &&
    islandReachable instr pool.cur

def advance (pool : GatePool) : GatePool :=
  { pool with cur := pool.cur + BitVec.ofNat 62 syscallGateIslandWords }

def region (pool : GatePool) : Region := ⟨4 * pool.base.toNat, pool.size.toNat⟩

end GatePool

def newPool (base : Addr) (size : BitVec 64) : GatePool where
  base := toWord base
  size := size
  cur := toWord base

def registerGatePool (pools : List GatePool) (base : Addr) (size : BitVec 64) :
    Option (List GatePool) :=
  if base = 0#64 ∨ size < BitVec.ofNat 64 (syscallGateIslandWords * 4) then none
  else if syscallGateMaxPools ≤ pools.length then none
  else some (pools ++ [newPool base size])

def findGatePool (pools : List GatePool) (instr : WordPtr) : Option Nat :=
  pools.findIdx? (GatePool.serves instr)

theorem toNat_sub_step {minimum address step : BitVec 64} (hstep : step.toNat ≤ 2 ^ 63)
    (hlow : minimum ≤ address) (hnext : ¬ address < minimum + step) :
    (address - step).toNat + step.toNat = address.toNat := by
  rw [le_def] at hlow
  rw [lt_def, toNat_add] at hnext
  rw [toNat_sub]
  omega

theorem toNat_add_step {maximum address step : BitVec 64} (hhigh : address ≤ maximum)
    (hnext : ¬ maximum - address < step) :
    (address + step).toNat = address.toNat + step.toNat ∧
      address.toNat + step.toNat ≤ maximum.toNat := by
  rw [le_def] at hhigh
  rw [lt_def, toNat_sub] at hnext
  rw [toNat_add]
  omega

theorem toNat_syscallGateSearchStep : syscallGateSearchStep.toNat = 0x100000 := rfl

def searchDown (m : Mapper) (size minimum : BitVec 64) (s : AddressSpace) (address : Addr) :
    AddressSpace × Option Addr :=
  if minimum ≤ address then
    if (mapAt m size s address).2 ≠ 0#64 then
      ((mapAt m size s address).1, some (mapAt m size s address).2)
    else if address < minimum + syscallGateSearchStep then ((mapAt m size s address).1, none)
    else searchDown m size minimum (mapAt m size s address).1 (address - syscallGateSearchStep)
  else (s, none)
termination_by address.toNat
decreasing_by
  rename_i hlow _ hnext
  have hstep := toNat_syscallGateSearchStep
  have hsum := toNat_sub_step (by omega) hlow hnext
  omega

def searchUp (m : Mapper) (size maximum : BitVec 64) (s : AddressSpace) (address : Addr) :
    AddressSpace × Option Addr :=
  if address ≤ maximum then
    if (mapAt m size s address).2 ≠ 0#64 then
      ((mapAt m size s address).1, some (mapAt m size s address).2)
    else if maximum - address < syscallGateSearchStep then ((mapAt m size s address).1, none)
    else searchUp m size maximum (mapAt m size s address).1 (address + syscallGateSearchStep)
  else (s, none)
termination_by maximum.toNat - address.toNat
decreasing_by
  rename_i hhigh _ hnext
  have hstep := toNat_syscallGateSearchStep
  obtain ⟨hsum, hle⟩ := toNat_add_step hhigh hnext
  omega

/-- The end of both searches: what the loop found is registered; if it found nothing, `limit` is
tried. -/
def settle (m : Mapper) (size limit : BitVec 64) (pools : List GatePool) :
    AddressSpace × Option Addr → AddressSpace × Option (List GatePool)
  | (s, some base) => (s, registerGatePool pools base size)
  | (s, none) =>
    if (mapAt m size s limit).2 ≠ 0#64 then
      ((mapAt m size s limit).1, registerGatePool pools (mapAt m size s limit).2 size)
    else ((mapAt m size s limit).1, none)

def startBelow (site size page : BitVec 64) : Addr :=
  alignDown (if size < site then site - size else page) page

def minimumBelow (site page : BitVec 64) : Addr :=
  if range < site then alignUp (site - range) page else page

def startAbove (site page : BitVec 64) : Addr := alignUp (site + page) page

def maximumAbove (site size page : BitVec 64) : Addr := alignDown (site + range - size) page

def allocateGatePoolBelow (m : Mapper) (instr : WordPtr) (size page : BitVec 64)
    (pools : List GatePool) (s : AddressSpace) : AddressSpace × Option (List GatePool) :=
  let site := toAddr instr
  let minimum := minimumBelow site page
  settle m size minimum pools (searchDown m size minimum s (startBelow site size page))

def allocateGatePoolAbove (m : Mapper) (instr : WordPtr) (size page : BitVec 64)
    (pools : List GatePool) (s : AddressSpace) : AddressSpace × Option (List GatePool) :=
  let site := toAddr instr
  let maximum := maximumAbove site size page
  settle m size maximum pools (searchUp m size maximum s (startAbove site page))

/-- Memory that could be mapped but not registered stays mapped. -/
def allocateGatePoolNear (m : Mapper) (page : PageSize) (instr : WordPtr) (pools : List GatePool)
    (s : AddressSpace) : AddressSpace × Option (List GatePool) :=
  let size := alignUp syscallGatePoolSize page.bytes
  let below := allocateGatePoolBelow m instr size page.bytes pools s
  if below.2.isSome then below
  else allocateGatePoolAbove m instr size page.bytes pools below.1

variable {m : Mapper} {size limit : BitVec 64} {s : AddressSpace} {address base : Addr}

theorem extends_searchDown : s.Extends (searchDown m size limit s address).1 := by
  fun_induction searchDown m size limit s address with
  | case1 | case2 => exact extends_mapAt m size _ _
  | case3 s address hlow hnull hnext ih => exact (extends_mapAt m size s address).trans ih
  | case4 => exact AddressSpace.Extends.refl _

theorem extends_searchUp : s.Extends (searchUp m size limit s address).1 := by
  fun_induction searchUp m size limit s address with
  | case1 | case2 => exact extends_mapAt m size _ _
  | case3 s address hlow hnull hnext ih => exact (extends_mapAt m size s address).trans ih
  | case4 => exact AddressSpace.Extends.refl _

theorem searchDown_found (h : (searchDown m size limit s address).2 = some base) :
    s.Obtains (searchDown m size limit s address).1 ⟨base.toNat, size.toNat⟩ ∧ limit ≤ base ∧ base ≤ address ∧
      base.toNat % 4 = address.toNat % 4 := by
  fun_induction searchDown m size limit s address with
  | case1 s address hlow hgrant =>
    obtain ⟨haddress, hobtains⟩ := obtains_mapAt m size s address hgrant
    obtain rfl : address = base := haddress ▸ Option.some.inj h
    exact ⟨hobtains, hlow, BitVec.le_refl _, rfl⟩
  | case2 | case4 => cases h
  | case3 s address hlow hnull hnext ih =>
    obtain ⟨hobtains, hlimit, hhigh, hword⟩ := ih h
    have hstep := toNat_syscallGateSearchStep
    have hsum := toNat_sub_step (by omega) hlow hnext
    rw [le_def] at hhigh
    refine ⟨hobtains.after (extends_mapAt m size s address), hlimit, ?_, by omega⟩
    rw [le_def]
    omega

theorem searchUp_found (h : (searchUp m size limit s address).2 = some base) :
    s.Obtains (searchUp m size limit s address).1 ⟨base.toNat, size.toNat⟩ ∧ address ≤ base ∧ base ≤ limit ∧
      base.toNat % 4 = address.toNat % 4 := by
  fun_induction searchUp m size limit s address with
  | case1 s address hhigh hgrant =>
    obtain ⟨haddress, hobtains⟩ := obtains_mapAt m size s address hgrant
    obtain rfl : address = base := haddress ▸ Option.some.inj h
    exact ⟨hobtains, BitVec.le_refl _, hhigh, rfl⟩
  | case2 | case4 => cases h
  | case3 s address hhigh hnull hnext ih =>
    obtain ⟨hobtains, hlow, hlimit, hword⟩ := ih h
    have hstep := toNat_syscallGateSearchStep
    obtain ⟨hsum, hle⟩ := toNat_add_step hhigh hnext
    rw [le_def] at hlow
    refine ⟨hobtains.after (extends_mapAt m size s address), ?_, hlimit, by omega⟩
    rw [le_def]
    omega

/-- A pool at `base` was mapped and registered behind the others. -/
structure Adds (size : BitVec 64) (s t : AddressSpace) (pools pools' : List GatePool)
    (base : Addr) : Prop where
  obtains : s.Obtains t ⟨base.toNat, size.toNat⟩
  pools_eq : pools' = pools ++ [newPool base size]

variable {pools pools' : List GatePool}

theorem registerGatePool_eq_some (h : registerGatePool pools base size = some pools') :
    pools' = pools ++ [newPool base size] ∧ base ≠ 0#64 ∧
      BitVec.ofNat 64 (syscallGateIslandWords * 4) ≤ size ∧ pools.length < syscallGateMaxPools := by
  rw [registerGatePool] at h
  split_ifs at h with hrefused hfull
  rw [not_or] at hrefused
  exact ⟨(Option.some.inj h).symm, hrefused.1, BitVec.not_lt.mp hrefused.2, Nat.not_le.mp hfull⟩

theorem extends_settle {found : AddressSpace × Option Addr} (h : s.Extends found.1) :
    s.Extends (settle m size limit pools found).1 := by
  obtain ⟨t, _ | base⟩ := found
  · rw [settle]
    split_ifs
    all_goals exact h.trans (extends_mapAt m size t limit)
  · exact h

theorem settle_eq_some {found : AddressSpace × Option Addr} (hextends : s.Extends found.1)
    (hfound : ∀ base, found.2 = some base → s.Obtains found.1 ⟨base.toNat, size.toNat⟩)
    (h : (settle m size limit pools found).2 = some pools') :
    ∃ base, Adds size s (settle m size limit pools found).1 pools pools' base ∧
      (found.2 = some base ∨ base = limit) := by
  obtain ⟨t, _ | base⟩ := found
  · rw [settle] at h ⊢
    split_ifs at h ⊢ with hgrant
    obtain ⟨hlimit, hobtains⟩ := obtains_mapAt m size t limit hgrant
    rw [hlimit] at h
    exact ⟨limit, ⟨hobtains.after hextends, (registerGatePool_eq_some h).1⟩, Or.inr rfl⟩
  · exact ⟨base, ⟨hfound base rfl, (registerGatePool_eq_some h).1⟩, Or.inl rfl⟩

end Machgate.GatePools
