import Machgate.GatePools

namespace Machgate.GateReach

open ByteMemory FixedMapping GatePools WordPointers Nat
open BitVec hiding or_zero shiftLeft_eq succ_mul

section

variable (page : PageSize)

theorem getLsbD_mask (i : Nat) : (page.bytes - 1#64).getLsbD i = decide (i < page.shift) := by
  have hbounds := page.bytes_bounds
  have hmask : (page.bytes - 1#64).toNat = 2 ^ page.shift - 1 := by
    rw [← page.toNat_bytes, toNat_sub, toNat_ofNat]
    omega
  rw [getLsbD, hmask, testBit_two_pow_sub_one]

variable (v : BitVec 64)

theorem alignDown_eq : alignDown v page.bytes = v >>> page.shift <<< page.shift := by
  apply eq_of_getLsbD_eq
  intro i hi
  rw [alignDown, getLsbD_and, getLsbD_not, getLsbD_mask, getLsbD_shiftLeft, getLsbD_ushiftRight]
  by_cases hlow : i < page.shift
  · simp [hlow]
  · simp [hlow, hi, show page.shift + (i - page.shift) = i by omega]

theorem toNat_alignDown :
    (alignDown v page.bytes).toNat = v.toNat / page.bytes.toNat * page.bytes.toNat := by
  have hlt : v.toNat / 2 ^ page.shift * 2 ^ page.shift < 2 ^ 64 :=
    (div_mul_le_self _ _).trans_lt v.isLt
  rw [alignDown_eq, toNat_shiftLeft, toNat_ushiftRight, shiftRight_eq_div_pow,
    shiftLeft_eq, mod_eq_of_lt hlt, page.toNat_bytes]

/-- An aligned value, in the terms of the bounds of a search. -/
structure Aligned (v a : BitVec 64) : Prop where
  le : a.toNat ≤ v.toNat
  lt : v.toNat < a.toNat + page.bytes.toNat
  word : a.toNat % 4 = 0

theorem aligned_alignDown : Aligned page v (alignDown v page.bytes) := by
  have hpos : 0 < page.bytes.toNat := Nat.lt_of_lt_of_le (by decide) page.bytes_bounds.1
  constructor
  · rw [toNat_alignDown]
    exact div_mul_le_self _ _
  · rw [toNat_alignDown, ← succ_mul]
    exact lt_mul_of_div_lt (lt_succ_self _) hpos
  · rw [toNat_alignDown]
    exact mod_eq_zero_of_dvd (page.four_dvd.mul_left _)

theorem aligned_alignUp : Aligned page (v + page.bytes - 1#64) (alignUp v page.bytes) :=
  aligned_alignDown page _

theorem alignUp_syscallGatePoolSize :
    alignUp syscallGatePoolSize page.bytes = syscallGatePoolSize := by
  obtain ⟨hlow, hhigh⟩ := page.bytes_bounds
  obtain ⟨q, hq⟩ : page.bytes.toNat ∣ 2 ^ 18 := by
    rw [page.toNat_bytes]
    exact Nat.pow_dvd_pow 2 (page.high.trans (by decide))
  have hsize : syscallGatePoolSize.toNat = 2 ^ 18 := rfl
  have hvalue : (syscallGatePoolSize + page.bytes - 1#64).toNat =
      page.bytes.toNat * q + (page.bytes.toNat - 1) := by
    rw [toNat_sub, toNat_add, toNat_ofNat]
    omega
  apply eq_of_toNat_eq
  change (alignDown (syscallGatePoolSize + page.bytes - 1#64) page.bytes).toNat = _
  rw [toNat_alignDown, hvalue, mul_add_div (by omega), div_eq_of_lt (by omega), hsize, hq,
    Nat.add_zero, Nat.mul_comm]

end

section

theorem toAddr_sub (p q : WordPtr) : toAddr (p - q) = toAddr p - toAddr q := by
  rw [eq_sub_iff_add_eq, ← toAddr_add, sub_add_cancel]

theorem toInt_toAddr_sub (p q : WordPtr) : (toAddr p - toAddr q).toInt = 4 * wordDistance p q := by
  rw [← toAddr_sub]
  exact toInt_append_zero

theorem toNat_toAddr (p : WordPtr) : (toAddr p).toNat = 4 * p.toNat := by
  rw [toAddr, toNat_append, toNat_ofNat]
  change p.toNat <<< 2 ||| 0 = _
  rw [or_zero, shiftLeft_eq, Nat.mul_comm]

theorem toNat_toWord (a : Addr) : (toWord a).toNat = a.toNat / 4 := by
  have hlt := a.isLt
  rw [toWord, extractLsb'_toNat, shiftRight_eq_div_pow, mod_eq_of_lt (by omega)]

theorem toAddr_toWord {a : Addr} (ha : a.toNat % 4 = 0) : toAddr (toWord a) = a := by
  apply eq_of_toNat_eq
  rw [toNat_toAddr, toNat_toWord]
  omega

theorem islandReachable_iff (instr island : WordPtr) :
    islandReachable instr island = true ↔ FitsBranch (wordDistance island instr) := by
  have hlow : (toAddr island - toAddr instr) &&& 3#64 = 0#64 := by
    apply eq_of_toNat_eq
    rw [← toAddr_sub, toNat_and, toNat_toAddr]
    change 4 * _ &&& (2 ^ 2 - 1) = 0
    rw [and_two_pow_sub_one_eq_mod]
    omega
  have hshift : ((toAddr island - toAddr instr).sshiftRight 2).toInt = wordDistance island instr := by
    rw [toInt_sshiftRight, toInt_toAddr_sub, Int.shiftRight_eq_div_pow]
    omega
  rw [islandReachable, arm64BranchInRange, if_neg (not_not.mpr hlow), hshift, decide_eq_true_iff,
    FitsBranch]
  omega

structure Near (site base : Addr) : Prop where
  word : base.toNat % 4 = 0
  low : -0x8000000 ≤ (base - site).toInt
  high : (base - site).toInt < 0x8000000

theorem Near.fitsBranch {instr : WordPtr} {base : Addr} (h : Near (toAddr instr) base) :
    FitsBranch (wordDistance (toWord base) instr) := by
  have hdistance := toInt_toAddr_sub (toWord base) instr
  have hlow := h.low
  have hhigh := h.high
  rw [toAddr_toWord h.word] at hdistance
  unfold FitsBranch
  omega

variable (page : PageSize) {site base : Addr}

theorem near_of_toNat (hword : base.toNat % 4 = 0) (hlow : site.toNat ≤ base.toNat + 0x8000000)
    (hhigh : base.toNat < site.toNat + 0x8000000) : Near site base := by
  constructor
  · exact hword
  all_goals
    rw [toInt_eq_toNat_bmod, toNat_sub, Int.bmod_def]
    omega

theorem near_of_forward (hword : base.toNat % 4 = 0) (h : (base - site).toNat < 0x8000000) :
    Near site base := by
  have hint : (base - site).toInt = (base - site).toNat := by
    rw [toInt_eq_toNat_of_lt]
    omega
  exact ⟨hword, by omega, by omega⟩

theorem minimumBelow_bounds (site : Addr) :
    (minimumBelow site page.bytes).toNat % 4 = 0 ∧
      site.toNat ≤ (minimumBelow site page.bytes).toNat + 0x8000000 ∧
      (minimumBelow site page.bytes).toNat < site.toNat + 0x8000000 := by
  have hpage := page.bytes_bounds
  have hrange : range.toNat = 0x8000000 := rfl
  rw [minimumBelow]
  split_ifs with hfar
  · obtain ⟨hle, hlt, hword⟩ := aligned_alignUp page (site - range)
    rw [lt_def] at hfar
    have hvalue : (site - range + page.bytes - 1#64).toNat =
        site.toNat - range.toNat + page.bytes.toNat - 1 := by
      rw [toNat_sub, toNat_add, toNat_sub, toNat_ofNat]
      omega
    exact ⟨hword, by omega, by omega⟩
  · have hle : site.toNat ≤ range.toNat := not_lt.mp hfar
    exact ⟨mod_eq_zero_of_dvd page.four_dvd, by omega, by omega⟩

theorem startBelow_bounds (site : Addr) :
    (startBelow site syscallGatePoolSize page.bytes).toNat % 4 = 0 ∧
      (startBelow site syscallGatePoolSize page.bytes).toNat < site.toNat + 0x8000000 := by
  have hpage := page.bytes_bounds
  have hsize : syscallGatePoolSize.toNat = 0x40000 := rfl
  have hsite := site.isLt
  rw [startBelow]
  obtain ⟨hle, -, hword⟩ := aligned_alignDown page
    (if syscallGatePoolSize < site then site - syscallGatePoolSize else page.bytes)
  refine ⟨hword, ?_⟩
  split_ifs at hle ⊢ with hroom
  · rw [lt_def] at hroom
    rw [toNat_sub_of_le (le_of_lt hroom)] at hle
    omega
  · omega

theorem near_minimumBelow (site : Addr) : Near site (minimumBelow site page.bytes) := by
  obtain ⟨hword, hlow, hhigh⟩ := minimumBelow_bounds page site
  exact near_of_toNat hword hlow hhigh

theorem near_of_below
    (hword : base.toNat % 4 = (startBelow site syscallGatePoolSize page.bytes).toNat % 4)
    (hlow : minimumBelow site page.bytes ≤ base)
    (hhigh : base ≤ startBelow site syscallGatePoolSize page.bytes) : Near site base := by
  obtain ⟨hstart, hlt⟩ := startBelow_bounds page site
  obtain ⟨-, hminimum, -⟩ := minimumBelow_bounds page site
  rw [le_def] at hlow hhigh
  exact near_of_toNat (by omega) (by omega) (by omega)

/-- The sum may wrap; the distance from the site does not. -/
theorem maximumAbove_bounds (site : Addr) :
    (maximumAbove site syscallGatePoolSize page.bytes).toNat % 4 = 0 ∧
      (maximumAbove site syscallGatePoolSize page.bytes).toNat ≤
        (site.toNat + 0x7FC0000) % 2 ^ 64 ∧
      (site.toNat + 0x7FC0000) % 2 ^ 64 <
        (maximumAbove site syscallGatePoolSize page.bytes).toNat + page.bytes.toNat := by
  obtain ⟨hle, hlt, hword⟩ := aligned_alignDown page (site + range - syscallGatePoolSize)
  have hvalue : (site + range - syscallGatePoolSize).toNat = (site.toNat + 0x7FC0000) % 2 ^ 64 := by
    have hrange : range.toNat = 0x8000000 := rfl
    have hsize : syscallGatePoolSize.toNat = 0x40000 := rfl
    rw [toNat_sub, toNat_add]
    omega
  rw [hvalue] at hle hlt
  exact ⟨hword, hle, hlt⟩

theorem startAbove_bounds (site : Addr) :
    (startAbove site page.bytes).toNat % 4 = 0 ∧
      (site.toNat + 2 * page.bytes.toNat - 1) % 2 ^ 64 <
        (startAbove site page.bytes).toNat + page.bytes.toNat := by
  have hpage := page.bytes_bounds
  obtain ⟨-, hlt, hword⟩ := aligned_alignUp page (site + page.bytes)
  have hvalue : (site + page.bytes + page.bytes - 1#64).toNat =
      (site.toNat + 2 * page.bytes.toNat - 1) % 2 ^ 64 := by
    rw [toNat_sub, toNat_add, toNat_add, toNat_ofNat]
    omega
  rw [hvalue] at hlt
  exact ⟨hword, hlt⟩

theorem near_maximumAbove (site : Addr) :
    Near site (maximumAbove site syscallGatePoolSize page.bytes) := by
  have hpage := page.bytes_bounds
  have hsite := site.isLt
  obtain ⟨hword, hle, hlt⟩ := maximumAbove_bounds page site
  apply near_of_forward hword
  rw [toNat_sub]
  omega

theorem near_of_above (hword : base.toNat % 4 = (startAbove site page.bytes).toNat % 4)
    (hlow : startAbove site page.bytes ≤ base)
    (hhigh : base ≤ maximumAbove site syscallGatePoolSize page.bytes) : Near site base := by
  have hpage := page.bytes_bounds
  have hsite := site.isLt
  obtain ⟨hstart, hfirst⟩ := startAbove_bounds page site
  obtain ⟨-, hlast, -⟩ := maximumAbove_bounds page site
  rw [le_def] at hlow hhigh
  apply near_of_forward (by omega)
  rw [toNat_sub]
  omega

end

variable {m : Mapper} {page : PageSize} {instr : WordPtr} {pools pools' : List GatePool}
  {s : AddressSpace}

theorem allocateGatePoolBelow_eq_some
    (h : (allocateGatePoolBelow m instr syscallGatePoolSize page.bytes pools s).2 = some pools') :
    ∃ base, Near (toAddr instr) base ∧
      Adds syscallGatePoolSize s
        (allocateGatePoolBelow m instr syscallGatePoolSize page.bytes pools s).1 pools pools' base := by
  obtain ⟨base, hadds, hfound | rfl⟩ := settle_eq_some extends_searchDown
    (fun base hbase => (searchDown_found hbase).1) h
  · obtain ⟨-, hlow, hhigh, hword⟩ := searchDown_found hfound
    exact ⟨base, near_of_below page hword hlow hhigh, hadds⟩
  · exact ⟨_, near_minimumBelow page _, hadds⟩

theorem allocateGatePoolAbove_eq_some
    (h : (allocateGatePoolAbove m instr syscallGatePoolSize page.bytes pools s).2 = some pools') :
    ∃ base, Near (toAddr instr) base ∧
      Adds syscallGatePoolSize s
        (allocateGatePoolAbove m instr syscallGatePoolSize page.bytes pools s).1 pools pools' base := by
  obtain ⟨base, hadds, hfound | rfl⟩ := settle_eq_some extends_searchUp
    (fun base hbase => (searchUp_found hbase).1) h
  · obtain ⟨-, hlow, hhigh, hword⟩ := searchUp_found hfound
    exact ⟨base, near_of_above page hword hlow hhigh, hadds⟩
  · exact ⟨_, near_maximumAbove page _, hadds⟩

theorem allocateGatePoolNear_eq_some
    (h : (allocateGatePoolNear m page instr pools s).2 = some pools') :
    ∃ base, Near (toAddr instr) base ∧
      Adds syscallGatePoolSize s (allocateGatePoolNear m page instr pools s).1 pools pools' base := by
  rw [allocateGatePoolNear, alignUp_syscallGatePoolSize] at h ⊢
  split_ifs at h ⊢ with hbelow
  · exact allocateGatePoolBelow_eq_some h
  · obtain ⟨base, hnear, hadds⟩ := allocateGatePoolAbove_eq_some h
    exact ⟨base, hnear, hadds.obtains.after (extends_settle extends_searchDown), hadds.pools_eq⟩

end Machgate.GateReach
