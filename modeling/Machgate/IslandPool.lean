import Machgate.IslandPatch

namespace Machgate.IslandPool

open ByteMemory IslandPatch WordPointers BitVec Nat

/-- The address `mmap` returns for a hint and a length.  No two calls of one
search have the same hint, so every behaviour is a function of the hint. -/
abbrev Mmap := Addr → BitVec 64 → Addr

def mapFailed : Addr := BitVec.allOnes 64

def pageSize : BitVec 64 := 4096#64

def branchRange : BitVec 64 := 0x8000000#64

def alignPageSize (size : BitVec 64) : BitVec 64 :=
  let pageMask := pageSize - 1#64
  (size + pageMask) &&& ~~~pageMask

structure LoadResults where
  poolBase : Addr
  poolSize : BitVec 64
  poolUsed : BitVec 64
deriving DecidableEq

/-- Zero is the null pointer. -/
def machgatePoolAlloc (lr : LoadResults) (size : BitVec 64) : Addr × LoadResults :=
  let alignedOff := (lr.poolUsed + pageSize - 1#64) &&& ~~~(pageSize - 1#64)
  if lr.poolBase = 0#64 ∨ lr.poolSize < alignedOff + size then (0#64, lr)
  else (lr.poolBase + alignedOff, { lr with poolUsed := alignedOff + size })

structure PoolRequest where
  textBegin : Addr
  textEnd : Addr
  poolSize : BitVec 64
deriving DecidableEq

namespace PoolRequest

variable (r : PoolRequest)

def alignedSize : BitVec 64 :=
  alignPageSize r.poolSize

def Searches : Prop :=
  (r.textBegin ≠ 0#64 ∧ r.textBegin < r.textEnd) ∧
    r.textEnd - r.textBegin + r.alignedSize < branchRange ∧ r.alignedSize < r.textBegin

instance : Decidable r.Searches :=
  inferInstanceAs (Decidable (_ ∧ _))

def highest : Addr :=
  (r.textBegin - r.alignedSize) &&& ~~~(pageSize - 1#64)

def lowest : Addr :=
  if branchRange + r.alignedSize < r.textEnd then
    (r.textEnd - branchRange - r.alignedSize) &&& ~~~(pageSize - 1#64)
  else 0#64

def sites : Nat :=
  (r.textEnd.toNat - r.textBegin.toNat) / 4

def words : Nat :=
  r.poolSize.toNat / 4

end PoolRequest

def searchBelow (mmap : Mmap) (size lowest preferred : BitVec 64) : Option Addr :=
  if preferred < lowest then none
  else if mmap preferred size ≠ mapFailed then some (mmap preferred size)
  else if preferred < pageSize then none
  else searchBelow mmap size lowest (preferred - pageSize)
termination_by preferred.toNat
decreasing_by
  rename_i hpage
  simp only [pageSize, BitVec.lt_def, BitVec.toNat_ofNat] at hpage ⊢
  rw [BitVec.toNat_sub_of_le (by rw [BitVec.le_def]; simpa using hpage)]
  simp only [BitVec.toNat_ofNat]
  omega

def allocateMainLsePool (mmap : Mmap) (r : PoolRequest) (lr : LoadResults) :
    Addr × LoadResults :=
  match (if r.Searches then searchBelow mmap r.alignedSize r.lowest r.highest else none) with
  | some mapped => (mapped, lr)
  | none => machgatePoolAlloc lr r.poolSize

/-- Branches fit from every word of the text to every word of a pool at `base`,
and back. -/
def Reaches (r : PoolRequest) (base : Addr) : Prop :=
  ∀ i < r.sites, ∀ j < r.words,
    let site : Int := r.textBegin.toNat + 4 * i
    let word : Int := base.toNat + 4 * j
    FitsBranch ((word - site) / 4) ∧ FitsBranch ((site - word) / 4)

def InWindow (r : PoolRequest) (base : Addr) : Prop :=
  r.sites = 0 ∨ r.words = 0 ∨
    (r.textBegin.toNat + 4 * r.sites < base.toNat + 0x8000004 ∧
      base.toNat + 4 * r.words < r.textBegin.toNat + 0x8000004)

instance (r : PoolRequest) (base : Addr) : Decidable (InWindow r base) :=
  inferInstanceAs (Decidable (_ ∨ _))

theorem reaches_iff (r : PoolRequest) (base : Addr) : Reaches r base ↔ InWindow r base := by
  unfold Reaches InWindow FitsBranch
  constructor
  · intro h
    rcases Nat.eq_zero_or_pos r.sites with hsites | hsites
    · exact Or.inl hsites
    · rcases Nat.eq_zero_or_pos r.words with hwords | hwords
      · exact Or.inr (Or.inl hwords)
      -- the last word of one side and the first of the other are farthest apart
      · have hlast := h (r.sites - 1) (by omega) 0 hwords
        have hfirst := h 0 hsites (r.words - 1) (by omega)
        omega
  · rintro h i hi j hj
    omega

section

variable {mmap : Mmap} {size lowest preferred : BitVec 64}

def hint (preferred : Addr) (k : Nat) : Addr :=
  preferred - BitVec.ofNat 64 (4096 * k)

theorem hint_zero (preferred : Addr) : hint preferred 0 = preferred :=
  BitVec.sub_zero preferred

theorem hint_succ (preferred : Addr) (k : Nat) :
    hint preferred (k + 1) = hint (preferred - pageSize) k := by
  rw [hint, hint, Nat.mul_succ, ofNat_add]
  change preferred - (_ + pageSize) = _
  ring

theorem toNat_hint {k : Nat} (hk : 4096 * k ≤ preferred.toNat) :
    (hint preferred k).toNat = preferred.toNat - 4096 * k := by
  rw [hint, toNat_sub, toNat_ofNat]
  omega

def Refuses (mmap : Mmap) (size preferred : BitVec 64) (k : Nat) : Prop :=
  ∀ j < k, mmap (hint preferred j) size = mapFailed

theorem refuses_succ_iff {k : Nat} :
    Refuses mmap size preferred (k + 1) ↔
      mmap preferred size = mapFailed ∧ Refuses mmap size (preferred - pageSize) k := by
  constructor
  · intro h
    refine ⟨hint_zero preferred ▸ h 0 (zero_lt_succ k), fun j hj => ?_⟩
    rw [← hint_succ]
    exact h (j + 1) (succ_lt_succ hj)
  · rintro ⟨hfirst, hrest⟩ j hj
    cases j with
    | zero => rwa [hint_zero]
    | succ j =>
      rw [hint_succ]
      exact hrest j (lt_of_succ_lt_succ hj)

theorem toNat_sub_pageSize (h : ¬ preferred < pageSize) :
    (preferred - pageSize).toNat + 4096 = preferred.toNat := by
  have hle : pageSize ≤ preferred := BitVec.not_lt.mp h
  have hnat : 4096 ≤ preferred.toNat := hle
  rw [toNat_sub_of_le hle]
  change preferred.toNat - 4096 + 4096 = _
  omega

/-- The search returns the first answer that is not a failure, among the hints
from `preferred` down to `lowest`. -/
theorem searchBelow_eq_some_iff {q : Addr} :
    searchBelow mmap size lowest preferred = some q ↔
      ∃ k, lowest.toNat + 4096 * k ≤ preferred.toNat ∧ Refuses mmap size preferred k ∧
        mmap (hint preferred k) size = q ∧ q ≠ mapFailed := by
  fun_induction searchBelow mmap size lowest preferred with
  | case1 preferred hlow =>
    have hnat : preferred.toNat < lowest.toNat := hlow
    simp only [reduceCtorEq, false_iff]
    rintro ⟨k, hk, -⟩
    omega
  | case2 preferred hlow hgrant =>
    have hnat : lowest.toNat ≤ preferred.toNat := BitVec.not_lt.mp hlow
    constructor
    · intro h
      obtain rfl := Option.some.inj h
      refine ⟨0, by omega, fun j hj => absurd hj (Nat.not_lt_zero j), ?_, hgrant⟩
      rw [hint_zero]
    · rintro ⟨k, -, hrefuses, hanswer, -⟩
      cases k with
      | zero => rw [← hanswer, hint_zero]
      | succ k => exact absurd (refuses_succ_iff.mp hrefuses).1 hgrant
  | case3 preferred hlow hfail hpage =>
    have hnat : preferred.toNat < 4096 := hpage
    simp only [reduceCtorEq, false_iff]
    rintro ⟨k, hk, -, hanswer, hq⟩
    obtain rfl : k = 0 := by omega
    rw [hint_zero] at hanswer
    exact hfail (hanswer ▸ hq)
  | case4 preferred hlow hfail hpage ih =>
    have hfirst : mmap preferred size = mapFailed := not_not.mp hfail
    have hnext := toNat_sub_pageSize hpage
    rw [ih]
    constructor
    · rintro ⟨k, hk, hrefuses, hanswer, hq⟩
      refine ⟨k + 1, by omega, refuses_succ_iff.mpr ⟨hfirst, hrefuses⟩, ?_, hq⟩
      rw [hint_succ, hanswer]
    · rintro ⟨k, hk, hrefuses, hanswer, hq⟩
      cases k with
      | zero =>
        rw [hint_zero, hfirst] at hanswer
        exact absurd hanswer.symm hq
      | succ k =>
        refine ⟨k, by omega, (refuses_succ_iff.mp hrefuses).2, ?_, hq⟩
        rw [← hint_succ, hanswer]

theorem searchBelow_eq_none_iff :
    searchBelow mmap size lowest preferred = none ↔
      ∀ k, lowest.toNat + 4096 * k ≤ preferred.toNat →
        mmap (hint preferred k) size = mapFailed := by
  constructor
  · intro hnone k
    induction k using Nat.strong_induction_on with
    | h k ih =>
      intro hk
      by_contra hgrant
      have hsome : searchBelow mmap size lowest preferred = some _ :=
        searchBelow_eq_some_iff.mpr ⟨k, hk, fun j hj => ih j hj (by omega), rfl, hgrant⟩
      rw [hnone] at hsome
      cases hsome
  · intro hrefuses
    cases hsearch : searchBelow mmap size lowest preferred with
    | none => rfl
    | some q =>
      obtain ⟨k, hk, -, hanswer, hq⟩ := searchBelow_eq_some_iff.mp hsearch
      exact absurd (hanswer ▸ hrefuses k hk) hq

end

/-- What `mmap` and the loader hold ready for a request: the first hint that is
not refused, or the next chunk beside the segments when there is none. -/
inductive Offered (mmap : Mmap) (r : PoolRequest) (lr : LoadResults) : Addr → Prop
  | below {q : Addr} (k : Nat) (hsearches : r.Searches)
      (hlow : r.lowest.toNat + 4096 * k ≤ r.highest.toNat)
      (hrefuses : Refuses mmap r.alignedSize r.highest k)
      (hanswer : mmap (hint r.highest k) r.alignedSize = q) (hgrant : q ≠ mapFailed) :
      Offered mmap r lr q
  | adjacent {off : BitVec 64}
      (hrefuses : r.Searches → ∀ k, r.lowest.toNat + 4096 * k ≤ r.highest.toNat →
        mmap (hint r.highest k) r.alignedSize = mapFailed)
      (hoff : off = alignPageSize lr.poolUsed) (hbase : lr.poolBase ≠ 0#64)
      (hroom : off + r.poolSize ≤ lr.poolSize) : Offered mmap r lr (lr.poolBase + off)

theorem machgatePoolAlloc_eq (lr : LoadResults) (size : BitVec 64) :
    (machgatePoolAlloc lr size).1 =
      if lr.poolBase = 0#64 ∨ lr.poolSize < alignPageSize lr.poolUsed + size then 0#64
      else lr.poolBase + alignPageSize lr.poolUsed := by
  have halign : (lr.poolUsed + pageSize - 1#64) &&& ~~~(pageSize - 1#64) =
      alignPageSize lr.poolUsed := by
    rw [alignPageSize, add_sub_assoc]
  rw [machgatePoolAlloc, halign]
  split <;> rfl

section

variable {mmap : Mmap} {r : PoolRequest} {lr : LoadResults}

theorem offered_of_machgatePoolAlloc {q : Addr} (hq : q ≠ 0#64)
    (hrefuses : r.Searches → ∀ k, r.lowest.toNat + 4096 * k ≤ r.highest.toNat →
      mmap (hint r.highest k) r.alignedSize = mapFailed)
    (h : (machgatePoolAlloc lr r.poolSize).1 = q) : Offered mmap r lr q := by
  rw [machgatePoolAlloc_eq] at h
  split at h
  · exact absurd h.symm hq
  · rename_i hroom
    obtain ⟨hbase, hroom⟩ := not_or.mp hroom
    rw [← h]
    exact .adjacent hrefuses rfl hbase (BitVec.not_lt.mp hroom)

theorem search_eq_none_iff :
    (if r.Searches then searchBelow mmap r.alignedSize r.lowest r.highest else none) = none ↔
      (r.Searches → ∀ k, r.lowest.toNat + 4096 * k ≤ r.highest.toNat →
        mmap (hint r.highest k) r.alignedSize = mapFailed) := by
  rw [← searchBelow_eq_none_iff]
  split
  · rename_i hsearches
    exact ⟨fun h _ => h, fun h => h hsearches⟩
  · rename_i hsearches
    exact ⟨fun _ h => absurd h hsearches, fun _ => rfl⟩

theorem allocateMainLsePool_eq_iff {q : Addr} (hq : q ≠ 0#64) :
    (allocateMainLsePool mmap r lr).1 = q ↔ Offered mmap r lr q := by
  unfold allocateMainLsePool
  constructor
  · intro h
    split at h
    · rename_i mapped hmapped
      obtain rfl : mapped = q := h
      by_cases hsearches : r.Searches
      · rw [if_pos hsearches] at hmapped
        obtain ⟨k, hlow, hrefuses, hanswer, hgrant⟩ := searchBelow_eq_some_iff.mp hmapped
        exact .below k hsearches hlow hrefuses hanswer hgrant
      · rw [if_neg hsearches] at hmapped
        cases hmapped
    · rename_i hnone
      exact offered_of_machgatePoolAlloc hq (search_eq_none_iff.mp hnone) h
  · intro h
    cases h with
    | below k hsearches hlow hrefuses hanswer hgrant =>
      rw [if_pos hsearches, searchBelow_eq_some_iff.mpr ⟨k, hlow, hrefuses, hanswer, hgrant⟩]
    | adjacent hrefuses hoff hbase hroom =>
      rw [search_eq_none_iff.mpr hrefuses]
      rw [machgatePoolAlloc_eq, ← hoff, if_neg]
      exact not_or.mpr ⟨hbase, BitVec.not_lt.mpr hroom⟩

end

/-- The returned pool is in reach of the whole text exactly when every offer is
inside the window.  Neither the search bound nor the answer of `mmap` nor the
chunk beside the segments is tested against it. -/
theorem allocateMainLsePool_reaches_iff (mmap : Mmap) (r : PoolRequest) (lr : LoadResults) :
    ((allocateMainLsePool mmap r lr).1 ≠ 0#64 →
        Reaches r (allocateMainLsePool mmap r lr).1) ↔
      ∀ q, q ≠ 0#64 → Offered mmap r lr q → InWindow r q := by
  constructor
  · intro h q hq hoffered
    obtain rfl := (allocateMainLsePool_eq_iff hq).mpr hoffered
    exact (reaches_iff r _).mp (h hq)
  · intro h hpool
    exact (reaches_iff r _).mpr (h _ hpool ((allocateMainLsePool_eq_iff hpool).mp rfl))

theorem toNat_and_not_pageMask (x : BitVec 64) :
    (x &&& ~~~(pageSize - 1#64)).toNat = x.toNat / 4096 * 4096 := by
  have hmask : ∀ i : Fin 64, (~~~(pageSize - 1#64)).getLsbD i = decide (12 ≤ i.val) := by decide
  have hshift : x &&& ~~~(pageSize - 1#64) = (x >>> 12) <<< 12 := by
    refine eq_of_getLsbD_eq fun i hi => ?_
    rw [getLsbD_and, hmask ⟨i, hi⟩, getLsbD_shiftLeft, getLsbD_ushiftRight]
    by_cases hlow : i < 12
    · simp [hlow, Nat.not_le.mpr hlow]
    · simp [hlow, Nat.not_lt.mp hlow, hi]
  rw [hshift, toNat_shiftLeft, toNat_ushiftRight, shiftRight_eq_div_pow, Nat.shiftLeft_eq]
  omega

def onePage : PoolRequest :=
  { textBegin := 0x10000000#64
    textEnd := 0x10001000#64
    poolSize := 0x200000#64 }

/-- Everything between the lowest hint and the text is taken. -/
def onlyLowest : Mmap :=
  fun hint _ => if hint = 0x7E01000#64 then hint else mapFailed

theorem allocateMainLsePool_onePage_not_reaches :
    (allocateMainLsePool onlyLowest onePage ⟨0#64, 0#64, 0#64⟩).1 = 0x7E01000#64 ∧
      ¬ Reaches onePage 0x7E01000#64 := by
  constructor
  · rw [allocateMainLsePool_eq_iff (by decide)]
    have hhighest : onePage.highest = 0xFE00000#64 := by decide
    refine .below 0x7FFF (by decide) (by decide) (fun j hj => ?_) (by decide) (by decide)
    refine if_neg fun heq => ?_
    have hnat := congrArg BitVec.toNat heq
    rw [hhighest, toNat_hint (by simp; omega)] at hnat
    simp at hnat
    omega
  · rw [reaches_iff]
    decide

end Machgate.IslandPool
