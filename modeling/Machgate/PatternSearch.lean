import Machgate.Patcher

namespace Machgate.PatternSearch

open ByteMemory Patcher PatchText BitVec Option Nat

def InFindRange (start stop within : Addr) (need : Nat) (a : Addr) : Prop :=
  (∃ i, a.toNat = start.toNat + 4 * i) ∧ a.toNat + need ≤ stop.toNat ∧
    (within ≠ 0#64 → a.toNat + need ≤ start.toNat + within.toNat)

structure UniqueMatch (mem : Memory) (start stop within : Addr) (patterns : List Pattern)
    (a : Addr) : Prop where
  inRange : InFindRange start stop within (4 * patterns.length) a
  found : matchesAt mem patterns a
  only : ∀ a', InFindRange start stop within (4 * patterns.length) a' →
    matchesAt mem patterns a' → a' = a

variable {mem : Memory} {patterns : List Pattern} {stop need : Addr}

/-- Where every address of its residue is below the end, the loop ends at a second match only. -/
theorem scanPattern_endless {c : Nat} (hclass : ∀ m : Addr, m.toNat % 4 = c → m ≤ stop) {fuel : Nat}
    {a hit h : Addr} {count n : Nat} (ha : (a + need).toNat % 4 = c)
    (hscan : scanPattern mem patterns stop need fuel a count hit = some (n, h)) : 1 < n := by
  induction fuel generalizing a count hit with
  | zero => cases hscan
  | succ fuel ih =>
    have hnext : (a + 4#64 + need).toNat % 4 = c := by
      rw [toNat_add, toNat_add] at *
      rw [toNat_ofNat]
      omega
    rw [scanPattern, if_pos (hclass _ ha)] at hscan
    split at hscan
    · split at hscan
      · obtain ⟨rfl, -⟩ := Prod.mk.inj (some.inj hscan)
        omega
      · exact ih hnext hscan
    · exact ih hnext hscan

def Ahead (stop need a n : Addr) : Prop :=
  (∃ i, n.toNat = a.toNat + 4 * i) ∧ n.toNat + need.toNat ≤ stop.toNat

theorem ahead_iff {a n : Addr} (hneed : 4 ≤ need.toNat) (ha : a.toNat + need.toNat ≤ stop.toNat) :
    Ahead stop need a n ↔ n = a ∨ Ahead stop need (a + 4#64) n := by
  have hnext : (a + 4#64).toNat = a.toNat + 4 := by
    rw [toNat_add, toNat_ofNat]
    omega
  constructor
  · rintro ⟨⟨i, hi⟩, hn⟩
    cases i with
    | zero => exact .inl (eq_of_toNat_eq hi)
    | succ i => exact .inr ⟨⟨i, by omega⟩, hn⟩
  · rintro (rfl | ⟨⟨i, hi⟩, hn⟩)
    · exact ⟨⟨0, rfl⟩, ha⟩
    · exact ⟨⟨i + 1, by omega⟩, hn⟩

theorem scanPattern_one (hneed : 4 ≤ need.toNat) {fuel : Nat} {a hit h : Addr} {count : Nat}
    (hcount : count ≤ 1) (ha : a.toNat + need.toNat ≤ stop.toNat + 4)
    (hscan : scanPattern mem patterns stop need fuel a count hit = some (1, h)) :
    (count = 0 → Ahead stop need a h ∧ matchesAt mem patterns h ∧
        ∀ n, Ahead stop need a n → matchesAt mem patterns n → n = h) ∧
      (count = 1 → h = hit ∧ ∀ n, Ahead stop need a n → ¬ matchesAt mem patterns n) := by
  induction fuel generalizing a count hit with
  | zero => cases hscan
  | succ fuel ih =>
    have hsum := toNat_add a need
    by_cases hwrap : 2 ^ 64 ≤ a.toNat + need.toNat
    · -- the sum is one of the first four addresses, and so it is again after each round
      have hclass : ∀ m : Addr, m.toNat % 4 = (a + need).toNat % 4 → m ≤ stop := by
        intro m hm
        rw [le_def]
        omega
      exact absurd (scanPattern_endless hclass rfl hscan) (by omega)
    · rw [mod_eq_of_lt (by omega)] at hsum
      rw [scanPattern] at hscan
      split at hscan
      · next htest =>
        rw [le_def, hsum] at htest
        have hnext : (a + 4#64).toNat + need.toNat ≤ stop.toNat + 4 := by
          rw [toNat_add, toNat_ofNat]
          omega
        have hahead : ∀ n, Ahead stop need a n ↔ n = a ∨ Ahead stop need (a + 4#64) n :=
          fun n => ahead_iff hneed htest
        split at hscan
        · next hmatch =>
          split at hscan
          · have := (Prod.mk.inj (some.inj hscan)).1
            omega
          · obtain rfl : count = 0 := by omega
            obtain ⟨rfl, hnone⟩ := (ih (Nat.le_refl 1) hnext hscan).2 rfl
            refine ⟨fun _ => ⟨(hahead h).mpr (.inl rfl), hmatch, ?_⟩, fun hone => by omega⟩
            intro n hn hmatch'
            rcases (hahead n).mp hn with rfl | hn
            · rfl
            · exact absurd hmatch' (hnone n hn)
        · next hmatch =>
          obtain ⟨hzero, hone⟩ := ih hcount hnext hscan
          refine ⟨fun hcount => ?_, fun hcount => ?_⟩
          · obtain ⟨hh, hfound, honly⟩ := hzero hcount
            refine ⟨(hahead h).mpr (.inr hh), hfound, fun n hn hmatch' => ?_⟩
            rcases (hahead n).mp hn with rfl | hn
            · exact absurd hmatch' hmatch
            · exact honly n hn hmatch'
          · obtain ⟨rfl, hnone⟩ := hone hcount
            refine ⟨rfl, fun n hn hmatch' => ?_⟩
            rcases (hahead n).mp hn with rfl | hn
            · exact hmatch hmatch'
            · exact hnone n hn hmatch'
      · next htest =>
        rw [le_def, hsum] at htest
        obtain ⟨rfl, rfl⟩ := Prod.mk.inj (some.inj hscan)
        refine ⟨fun hzero => by omega, fun _ => ⟨rfl, ?_⟩⟩
        rintro n ⟨⟨i, hi⟩, hn⟩
        omega

theorem inFindRange_iff {start stop within a : Addr} (hend : start ≤ findEnd start stop within) :
    InFindRange start stop within need.toNat a ↔
      Ahead (findEnd start stop within) need start a := by
  have hsum := toNat_add start within
  rw [le_def] at hend
  refine and_congr_right fun _ => ?_
  rw [findEnd] at hend ⊢
  split
  · next hbound =>
    rw [if_pos hbound] at hend
    have hlt := lt_def.mp hbound.2
    have hsmall : start.toNat + within.toNat < 2 ^ 64 := by omega
    rw [mod_eq_of_lt hsmall] at hsum
    rw [hsum] at hlt ⊢
    exact ⟨fun h => h.2 hbound.1, fun h => ⟨by omega, fun _ => h⟩⟩
  · next hbound =>
    refine ⟨fun h => h.1, fun h => ⟨h, fun hwithin => ?_⟩⟩
    have hle : ¬ (start + within).toNat < stop.toNat := fun hlt => hbound ⟨hwithin, lt_def.mpr hlt⟩
    omega

theorem uniqueMatch_of_patternFindUnique {start stop within hit : Addr}
    (hpatterns : patterns.length ≤ locMaxPatterns)
    (h : patternFindUnique mem start (findEnd start stop within) patterns = some (1, hit)) :
    UniqueMatch mem start stop within patterns hit := by
  have hneed : (BitVec.ofNat 64 (patterns.length * 4)).toNat = 4 * patterns.length := by
    rw [locMaxPatterns] at hpatterns
    rw [toNat_ofNat]
    omega
  rw [patternFindUnique] at h
  split at h
  · cases h
  · next hguard =>
    obtain ⟨hne, hguard⟩ := not_or.mp hguard
    obtain ⟨hend, hroom⟩ := not_or.mp hguard
    have hend := BitVec.not_lt.mp hend
    have hpos : 4 ≤ (BitVec.ofNat 64 (patterns.length * 4)).toNat := by
      have hzero : (BitVec.ofNat 64 (patterns.length * 4)).toNat ≠ 0 :=
        fun hzero => hne (eq_of_toNat_eq hzero)
      omega
    have hfirst : start.toNat + (BitVec.ofNat 64 (patterns.length * 4)).toNat ≤
        (findEnd start stop within).toNat + 4 := by
      rw [BitVec.not_lt, le_def, toNat_sub_of_le hend] at hroom
      omega
    obtain ⟨hhit, hfound, honly⟩ := (scanPattern_one hpos (Nat.zero_le 1) hfirst h).1 rfl
    refine ⟨?_, hfound, ?_⟩
    · rw [← hneed]
      exact (inFindRange_iff hend).mpr hhit
    · rw [← hneed]
      exact fun a' ha' => honly a' ((inFindRange_iff hend).mp ha')

end Machgate.PatternSearch
