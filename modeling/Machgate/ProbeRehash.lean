import Machgate.ProbeTable

namespace Machgate.ProbeTable.Layout

open List Option Function

variable {K V S : Type} (L : Layout K V S)

def live (slots : List S) : Nat := slots.countP fun s => (L.value s).isSome

def removed (slots : List S) : Nat := slots.countP fun s => (L.key s).isSome && (L.value s).isNone

def Clean (slots : List S) : Prop := ∀ i, L.keyAt slots i ≠ none → L.valueAt slots i ≠ none

def Apart (slots : List S) : Prop :=
  slots.Pairwise fun a b => ∀ k, L.key a = some k → L.key b ≠ some k

/-- A map that consists of another one and of the entries of some slots, none of which it has. -/
structure Merged (m : K → Option V) (old : List S) (result : K → Option V) : Prop where
  apart : L.Apart old
  fresh : ∀ s ∈ old, ∀ k, L.key s = some k → L.value s ≠ none → m k = none
  contents : ∀ k v, result k = some v ↔
    m k = some v ∨ ∃ s ∈ old, L.key s = some k ∧ L.value s = some v

section

variable {L} {path : K → List Nat} {slots : List S} {t : Nat} {s old : S}

theorem countP_set_add (p : S → Bool) (h : slots[t]? = some old) :
    (slots.set t s).countP p + (if p old then 1 else 0) = slots.countP p + if p s then 1 else 0 := by
  obtain ⟨ht, rfl⟩ := List.getElem?_eq_some_iff.mp h
  have hcount : (if p slots[t] then 1 else 0) ≤ slots.countP p := by
    split
    · next hp => exact countP_pos_iff.mpr ⟨slots[t], getElem_mem ht, hp⟩
    · exact Nat.zero_le _
  rw [countP_set ht]
  omega

theorem live_cons_of_none (h : L.value s = none) : L.live (s :: slots) = L.live slots := by
  rw [live, countP_cons_of_neg]
  · rfl
  · rw [h]
    exact Bool.false_ne_true

theorem live_cons_of_some {v : V} (h : L.value s = some v) :
    L.live (s :: slots) = L.live slots + 1 := by
  rw [live, countP_cons_of_pos]
  · rfl
  · rw [h]
    rfl

theorem live_eq_length (h : ∀ i, i < slots.length → L.valueAt slots i ≠ none) :
    L.live slots = slots.length := by
  refine countP_eq_length.mpr fun s hs => ?_
  obtain ⟨i, hi⟩ := mem_iff_getElem?.mp hs
  have hvalue := h i (List.getElem?_eq_some_iff.mp hi).1
  rw [valueAt, hi] at hvalue
  exact isSome_iff_ne_none.mpr hvalue

theorem removed_of_clean (h : L.Clean slots) : L.removed slots = 0 := by
  refine countP_eq_zero.mpr fun s hs => ?_
  obtain ⟨i, hi⟩ := mem_iff_getElem?.mp hs
  have hclean := h i
  rw [keyAt, valueAt, hi, bind_some, bind_some] at hclean
  rw [Bool.and_eq_true, isSome_iff_ne_none, isNone_iff_eq_none]
  rintro ⟨hkey, hvalue⟩
  exact hclean hkey hvalue

theorem represents_replicate {empty : S} (hempty : L.key empty = none) (n : Nat) :
    L.Represents path (replicate n empty) (fun _ => none) ∧ L.Clean (replicate n empty) ∧
      L.live (replicate n empty) = 0 := by
  have hkey : ∀ i, L.keyAt (replicate n empty) i = none := by
    intro i
    rw [keyAt, getElem?_replicate]
    split
    · exact hempty
    · rfl
  refine ⟨⟨⟨?_, ?_⟩, ?_⟩, ?_, ?_⟩
  · intro i k hi
    cases (hkey i).symm.trans hi
  · intro i _ k hi
    cases (hkey i).symm.trans hi
  · intro k v
    constructor
    · intro h
      cases h
    · rintro ⟨i, hi, -⟩
      cases (hkey i).symm.trans hi
  · exact fun i hi => absurd (hkey i) hi
  · rw [live, countP_replicate, L.keyed empty hempty]
    rfl

theorem Chained.apart (h : L.Chained path slots) : L.Apart slots := by
  refine pairwise_iff_getElem.mpr fun i j hi hj hlt k hk hk' => ?_
  have hkeyAt : ∀ {i} (hi : i < slots.length), L.keyAt slots i = L.key slots[i] := by
    intro i hi
    rw [keyAt, getElem?_eq_getElem hi, bind_some]
  exact absurd (h.distinct i j k ((hkeyAt hi).trans hk) ((hkeyAt hj).trans hk')) (Nat.ne_of_lt hlt)

theorem exists_mem_iff {k : K} {v : V} :
    (∃ s ∈ slots, L.key s = some k ∧ L.value s = some v) ↔
      ∃ i, L.keyAt slots i = some k ∧ L.valueAt slots i = some v := by
  constructor
  · rintro ⟨s, hs, hkey, hvalue⟩
    obtain ⟨i, hi⟩ := mem_iff_getElem?.mp hs
    refine ⟨i, ?_, ?_⟩
    · rw [keyAt, hi, bind_some, hkey]
    · rw [valueAt, hi, bind_some, hvalue]
  · rintro ⟨i, hkey, hvalue⟩
    obtain ⟨s, hs, hkey⟩ := bind_eq_some_iff.mp hkey
    rw [valueAt, hs, bind_some] at hvalue
    exact ⟨s, mem_of_getElem? hs, hkey, hvalue⟩

end

variable [DecidableEq K]

/-- The entries of the slots on the right, put one after the other into the table on the left. -/
def rehash (path : K → List Nat) : List S → List S → Option (List S)
  | new, [] => some new
  | new, s :: old =>
    if (L.value s).isNone then rehash path new old
    else
      (L.key s).bind fun k =>
        (L.place new k none (path k)).bind fun t => rehash path (new.set t s) old

variable {L} {path : K → List Nat} {new old slots : List S} {m result : K → Option V} {s : S} {k : K}
  {v : V}

/-- An entry for a key that is not there finds a place as long as a slot is left. -/
theorem Represents.put_new (h : L.Represents path new m) (hclean : L.Clean new)
    (hpath : ∀ i, i ∈ path k ↔ i < new.length) (hroom : L.live new < new.length)
    (hkey : L.key s = some k) (hvalue : L.value s = some v) (hfresh : m k = none) :
    ∃ t, L.place new k none (path k) = some t ∧
      L.Represents path (new.set t s) (update m k (some v)) ∧ L.Clean (new.set t s) ∧
      L.live (new.set t s) = L.live new + 1 := by
  cases hplace : L.place new k none (path k) with
  | none =>
    refine absurd (live_eq_length fun i hi => ?_) (Nat.ne_of_lt hroom)
    exact valueAt_of_place_none hplace ((hpath i).mpr hi)
  | some t =>
    obtain ⟨hreached, hcases⟩ := h.place_some hplace
    have ht : t < new.length := (hpath t).mp (mem_of_reached hreached)
    have hfree : L.valueAt new t = none := by
      rcases hcases with htkey | ⟨hfree, -⟩
      · by_contra hne
        obtain ⟨v', hv'⟩ := ne_none_iff_exists'.mp hne
        cases hfresh.symm.trans ((h.contents k v').mpr ⟨t, htkey, hv'⟩)
      · exact hfree
    refine ⟨t, rfl, hvalue ▸ h.put hplace ht hkey, ?_, ?_⟩
    · intro i hi
      by_cases hit : i = t
      · subst hit
        rw [valueAt_set_self ht, hvalue]
        exact some_ne_none v
      · rw [keyAt_set_of_ne hit] at hi
        rw [valueAt_set_of_ne hit]
        exact hclean i hi
    · have hcount := @countP_set_add S new t s new[t] (fun s => (L.value s).isSome)
        (getElem?_eq_getElem ht)
      rw [valueAt, getElem?_eq_getElem ht, bind_some] at hfree
      rw [hfree, hvalue] at hcount
      exact hcount

omit [DecidableEq K] in
theorem Merged.eq_of_nil (h : L.Merged m [] result) : result = m := by
  funext k
  refine ext fun v => ?_
  rw [h.contents]
  simp

omit [DecidableEq K] in
theorem Merged.skip (h : L.Merged m (s :: old) result) (hvalue : L.value s = none) :
    L.Merged m old result where
  apart := (pairwise_cons.mp h.apart).2
  fresh := fun s' hs' => h.fresh s' (mem_cons_of_mem s hs')
  contents := by
    intro k v
    rw [h.contents, exists_mem_cons_iff, hvalue]
    simp

theorem Merged.put (h : L.Merged m (s :: old) result) (hkey : L.key s = some k)
    (hvalue : L.value s = some v) : L.Merged (update m k (some v)) old result where
  apart := (pairwise_cons.mp h.apart).2
  fresh := by
    intro s' hs' k' hk' hv'
    have hne : k' ≠ k := by
      rintro rfl
      exact (pairwise_cons.mp h.apart).1 s' hs' k' hkey hk'
    rw [update_of_ne hne]
    exact h.fresh s' (mem_cons_of_mem s hs') k' hk' hv'
  contents := by
    intro k' v'
    rw [h.contents, exists_mem_cons_iff, hkey, hvalue]
    by_cases hk : k' = k
    · subst hk
      rw [update_self, h.fresh s mem_cons_self k' hkey (hvalue ▸ some_ne_none v)]
      simp
    · rw [update_of_ne hk]
      simp [Ne.symm hk]

omit [DecidableEq K] in
theorem Represents.merged (h : L.Represents path slots m) : L.Merged (fun _ => none) slots m where
  apart := h.apart
  fresh := fun _ _ _ _ _ => rfl
  contents := by
    intro k v
    rw [h.contents, exists_mem_iff]
    simp

theorem rehash_represents (h : L.Represents path new m) (hclean : L.Clean new)
    (hpath : ∀ k i, i ∈ path k ↔ i < new.length)
    (hroom : L.live new + L.live old ≤ new.length) (hmerged : L.Merged m old result) :
    ∃ table, L.rehash path new old = some table ∧ table.length = new.length ∧
      L.Represents path table result ∧ L.Clean table ∧
      L.live table = L.live new + L.live old := by
  induction old generalizing new m with
  | nil => exact ⟨new, rfl, rfl, hmerged.eq_of_nil ▸ h, hclean, rfl⟩
  | cons s old ih =>
    rw [rehash]
    cases hvalue : L.value s with
    | none =>
      rw [live_cons_of_none hvalue] at hroom ⊢
      exact ih h hclean hpath hroom (hmerged.skip hvalue)
    | some v =>
      rw [live_cons_of_some hvalue] at hroom ⊢
      cases hkey : L.key s with
      | none => cases (L.keyed s hkey).symm.trans hvalue
      | some k =>
        have hfresh : m k = none := hmerged.fresh s mem_cons_self k hkey (hvalue ▸ some_ne_none v)
        obtain ⟨t, hplace, hrep, hclean', hcount⟩ :=
          h.put_new hclean (hpath k) (by omega) hkey hvalue hfresh
        obtain ⟨table, htable, hlength, hrep', hclean'', hcount'⟩ :=
          ih hrep hclean' (by simpa only [length_set] using hpath)
            (by rw [length_set]; omega) (hmerged.put hkey hvalue)
        refine ⟨table, ?_, ?_, hrep', hclean'', by omega⟩
        · simpa [hplace] using htable
        · rw [hlength, length_set]

end Machgate.ProbeTable.Layout
