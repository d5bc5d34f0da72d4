import Mathlib.Data.List.Basic

namespace Machgate.ProbeTable

open Option List Function

/-- How a slot of a hash table is read: an empty slot has no key, and one whose entry was removed
has a key but no value. -/
structure Layout (K V S : Type) where
  key : S → Option K
  value : S → Option V
  keyed : ∀ s, key s = none → value s = none

namespace Layout

variable {K V S : Type} (L : Layout K V S)

def keyAt (slots : List S) (i : Nat) : Option K := slots[i]?.bind L.key

def valueAt (slots : List S) (i : Nat) : Option V := slots[i]?.bind L.value

/-- A slot that a walk gets to, since none before it is empty. -/
def Reached (slots : List S) (path : List Nat) (i : Nat) : Prop :=
  ∃ before after, path = before ++ i :: after ∧ ∀ j ∈ before, L.keyAt slots j ≠ none

def Free (slots : List S) (path : List Nat) (i : Nat) : Prop :=
  L.Reached slots path i ∧ L.valueAt slots i = none

structure Chained (path : K → List Nat) (slots : List S) : Prop where
  reached : ∀ i k, L.keyAt slots i = some k → L.Reached slots (path k) i
  distinct : ∀ i j k, L.keyAt slots i = some k → L.keyAt slots j = some k → i = j

structure Represents (path : K → List Nat) (slots : List S) (m : K → Option V) : Prop
    extends Chained L path slots where
  contents : ∀ k v, m k = some v ↔ ∃ i, L.keyAt slots i = some k ∧ L.valueAt slots i = some v

section

variable {L} {slots : List S} {k : K} {i t : Nat} {s : S}

theorem keyAt_ne_none (h : L.valueAt slots i ≠ none) : L.keyAt slots i ≠ none := by
  intro hkey
  refine h ?_
  rw [keyAt] at hkey
  rw [valueAt]
  cases hs : slots[i]? with
  | none => rfl
  | some s =>
    rw [hs] at hkey
    exact L.keyed s hkey

theorem lt_of_keyAt (h : L.keyAt slots i = some k) : i < slots.length := by
  obtain ⟨s, hs, -⟩ := bind_eq_some_iff.mp h
  exact (List.getElem?_eq_some_iff.mp hs).1

theorem keyAt_set_self (ht : t < slots.length) : L.keyAt (slots.set t s) t = L.key s := by
  rw [keyAt, getElem?_set_self ht, bind_some]

theorem valueAt_set_self (ht : t < slots.length) : L.valueAt (slots.set t s) t = L.value s := by
  rw [valueAt, getElem?_set_self ht, bind_some]

theorem keyAt_set_of_ne (h : i ≠ t) : L.keyAt (slots.set t s) i = L.keyAt slots i := by
  rw [keyAt, getElem?_set_ne h.symm, keyAt]

theorem valueAt_set_of_ne (h : i ≠ t) : L.valueAt (slots.set t s) i = L.valueAt slots i := by
  rw [valueAt, getElem?_set_ne h.symm, valueAt]

theorem reached_append {positions rest : List Nat} (h : L.Reached slots positions t) :
    L.Reached slots (positions ++ rest) t := by
  obtain ⟨before, after, rfl, hbefore⟩ := h
  exact ⟨before, after ++ rest, by rw [append_assoc, cons_append], hbefore⟩

theorem mem_of_reached {positions : List Nat} (h : L.Reached slots positions t) : t ∈ positions := by
  obtain ⟨before, after, rfl, -⟩ := h
  exact mem_append_right before mem_cons_self

theorem keyAt_set_ne_none (ht : t < slots.length) (hs : L.key s = some k)
    (h : L.keyAt slots i ≠ none) : L.keyAt (slots.set t s) i ≠ none := by
  by_cases hi : i = t
  · subst hi
    rw [keyAt_set_self ht, hs]
    exact some_ne_none k
  · rw [keyAt_set_of_ne hi]
    exact h

end

variable [DecidableEq K]

def find (slots : List S) (k : K) : List Nat → Option Nat
  | [] => none
  | i :: rest =>
    if (L.keyAt slots i).isNone then none
    else if L.keyAt slots i = some k then some i
    else find slots k rest

/-- The walk to the slot that a key is put into: the one it has, or else the first removed one on
the way to an empty one. -/
def place (slots : List S) (k : K) : Option Nat → List Nat → Option Nat
  | reusable, [] => reusable
  | reusable, i :: rest =>
    if L.keyAt slots i = some k then some i
    else if (L.keyAt slots i).isNone then some (reusable.getD i)
    else place slots k
      (if (L.valueAt slots i).isNone then some (reusable.getD i) else reusable) rest

variable {L} {path : K → List Nat} {slots : List S} {m : K → Option V} {k : K} {i t : Nat} {s : S}

theorem keyAt_of_find {positions : List Nat} (h : L.find slots k positions = some i) :
    L.keyAt slots i = some k := by
  induction positions with
  | nil => cases h
  | cons j rest ih =>
    rw [find] at h
    split at h
    · cases h
    · split at h
      · next hkey =>
        obtain rfl := some.inj h
        exact hkey
      · exact ih h

theorem Chained.find_of_keyAt (h : L.Chained path slots) (hkey : L.keyAt slots i = some k) :
    L.find slots k (path k) = some i := by
  obtain ⟨before, after, hpath, hbefore⟩ := h.reached i k hkey
  rw [hpath]
  -- The walk passes the slots in front, none of which is empty.
  clear hpath
  induction before with
  | nil => rw [nil_append, find, hkey, isNone_some, if_neg Bool.false_ne_true, if_pos rfl]
  | cons j before ih =>
    have hj := hbefore j mem_cons_self
    rw [cons_append, find, if_neg (isNone_iff_eq_none.not.mpr hj)]
    split
    · next hjkey => rw [h.distinct j i k hjkey hkey]
    · exact ih fun j' hj' => hbefore j' (mem_cons_of_mem j hj')

theorem Chained.find_eq_some (h : L.Chained path slots) :
    L.find slots k (path k) = some i ↔ L.keyAt slots i = some k :=
  ⟨keyAt_of_find, h.find_of_keyAt⟩

theorem Represents.find_value (h : L.Represents path slots m) :
    (L.find slots k (path k)).bind (L.valueAt slots) = m k := by
  refine ext fun v => ?_
  rw [h.contents, bind_eq_some_iff]
  simp only [h.find_eq_some]

theorem Chained.place_of_keyAt (h : L.Chained path slots) (hkey : L.keyAt slots i = some k) :
    L.place slots k none (path k) = some i := by
  obtain ⟨before, after, hpath, hbefore⟩ := h.reached i k hkey
  rw [hpath]
  clear hpath
  generalize none = reusable
  induction before generalizing reusable with
  | nil => rw [nil_append, place, if_pos hkey]
  | cons j before ih =>
    have hj := hbefore j mem_cons_self
    rw [cons_append, place]
    split
    · next hjkey => rw [h.distinct j i k hjkey hkey]
    · rw [if_neg (isNone_iff_eq_none.not.mpr hj)]
      exact ih (fun j' hj' => hbefore j' (mem_cons_of_mem j hj')) _

theorem free_of_place {seen rest : List Nat} {reusable : Option Nat}
    (hnew : ∀ i, L.keyAt slots i ≠ some k) (hseen : ∀ j ∈ seen, L.keyAt slots j ≠ none)
    (hreusable : ∀ t, reusable = some t → L.Free slots seen t)
    (h : L.place slots k reusable rest = some t) : L.Free slots (seen ++ rest) t := by
  induction rest generalizing seen reusable with
  | nil =>
    rw [append_nil]
    exact hreusable t h
  | cons i rest ih =>
    have hhere : L.valueAt slots i = none → L.Free slots (seen ++ [i]) i :=
      fun hvalue => ⟨⟨seen, [], rfl, hseen⟩, hvalue⟩
    have hor : ∀ t, L.valueAt slots i = none → some (reusable.getD i) = some t →
        L.Free slots (seen ++ [i]) t := by
      intro t hvalue ht
      cases hr : reusable with
      | none =>
        rw [hr] at ht
        obtain rfl := some.inj ht
        exact hhere hvalue
      | some t' =>
        rw [hr] at ht
        obtain rfl := some.inj ht
        obtain ⟨hreached, hfree⟩ := hreusable t' hr
        exact ⟨reached_append hreached, hfree⟩
    have hsplit : seen ++ i :: rest = seen ++ [i] ++ rest := by rw [append_assoc, singleton_append]
    rw [place, if_neg (hnew i)] at h
    rw [hsplit]
    split at h
    · next hempty =>
      have hvalue : L.valueAt slots i = none := by
        by_contra hne
        exact keyAt_ne_none hne (isNone_iff_eq_none.mp hempty)
      obtain ⟨hreached, hfree⟩ := hor t hvalue h
      exact ⟨reached_append hreached, hfree⟩
    · next hfull =>
      refine ih ?_ ?_ h
      · intro j hj
        rcases mem_append.mp hj with hj | hj
        · exact hseen j hj
        · rw [mem_singleton.mp hj]
          exact isNone_iff_eq_none.not.mp hfull
      · intro t' ht'
        split at ht'
        · next hvalue => exact hor t' (isNone_iff_eq_none.mp hvalue) ht'
        · obtain ⟨hreached, hfree⟩ := hreusable t' ht'
          exact ⟨reached_append hreached, hfree⟩

/-- The slot that a key is put into is its own, or a free one if it has none. -/
theorem Chained.place_some (h : L.Chained path slots)
    (hplace : L.place slots k none (path k) = some t) :
    L.Reached slots (path k) t ∧
      (L.keyAt slots t = some k ∨ L.valueAt slots t = none ∧ ∀ i, L.keyAt slots i ≠ some k) := by
  by_cases hkey : ∃ i, L.keyAt slots i = some k
  · obtain ⟨i, hi⟩ := hkey
    obtain rfl : i = t := some.inj ((h.place_of_keyAt hi).symm.trans hplace)
    exact ⟨h.reached i k hi, Or.inl hi⟩
  · have hnew := not_exists.mp hkey
    obtain ⟨hreached, hfree⟩ := @free_of_place K V S L _ slots k t [] (path k) none hnew
      (fun _ hj => nomatch hj) (fun _ ht => nomatch ht) hplace
    exact ⟨hreached, Or.inr ⟨hfree, hnew⟩⟩

theorem isSome_place_some {reusable : Nat} (rest : List Nat) :
    (L.place slots k (some reusable) rest).isSome := by
  induction rest generalizing reusable with
  | nil => rfl
  | cons i rest ih =>
    rw [place]
    split
    · rfl
    · split
      · rfl
      · split
        · exact ih
        · exact ih

theorem valueAt_of_place_none {positions : List Nat} (h : L.place slots k none positions = none)
    (hi : i ∈ positions) : L.valueAt slots i ≠ none := by
  induction positions with
  | nil => cases hi
  | cons j rest ih =>
    rw [place] at h
    split at h
    · cases h
    · split at h
      · cases h
      · split at h
        · have hsome := @isSome_place_some K V S L _ slots k j rest
          rw [show L.place slots k (some j) rest = none from h] at hsome
          cases hsome
        · next hvalue =>
          rcases mem_cons.mp hi with rfl | hi
          · exact isNone_iff_eq_none.not.mp hvalue
          · exact ih h hi

theorem Chained.put (h : L.Chained path slots)
    (hplace : L.place slots k none (path k) = some t) (ht : t < slots.length)
    (hs : L.key s = some k) : L.Chained path (slots.set t s) := by
  obtain ⟨hreached, hcases⟩ := h.place_some hplace
  have hother : ∀ {i k'}, i ≠ t → L.keyAt (slots.set t s) i = some k' → L.keyAt slots i = some k' := by
    intro i k' hi hkey
    rwa [keyAt_set_of_ne hi] at hkey
  have hself : ∀ {k'}, L.keyAt (slots.set t s) t = some k' → k = k' := by
    intro k' hkey
    rw [keyAt_set_self ht, hs] at hkey
    exact some.inj hkey
  -- No slot but `t` has the key.
  have honly : ∀ {i}, L.keyAt slots i = some k → i = t := by
    intro i hkey
    rcases hcases with htkey | ⟨-, hnew⟩
    · exact h.distinct i t k hkey htkey
    · exact absurd hkey (hnew i)
  have hmono : ∀ {positions i}, L.Reached slots positions i →
      L.Reached (slots.set t s) positions i := by
    rintro positions i ⟨before, after, hpositions, hbefore⟩
    exact ⟨before, after, hpositions, fun j hj => keyAt_set_ne_none ht hs (hbefore j hj)⟩
  constructor
  · intro i k' hkey
    by_cases hi : i = t
    · subst hi
      obtain rfl := hself hkey
      exact hmono hreached
    · exact hmono (h.reached i k' (hother hi hkey))
  · intro i j k' hikey hjkey
    by_cases hi : i = t
    · subst hi
      obtain rfl := hself hikey
      by_contra hne
      exact hne (honly (hother (Ne.symm hne) hjkey)).symm
    · have hiold := hother hi hikey
      by_cases hj : j = t
      · subst hj
        obtain rfl := hself hjkey
        exact absurd (honly hiold) hi
      · exact h.distinct i j k' hiold (hother hj hjkey)

theorem Represents.put (h : L.Represents path slots m)
    (hplace : L.place slots k none (path k) = some t) (ht : t < slots.length)
    (hs : L.key s = some k) :
    L.Represents path (slots.set t s) (update m k (L.value s)) := by
  obtain ⟨-, hcases⟩ := h.place_some hplace
  have hchained := h.toChained.put hplace ht hs
  have hself : L.keyAt (slots.set t s) t = some k := (keyAt_set_self ht).trans hs
  refine ⟨hchained, fun k' v => ?_⟩
  by_cases hk : k' = k
  · subst hk
    rw [update_self]
    constructor
    · intro hv
      exact ⟨t, hself, (valueAt_set_self ht).trans hv⟩
    · rintro ⟨i, hkey, hv⟩
      obtain rfl := hchained.distinct i t k' hkey hself
      rwa [valueAt_set_self ht] at hv
  · rw [update_of_ne hk, h.contents]
    have hne : ∀ {i}, L.keyAt (slots.set t s) i = some k' → i ≠ t := by
      rintro i hkey rfl
      exact hk (some.inj (hkey.symm.trans hself))
    have hneOld : ∀ {i v}, L.keyAt slots i = some k' → L.valueAt slots i = some v → i ≠ t := by
      rintro i v hkey hv rfl
      rcases hcases with htkey | ⟨hfree, -⟩
      · exact hk (some.inj (hkey.symm.trans htkey))
      · cases hfree.symm.trans hv
    constructor
    · rintro ⟨i, hkey, hv⟩
      have hi := hneOld hkey hv
      exact ⟨i, (keyAt_set_of_ne hi).trans hkey, (valueAt_set_of_ne hi).trans hv⟩
    · rintro ⟨i, hkey, hv⟩
      have hi := hne hkey
      rw [keyAt_set_of_ne hi] at hkey
      rw [valueAt_set_of_ne hi] at hv
      exact ⟨i, hkey, hv⟩

end Layout

end Machgate.ProbeTable
