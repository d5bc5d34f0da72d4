import Mathlib.Data.BitVec

namespace Machgate.BucketChains

open List Function Nat

variable {β : Type*}

/-- Buckets chained through positions: `head` holds the newest position of a bucket, `link` the
one pushed before it.  Positions are kept in signed words, and a negative word ends a chain. -/
structure Chains (β : Type*) where
  head : β → Int
  link : Nat → Int

/-- No bucket has an entry; the links hold what their memory held. -/
def empty (garbage : Nat → Int) : Chains β :=
  { head := fun _ => -1, link := garbage }

def search (c : Chains β) (p : Nat → Bool) : Nat → Int → Option Nat
  | 0, _ => none
  | fuel + 1, candidate =>
    if candidate < 0 then none
    else if p candidate.toNat then some candidate.toNat
    else search c p fuel (c.link candidate.toNat)

def Follows (c : Chains β) : Int → List Nat → Prop
  | candidate, [] => candidate < 0
  | candidate, i :: l => candidate = i ∧ Follows c (c.link i) l

variable {l : List Nat} {i : Nat}

theorem search_of_follows {c : Chains β} {p : Nat → Bool} {candidate : Int}
    (h : Follows c candidate l) {fuel : Nat} (hfuel : l.length < fuel) :
    search c p fuel candidate = l.find? p := by
  induction l generalizing candidate fuel with
  | nil =>
    obtain ⟨fuel, rfl⟩ := exists_eq_succ_of_ne_zero (Nat.ne_of_gt hfuel)
    exact if_pos h
  | cons i l ih =>
    obtain ⟨fuel, rfl⟩ := exists_eq_succ_of_ne_zero (Nat.ne_of_gt (zero_lt_of_lt hfuel))
    obtain ⟨rfl, hrest⟩ := h
    rw [length_cons] at hfuel
    have hnonneg : ¬ ((i : Int) < 0) := by omega
    rw [search, if_neg hnonneg, Int.toNat_natCast, find?_cons]
    cases hp : p i with
    | true => rfl
    | false => exact ih hrest (by omega)

variable [DecidableEq β]

def push (store : Nat → Int) (c : Chains β) (e : β × Nat) : Chains β :=
  { head := Function.update c.head e.1 (store e.2)
    link := Function.update c.link e.2 (c.head e.1) }

variable (store : Nat → Int)

@[simp]
theorem push_head_self (c : Chains β) (e : β × Nat) : (push store c e).head e.1 = store e.2 :=
  update_self ..

theorem push_head_of_ne (c : Chains β) {e : β × Nat} {b : β} (h : b ≠ e.1) :
    (push store c e).head b = c.head b :=
  update_of_ne h ..

@[simp]
theorem push_link_self (c : Chains β) (e : β × Nat) : (push store c e).link e.2 = c.head e.1 :=
  update_self ..

theorem push_link_of_ne (c : Chains β) {e : β × Nat}
    (h : i ≠ e.2) : (push store c e).link i = c.link i :=
  update_of_ne h ..

def build (store garbage : Nat → Int) (entries : List (β × Nat)) : Chains β :=
  entries.foldl (push store) (empty garbage)

theorem build_concat (store garbage : Nat → Int) (entries : List (β × Nat)) (e : β × Nat) :
    build store garbage (entries ++ [e]) = push store (build store garbage entries) e :=
  foldl_concat ..

theorem follows_push_of_notMem {store : Nat → Int} {c : Chains β} {e : β × Nat}
    {candidate : Int} (h : Follows c candidate l) (he : e.2 ∉ l) :
    Follows (push store c e) candidate l := by
  induction l generalizing candidate with
  | nil => exact h
  | cons i l ih =>
    obtain ⟨rfl, hrest⟩ := h
    have hne : i ≠ e.2 := by
      rintro rfl
      exact he mem_cons_self
    refine ⟨rfl, ?_⟩
    rw [push_link_of_ne store c hne]
    exact ih hrest fun hmem => he (mem_cons_of_mem _ hmem)

def positions (entries : List (β × Nat)) (b : β) : List Nat :=
  ((entries.filter fun e => e.1 = b).map Prod.snd).reverse

theorem positions_concat (entries : List (β × Nat)) (e : β × Nat) (b : β) :
    positions (entries ++ [e]) b =
      if e.1 = b then e.2 :: positions entries b else positions entries b := by
  rw [positions, filter_append, map_append, reverse_append, positions]
  by_cases hb : e.1 = b
  · simp [hb]
  · simp [hb]

theorem mem_positions {entries : List (β × Nat)} {b : β} :
    i ∈ positions entries b ↔ (b, i) ∈ entries := by
  simp only [positions, mem_reverse, mem_map, mem_filter, decide_eq_true_eq]
  constructor
  · rintro ⟨e, ⟨he, rfl⟩, rfl⟩
    exact he
  · intro h
    exact ⟨(b, i), ⟨h, rfl⟩, rfl⟩

theorem pairwise_positions {entries : List (β × Nat)}
    (h : entries.Pairwise fun d e => d.2 < e.2) (b : β) :
    (positions entries b).Pairwise fun i j => j < i := by
  rw [positions, pairwise_reverse, pairwise_map]
  exact h.filter _

/-- A chain lists the positions of its bucket from the newest back, as long as the signed words
can hold them. -/
theorem follows_build {store : Nat → Int} {entries : List (β × Nat)}
    (horder : entries.Pairwise fun d e => d.2 < e.2)
    (hstore : ∀ e ∈ entries, 0 ≤ store e.2 → store e.2 = e.2) (garbage : Nat → Int) (b : β) :
    Follows (build store garbage entries) ((build store garbage entries).head b)
      ((positions entries b).takeWhile fun i => 0 ≤ store i) := by
  induction entries using reverseRecOn generalizing b with
  | nil =>
    change (-1 : Int) < 0
    omega
  | append_singleton entries e ih =>
    obtain ⟨hbefore, -, hlast⟩ := pairwise_append.mp horder
    have hih := ih hbefore fun d hd => hstore d (mem_append_left _ hd)
    -- the position pushed now is on no chain yet
    have hfresh : ∀ b, e.2 ∉ (positions entries b).takeWhile fun i => 0 ≤ store i := by
      intro b hmem
      have hpos := mem_positions.mp (takeWhile_subset _ hmem)
      exact Nat.lt_irrefl _ (hlast _ hpos e mem_cons_self)
    rw [build_concat, positions_concat]
    split
    · next hb =>
      subst hb
      rw [takeWhile_cons, push_head_self]
      split
      · next hnonneg =>
        have hword := hstore e (mem_append_right _ mem_cons_self) (of_decide_eq_true hnonneg)
        refine ⟨hword, ?_⟩
        rw [push_link_self]
        exact follows_push_of_notMem (hih e.1) (hfresh e.1)
      · next hneg => exact Int.not_le.mp (of_decide_eq_false (Bool.not_eq_true _ ▸ hneg))
    · next hb =>
      rw [push_head_of_ne _ _ (Ne.symm hb)]
      exact follows_push_of_notMem (hih b) (hfresh b)

theorem find_eq_some_iff_of_pairwise_gt {p : Nat → Bool} (h : l.Pairwise fun i j => j < i) :
    l.find? p = some i ↔ i ∈ l ∧ p i = true ∧ ∀ k ∈ l, i < k → p k = false := by
  induction l with
  | nil => simp
  | cons j l ih =>
    obtain ⟨hlt, hrest⟩ := pairwise_cons.mp h
    rw [find?_cons]
    cases hp : p j with
    | true =>
      constructor
      · rintro ⟨rfl⟩
        refine ⟨mem_cons_self, hp, fun k hk hik => ?_⟩
        rcases mem_cons.mp hk with rfl | hk
        · exact absurd hik (Nat.lt_irrefl _)
        · exact absurd (hlt k hk) (Nat.lt_asymm hik)
      · rintro ⟨hmem, hi, hmax⟩
        rcases mem_cons.mp hmem with rfl | hmem
        · rfl
        · have := hmax j mem_cons_self (hlt i hmem)
          rw [hp] at this
          cases this
    | false =>
      rw [ih hrest]
      constructor
      · rintro ⟨hmem, hi, hmax⟩
        refine ⟨mem_cons_of_mem _ hmem, hi, fun k hk hik => ?_⟩
        rcases mem_cons.mp hk with rfl | hk
        · exact hp
        · exact hmax k hk hik
      · rintro ⟨hmem, hi, hmax⟩
        rcases mem_cons.mp hmem with rfl | hmem
        · rw [hp] at hi
          cases hi
        · exact ⟨hmem, hi, fun k hk => hmax k (mem_cons_of_mem _ hk)⟩

end Machgate.BucketChains
