import Mathlib.Order.Lattice

namespace Machgate.CursorReplay

open List Prod

section

variable {κ π : Type} {key : π → κ} {v : κ × Option π} {visits : List (κ × Option π)}

def record (visits : List (κ × Option π)) : List π := visits.filterMap Prod.snd

@[simp]
theorem record_none (k : κ) (visits : List (κ × Option π)) :
    record ((k, none) :: visits) = record visits := rfl

@[simp]
theorem record_some (k : κ) (p : π) (visits : List (κ × Option π)) :
    record ((k, some p) :: visits) = p :: record visits := rfl

/-- Records are made under the key that is visited, at its first visit. -/
structure Recording (key : π → κ) (visits : List (κ × Option π)) : Prop where
  keyed : ∀ v ∈ visits, ∀ p ∈ v.2, key p = v.1
  first : visits.Pairwise fun v w => w.2.isSome → v.1 ≠ w.1

theorem Recording.tail (h : Recording key (v :: visits)) : Recording key visits :=
  ⟨fun w hw => h.keyed w (mem_cons_of_mem v hw), (pairwise_cons.mp h.first).2⟩

theorem Recording.key_eq {k : κ} {p : π} (h : Recording key ((k, some p) :: visits)) : key p = k :=
  h.keyed _ mem_cons_self p rfl

theorem Recording.mem_of_mem_record (h : Recording key visits) {p : π} (hp : p ∈ record visits) :
    (key p, some p) ∈ visits := by
  obtain ⟨⟨k, o⟩, hmem, rfl⟩ := mem_filterMap.mp hp
  have hkey : key p = k := h.keyed _ hmem p rfl
  rwa [hkey]

theorem Recording.ne_of_mem_record (h : Recording key (v :: visits)) {p : π}
    (hp : p ∈ record visits) : v.1 ≠ key p :=
  (pairwise_cons.mp h.first).1 _ (h.tail.mem_of_mem_record hp) rfl

theorem Recording.pairwise_record (h : Recording key visits) :
    (record visits).Pairwise fun p q => key p ≠ key q := by
  induction visits with
  | nil => exact .nil
  | cons v visits ih =>
    obtain ⟨k, o⟩ := v
    cases o with
    | none => exact ih h.tail
    | some p =>
      refine pairwise_cons.mpr ⟨fun q hq => ?_, ih h.tail⟩
      rw [h.key_eq]
      exact h.ne_of_mem_record hq

end

variable {κ π : Type} [LinearOrder κ] (key : π → κ)

/-- A visit of `k` moves the cursor past the records with smaller keys and takes the record behind
them if it is one for `k`. -/
def seek (k : κ) (left : List π) : Option π × List π :=
  match left.dropWhile fun p => key p < k with
  | [] => (none, [])
  | p :: rest => if key p = k then (some p, rest) else (none, p :: rest)

def replay : List κ → List π → List (Option π)
  | [], _ => []
  | k :: keys, left => (seek key k left).1 :: replay keys (seek key k left).2

/-- A key that is visited without a record is smaller than the key of the next record. -/
def InStep (visits : List (κ × Option π)) : Prop :=
  ∀ front k rest, visits = front ++ (k, none) :: rest → ∀ p ∈ (record rest).head?, k < key p

section

variable {key}

@[simp]
theorem seek_nil (k : κ) : seek key k ([] : List π) = (none, []) := rfl

theorem seek_self (p : π) (rest : List π) : seek key (key p) (p :: rest) = (some p, rest) := by
  simp [seek]

theorem seek_of_lt {k : κ} {p : π} (h : k < key p) (rest : List π) :
    seek key k (p :: rest) = (none, p :: rest) := by
  simp [seek, not_lt_of_gt h, ne_of_gt h]

theorem seek_of_gt {k : κ} {p : π} (h : key p < k) (rest : List π) :
    seek key k (p :: rest) = seek key k rest := by
  simp [seek, h]

theorem suffix_seek (k : κ) (left : List π) : (seek key k left).2 <:+ left := by
  have hdrop := dropWhile_suffix (l := left) fun p => decide (key p < k)
  rw [seek]
  split
  · exact nil_suffix
  · next p rest heq =>
    rw [heq] at hdrop
    split
    · exact (suffix_cons p rest).trans hdrop
    · exact hdrop

theorem of_seek_eq_some {k : κ} {left : List π} {p : π} (h : (seek key k left).1 = some p) :
    p ∈ left ∧ key p = k := by
  have hdrop := dropWhile_suffix (l := left) fun p => decide (key p < k)
  rw [seek] at h
  split at h
  · cases h
  · next q rest heq =>
    rw [heq] at hdrop
    split at h
    · next hkey =>
      obtain rfl := Option.some.inj h
      exact ⟨hdrop.subset mem_cons_self, hkey⟩
    · cases h

theorem of_mem_replay {keys : List κ} {left : List π} {k : κ} {p : π}
    (h : (k, some p) ∈ keys.zip (replay key keys left)) : p ∈ left ∧ key p = k := by
  induction keys generalizing left with
  | nil => cases h
  | cons k' keys ih =>
    rw [replay, zip_cons_cons, mem_cons] at h
    rcases h with heq | h
    · obtain ⟨rfl, hseek⟩ := mk.inj heq
      exact of_seek_eq_some hseek.symm
    · obtain ⟨hmem, hkey⟩ := ih h
      exact ⟨(suffix_seek k' left).subset hmem, hkey⟩

end

variable {key} {v : κ × Option π} {visits : List (κ × Option π)}

theorem inStep_nil : InStep key ([] : List (κ × Option π)) := by
  intro front k rest h
  simp at h

theorem inStep_cons :
    InStep key (v :: visits) ↔
      (v.2 = none → ∀ p ∈ (record visits).head?, v.1 < key p) ∧ InStep key visits := by
  constructor
  · intro h
    refine ⟨fun hnone => h [] v.1 visits ?_, fun front k rest heq => h (v :: front) k rest ?_⟩
    · rw [← hnone, nil_append]
    · rw [heq, cons_append]
  · rintro ⟨hhead, htail⟩ front k rest heq
    cases front with
    | nil =>
      obtain ⟨rfl, rfl⟩ := cons.inj heq
      exact hhead rfl
    | cons v' front =>
      obtain ⟨rfl, hrest⟩ := cons.inj heq
      exact htail front k rest hrest

/-- In step, the cursor finds every record where it was made. -/
theorem replay_record (hrec : Recording key visits) (h : InStep key visits) :
    replay key (visits.map fst) (record visits) = visits.map snd := by
  induction visits with
  | nil => rfl
  | cons v visits ih =>
    obtain ⟨hhead, htail⟩ := inStep_cons.mp h
    have hrest := ih hrec.tail htail
    obtain ⟨k, o⟩ := v
    rw [map_cons, map_cons, replay]
    cases o with
    | none =>
      rw [record_none]
      cases hrecord : record visits with
      | nil =>
        rw [hrecord] at hrest
        rw [seek_nil, hrest]
      | cons p left =>
        rw [hrecord] at hrest hhead
        rw [seek_of_lt (hhead rfl p rfl), hrest]
    | some p => rw [record_some, ← hrec.key_eq, seek_self, hrest]

def Lost (key : π → κ) (keys : List κ) (left : List π) (p : π) : Prop :=
  ∀ o, (key p, o) ∈ keys.zip (replay key keys left) → o = none

theorem lost_of_forall {keys : List κ} {left : List π} {p : π} (h : ∀ q ∈ left, key q ≠ key p) :
    Lost key keys left p := by
  intro o ho
  cases o with
  | none => rfl
  | some q =>
    obtain ⟨hmem, hkey⟩ := of_mem_replay ho
    exact absurd hkey (h q hmem)

theorem Lost.cons {keys : List κ} {left : List π} {k : κ} {p : π}
    (hhead : key p = k → (seek key k left).1 = none) (h : Lost key keys (seek key k left).2 p) :
    Lost key (k :: keys) left p := by
  intro o ho
  rw [replay, zip_cons_cons, mem_cons] at ho
  rcases ho with heq | ho
  · obtain ⟨hkey, rfl⟩ := mk.inj heq
    exact hhead hkey
  · exact h o ho

/-- Out of step, or with records missing at the end, some record is never found. -/
theorem exists_lost (hrec : Recording key visits) {n : Nat}
    (h : ¬ (InStep key visits ∧ (record visits).length ≤ n)) :
    ∃ p ∈ record visits, Lost key (visits.map fst) ((record visits).take n) p := by
  induction visits generalizing n with
  | nil => exact absurd ⟨inStep_nil, Nat.zero_le n⟩ h
  | cons v visits ih =>
    obtain ⟨k, o⟩ := v
    rw [inStep_cons] at h
    cases o with
    | none =>
      rw [record_none] at h ⊢
      cases hrecord : record visits with
      | nil =>
        rw [hrecord] at h ih
        obtain ⟨p, hp, -⟩ := ih hrec.tail fun hrest => h ⟨⟨by simp, hrest.1⟩, hrest.2⟩
        cases hp
      | cons p left =>
        cases n with
        | zero =>
          refine ⟨p, mem_cons_self, lost_of_forall ?_⟩
          exact fun _ hq => absurd hq not_mem_nil
        | succ n =>
          have hne : k ≠ key p := hrec.ne_of_mem_record (hrecord ▸ mem_cons_self)
          rcases lt_or_gt_of_ne hne with hlt | hgt
          · -- the next record is still ahead
            have hahead : ∀ q ∈ (record visits).head?, k < key q := by
              rw [hrecord]
              rintro q ⟨⟩
              exact hlt
            obtain ⟨q, hq, hlost⟩ := ih (n := n + 1) hrec.tail fun hrest =>
              h ⟨⟨fun _ => hahead, hrest.1⟩, hrest.2⟩
            rw [hrecord, take_succ_cons] at hlost
            rw [hrecord] at hq
            refine ⟨q, hq, Lost.cons ?_ ?_⟩
            · rw [take_succ_cons, seek_of_lt hlt]
              exact fun _ => rfl
            · rwa [take_succ_cons, seek_of_lt hlt]
          · -- the cursor moves past it
            have hdistinct := hrec.tail.pairwise_record
            rw [hrecord, pairwise_cons] at hdistinct
            refine ⟨p, mem_cons_self, Lost.cons (fun heq => absurd heq.symm hne) ?_⟩
            rw [take_succ_cons, seek_of_gt hgt]
            refine lost_of_forall fun q hq => (hdistinct.1 q ?_).symm
            exact mem_of_mem_take ((suffix_seek k _).subset hq)
    | some p =>
      rw [record_some] at h ⊢
      cases n with
      | zero =>
        refine ⟨p, mem_cons_self, lost_of_forall ?_⟩
        exact fun _ hq => absurd hq not_mem_nil
      | succ n =>
        obtain ⟨q, hq, hlost⟩ := ih (n := n) hrec.tail fun hrest =>
          h ⟨⟨by simp, hrest.1⟩, Nat.succ_le_succ hrest.2⟩
        refine ⟨q, mem_cons_of_mem p hq, Lost.cons (fun heq => ?_) ?_⟩
        · exact absurd heq.symm (hrec.ne_of_mem_record hq)
        · rwa [take_succ_cons, ← hrec.key_eq, seek_self]

end Machgate.CursorReplay
