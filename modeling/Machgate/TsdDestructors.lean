import Mathlib.Data.BitVec

namespace Machgate.TsdDestructors

open List

abbrev darwinTsdKeyCount : Nat := 384

def shimTsdDestructorPasses : Nat := 4

abbrev Key := Fin darwinTsdKeyCount

/-- The values of the keys of a thread, and the memory that the destructors work on. -/
structure State (M : Type) where
  values : Key → BitVec 64
  memory : M

/-- A destructor is given the value and may set any key to anything. -/
abbrev Destructors (M : Type) := Key → Option (BitVec 64 → State M → State M)

variable {M : Type} (destructors : Destructors M)

def visit (s : State M × Bool) (index : Key) : State M × Bool :=
  if s.1.values index = 0 then s
  else
    let cleared := { s.1 with values := Function.update s.1.values index 0 }
    match destructors index with
    | none => (cleared, s.2)
    | some destructor =>
      let after := destructor (s.1.values index) cleared
      (after, s.2 || after.values index != 0)

def visits (s : State M) (keys : List Key) : State M × Bool := keys.foldl (visit destructors) (s, false)

def pass (s : State M) : State M × Bool := visits destructors s (List.finRange darwinTsdKeyCount)

/-- How many passes were made, and the state behind the last one. -/
def runPasses : Nat → State M → Nat × State M
  | 0, s => (0, s)
  | left + 1, s =>
    if (pass destructors s).2 then
      let rest := runPasses left (pass destructors s).1
      (rest.1 + 1, rest.2)
    else (1, (pass destructors s).1)

def shimRunThreadTsdDestructors (s : State M) : Nat × State M :=
  runPasses destructors shimTsdDestructorPasses s

def Clear (s : State M) : Prop := ∀ key, (destructors key).isSome → s.values key = 0

/-- No destructor leaves a value in a null key that has a destructor and comes before its own. -/
def Upward : Prop :=
  ∀ index destructor key, destructors index = some destructor → (destructors key).isSome →
    key < index → ∀ value s, s.values key = 0 → (destructor value s).values key = 0

variable {destructors} {s : State M} {flagged : State M × Bool}

theorem rerun_of_visit (h : flagged.2) (index : Key) : (visit destructors flagged index).2 := by
  unfold visit
  split
  · exact h
  · split <;> simp [h]

variable (destructors) in
theorem rerun_of_visits (h : flagged.2) (keys : List Key) :
    (keys.foldl (visit destructors) flagged).2 := by
  induction keys generalizing flagged with
  | nil => exact h
  | cons index keys ih => exact ih (rerun_of_visit h index)

theorem null_of_visit {key : Key} (hkey : (destructors key).isSome)
    (h : (visit destructors flagged key).2 = false) :
    (visit destructors flagged key).1.values key = 0 := by
  rcases Option.isSome_iff_exists.mp hkey with ⟨destructor, hdestructor⟩
  revert h
  unfold visit
  split
  · next hnull => exact fun _ => hnull
  · rw [hdestructor]
    simp

/-- Without a rerun each destructor has left its own key null. -/
theorem null_behind_visit {key : Key} (hkey : (destructors key).isSome)
    (h : (pass destructors s).2 = false) :
    (visits destructors s ((finRange darwinTsdKeyCount).take (key + 1))).1.values key = 0 := by
  have hlast : (finRange darwinTsdKeyCount).take (key + 1) =
      (finRange darwinTsdKeyCount).take key ++ [key] := by
    simp [take_add_one]
  rw [hlast, visits, foldl_append]
  apply null_of_visit hkey
  by_contra hrerun
  rw [Bool.not_eq_false] at hrerun
  have hpass := rerun_of_visits destructors hrerun ((finRange darwinTsdKeyCount).drop (key + 1))
  rw [← foldl_cons, ← foldl_append] at hpass
  have hall : (finRange darwinTsdKeyCount).take key ++
      key :: (finRange darwinTsdKeyCount).drop (key + 1) = finRange darwinTsdKeyCount := by
    simpa [hlast] using take_append_drop (key + 1) (finRange darwinTsdKeyCount)
  rw [hall] at hpass
  exact Bool.false_ne_true (h.symm.trans hpass)

theorem exists_pass_of_early {left : Nat} (h : (runPasses destructors left s).1 < left) :
    ∃ before, (pass destructors before).1 = (runPasses destructors left s).2 ∧
      (pass destructors before).2 = false := by
  induction left generalizing s with
  | zero => simp at h
  | succ left ih =>
    by_cases hrerun : (pass destructors s).2
    · simp only [runPasses, hrerun, if_true] at h ⊢
      exact ih (by omega)
    · exact ⟨s, by simp [runPasses, hrerun]⟩

theorem null_of_visit_later {index key : Key} (hup : Upward destructors)
    (hkey : (destructors key).isSome) (hlt : key < index) (h : flagged.1.values key = 0) :
    (visit destructors flagged index).1.values key = 0 := by
  have hcleared : Function.update flagged.1.values index 0 key = 0 := by
    rw [Function.update_of_ne (ne_of_lt hlt), h]
  unfold visit
  split
  · exact h
  · split
    · exact hcleared
    · next destructor hdestructor =>
      exact hup index destructor key hdestructor hkey hlt _ _ hcleared

theorem null_of_visits_later {key : Key} (hup : Upward destructors)
    (hkey : (destructors key).isSome) {keys : List Key} (hlater : ∀ index ∈ keys, key < index)
    (h : flagged.1.values key = 0) : (keys.foldl (visit destructors) flagged).1.values key = 0 := by
  induction keys generalizing flagged with
  | nil => exact h
  | cons index keys ih =>
    exact ih (fun later hmem => hlater later (mem_cons_of_mem index hmem))
      (null_of_visit_later hup hkey (hlater index mem_cons_self) h)

/-- The destructor of one key sets another to its value. -/
def crossing (index key : Key) : Destructors Unit := fun k =>
  if k = index then some fun value s => { s with values := Function.update s.values key value }
  else if k = key then some fun _ s => s
  else none

end Machgate.TsdDestructors
