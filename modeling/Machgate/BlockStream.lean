import Mathlib.Tactic.Ring

/-!
A stream taken in block by block: the state after its whole blocks, and the rest that is not a
block yet.
-/

namespace Machgate.BlockStream

open List Nat

section

variable {σ α : Type} (compress : σ → List α → σ) (size : Nat)

def absorb (s : σ) (xs : List α) : σ :=
  (List.range (xs.length / size)).foldl
    (fun s i => compress s ((xs.drop (size * i)).take size)) s

def residue (xs : List α) : List α := xs.drop (size * (xs.length / size))

variable {size}

theorem absorb_of_lt {xs : List α} (s : σ) (h : xs.length < size) :
    absorb compress size s xs = s := by
  rw [absorb, div_eq_of_lt h]
  rfl

theorem residue_of_lt {xs : List α} (h : xs.length < size) : residue size xs = xs := by
  rw [residue, div_eq_of_lt h, Nat.mul_zero, drop_zero]

theorem length_residue (xs : List α) : (residue size xs).length = xs.length % size := by
  rw [residue, length_drop, mod_def]

variable (hsize : 0 < size)

include hsize

theorem length_block_append {block : List α} (h : block.length = size) (xs : List α) :
    (block ++ xs).length / size = xs.length / size + 1 := by
  rw [length_append, h, add_div_left _ hsize]

theorem absorb_block_append (s : σ) {block : List α} (h : block.length = size) (xs : List α) :
    absorb compress size s (block ++ xs) = absorb compress size (compress s block) xs := by
  have hshift : ∀ i, (block ++ xs).drop (size * (i + 1)) = xs.drop (size * i) := by
    intro i
    rw [mul_succ, Nat.add_comm, ← drop_drop, ← h, drop_left]
  rw [absorb, length_block_append hsize h, range_succ_eq_map, foldl_cons, foldl_map,
    Nat.mul_zero, drop_zero, take_left' h]
  simp only [hshift]
  rfl

theorem residue_block_append {block : List α} (h : block.length = size) (xs : List α) :
    residue size (block ++ xs) = residue size xs := by
  rw [residue, length_block_append hsize h, mul_succ, Nat.add_comm, ← drop_drop, ← h, drop_left]
  rfl

theorem block_induction {P : List α → Prop} (short : ∀ xs, xs.length < size → P xs)
    (block : ∀ b xs, b.length = size → P xs → P (b ++ xs)) (xs : List α) : P xs := by
  induction hn : xs.length using Nat.strong_induction_on generalizing xs with
  | h n ih =>
    rcases Nat.lt_or_ge xs.length size with hlt | hge
    · exact short xs hlt
    · rw [← take_append_drop size xs]
      apply block
      · rw [length_take, Nat.min_eq_left hge]
      · refine ih (xs.drop size).length ?_ _ rfl
        rw [length_drop]
        omega

/-- What has been taken in can be cut anywhere, if the rest is kept for the next part. -/
theorem absorb_append (s : σ) (xs ys : List α) :
    absorb compress size s (xs ++ ys) =
      absorb compress size (absorb compress size s xs) (residue size xs ++ ys) := by
  induction xs using block_induction hsize generalizing s with
  | short xs h => rw [absorb_of_lt compress s h, residue_of_lt h]
  | block b xs h ih =>
    rw [append_assoc, absorb_block_append compress hsize s h,
      absorb_block_append compress hsize s h, residue_block_append hsize h, ih]

theorem residue_append (xs ys : List α) :
    residue size (xs ++ ys) = residue size (residue size xs ++ ys) := by
  induction xs using block_induction hsize with
  | short xs h => rw [residue_of_lt h]
  | block b xs h ih =>
    rw [append_assoc, residue_block_append hsize h, residue_block_append hsize h, ih]

end

variable {α β : Type} {parts : α → List β} {width : Nat} (hwidth : ∀ a, (parts a).length = width)

include hwidth

theorem length_flatMap (xs : List α) : (xs.flatMap parts).length = width * xs.length := by
  induction xs with
  | nil => rfl
  | cons x xs ih =>
    rw [flatMap_cons, length_append, hwidth, ih, length_cons]
    ring

theorem drop_flatMap (xs : List α) (n : Nat) :
    (xs.flatMap parts).drop (width * n) = (xs.drop n).flatMap parts := by
  induction n generalizing xs with
  | zero => rfl
  | succ n ih =>
    cases xs with
    | nil => simp
    | cons x xs =>
      rw [flatMap_cons, mul_succ, Nat.add_comm, ← drop_drop, ← hwidth x, drop_left, hwidth x, ih]
      rfl

theorem take_flatMap (xs : List α) (n : Nat) :
    (xs.flatMap parts).take (width * n) = (xs.take n).flatMap parts := by
  induction n generalizing xs with
  | zero => simp
  | succ n ih =>
    cases xs with
    | nil => simp
    | cons x xs =>
      rw [flatMap_cons, mul_succ, Nat.add_comm, take_add, take_left' (hwidth x),
        ← hwidth x, drop_left, hwidth x, ih]
      rfl

theorem absorb_flatMap {σ : Type} {compress : σ → List β → σ} {size : Nat} (hsize : 0 < size)
    (hpos : 0 < width) (s : σ) (xs : List α) :
    absorb compress (width * size) s (xs.flatMap parts) =
      absorb (fun s block => compress s (block.flatMap parts)) size s xs := by
  induction xs using block_induction hsize generalizing s with
  | short xs h =>
    rw [absorb_of_lt _ s h, absorb_of_lt]
    rw [length_flatMap hwidth]
    exact Nat.mul_lt_mul_of_pos_left h hpos
  | block b xs h ih =>
    rw [flatMap_append, absorb_block_append _ (Nat.mul_pos hpos hsize),
      absorb_block_append _ hsize s h, ih]
    rw [length_flatMap hwidth, h]

end Machgate.BlockStream
