import Mathlib.Data.Nat.ModEq

namespace Machgate.RingWindow

open Function Nat List

variable {A : Type}

/-- The elements of the list stand in a ring of `n` slots from `start` on, the first one there; the
slots behind the last one are empty. -/
structure Window (n : Nat) (slots : Nat → Option A) (start : Nat) (held : List A) : Prop where
  start_lt : start < n
  length_le : held.length ≤ n
  slot : ∀ k, k < n → slots ((start + k) % n) = held[k]?

variable {n start k j : Nat} {slots : Nat → Option A} {held : List A} {a : A}

theorem add_mod_inj (hk : k < n) (hj : j < n) (h : (start + k) % n = (start + j) % n) : k = j :=
  (Nat.ModEq.add_left_cancel' start h).eq_of_lt_of_lt hk hj

theorem window_empty (hn : 0 < n) : Window n (fun _ => (none : Option A)) 0 [] where
  start_lt := hn
  length_le := Nat.zero_le n
  slot := fun _ _ => rfl

namespace Window

theorem slot_next (h : Window n slots start held) (hlength : held.length < n) :
    slots ((start + held.length) % n) = none := by
  rw [h.slot _ hlength, List.getElem?_eq_none_iff]

theorem slot_start (h : Window n slots start (a :: held)) : slots start = some a := by
  have := h.slot 0 (zero_lt_of_lt h.start_lt)
  rwa [Nat.add_zero, mod_eq_of_lt h.start_lt] at this

theorem push (h : Window n slots start held) (hlength : held.length < n) :
    Window n (update slots ((start + held.length) % n) (some a)) start (held ++ [a]) where
  start_lt := h.start_lt
  length_le := by
    rw [length_append, length_singleton]
    exact hlength
  slot := by
    intro k hk
    rcases Nat.lt_trichotomy k held.length with hlt | rfl | hgt
    · rw [update_of_ne fun heq => hlt.ne (add_mod_inj hk hlength heq), h.slot k hk,
        getElem?_append_left hlt]
    · simp
    · rw [update_of_ne fun heq => hgt.ne' (add_mod_inj hk hlength heq), h.slot k hk,
        getElem?_eq_none hgt.le, getElem?_eq_none]
      rw [length_append, length_singleton]
      exact hgt

theorem pop (h : Window n slots start (a :: held)) :
    Window n (update slots start none) ((start + 1) % n) held where
  start_lt := mod_lt _ (zero_lt_of_lt h.start_lt)
  length_le := le_of_succ_le h.length_le
  slot := by
    intro k hk
    have hlength := h.length_le
    rw [length_cons] at hlength
    have hindex : ((start + 1) % n + k) % n = (start + (k + 1)) % n := by
      rw [mod_add_mod, Nat.add_assoc, Nat.add_comm 1]
    rw [hindex]
    rcases Nat.lt_or_ge (k + 1) n with hlt | hge
    · have hne : (start + (k + 1)) % n ≠ start := by
        intro heq
        have hzero : (start + (k + 1)) % n = (start + 0) % n := by
          rw [heq, Nat.add_zero, mod_eq_of_lt h.start_lt]
        cases add_mod_inj hlt (zero_lt_of_lt hlt) hzero
      rw [update_of_ne hne, h.slot _ hlt, getElem?_cons_succ]
    · have hlap : k + 1 = n := Nat.le_antisymm hk hge
      rw [hlap, add_mod_right, mod_eq_of_lt h.start_lt, update_self, getElem?_eq_none]
      omega

theorem overwrite {b : A} (h : Window n slots start (a :: held)) (hfull : held.length + 1 = n) :
    Window n (update slots start (some b)) ((start + 1) % n) (held ++ [b]) := by
  have hpush := h.pop.push (a := b) (by omega)
  have hindex : ((start + 1) % n + held.length) % n = start := by
    rw [mod_add_mod, Nat.add_assoc, Nat.add_comm 1, hfull, add_mod_right, mod_eq_of_lt h.start_lt]
  rwa [hindex, update_idem] at hpush

end Window

end Machgate.RingWindow
