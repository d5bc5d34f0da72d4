import Mathlib.Data.List.Nodup

namespace Machgate.LinkedQueue

open List Function

variable {A : Type}

/-- The pointers of a queue to its first and its last item, and the `next` fields of the items. -/
structure Links (A : Type) where
  head : Option A
  tail : Option A
  next : A → Option A

def empty : Links A := ⟨none, none, fun _ => none⟩

def push [DecidableEq A] (q : Links A) (a : A) : Links A :=
  let next := Function.update q.next a none
  match q.tail with
  | some last => ⟨q.head, some a, Function.update next last (some a)⟩
  | none => ⟨some a, some a, next⟩

def pop [DecidableEq A] (q : Links A) : Option (A × Links A) :=
  q.head.map fun a => (a, ⟨q.next a, if q.next a = none then none else q.tail, q.next⟩)

def Chain (next : A → Option A) : Option A → List A → Prop
  | first, [] => first = none
  | first, a :: rest => first = some a ∧ Chain next (next a) rest

structure Represents (q : Links A) (items : List A) : Prop where
  chain : Chain q.next q.head items
  last : q.tail = items.getLast?
  nodup : items.Nodup

variable {next : A → Option A} {first : Option A} {q : Links A} {items rest : List A} {a : A}

theorem represents_empty : Represents (empty : Links A) [] where
  chain := rfl
  last := rfl
  nodup := nodup_nil

theorem Chain.congr {next' : A → Option A} (h : Chain next first items)
    (heq : ∀ a ∈ items, next' a = next a) : Chain next' first items := by
  induction items generalizing first with
  | nil => exact h
  | cons a rest ih =>
    refine ⟨h.1, ?_⟩
    rw [heq a mem_cons_self]
    exact ih h.2 fun b hb => heq b (mem_cons_of_mem a hb)

variable [DecidableEq A]

theorem Chain.concat {last : A} (h : Chain next first (items ++ [last]))
    (hlast : last ∉ items) (ha : a ≠ last) (hnext : next a = none) :
    Chain (update next last (some a)) first (items ++ [last, a]) := by
  induction items generalizing first with
  | nil =>
    refine ⟨h.1, ?_, ?_⟩
    · rw [update_self]
    · rw [update_of_ne ha]
      exact hnext
  | cons b rest ih =>
    rw [mem_cons, not_or] at hlast
    refine ⟨h.1, ?_⟩
    rw [update_of_ne (Ne.symm hlast.1)]
    exact ih h.2 hlast.2

theorem Represents.push (h : Represents q items) (ha : a ∉ items) :
    Represents (LinkedQueue.push q a) (items ++ [a]) := by
  have hchain : Chain (update q.next a none) q.head items := by
    apply h.chain.congr
    intro b hb
    apply update_of_ne
    rintro rfl
    exact ha hb
  have hnodup : (items ++ [a]).Nodup := by
    simpa [nodup_append, h.nodup] using fun b hb (heq : b = a) => ha (heq ▸ hb)
  have htail := h.last
  rw [LinkedQueue.push]
  rcases eq_nil_or_concat' items with rfl | ⟨front, last, rfl⟩
  · rw [htail]
    exact ⟨⟨rfl, update_self _ _ _⟩, rfl, hnodup⟩
  · rw [getLast?_concat] at htail
    rw [htail]
    refine ⟨?_, getLast?_concat.symm, hnodup⟩
    have hlast : last ∉ front := by
      have := h.nodup
      rw [nodup_append] at this
      exact fun hmem => this.2.2 last hmem last (mem_singleton_self last) rfl
    rw [append_assoc]
    apply hchain.concat hlast
    · rintro rfl
      exact ha (mem_append_right _ (mem_singleton_self a))
    · exact update_self _ _ _

theorem Represents.pop_nil (h : Represents q []) : pop q = none := by
  rw [pop, show q.head = none from h.chain]
  rfl

theorem Represents.pop_cons (h : Represents q (a :: rest)) :
    ∃ q', pop q = some (a, q') ∧ Represents q' rest := by
  refine ⟨_, by rw [pop, h.chain.1]; rfl, h.chain.2, ?_, (nodup_cons.mp h.nodup).2⟩
  rcases rest with _ | ⟨b, rest⟩
  · exact if_pos h.chain.2
  · rw [if_neg (by rw [h.chain.2.1]; exact Option.some_ne_none b), h.last]
    exact getLast?_cons_cons

end Machgate.LinkedQueue
