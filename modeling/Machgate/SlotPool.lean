import Mathlib.Data.BitVec

/-!
A pool that is mapped when the first slot is asked for and then handed out from the front, slot by
slot, until the next slot would not fit.
-/

namespace Machgate.SlotPool

open List Option Nat

/-- The bytes in use, `none` before the pool is mapped. -/
abbrev Used := Option Nat

/-- One request: the pool afterwards and the offset of the slot, if there is one. `granted` says
whether a mapping made now succeeds. -/
def take (size capacity : Nat) (granted : Bool) (used : Used) : Used × Option Nat :=
  match used.or (if granted then some 0 else none) with
  | none => (none, none)
  | some u => if capacity < u + size then (some u, none) else (some (u + size), some u)

def front (used : Used) : Nat := used.getD 0

def Serves (size capacity : Nat) (granted : Bool) (used : Used) : Prop :=
  (used.isSome ∨ granted) ∧ front used + size ≤ capacity

instance (size capacity : Nat) (granted : Bool) (used : Used) :
    Decidable (Serves size capacity granted used) :=
  inferInstanceAs (Decidable (_ ∧ _))

section

variable {size capacity : Nat} {granted : Bool} {used : Used}

theorem take_of_serves (h : Serves size capacity granted used) :
    take size capacity granted used = (some (front used + size), some (front used)) := by
  obtain ⟨hmapped, hroom⟩ := h
  have hor : used.or (if granted then some 0 else none) = some (front used) := by
    rcases used with _ | u
    · rcases hmapped with hnone | hgranted
      · exact absurd hnone (by simp)
      · simp [hgranted, front]
    · rfl
  simp only [take, hor]
  rw [if_neg (by omega)]

theorem take_of_not_serves (h : ¬ Serves size capacity granted used) :
    (take size capacity granted used).2 = none ∧
      front (take size capacity granted used).1 = front used := by
  rcases used with _ | u
  · rcases granted with _ | _
    · exact ⟨rfl, rfl⟩
    · have hroom : capacity < size := by
        by_contra hfit
        exact h ⟨Or.inr rfl, by simpa [front] using hfit⟩
      simp [take, hroom, front]
  · have hroom : capacity < u + size := by
      by_contra hfit
      exact h ⟨Or.inl rfl, by simpa [front] using hfit⟩
    simp [take, hroom, front]

theorem take_snd_eq_some {offset : Nat} (h : (take size capacity granted used).2 = some offset) :
    offset = front used ∧ offset + size ≤ capacity ∧
      front (take size capacity granted used).1 = offset + size := by
  have hserves : Serves size capacity granted used := by
    by_contra hnot
    rw [(take_of_not_serves hnot).1] at h
    exact absurd h (by simp)
  rw [take_of_serves hserves] at h ⊢
  obtain rfl : front used = offset := by simpa using h
  exact ⟨rfl, hserves.2, rfl⟩

end

inductive Event
  | idle
  | request (granted : Bool)

def serve (size capacity : Nat) (used : Used) : Event → Used × Option Nat
  | .idle => (used, none)
  | .request granted => take size capacity granted used

def offsets (size capacity : Nat) : Used → List Event → List (Option Nat)
  | _, [] => []
  | used, e :: rest =>
    (serve size capacity used e).2 :: offsets size capacity (serve size capacity used e).1 rest

def Event.isRequest : Event → Bool
  | .idle => false
  | .request _ => true

variable {size capacity : Nat}

theorem front_le_serve (used : Used) (e : Event) :
    front used ≤ front (serve size capacity used e).1 := by
  cases e with
  | idle => exact le_rfl
  | request granted =>
    by_cases h : Serves size capacity granted used
    · change front used ≤ front (take size capacity granted used).1
      rw [take_of_serves h]
      exact Nat.le_add_right _ _
    · exact (take_of_not_serves h).2.ge

theorem front_le_of_mem_offsets {used : Used} {events : List Event} {offset : Nat}
    (h : some offset ∈ offsets size capacity used events) :
    front used ≤ offset ∧ offset + size ≤ capacity := by
  induction events generalizing used with
  | nil => exact absurd h (by simp [offsets])
  | cons e rest ih =>
    rcases mem_cons.mp h with hhead | htail
    · cases e with
      | idle => exact absurd hhead (by simp [serve])
      | request granted =>
        obtain ⟨hfront, hroom, -⟩ := take_snd_eq_some hhead.symm
        exact ⟨hfront.ge, hroom⟩
    · obtain ⟨hfront, hroom⟩ := ih htail
      exact ⟨le_trans (front_le_serve used e) hfront, hroom⟩

/-- Of two slots the earlier one ends before the later one begins. -/
theorem offsets_pairwise (used : Used) (events : List Event) :
    (offsets size capacity used events).Pairwise
      fun first second => ∀ a ∈ first, ∀ b ∈ second, a + size ≤ b := by
  induction events generalizing used with
  | nil => exact Pairwise.nil
  | cons e rest ih =>
    refine Pairwise.cons ?_ (ih _)
    intro second hsecond a ha b hb
    cases e with
    | idle => exact absurd ha (by simp [serve])
    | request granted =>
      obtain ⟨-, -, hnext⟩ := take_snd_eq_some (mem_def.mp ha)
      rw [mem_def.mp hb] at hsecond
      exact hnext ▸ (front_le_of_mem_offsets hsecond).1

variable (size capacity) in
/-- While every mapping succeeds, the requests are served in order as long as there is room. -/
theorem offsets_getElem? (used : Used) (events : List Event)
    (hgranted : used.isSome ∨ ∀ e ∈ events, e ≠ .request false) (i : Nat)
    (hi : i < events.length) (hrequest : events[i].isRequest)
    (hroom : front used + size * ((events.take i).countP Event.isRequest + 1) ≤ capacity) :
    (offsets size capacity used events)[i]? =
      some (some (front used + size * (events.take i).countP Event.isRequest)) := by
  induction events generalizing used i with
  | nil => exact absurd hi (by simp)
  | cons e rest ih =>
    cases e with
    | idle =>
      cases i with
      | zero => exact absurd hrequest (by simp [Event.isRequest])
      | succ i =>
        have hrest := ih used (hgranted.imp id fun h e he => h e (mem_cons_of_mem _ he))
          i (by simpa using hi) (by simpa using hrequest) (by simpa [Event.isRequest] using hroom)
        simpa [offsets, serve, Event.isRequest] using hrest
    | request granted =>
      have hmapped : used.isSome ∨ granted := by
        rcases hgranted with hsome | hall
        · exact Or.inl hsome
        · cases granted with
          | false => exact absurd rfl (hall _ mem_cons_self)
          | true => exact Or.inr rfl
      have hserves : Serves size capacity granted used := by
        refine ⟨hmapped, le_trans ?_ hroom⟩
        exact Nat.add_le_add_left (Nat.le_mul_of_pos_right _ (succ_pos _)) _
      have htake := take_of_serves hserves
      cases i with
      | zero => simp [offsets, serve, htake]
      | succ i =>
        have hcount : ((Event.request granted :: rest).take (i + 1)).countP Event.isRequest =
            (rest.take i).countP Event.isRequest + 1 := by
          rw [take_succ_cons, countP_cons_of_pos rfl]
        rw [hcount] at hroom ⊢
        have hfront : front (some (front used + size)) = front used + size := rfl
        have hrest := ih (some (front used + size)) (Or.inl rfl) i (by simpa using hi)
          (by simpa using hrequest) (by
            rw [hfront]
            rw [mul_succ] at hroom
            omega)
        rw [hfront, Nat.add_assoc, Nat.add_comm size, ← mul_succ] at hrest
        simpa only [offsets, serve, htake, getElem?_cons_succ] using hrest

end Machgate.SlotPool
