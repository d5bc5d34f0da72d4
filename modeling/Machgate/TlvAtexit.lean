import Mathlib.Data.List.Basic

namespace Machgate.TlvAtexit

open List

def shimTlvTermMax : Nat := 512

/-- A function and its argument, with the registrations that it makes when it is run. -/
inductive ShimTlvTermEntry
  | mk (func obj : Nat) (registers : List ShimTlvTermEntry)

/-- The entries in use, the last one first. -/
abbrev Entries := List ShimTlvTermEntry

def tlvAtexit (entries : Entries) (entry : ShimTlvTermEntry) : Entries :=
  if shimTlvTermMax ≤ entries.length then entries else entry :: entries

def registerAll (entries registers : Entries) : Entries := registers.foldl tlvAtexit entries

theorem sizeOf_registerAll (registers entries : Entries) :
    sizeOf (registerAll entries registers) < sizeOf registers + sizeOf entries := by
  induction registers generalizing entries with
  | nil => simp [registerAll]
  | cons entry registers ih =>
    have hrest := ih (tlvAtexit entries entry)
    have hentry : sizeOf (tlvAtexit entries entry) ≤ 1 + sizeOf entry + sizeOf entries := by
      unfold tlvAtexit
      split <;> simp
    simp only [registerAll, foldl_cons, cons.sizeOf_spec] at hrest ⊢
    omega

/-- The calls of the loop, each with the argument. -/
def shimRunTlvTermFuncs : Entries → List (Nat × Nat)
  | [] => []
  | .mk func obj registers :: rest =>
    (func, obj) :: shimRunTlvTermFuncs (registerAll rest registers)
termination_by entries => sizeOf entries
decreasing_by
  have hsize := sizeOf_registerAll registers rest
  simp only [List.cons.sizeOf_spec, ShimTlvTermEntry.mk.sizeOf_spec]
  omega

/-- The end of a thread that has made the registrations in this order. -/
def threadExit (registered : Entries) : List (Nat × Nat) :=
  shimRunTlvTermFuncs (registerAll [] registered)

mutual

/-- A call, and after it those of what it registers. -/
def calls : ShimTlvTermEntry → List (Nat × Nat)
  | .mk func obj registers => (func, obj) :: lastFirst registers

/-- Every registration is called once, the later one before the earlier one. -/
def lastFirst : Entries → List (Nat × Nat)
  | [] => []
  | entry :: later => lastFirst later ++ calls entry

end

mutual

/-- There is room for what an entry registers, with so many entries under it. -/
def FitsAbove (below : Nat) : ShimTlvTermEntry → Prop
  | .mk _ _ registers => Fit below registers

def Fit (below : Nat) : Entries → Prop
  | [] => True
  | entry :: later => below < shimTlvTermMax ∧ FitsAbove below entry ∧ Fit (below + 1) later

end

theorem length_calls_pos (entry : ShimTlvTermEntry) : 0 < (calls entry).length := by
  cases entry
  simp [calls]

mutual

theorem run_cons (entry : ShimTlvTermEntry) (rest : Entries) :
    (FitsAbove rest.length entry →
      shimRunTlvTermFuncs (entry :: rest) = calls entry ++ shimRunTlvTermFuncs rest) ∧
    (¬ FitsAbove rest.length entry → (shimRunTlvTermFuncs (entry :: rest)).length <
      (calls entry).length + (shimRunTlvTermFuncs rest).length) := by
  obtain ⟨func, obj, registers⟩ := entry
  obtain ⟨hfit, hnot⟩ := run_registerAll registers rest
  rw [FitsAbove, shimRunTlvTermFuncs, calls]
  constructor
  · intro h
    simp [hfit h]
  · intro h
    have hshort := hnot h
    simp only [length_cons]
    omega

theorem run_registerAll (registered rest : Entries) :
    (Fit rest.length registered →
      shimRunTlvTermFuncs (registerAll rest registered) =
        lastFirst registered ++ shimRunTlvTermFuncs rest) ∧
    (¬ Fit rest.length registered → (shimRunTlvTermFuncs (registerAll rest registered)).length <
      (lastFirst registered).length + (shimRunTlvTermFuncs rest).length) := by
  cases registered with
  | nil => simp [Fit, lastFirst, registerAll]
  | cons entry later =>
    rw [Fit, lastFirst, registerAll, foldl_cons, ← registerAll, tlvAtexit, length_append]
    split
    · next hfull =>
      -- the registration is dropped, and its call is missing
      have hpos := length_calls_pos entry
      obtain ⟨hfit, hnot⟩ := run_registerAll later rest
      refine ⟨fun h => absurd h.1 (Nat.not_lt.mpr hfull), fun _ => ?_⟩
      by_cases hlater : Fit rest.length later
      · rw [hfit hlater, length_append]
        omega
      · have hshort := hnot hlater
        omega
    · next hroom =>
      obtain ⟨hfit, hnot⟩ := run_registerAll later (entry :: rest)
      obtain ⟨hentry, hentry'⟩ := run_cons entry rest
      constructor
      · rintro ⟨-, habove, hlater⟩
        rw [hfit hlater, hentry habove, append_assoc]
      · intro h
        by_cases hlater : Fit (rest.length + 1) later
        · have hshort := hentry' fun habove => h ⟨Nat.not_le.mp hroom, habove, hlater⟩
          rw [hfit hlater, length_append]
          omega
        · have hshort := hnot hlater
          by_cases habove : FitsAbove rest.length entry
          · rw [hentry habove, length_append] at hshort
            omega
          · have hshort' := hentry' habove
            omega

end

variable {registered : Entries}

theorem threadExit_of_fit (h : Fit 0 registered) :
    threadExit registered = lastFirst registered := by
  simpa [threadExit, shimRunTlvTermFuncs] using (run_registerAll registered []).1 h

theorem threadExit_ne (h : ¬ Fit 0 registered) : threadExit registered ≠ lastFirst registered := by
  intro heq
  have hshort := (run_registerAll registered []).2 h
  rw [← threadExit, heq, shimRunTlvTermFuncs] at hshort
  simp at hshort

theorem length_le_of_fit {below : Nat} (h : Fit below registered) :
    registered = [] ∨ below + registered.length ≤ shimTlvTermMax := by
  induction registered generalizing below with
  | nil => exact .inl rfl
  | cons entry later ih =>
    obtain ⟨hbelow, -, hlater⟩ := h
    rcases ih hlater with rfl | hle
    · exact .inr hbelow
    · rw [length_cons]
      omega

end Machgate.TlvAtexit
