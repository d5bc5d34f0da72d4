import Machgate.KqueueTable

namespace Machgate.KqueueSlots

open KqueueTable Option List

/-- No two slots hold a registration for the same kqueue, identifier and filter. -/
def Unique (s : Shim) : Prop :=
  ∀ i j r r', s.slot i = some r → s.slot j = some r' →
    r'.isFor r.kq r.ident r.filter → i = j

section

variable {s : Shim} {i j : Nat} {r : Registration}

variable {ident : BitVec 64} {filter : Filter}

theorem isFor_iff {kq : Int} :
    r.isFor kq ident filter ↔ r.kq = kq ∧ r.ident = ident ∧ r.filter = filter := by
  rw [Registration.isFor, Bool.and_eq_true, Bool.and_eq_true, decide_eq_true_eq, decide_eq_true_eq,
    decide_eq_true_eq, and_assoc]

theorem slot_eq_some : s.slot i = some r ↔ s.registrations[i]? = some (some r) := by
  rw [Shim.slot, join_eq_some_iff]

theorem mem_registrations : some r ∈ s.registrations ↔ ∃ i, s.slot i = some r := by
  simp only [slot_eq_some, mem_iff_getElem?]

theorem lt_of_slot (h : s.slot i = some r) : i < s.registrations.length :=
  (List.getElem?_eq_some_iff.mp (slot_eq_some.mp h)).1

theorem slot_setSlot_self (h : i < s.registrations.length) (new : Option Registration) :
    (s.setSlot i new).slot i = new := by
  rw [Shim.slot, Shim.setSlot, getElem?_set_self h, join_some]

theorem slot_setSlot_of_ne (h : j ≠ i) (new : Option Registration) :
    (s.setSlot i new).slot j = s.slot j := by
  rw [Shim.slot, Shim.setSlot, getElem?_set_ne h.symm, Shim.slot]

theorem slot_of_clear (h : (s.setSlot j none).slot i = some r) : i ≠ j ∧ s.slot i = some r := by
  have hne : i ≠ j := by
    rintro rfl
    have hlt := lt_of_slot h
    rw [Shim.setSlot, length_set] at hlt
    rw [slot_setSlot_self hlt] at h
    cases h
  rw [slot_setSlot_of_ne hne] at h
  exact ⟨hne, h⟩

theorem slot_drain (w : World) (s : Shim) (r : Registration) (i : Nat) :
    (drain w s r).slot i = s.slot i := by
  rw [drain]
  split <;> rfl

theorem slot_store (w : World) (s : Shim) (slot : Nat) (r : Registration) (change : Kevent) (i : Nat) :
    (store w s slot r change).slot i = (s.setSlot slot (some r)).slot i := by
  rw [store]
  split <;> rfl

theorem resolve_congr {s' : Shim} {fd : Int} (h : s'.aliases fd = s.aliases fd) :
    s'.resolveKqueueFd fd = s.resolveKqueueFd fd := by
  rw [Shim.resolveKqueueFd, Shim.resolveKqueueFd, h]

theorem find_some {kq : Int} (h : s.findKqueueRegistration kq ident filter = some i) :
    ∃ r, s.slot i = some r ∧ r.isFor (s.resolveKqueueFd kq) ident filter := by
  obtain ⟨hlt, hany, -⟩ := findIdx?_eq_some_iff_getElem.mp h
  cases hr : s.registrations[i] with
  | none =>
    rw [hr] at hany
    cases hany
  | some r =>
    rw [hr] at hany
    exact ⟨r, slot_eq_some.mpr (List.getElem?_eq_some_iff.mpr ⟨hlt, hr⟩), hany⟩

theorem find_none {kq : Int}
    (h : s.findKqueueRegistration kq ident filter = none) (hr : s.slot i = some r) :
    ¬ r.isFor (s.resolveKqueueFd kq) ident filter := by
  intro hfor
  have hnone := findIdx?_eq_none_iff.mp h (some r) (mem_registrations.mpr ⟨i, hr⟩)
  rw [any_some, hfor] at hnone
  cases hnone

theorem alloc_some (h : s.allocKqueueRegistration = some i) :
    s.slot i = none ∧ i < s.registrations.length := by
  obtain ⟨hlt, hnone, -⟩ := findIdx?_eq_some_iff_getElem.mp h
  refine ⟨?_, hlt⟩
  rw [Shim.slot, getElem?_eq_getElem hlt, isNone_iff_eq_none.mp hnone]
  rfl

end

def Registers (change : Kevent) : Prop :=
  ¬ change.has evDelete ∧ (change.filter = .read ∨ change.filter = .write ∨ change.filter = .user)

def Absent (s : Shim) (kq : Int) (ident : BitVec 64) (filter : Filter) : Prop :=
  ∀ i r, s.slot i = some r → ¬ r.isFor kq ident filter

inductive Updated (w : World) (kq : Int) (s : Shim) (change : Kevent) : Shim → Prop
  | ignored (hchange : ¬ change.has evDelete) (hfilter : ¬ Registers change) :
      Updated w kq s change s
  | missing (hchange : change.has evDelete)
      (habsent : Absent s (s.resolveKqueueFd kq) change.ident change.filter) :
      Updated w kq s change s
  | deleted (slot : Nat) (r : Registration) (hchange : change.has evDelete)
      (hslot : s.slot slot = some r)
      (hfor : r.isFor (s.resolveKqueueFd kq) change.ident change.filter) :
      Updated w kq s change (s.setSlot slot none)
  | replaced (slot : Nat) (r : Registration) (hchange : Registers change)
      (hslot : s.slot slot = some r)
      (hfor : r.isFor (s.resolveKqueueFd kq) change.ident change.filter) :
      Updated w kq s change
        (store w s slot (changed (s.resolveKqueueFd kq) change r.triggered) change)
  | added (slot : Nat) (hchange : Registers change) (hslot : s.slot slot = none)
      (hlt : slot < s.registrations.length)
      (habsent : Absent s (s.resolveKqueueFd kq) change.ident change.filter) :
      Updated w kq s change (store w s slot (changed (s.resolveKqueueFd kq) change false) change)

variable {w : World} {kq : Int} {s s' : Shim} {change : Kevent}

theorem registers_of_not (hdelete : ¬ change.has evDelete)
    (h : ¬ (change.filter ≠ .read ∧ change.filter ≠ .write ∧ change.filter ≠ .user)) :
    Registers change := by
  refine ⟨hdelete, ?_⟩
  by_contra hnone
  rw [not_or, not_or] at hnone
  exact h hnone

theorem not_registers (h : change.filter ≠ .read ∧ change.filter ≠ .write ∧ change.filter ≠ .user) :
    ¬ Registers change := by
  rintro ⟨-, hread | hwrite | huser⟩
  · exact h.1 hread
  · exact h.2.1 hwrite
  · exact h.2.2 huser

theorem updated_of_update (h : updateKqueueRegistration w kq s change = some s') :
    Updated w kq s change s' := by
  rw [updateKqueueRegistration] at h
  cases hfound : s.findKqueueRegistration kq change.ident change.filter with
  | none =>
    have habsent : Absent s (s.resolveKqueueFd kq) change.ident change.filter :=
      fun i r hr => find_none hfound hr
    simp only [hfound] at h
    split at h
    · next hdelete =>
      obtain rfl := some.inj h
      exact .missing hdelete habsent
    · next hdelete =>
      split at h
      · next hfilter =>
        obtain rfl := some.inj h
        exact .ignored hdelete (not_registers hfilter)
      · next hfilter =>
        obtain ⟨slot, hslot, rfl⟩ := map_eq_some_iff.mp h
        obtain ⟨hnone, hlt⟩ := alloc_some hslot
        exact .added slot (registers_of_not hdelete hfilter) hnone hlt habsent
  | some slot =>
    obtain ⟨r, hslot, hfor⟩ := find_some hfound
    simp only [hfound] at h
    split at h
    · next hdelete =>
      obtain rfl := some.inj h
      exact .deleted slot r hdelete hslot hfor
    · next hdelete =>
      split at h
      · next hfilter =>
        obtain rfl := some.inj h
        exact .ignored hdelete (not_registers hfilter)
      · next hfilter =>
        obtain rfl := some.inj h
        rw [hslot]
        exact .replaced slot r (registers_of_not hdelete hfilter) hslot hfor

variable {slot : Nat}

theorem unique_set {new : Registration} (hunique : Unique s) (hlt : slot < s.registrations.length)
    (hnew : ∀ i r, s.slot i = some r → r.isFor new.kq new.ident new.filter → i = slot) :
    Unique (s.setSlot slot (some new)) := by
  intro i j r r' hi hj hfor
  by_cases hislot : i = slot
  · subst hislot
    rw [slot_setSlot_self hlt] at hi
    obtain rfl := some.inj hi
    by_contra hne
    rw [slot_setSlot_of_ne (Ne.symm hne)] at hj
    exact hne (hnew j r' hj hfor).symm
  · rw [slot_setSlot_of_ne hislot] at hi
    by_cases hjslot : j = slot
    · subst hjslot
      rw [slot_setSlot_self hlt] at hj
      obtain rfl := some.inj hj
      obtain ⟨hkq, hident, hfilter⟩ := isFor_iff.mp hfor
      exact hnew i r hi (isFor_iff.mpr ⟨hkq.symm, hident.symm, hfilter.symm⟩)
    · rw [slot_setSlot_of_ne hjslot] at hj
      exact hunique i j r r' hi hj hfor

theorem unique_clear (hunique : Unique s) : Unique (s.setSlot slot none) := by
  intro i j r r' hi hj hfor
  exact hunique i j r r' (slot_of_clear hi).2 (slot_of_clear hj).2 hfor

theorem unique_store {new : Registration}
    (h : Unique (s.setSlot slot (some new))) : Unique (store w s slot new change) := by
  intro i j r r' hi hj hfor
  rw [slot_store] at hi hj
  exact h i j r r' hi hj hfor

theorem Updated.unique (h : Updated w kq s change s') (hunique : Unique s) : Unique s' := by
  cases h with
  | ignored hchange hfilter | missing hchange habsent => exact hunique
  | deleted slot r hchange hslot hfor => exact unique_clear hunique
  | replaced slot r hchange hslot hfor =>
    refine unique_store (unique_set hunique (lt_of_slot hslot) ?_)
    intro i r' hi hfor'
    obtain ⟨hkq, hident, hfilter⟩ := isFor_iff.mp hfor
    refine (hunique slot i r r' hslot hi ?_).symm
    rw [hkq, hident, hfilter]
    exact hfor'
  | added slot hchange hslot hlt habsent =>
    refine unique_store (unique_set hunique hlt ?_)
    intro i r hi hfor
    exact absurd hfor (habsent i r hi)

theorem unique_applyKqueueChanges (changes : List Kevent) (hunique : Unique s) :
    Unique (applyKqueueChanges w kq s changes).1 := by
  induction changes generalizing s with
  | nil => exact hunique
  | cons change rest ih =>
    rw [applyKqueueChanges]
    cases hupdate : updateKqueueRegistration w kq s change with
    | none => exact hunique
    | some next => exact ih ((updated_of_update hupdate).unique hunique)

end Machgate.KqueueSlots
