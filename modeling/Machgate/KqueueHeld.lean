import Machgate.KqueueDescriptors

namespace Machgate.KqueueHeld

open KqueueTable KqueueSlots KqueueEvents KqueueRuns KqueueDescriptors Option

/-- A registration is kept under the number of a kqueue. -/
def Holds (s : Shim) (kq : Int) (e : Kevent) : Prop :=
  ∃ i r, s.slot i = some r ∧ r.kq = kq ∧ held r = e

section

variable {s : Shim} {kq : Int} {e : Kevent} {i : Nat} {r new : Registration}

theorem registered_eq_some (hunique : Unique s) {fd : Int} {ident : BitVec 64} {filter : Filter} :
    registered s fd ident filter = some e ↔
      e.ident = ident ∧ e.filter = filter ∧ Holds s (s.resolveKqueueFd fd) e := by
  rw [registered, bind_eq_some_iff]
  constructor
  · rintro ⟨i, hfind, hslot⟩
    obtain ⟨r, hr, hfor⟩ := find_some hfind
    rw [hr] at hslot
    obtain rfl := some.inj hslot
    obtain ⟨hkq, hident, hfilter⟩ := isFor_iff.mp hfor
    exact ⟨hident, hfilter, i, r, hr, hkq, rfl⟩
  · rintro ⟨rfl, rfl, i, r, hr, hkq, rfl⟩
    have hfor : r.isFor (s.resolveKqueueFd fd) r.ident r.filter := isFor_iff.mpr ⟨hkq, rfl, rfl⟩
    cases hfind : s.findKqueueRegistration fd r.ident r.filter with
    | none => exact absurd hfor (find_none hfind hr)
    | some j =>
      obtain ⟨r', hr', hfor'⟩ := find_some hfind
      obtain rfl : i = j := hunique i j r r' hr hr' (hkq.symm ▸ hfor')
      refine ⟨i, hfind, ?_⟩
      rw [hr]
      rfl

theorem holds_set_other {slot : Nat} {o : Option Registration} {ident : BitVec 64} {filter : Filter}
    (hold : ∀ r, s.slot slot = some r → r.isFor kq ident filter)
    (hnew : ∀ r, o = some r → r.isFor kq ident filter) (hlt : slot < s.registrations.length)
    {kq' : Int} (hne : ¬ (kq' = kq ∧ e.ident = ident ∧ e.filter = filter)) :
    Holds (s.setSlot slot o) kq' e ↔ Holds s kq' e := by
  have hother : ∀ r : Registration, r.kq = kq' → held r = e → ¬ r.isFor kq ident filter := by
    rintro r rfl rfl hfor
    exact hne (isFor_iff.mp hfor)
  constructor
  · rintro ⟨i, r, hr, hkq, he⟩
    have hi : i ≠ slot := by
      rintro rfl
      rw [slot_setSlot_self hlt] at hr
      exact hother r hkq he (hnew r hr)
    rw [slot_setSlot_of_ne hi] at hr
    exact ⟨i, r, hr, hkq, he⟩
  · rintro ⟨i, r, hr, hkq, he⟩
    have hi : i ≠ slot := by
      rintro rfl
      exact hother r hkq he (hold r hr)
    refine ⟨i, r, ?_, hkq, he⟩
    rw [slot_setSlot_of_ne hi]
    exact hr

theorem holds_set_self {slot : Nat} {o : Option Registration}
    (honly : ∀ i r, s.slot i = some r → r.isFor kq e.ident e.filter → i = slot)
    (hlt : slot < s.registrations.length) :
    Holds (s.setSlot slot o) kq e ↔ ∃ r, o = some r ∧ r.kq = kq ∧ held r = e := by
  constructor
  · rintro ⟨i, r, hr, hkq, rfl⟩
    have hi : i = slot := by
      by_contra hne
      rw [slot_setSlot_of_ne hne] at hr
      exact hne (honly i r hr (isFor_iff.mpr ⟨hkq, rfl, rfl⟩))
    subst hi
    rw [slot_setSlot_self hlt] at hr
    exact ⟨r, hr, hkq, rfl⟩
  · rintro ⟨r, rfl, hkq, he⟩
    exact ⟨slot, r, slot_setSlot_self hlt _, hkq, he⟩

theorem holds_store (w : World) (slot : Nat) (change : Kevent) :
    Holds (store w s slot new change) kq e ↔ Holds (s.setSlot slot (some new)) kq e := by
  simp only [Holds, slot_store]

end

section

variable {w : World} {kq : Int} {s s' : Shim} {change e : Kevent}

theorem isFor_changed (kq : Int) (change : Kevent) (triggered : Bool) :
    (changed kq change triggered).isFor kq change.ident change.filter :=
  isFor_iff.mpr ⟨rfl, rfl, rfl⟩

theorem Updated.holds_other (h : Updated w kq s change s') {kq' : Int}
    (hne : ¬ (kq' = s.resolveKqueueFd kq ∧ e.ident = change.ident ∧ e.filter = change.filter)) :
    Holds s' kq' e ↔ Holds s kq' e := by
  cases h with
  | ignored | missing => rfl
  | deleted slot r hchange hslot hfor =>
    refine holds_set_other ?_ ?_ (lt_of_slot hslot) hne
    · intro r' hr'
      obtain rfl := some.inj (hslot.symm.trans hr')
      exact hfor
    · rintro r' ⟨⟩
  | replaced slot r hchange hslot hfor =>
    rw [holds_store]
    refine holds_set_other ?_ ?_ (lt_of_slot hslot) hne
    · intro r' hr'
      obtain rfl := some.inj (hslot.symm.trans hr')
      exact hfor
    · rintro r' ⟨⟩
      exact isFor_changed _ change _
  | added slot hchange hslot hlt habsent =>
    rw [holds_store]
    refine holds_set_other ?_ ?_ hlt hne
    · intro r' hr'
      cases hslot.symm.trans hr'
    · rintro r' ⟨⟩
      exact isFor_changed _ change _

theorem Updated.holds_self (h : Updated w kq s change s') (hunique : Unique s)
    (hident : e.ident = change.ident) (hfilter : e.filter = change.filter) :
    Holds s' (s.resolveKqueueFd kq) e ↔
      (¬ change.has evDelete ∧ (Registers change ∧ e = change ∨
        ¬ Registers change ∧ Holds s (s.resolveKqueueFd kq) e)) := by
  have honly : ∀ {slot r}, s.slot slot = some r →
      r.isFor (s.resolveKqueueFd kq) change.ident change.filter →
      ∀ i r', s.slot i = some r' → r'.isFor (s.resolveKqueueFd kq) e.ident e.filter → i = slot := by
    intro slot r hslot hfor i r' hr' hfor'
    obtain ⟨hkq, hi, hf⟩ := isFor_iff.mp hfor
    refine (hunique slot i r r' hslot hr' ?_).symm
    rw [hkq, hi, hf, ← hident, ← hfilter]
    exact hfor'
  have hstored : ∀ triggered,
      (∃ r, some (changed (s.resolveKqueueFd kq) change triggered) = some r ∧
        r.kq = s.resolveKqueueFd kq ∧ held r = e) ↔ e = change := by
    intro triggered
    constructor
    · rintro ⟨r, ⟨⟩, -, rfl⟩
      rfl
    · rintro rfl
      exact ⟨_, rfl, rfl, rfl⟩
  have hput : Registers change → (e = change ↔
      ¬ change.has evDelete ∧ (Registers change ∧ e = change ∨
        ¬ Registers change ∧ Holds s (s.resolveKqueueFd kq) e)) := by
    intro hchange
    constructor
    · exact fun h => ⟨hchange.1, Or.inl ⟨hchange, h⟩⟩
    · rintro ⟨-, ⟨-, h⟩ | ⟨hregisters, -⟩⟩
      · exact h
      · exact absurd hchange hregisters
  cases h with
  | ignored hchange hregisters =>
    constructor
    · exact fun h => ⟨hchange, Or.inr ⟨hregisters, h⟩⟩
    · rintro ⟨-, ⟨hregisters', -⟩ | ⟨-, h⟩⟩
      · exact absurd hregisters' hregisters
      · exact h
  | missing hchange habsent =>
    constructor
    · rintro ⟨i, r, hr, hkq, rfl⟩
      exact absurd (isFor_iff.mpr ⟨hkq, hident, hfilter⟩) (habsent i r hr)
    · exact fun h => absurd hchange h.1
  | deleted slot r hchange hslot hfor =>
    rw [holds_set_self (honly hslot hfor) (lt_of_slot hslot)]
    constructor
    · rintro ⟨r', ⟨⟩, -⟩
    · exact fun h => absurd hchange h.1
  | replaced slot r hchange hslot hfor =>
    rw [holds_store, holds_set_self (honly hslot hfor) (lt_of_slot hslot), hstored]
    exact hput hchange
  | added slot hchange hslot hlt habsent =>
    have hnone : ∀ i r', s.slot i = some r' →
        r'.isFor (s.resolveKqueueFd kq) e.ident e.filter → i = slot := by
      intro i r' hr' hfor'
      rw [hident, hfilter] at hfor'
      exact absurd hfor' (habsent i r' hr')
    rw [holds_store, holds_set_self hnone hlt, hstored]
    exact hput hchange

end

/-- The tables hold the same registrations in the same slots. -/
structure SameHeld (s s' : Shim) : Prop where
  aliases : s'.aliases = s.aliases
  slots : ∀ i, (s'.slot i).map (fun r => (r.kq, held r)) = (s.slot i).map fun r => (r.kq, held r)

namespace SameHeld

variable {s s' s'' : Shim}

theorem refl (s : Shim) : SameHeld s s := ⟨rfl, fun _ => rfl⟩

theorem trans (h : SameHeld s s') (h' : SameHeld s' s'') : SameHeld s s'' :=
  ⟨h'.aliases.trans h.aliases, fun i => (h'.slots i).trans (h.slots i)⟩

theorem symm (h : SameHeld s s') : SameHeld s' s := ⟨h.aliases.symm, fun i => (h.slots i).symm⟩

theorem slot (h : SameHeld s s') {i : Nat} {r : Registration} (hr : s'.slot i = some r) :
    ∃ r', s.slot i = some r' ∧ r'.kq = r.kq ∧ held r' = held r := by
  have hslot := h.slots i
  rw [hr] at hslot
  obtain ⟨r', hr', heq⟩ := map_eq_some_iff.mp hslot.symm
  exact ⟨r', hr', Prod.mk.inj heq⟩

theorem resolve (h : SameHeld s s') (fd : Int) : s'.resolveKqueueFd fd = s.resolveKqueueFd fd :=
  resolve_congr (congrFun h.aliases fd)

theorem holds (h : SameHeld s s') {kq : Int} {e : Kevent} : Holds s' kq e ↔ Holds s kq e := by
  have hmono : ∀ {s s'}, SameHeld s s' → Holds s' kq e → Holds s kq e := by
    rintro s s' h ⟨i, r, hr, rfl, rfl⟩
    obtain ⟨r', hr', hkq, hheld⟩ := h.slot hr
    exact ⟨i, r', hr', hkq, hheld⟩
  exact ⟨hmono h, hmono h.symm⟩

theorem isFor {r r' : Registration} (hkq : r'.kq = r.kq) (hheld : held r' = held r) :
    r'.isFor = r.isFor := by
  obtain ⟨hident, hfilter, -⟩ := Kevent.mk.inj hheld
  funext kq ident filter
  rw [Registration.isFor, Registration.isFor, hkq, hident, hfilter]

theorem unique (h : SameHeld s s') (hunique : Unique s) : Unique s' := by
  intro i j r r' hi hj hfor
  obtain ⟨t, ht, hkq, hheld⟩ := h.slot hi
  obtain ⟨t', ht', hkq', hheld'⟩ := h.slot hj
  obtain ⟨hident, hfilter, -⟩ := Kevent.mk.inj hheld
  refine hunique i j t t' ht ht' ?_
  rw [isFor hkq' hheld', hkq, hident, hfilter]
  exact hfor

theorem setSlot {i : Nat} {r new : Registration} (hr : s.slot i = some r) (hkq : new.kq = r.kq)
    (hheld : held new = held r) : SameHeld s (s.setSlot i (some new)) := by
  refine ⟨rfl, fun j => ?_⟩
  by_cases hj : j = i
  · subst hj
    rw [slot_setSlot_self (lt_of_slot hr), hr, map_some, map_some, hkq, hheld]
  · rw [slot_setSlot_of_ne hj]

theorem drain (w : World) (s : Shim) (r : Registration) : SameHeld s (drain w s r) := by
  refine ⟨?_, fun i => by rw [slot_drain]⟩
  rw [KqueueTable.drain]
  split <;> rfl

theorem emitStep (w : World) (s : Shim) (c : Collected) (revents : BitVec 16) :
    SameHeld s (emitStep w s c revents).1 := by
  rw [KqueueTable.emitStep]
  split
  · exact drain w s c.snapshot
  · next live hlive =>
    have hslot := (filter_eq_some_iff.mp hlive).1
    split
    · exact setSlot hslot rfl rfl
    · split
      · exact refl s
      · split
        · exact refl s
        · exact (@setSlot s c.slot live (reported live c.snapshot) hslot rfl rfl).trans
            (drain w _ c.snapshot)

theorem emit (w : World) (s : Shim) (entries : List (Collected × BitVec 16)) (nevents : Nat) :
    SameHeld s (emitKqueueEvents w s entries nevents).1 := by
  induction entries generalizing s nevents with
  | nil => exact refl s
  | cons entry entries ih =>
    obtain ⟨c, revents⟩ := entry
    cases nevents with
    | zero => exact refl s
    | succ nevents =>
      obtain ⟨left, hemit⟩ := emitKqueueEvents_step w s c revents entries nevents
      rw [hemit]
      exact (emitStep w s c revents).trans (ih _ left)

theorem kevent (w : World) (s : Shim) (call : Call) (hargs : 0 ≤ call.kq ∧ 0 ≤ call.nevents) :
    SameHeld (applyKqueueChanges w call.kq s call.changelist).1 (kevent w s call).1 := by
  rcases kevent_cases w s call with ⟨hbad, -⟩ | ⟨-, ⟨hstate, -⟩ | ⟨result, receipts, hstate⟩⟩
  · exact absurd hargs hbad
  · rw [hstate]
    exact refl _
  · rw [hstate]
    exact emit w _ _ _

end SameHeld

end Machgate.KqueueHeld
