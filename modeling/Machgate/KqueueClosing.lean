import Machgate.KqueueAliases

namespace Machgate.KqueueClosing

open KqueueTable KqueueSlots KqueueDescriptors KqueueHeld KqueueAliases Function Option

section

variable {s : Shim} {fd : Int}

theorem slot_forgetKqueueFd {i : Nat} {r : Registration} :
    (forgetKqueueFd s fd).slot i = some r ↔ s.slot i = some r ∧ forgotten s fd r = false := by
  rw [slot_eq_some, slot_eq_some, forgetKqueueFd, List.getElem?_map, map_eq_some_iff]
  constructor
  · rintro ⟨slot, hslot, hr⟩
    obtain ⟨rfl, hkeep⟩ := filter_eq_some_iff.mp hr
    rw [Bool.not_eq_true'] at hkeep
    exact ⟨hslot, hkeep⟩
  · rintro ⟨hslot, hkeep⟩
    refine ⟨some r, hslot, filter_eq_some_iff.mpr ⟨rfl, ?_⟩⟩
    rw [hkeep, Bool.not_false]

theorem aliases_forgetKqueueFd {fd' : Int} (hne : fd' ≠ fd) (htracked : tracked fd')
    (hresolve : s.resolveKqueueFd fd' ≠ fd) :
    (forgetKqueueFd s fd).aliases fd' = s.aliases fd' := by
  have hkeep : (if tracked fd then update s.aliases fd none else s.aliases) fd' =
      s.aliases fd' := by
    split
    · exact update_of_ne hne none s.aliases
    · rfl
  rw [forgetKqueueFd]
  dsimp only
  split
  · next hcanonical =>
    dsimp only
    rw [hkeep, if_neg]
    intro halias
    exact hresolve ((resolve_of_alias htracked halias).trans hcanonical.2.symm)
  · exact hkeep

theorem alias_forgetKqueueFd (htracked : tracked fd) : (forgetKqueueFd s fd).aliases fd = none := by
  have hself : update s.aliases fd none fd = none := update_self fd none s.aliases
  rw [forgetKqueueFd, if_pos htracked]
  dsimp only
  split
  · dsimp only
    rw [hself]
    exact if_neg fun h => nomatch h
  · exact hself

theorem resolve_forgetKqueueFd {fd' : Int} (hne : fd' ≠ fd) (hresolve : s.resolveKqueueFd fd' ≠ fd) :
    (forgetKqueueFd s fd).resolveKqueueFd fd' = s.resolveKqueueFd fd' := by
  by_cases htracked : tracked fd'
  · exact resolve_congr (aliases_forgetKqueueFd hne htracked hresolve)
  · exact (if_neg htracked).trans (if_neg htracked).symm

end

variable {sys : System} {fd : Int}

theorem drop_files {fd' : Int} (hne : fd' ≠ fd) : (sys.drop fd).files fd' = sys.files fd' :=
  update_of_ne hne _ sys.files

variable {k : Kqueues} (h : Sound sys k) (hwell : sys.ClosesWell fd)
include h hwell

theorem resolve_ne {fd' : Int} {q : Nat} (hfile : sys.files fd' = some (.kqueue q))
    (hne : fd' ≠ fd) : sys.shim.resolveKqueueFd fd' ≠ fd := by
  intro hresolve
  have hhome := h.home fd' q hfile
  rw [hresolve] at hhome
  have hlast : ¬ sys.Last fd := fun hlast => hne (hlast fd' (hfile.trans hhome.symm))
  rcases hwell q hhome with ⟨hlast', -⟩ | ⟨-, hlast' | hother⟩
  · exact hlast hlast'
  · exact hlast hlast'
  · exact hother ((h.same fd fd' q hhome hfile).trans hresolve)

theorem kq_ne {i : Nat} {r : Registration} (hr : sys.shim.slot i = some r)
    (hkeep : forgotten sys.shim fd r = false) : r.kq ≠ fd := by
  rintro rfl
  obtain ⟨hresolve, q, hfile⟩ := h.owner i r hr
  rcases hwell q hfile with ⟨-, htracked⟩ | ⟨hempty, -⟩
  · have halias := h.isAlias_iff.mpr ⟨htracked, q, hfile⟩
    rw [forgotten, halias, hresolve, decide_eq_true rfl, Bool.true_and, Bool.true_or] at hkeep
    cases hkeep
  · exact hempty i r hr hresolve.symm

theorem forgotten_eq {i : Nat} {r : Registration} (hr : sys.shim.slot i = some r) (hne : r.kq ≠ fd) :
    forgotten sys.shim fd r = concerns fd r.ident r.filter := by
  suffices hkq : ¬ (isAlias sys.shim fd ∧ r.kq = sys.shim.resolveKqueueFd fd) by
    have hfalse : (isAlias sys.shim fd && decide (r.kq = sys.shim.resolveKqueueFd fd)) = false := by
      rw [Bool.eq_false_iff, ne_eq, Bool.and_eq_true, decide_eq_true_eq]
      exact hkq
    rw [forgotten, hfalse, Bool.false_or]
  rintro ⟨halias, hkq⟩
  obtain ⟨-, q, hfile⟩ := h.isAlias_iff.mp halias
  have hhome := h.home fd q hfile
  rw [← hkq] at hhome
  have hlast : ¬ sys.Last fd := fun hlast => hne (hlast r.kq (hhome.trans hfile.symm))
  rcases hwell q hfile with ⟨hlast', -⟩ | ⟨hempty, -⟩
  · exact hlast hlast'
  · exact hempty i r hr hkq

theorem holds_drop {kq : Int} {e : Kevent} (hne : kq ≠ fd) :
    Holds (forgetKqueueFd sys.shim fd) kq e ↔
      Holds sys.shim kq e ∧ concerns fd e.ident e.filter = false := by
  constructor
  · rintro ⟨i, r, hr, rfl, rfl⟩
    obtain ⟨hold, hkeep⟩ := slot_forgetKqueueFd.mp hr
    rw [forgotten_eq h hwell hold hne] at hkeep
    exact ⟨⟨i, r, hold, rfl, rfl⟩, hkeep⟩
  · rintro ⟨⟨i, r, hold, rfl, rfl⟩, hkeep⟩
    refine ⟨i, r, slot_forgetKqueueFd.mpr ⟨hold, ?_⟩, rfl, rfl⟩
    rw [forgotten_eq h hwell hold hne]
    exact hkeep

/-- A descriptor of a kqueue that is left was one before, and its alias leads elsewhere. -/
theorem left_of_drop {fd' : Int} {q : Nat} (hfile : (sys.drop fd).files fd' = some (.kqueue q)) :
    sys.files fd' = some (.kqueue q) ∧ fd' ≠ fd ∧ sys.shim.resolveKqueueFd fd' ≠ fd := by
  have hne : fd' ≠ fd := by
    rintro rfl
    change update sys.files fd' none fd' = _ at hfile
    rw [update_self] at hfile
    cases hfile
  rw [drop_files hne] at hfile
  exact ⟨hfile, hne, resolve_ne h hwell hfile hne⟩

theorem drop_aliased : Aliased (sys.drop fd).shim (sys.drop fd).files := by
  refine ⟨?_, ?_, ?_, ?_⟩
  · intro fd' q hfile
    obtain ⟨hold, hne, hres⟩ := left_of_drop h hwell hfile
    change (sys.drop fd).files ((forgetKqueueFd sys.shim fd).resolveKqueueFd fd') = _
    rw [resolve_forgetKqueueFd hne hres, drop_files hres]
    exact h.home fd' q hold
  · intro fd₁ fd₂ q hfile₁ hfile₂
    obtain ⟨hold₁, hne₁, hres₁⟩ := left_of_drop h hwell hfile₁
    obtain ⟨hold₂, hne₂, hres₂⟩ := left_of_drop h hwell hfile₂
    change (forgetKqueueFd sys.shim fd).resolveKqueueFd fd₁ =
      (forgetKqueueFd sys.shim fd).resolveKqueueFd fd₂
    rw [resolve_forgetKqueueFd hne₁ hres₁, resolve_forgetKqueueFd hne₂ hres₂]
    exact h.same fd₁ fd₂ q hold₁ hold₂
  · intro fd' q hfile htracked
    obtain ⟨hold, hne, hres⟩ := left_of_drop h hwell hfile
    change ((forgetKqueueFd sys.shim fd).aliases fd').isSome
    rw [aliases_forgetKqueueFd hne htracked hres]
    exact h.known fd' q hold htracked
  · intro fd' hfile htracked
    by_cases hne : fd' = fd
    · subst hne
      exact alias_forgetKqueueFd htracked
    · have hplain := h.plain fd' (fun q hold => hfile q ((drop_files hne).trans hold)) htracked
      refine (aliases_forgetKqueueFd hne htracked ?_).trans hplain
      rw [Shim.resolveKqueueFd, if_pos htracked, hplain]
      exact hne

theorem sound_drop : Sound (sys.drop fd) (k.drop fd) := by
  refine ⟨drop_aliased h hwell, ?_, ?_, ?_, ?_⟩
  · intro fd' q hfile
    exact h.used fd' q (left_of_drop h hwell hfile).1
  · intro i j r r' hi hj hfor
    exact h.unique i j r r' (slot_forgetKqueueFd.mp hi).1 (slot_forgetKqueueFd.mp hj).1 hfor
  · intro i r hr
    obtain ⟨hold, hkeep⟩ := slot_forgetKqueueFd.mp hr
    have hne := kq_ne h hwell hold hkeep
    obtain ⟨howner, q, hfile⟩ := h.owner i r hold
    change (forgetKqueueFd sys.shim fd).resolveKqueueFd r.kq = r.kq ∧ _
    rw [resolve_forgetKqueueFd hne (resolve_ne h hwell hfile hne), drop_files hne]
    exact ⟨howner, q, hfile⟩
  · intro fd' q hfile ident filter e
    obtain ⟨hold, hne, hres⟩ := left_of_drop h hwell hfile
    change _ ↔ _ ∧ _ ∧ Holds (forgetKqueueFd sys.shim fd)
      ((forgetKqueueFd sys.shim fd).resolveKqueueFd fd') e
    rw [resolve_forgetKqueueFd hne hres, holds_drop h hwell hres, Kqueues.drop]
    constructor
    · intro hk
      split at hk
      · cases hk
      · next hconcerns =>
        obtain ⟨rfl, rfl, hholds⟩ := (h.held fd' q hold ident filter e).mp hk
        exact ⟨rfl, rfl, hholds, Bool.eq_false_iff.mpr hconcerns⟩
    · rintro ⟨rfl, rfl, hholds, hconcerns⟩
      rw [hconcerns]
      exact (h.held fd' q hold _ _ e).mpr ⟨rfl, rfl, hholds⟩

end Machgate.KqueueClosing
