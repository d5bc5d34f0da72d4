import Machgate.KqueueHeld

namespace Machgate.KqueueAliases

open KqueueTable KqueueSlots KqueueTriggers KqueueRuns KqueueDescriptors KqueueHeld
open Function Option Bool Nat

/-- The aliases of a kqueue lead to one of its descriptors. -/
structure Aliased (s : Shim) (files : Int → Option File) : Prop where
  home : ∀ fd q, files fd = some (.kqueue q) → files (s.resolveKqueueFd fd) = some (.kqueue q)
  same : ∀ fd fd' q, files fd = some (.kqueue q) → files fd' = some (.kqueue q) →
    s.resolveKqueueFd fd = s.resolveKqueueFd fd'
  known : ∀ fd q, files fd = some (.kqueue q) → tracked fd → (s.aliases fd).isSome
  plain : ∀ fd, (∀ q, files fd ≠ some (.kqueue q)) → tracked fd → s.aliases fd = none

theorem Aliased.congr {s s' : Shim} {files : Int → Option File} (h : Aliased s files)
    (haliases : s'.aliases = s.aliases) : Aliased s' files := by
  have hresolve : s'.resolveKqueueFd = s.resolveKqueueFd := by
    funext fd
    exact resolve_congr (congrFun haliases fd)
  refine ⟨?_, ?_, ?_, ?_⟩
  · rw [hresolve]
    exact h.home
  · rw [hresolve]
    exact h.same
  · rw [haliases]
    exact h.known
  · rw [haliases]
    exact h.plain

/-- The registrations of a kqueue are kept under the number that its aliases lead to. -/
structure Sound (sys : System) (k : Kqueues) : Prop extends Aliased sys.shim sys.files where
  used : ∀ fd q, sys.files fd = some (.kqueue q) → q < sys.fresh
  unique : Unique sys.shim
  owner : ∀ i r, sys.shim.slot i = some r →
    sys.shim.resolveKqueueFd r.kq = r.kq ∧ ∃ q, sys.files r.kq = some (.kqueue q)
  held : ∀ fd q, sys.files fd = some (.kqueue q) → ∀ ident filter e,
    k q ident filter = some e ↔
      e.ident = ident ∧ e.filter = filter ∧ Holds sys.shim (sys.shim.resolveKqueueFd fd) e

namespace Sound

variable {sys : System} {k : Kqueues}

theorem kept (h : Sound sys k) : Kept sys k where
  usable := by
    intro fd q hfile ident filter
    refine ext fun e => ?_
    rw [registered_eq_some h.unique, h.held fd q hfile]
  gone := by
    intro i r hr
    obtain ⟨hresolve, q, hfile⟩ := h.owner i r hr
    exact ⟨r.kq, q, hfile, hresolve⟩

theorem isAlias_iff (h : Sound sys k) {fd : Int} :
    isAlias sys.shim fd ↔ tracked fd ∧ ∃ q, sys.files fd = some (.kqueue q) := by
  rw [isAlias, and_eq_true]
  refine and_congr_right fun htracked => ⟨?_, ?_⟩
  · intro hsome
    by_contra hnone
    rw [h.plain fd (not_exists.mp hnone) htracked] at hsome
    cases hsome
  · rintro ⟨q, hfile⟩
    exact h.known fd q hfile htracked

end Sound

/-- A number that was not one of a kqueue now refers to a file, and its alias is set. -/
structure Placed (sys : System) (k : Kqueues) (fd : Int) (f : Option File) (sys' : System)
    (k' : Kqueues) : Prop where
  free : ∀ q, sys.files fd ≠ some (.kqueue q)
  files : sys'.files = Function.update sys.files fd f
  slots : ∀ i, sys'.shim.slot i = sys.shim.slot i
  aliases : ∀ fd', fd' ≠ fd → sys'.shim.aliases fd' = sys.shim.aliases fd'
  fresh : sys.fresh ≤ sys'.fresh
  kqueues : ∀ q, q < sys.fresh → k' q = k q

/-- The new number is one more descriptor of a kqueue. -/
structure Joins (sys : System) (k' : Kqueues) (fd : Int) (q : Nat) (sys' : System) : Prop where
  home : sys'.files (sys'.shim.resolveKqueueFd fd) = some (.kqueue q)
  same : ∀ fd', sys.files fd' = some (.kqueue q) →
    sys.shim.resolveKqueueFd fd' = sys'.shim.resolveKqueueFd fd
  known : tracked fd → (sys'.shim.aliases fd).isSome
  used : q < sys'.fresh
  held : ∀ ident filter e, k' q ident filter = some e ↔
    e.ident = ident ∧ e.filter = filter ∧ Holds sys.shim (sys'.shim.resolveKqueueFd fd) e

namespace Placed

variable {sys sys' : System} {k k' : Kqueues} {fd : Int} {f : Option File}

theorem files_self (h : Placed sys k fd f sys' k') : sys'.files fd = f := by
  rw [h.files, update_self]

theorem files_of_ne (h : Placed sys k fd f sys' k') {fd' : Int} (hne : fd' ≠ fd) :
    sys'.files fd' = sys.files fd' := by
  rw [h.files, update_of_ne hne]

theorem ne_of_kqueue (h : Placed sys k fd f sys' k') {fd' : Int} {q : Nat}
    (hfile : sys.files fd' = some (.kqueue q)) : fd' ≠ fd := by
  rintro rfl
  exact h.free q hfile

theorem holds (h : Placed sys k fd f sys' k') {kq : Int} {e : Kevent} :
    Holds sys'.shim kq e ↔ Holds sys.shim kq e := by
  simp only [Holds, h.slots]

theorem resolve_of_ne (h : Placed sys k fd f sys' k') {fd' : Int} (hne : fd' ≠ fd) :
    sys'.shim.resolveKqueueFd fd' = sys.shim.resolveKqueueFd fd' :=
  resolve_congr (h.aliases fd' hne)

/-- A descriptor of a kqueue is the new one, or it was there before. -/
theorem kqueue_cases (h : Placed sys k fd f sys' k') {fd' : Int} {q : Nat}
    (hfile : sys'.files fd' = some (.kqueue q)) :
    fd' = fd ∧ f = some (.kqueue q) ∨ fd' ≠ fd ∧ sys.files fd' = some (.kqueue q) := by
  by_cases hne : fd' = fd
  · subst hne
    exact Or.inl ⟨rfl, h.files_self.symm.trans hfile⟩
  · exact Or.inr ⟨hne, (h.files_of_ne hne).symm.trans hfile⟩

theorem aliased (h : Placed sys k fd f sys' k') (haliased : Aliased sys.shim sys.files)
    (hother : (∀ q, f ≠ some (.kqueue q)) → tracked fd → sys'.shim.aliases fd = none)
    (hjoins : ∀ q, f = some (.kqueue q) → Joins sys k' fd q sys') :
    Aliased sys'.shim sys'.files := by
  refine ⟨?_, ?_, ?_, ?_⟩
  · intro fd' q hfile
    rcases h.kqueue_cases hfile with ⟨rfl, hf⟩ | ⟨hne, hold⟩
    · exact (hjoins q hf).home
    · have hhome := haliased.home fd' q hold
      rw [h.resolve_of_ne hne, h.files_of_ne (h.ne_of_kqueue hhome)]
      exact hhome
  · intro fd₁ fd₂ q hfile₁ hfile₂
    rcases h.kqueue_cases hfile₁ with ⟨rfl, hf₁⟩ | ⟨hne₁, hold₁⟩
    · rcases h.kqueue_cases hfile₂ with ⟨rfl, -⟩ | ⟨hne₂, hold₂⟩
      · rfl
      · rw [h.resolve_of_ne hne₂, (hjoins q hf₁).same fd₂ hold₂]
    · rcases h.kqueue_cases hfile₂ with ⟨rfl, hf₂⟩ | ⟨hne₂, hold₂⟩
      · rw [h.resolve_of_ne hne₁, (hjoins q hf₂).same fd₁ hold₁]
      · rw [h.resolve_of_ne hne₁, h.resolve_of_ne hne₂]
        exact haliased.same fd₁ fd₂ q hold₁ hold₂
  · intro fd' q hfile htracked
    rcases h.kqueue_cases hfile with ⟨rfl, hf⟩ | ⟨hne, hold⟩
    · exact (hjoins q hf).known htracked
    · rw [h.aliases fd' hne]
      exact haliased.known fd' q hold htracked
  · intro fd' hfile htracked
    by_cases hne : fd' = fd
    · subst hne
      exact hother (fun q hf => hfile q (h.files_self.trans hf)) htracked
    · rw [h.aliases fd' hne]
      exact haliased.plain fd' (fun q hold => hfile q ((h.files_of_ne hne).trans hold)) htracked

theorem sound (h : Placed sys k fd f sys' k') (hsound : Sound sys k)
    (hother : (∀ q, f ≠ some (.kqueue q)) → tracked fd → sys'.shim.aliases fd = none)
    (hjoins : ∀ q, f = some (.kqueue q) → Joins sys k' fd q sys') : Sound sys' k' := by
  refine ⟨h.aliased hsound.toAliased hother hjoins, ?_, ?_, ?_, ?_⟩
  · intro fd' q hfile
    rcases h.kqueue_cases hfile with ⟨rfl, hf⟩ | ⟨hne, hold⟩
    · exact (hjoins q hf).used
    · exact Nat.lt_of_lt_of_le (hsound.used fd' q hold) h.fresh
  · intro i j r r' hi hj hfor
    rw [h.slots] at hi hj
    exact hsound.unique i j r r' hi hj hfor
  · intro i r hr
    rw [h.slots] at hr
    obtain ⟨howner, q, hold⟩ := hsound.owner i r hr
    have hne := h.ne_of_kqueue hold
    rw [h.resolve_of_ne hne, h.files_of_ne hne]
    exact ⟨howner, q, hold⟩
  · intro fd' q hfile ident filter e
    rw [h.holds]
    rcases h.kqueue_cases hfile with ⟨rfl, hf⟩ | ⟨hne, hold⟩
    · exact (hjoins q hf).held ident filter e
    · rw [h.resolve_of_ne hne, h.kqueues q (hsound.used fd' q hold)]
      exact hsound.held fd' q hold ident filter e

end Placed

section

variable {s : Shim} {fd fromFd canonicalFd : Int}

theorem slot_rememberKqueueFd (i : Nat) : (rememberKqueueFd s fd canonicalFd).slot i = s.slot i := by
  rw [rememberKqueueFd]
  split <;> rfl

theorem aliases_rememberKqueueFd {fd' : Int} (hne : fd' ≠ fd) :
    (rememberKqueueFd s fd canonicalFd).aliases fd' = s.aliases fd' := by
  rw [rememberKqueueFd]
  split
  · exact update_of_ne hne _ _
  · rfl

theorem alias_rememberKqueueFd (h : tracked fd) :
    (rememberKqueueFd s fd canonicalFd).aliases fd = some canonicalFd := by
  rw [rememberKqueueFd, if_pos h]
  exact update_self fd _ _

theorem resolve_of_alias (htracked : tracked fd) (h : s.aliases fd = some canonicalFd) :
    s.resolveKqueueFd fd = canonicalFd := by
  rw [Shim.resolveKqueueFd, if_pos htracked, h, getD_some]

theorem resolve_of_not_isAlias (h : ¬ isAlias s fd) : s.resolveKqueueFd fd = fd := by
  rw [Shim.resolveKqueueFd]
  split
  · next htracked =>
    rw [isAlias, htracked, Bool.true_and, not_isSome_iff_eq_none] at h
    rw [h, getD_none]
  · rfl

theorem rememberKqueueDup_of_not_isAlias (h : ¬ isAlias s fromFd) :
    rememberKqueueDup s fromFd fd = s := by
  rw [rememberKqueueDup, if_neg]
  rintro (hne | halias)
  · exact hne (resolve_of_not_isAlias h)
  · exact h halias

theorem rememberKqueueDup_of_isAlias (h : isAlias s fromFd) :
    rememberKqueueDup s fromFd fd = rememberKqueueFd s fd (s.resolveKqueueFd fromFd) :=
  if_pos (Or.inr h)

theorem rememberKqueueDup_self : rememberKqueueDup s fd fd = s := by
  by_cases h : isAlias s fd
  · obtain ⟨htracked, hsome⟩ := and_eq_true_iff.mp h
    obtain ⟨c, hc⟩ := isSome_iff_exists.mp hsome
    rw [rememberKqueueDup_of_isAlias h, rememberKqueueFd, if_pos htracked,
      resolve_of_alias htracked hc, ← hc, update_eq_self]
  · exact rememberKqueueDup_of_not_isAlias h

end

namespace Sound

variable {sys : System} {k : Kqueues} {fd : Int}

theorem kqueue (h : Sound sys k) (hfree : sys.files fd = none) :
    Sound (sys.step (.kqueue fd)) (k.step sys (.kqueue fd)) := by
  have hresolve : (rememberKqueueFd sys.shim fd fd).resolveKqueueFd fd = fd := by
    by_cases htracked : tracked fd
    · exact resolve_of_alias htracked (alias_rememberKqueueFd htracked)
    · exact if_neg htracked
  have hplaced : Placed sys k fd (some (.kqueue sys.fresh)) (sys.step (.kqueue fd))
      (k.step sys (.kqueue fd)) :=
    { free := fun q hfile => nomatch hfree.symm.trans hfile
      files := rfl
      slots := fun i => slot_rememberKqueueFd i
      aliases := fun fd' hne => aliases_rememberKqueueFd hne
      fresh := le_succ sys.fresh
      kqueues := fun q hlt => update_of_ne (Nat.ne_of_lt hlt) _ k }
  refine hplaced.sound h (fun hne => absurd rfl (hne sys.fresh)) ?_
  rintro q ⟨⟩
  refine ⟨?_, ?_, ?_, lt_succ_self _, ?_⟩
  · change (sys.step (.kqueue fd)).files
      ((rememberKqueueFd sys.shim fd fd).resolveKqueueFd fd) = _
    rw [hresolve]
    exact hplaced.files_self
  · intro fd' hfile
    exact absurd (h.used fd' _ hfile) (Nat.lt_irrefl _)
  · intro htracked
    exact isSome_of_eq_some (alias_rememberKqueueFd htracked)
  · intro ident filter e
    change update k sys.fresh (fun _ _ => none) sys.fresh ident filter = some e ↔
      e.ident = ident ∧ e.filter = filter ∧
        Holds sys.shim ((rememberKqueueFd sys.shim fd fd).resolveKqueueFd fd) e
    rw [update_self, hresolve]
    constructor
    · exact fun hnone => nomatch hnone
    · rintro ⟨-, -, i, r, hr, rfl, -⟩
      obtain ⟨-, q, hfile⟩ := h.owner i r hr
      cases hfree.symm.trans hfile

theorem other (h : Sound sys k) {f : Option File} (hfree : ∀ q, sys.files fd ≠ some (.kqueue q))
    (hf : ∀ q, f ≠ some (.kqueue q)) :
    Sound { sys with files := update sys.files fd f } k := by
  have hplaced : Placed sys k fd f { sys with files := update sys.files fd f } k :=
    { free := hfree
      files := rfl
      slots := fun _ => rfl
      aliases := fun _ _ => rfl
      fresh := Nat.le_refl _
      kqueues := fun _ _ => rfl }
  exact hplaced.sound h (fun _ => h.plain fd hfree) (fun q hq => absurd hq (hf q))

theorem copy (h : Sound sys k) {fromFd : Int} (hfree : ∀ q, sys.files fd ≠ some (.kqueue q))
    (hwell : sys.CopiesWell fromFd fd) : Sound (sys.copy fromFd fd) k := by
  by_cases hkqueue : ∃ q, sys.files fromFd = some (.kqueue q)
  · obtain ⟨q, hfrom⟩ := hkqueue
    obtain ⟨hfromTracked, htracked⟩ := hwell q hfrom
    have halias : rememberKqueueDup sys.shim fromFd fd =
        rememberKqueueFd sys.shim fd (sys.shim.resolveKqueueFd fromFd) :=
      rememberKqueueDup_of_isAlias (h.isAlias_iff.mpr ⟨hfromTracked, q, hfrom⟩)
    have hself : (rememberKqueueDup sys.shim fromFd fd).aliases fd =
        some (sys.shim.resolveKqueueFd fromFd) := by
      rw [halias]
      exact alias_rememberKqueueFd htracked
    have hplaced : Placed sys k fd (sys.files fromFd) (sys.copy fromFd fd) k :=
      { free := hfree
        files := rfl
        slots := fun i => (congrArg (Shim.slot · i) halias).trans (slot_rememberKqueueFd i)
        aliases := fun fd' hne =>
          (congrArg (Shim.aliases · fd') halias).trans (aliases_rememberKqueueFd hne)
        fresh := Nat.le_refl _
        kqueues := fun _ _ => rfl }
    refine hplaced.sound h (fun hne => absurd hfrom (hne q)) ?_
    intro q' hq'
    obtain rfl : q = q' := File.kqueue.inj (some.inj (hfrom.symm.trans hq'))
    have hresolve : (sys.copy fromFd fd).shim.resolveKqueueFd fd =
        sys.shim.resolveKqueueFd fromFd := resolve_of_alias htracked hself
    have hhome := h.home fromFd q hfrom
    refine ⟨?_, ?_, fun _ => isSome_of_eq_some hself, h.used fromFd q hfrom, ?_⟩
    · rw [hresolve, hplaced.files_of_ne (hplaced.ne_of_kqueue hhome)]
      exact hhome
    · intro fd' hfile
      rw [hresolve]
      exact h.same fd' fromFd q hfile hfrom
    · rw [hresolve]
      exact h.held fromFd q hfrom
  · have hshim : rememberKqueueDup sys.shim fromFd fd = sys.shim :=
      rememberKqueueDup_of_not_isAlias fun halias => hkqueue (h.isAlias_iff.mp halias).2
    rw [System.copy, hshim]
    exact h.other hfree (not_exists.mp hkqueue)

end Sound

end Machgate.KqueueAliases
