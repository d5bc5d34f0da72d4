import Machgate.KqueueEvents

namespace Machgate.KqueueTriggers

open KqueueTable KqueueSlots KqueueEvents Option Function Prod

/-- A user event: the number its kqueue is known by, and its identifier. -/
abbrev Key := Int × BitVec 64

inductive Entry
  | triggered (key : Key)
  | deleted (key : Key)
  | reported (key : Key)
  deriving DecidableEq

/-- What a change means for the user events. -/
def changeEntries (kq : Int) (change : Kevent) : List Entry :=
  if change.filter ≠ .user then []
  else if change.has evDelete then [.deleted (kq, change.ident)]
  else if change.triggers then [.triggered (kq, change.ident)]
  else []

/-- The changes up to the first that finds no slot. -/
def appliedEntries (w : World) (kq : Int) : Shim → List Kevent → List Entry
  | _, [] => []
  | s, change :: rest =>
    match updateKqueueRegistration w kq s change with
    | none => []
    | some next => changeEntries (s.resolveKqueueFd kq) change ++ appliedEntries w kq next rest

def reportEntries (kq : Int) (events : List Kevent) : List Entry :=
  events.filterMap fun event =>
    if event.filter = .user then some (.reported (kq, event.ident)) else none

def Result.reports (kq : Int) : Result → List Entry
  | .error _ => []
  | .events _ _ events => reportEntries kq events

def callEntries (w : World) (s : Shim) (call : Call) : List Entry :=
  (if 0 ≤ call.kq ∧ 0 ≤ call.nevents then appliedEntries w call.kq s call.changelist else []) ++
    Result.reports (s.resolveKqueueFd call.kq) (kevent w s call).2

/-- No descriptor is opened or closed between the calls. -/
def runEntries (files : Int → Option Nat) : Shim → List (World × Call) → List Entry
  | _, [] => []
  | s, (w, call) :: rest =>
    callEntries { w with eventfd := files } s call ++
      runEntries files (kevent { w with eventfd := files } s call).1 rest

/-- The triggers of a registration that are not used up. -/
def settle (credit : Key → Nat) : Entry → Key → Nat
  | .triggered key => Function.update credit key (credit key + 1)
  | .deleted key => Function.update credit key 0
  | .reported key => Function.update credit key (credit key - 1)

/-- Each report uses up a trigger of its own registration. -/
def Paid : (Key → Nat) → List Entry → Prop
  | _, [] => True
  | credit, entry :: rest =>
    (∀ key, entry = .reported key → 0 < credit key) ∧ Paid (settle credit entry) rest

theorem paid_append (credit : Key → Nat) (entries rest : List Entry) :
    Paid credit (entries ++ rest) ↔
      Paid credit entries ∧ Paid (entries.foldl settle credit) rest := by
  induction entries generalizing credit with
  | nil => exact ⟨fun h => ⟨trivial, h⟩, fun h => h.2⟩
  | cons entry entries ih =>
    rw [List.cons_append, Paid, Paid, ih, and_assoc]
    rfl

/-- A change of a user event that concerns the only one on its eventfd; if it adds one, no trigger
is left there. -/
def CarefulChange (w : World) (kq : Int) (s : Shim) (change : Kevent) : Prop :=
  change.filter = .user → Registers change →
    (∀ i r, s.slot i = some r → r.filter = .user →
      w.eventfd r.kq = w.eventfd (s.resolveKqueueFd kq) →
        r.isFor (s.resolveKqueueFd kq) change.ident .user) ∧
      (Absent s (s.resolveKqueueFd kq) change.ident .user →
        ∀ q ∈ w.eventfd (s.resolveKqueueFd kq), s.pending q = false)

def Careful (w : World) (kq : Int) : Shim → List Kevent → Prop
  | _, [] => True
  | s, change :: rest => CarefulChange w kq s change ∧
      ∀ next, updateKqueueRegistration w kq s change = some next → Careful w kq next rest

/-- A call on a kqueue, by a descriptor that leads to it like the number it is known by. -/
structure CarefulCall (w : World) (s : Shim) (call : Call) : Prop where
  leads : ∃ q, w.eventfd call.kq = some q ∧ w.eventfd (s.resolveKqueueFd call.kq) = some q
  changes : Careful w call.kq s call.changelist

def CarefulRun (files : Int → Option Nat) : Shim → List (World × Call) → Prop
  | _, [] => True
  | s, (w, call) :: rest =>
    CarefulCall { w with eventfd := files } s call ∧
      CarefulRun files (kevent { w with eventfd := files } s call).1 rest

/-- A user event that can be reported has a trigger left. -/
structure Covered (files : Int → Option Nat) (credit : Key → Nat) (s : Shim) : Prop where
  unique : Unique s
  lone : ∀ i j r r', s.slot i = some r → s.slot j = some r' → r.filter = .user → r'.filter = .user →
    files r.kq = files r'.kq → i = j
  leads : ∀ i r, s.slot i = some r → r.filter = .user → ∃ q, files r.kq = some q
  paid : ∀ i r, s.slot i = some r → r.filter = .user → ∀ q ∈ files r.kq,
    (s.pending q = true ∨ r.triggered = true) → 0 < credit (r.kq, r.ident)

section

variable {w : World} {kq : Int} {s s' : Shim} {change : Kevent} {credit credit' : Key → Nat}
  {slot : Nat}

theorem Covered.weaken (h : Covered w.eventfd credit s)
    (hslot : ∀ i r, s'.slot i = some r → s.slot i = some r) (hpending : s'.pending = s.pending)
    (hcredit : ∀ i r, s'.slot i = some r → r.filter = .user →
      credit' (r.kq, r.ident) = credit (r.kq, r.ident)) : Covered w.eventfd credit' s' where
  unique := fun i j r r' hi hj => h.unique i j r r' (hslot i r hi) (hslot j r' hj)
  lone := fun i j r r' hi hj => h.lone i j r r' (hslot i r hi) (hslot j r' hj)
  leads := fun i r hi => h.leads i r (hslot i r hi)
  paid := by
    intro i r hi huser q hq hready
    rw [hcredit i r hi huser]
    rw [hpending] at hready
    exact h.paid i r (hslot i r hi) huser q hq hready

theorem Covered.set_other {new : Registration} (h : Covered w.eventfd credit s)
    (hlt : slot < s.registrations.length) (hunique : Unique (s.setSlot slot (some new)))
    (hnew : new.filter ≠ .user) : Covered w.eventfd credit (s.setSlot slot (some new)) := by
  have hold : ∀ i r, (s.setSlot slot (some new)).slot i = some r → r.filter = .user →
      s.slot i = some r := by
    intro i r hi huser
    by_cases hislot : i = slot
    · subst hislot
      rw [slot_setSlot_self hlt] at hi
      obtain rfl := some.inj hi
      exact absurd huser hnew
    · rwa [slot_setSlot_of_ne hislot] at hi
  exact {
    unique := hunique
    lone := fun i j r r' hi hj hr hr' => h.lone i j r r' (hold i r hi hr) (hold j r' hj hr') hr hr'
    leads := fun i r hi hr => h.leads i r (hold i r hi hr) hr
    paid := fun i r hi hr => h.paid i r (hold i r hi hr) hr }

/-- A user event comes into a slot as the only one on its eventfd. -/
theorem Covered.set_user {new : Registration} {pending : Nat → Bool} {q : Nat}
    (h : Covered w.eventfd credit s) (hlt : slot < s.registrations.length)
    (hunique : Unique (s.setSlot slot (some new))) (hq : w.eventfd new.kq = some q)
    (honly : ∀ i r, s.slot i = some r → r.filter = .user → w.eventfd r.kq = w.eventfd new.kq →
      i = slot) (hpending : ∀ q', q' ≠ q → pending q' = s.pending q')
    (hcredit : ∀ key : Key, key.1 ≠ new.kq → credit' key = credit key)
    (hpaid : pending q = true ∨ new.triggered = true → 0 < credit' (new.kq, new.ident)) :
    Covered w.eventfd credit' { s.setSlot slot (some new) with pending := pending } := by
  have hcases : ∀ i r, (s.setSlot slot (some new)).slot i = some r → r.filter = .user →
      i = slot ∧ r = new ∨ i ≠ slot ∧ s.slot i = some r ∧ w.eventfd r.kq ≠ w.eventfd new.kq := by
    intro i r hi hr
    by_cases hislot : i = slot
    · subst hislot
      rw [slot_setSlot_self hlt] at hi
      exact .inl ⟨rfl, (some.inj hi).symm⟩
    · rw [slot_setSlot_of_ne hislot] at hi
      exact .inr ⟨hislot, hi, fun hfile => hislot (honly i r hi hr hfile)⟩
  refine ⟨hunique, ?_, ?_, ?_⟩
  · intro i j r r' hi hj hr hr' hfile
    rcases hcases i r hi hr with ⟨rfl, rfl⟩ | ⟨hislot, hi, hfi⟩
    · rcases hcases j r' hj hr' with ⟨rfl, -⟩ | ⟨-, -, hfj⟩
      · rfl
      · exact absurd hfile.symm hfj
    · rcases hcases j r' hj hr' with ⟨-, rfl⟩ | ⟨-, hj, -⟩
      · exact absurd hfile hfi
      · exact h.lone i j r r' hi hj hr hr' hfile
  · intro i r hi hr
    rcases hcases i r hi hr with ⟨-, rfl⟩ | ⟨-, hi, -⟩
    · exact ⟨q, hq⟩
    · exact h.leads i r hi hr
  · intro i r hi hr q' hq' hready
    rcases hcases i r hi hr with ⟨-, rfl⟩ | ⟨-, hi, hfile⟩
    · obtain rfl : q = q' := some.inj (hq.symm.trans hq')
      exact hpaid hready
    · have hne : q' ≠ q := by
        rintro rfl
        exact hfile ((show w.eventfd r.kq = some q' from hq').trans hq.symm)
      have hkq : r.kq ≠ new.kq := fun heq => hfile (congrArg w.eventfd heq)
      rw [hcredit (r.kq, r.ident) hkq]
      refine h.paid i r hi hr q' hq' ?_
      rw [← hpending q' hne]
      exact hready

theorem changeEntries_other (hchange : change.filter ≠ .user) (kq : Int) :
    changeEntries kq change = [] := if_pos hchange

theorem changeEntries_user (hchange : Registers change) (huser : change.filter = .user) (kq : Int) :
    changeEntries kq change = if change.triggers then [.triggered (kq, change.ident)] else [] := by
  rw [changeEntries, if_neg (not_not.mpr huser), if_neg hchange.1]

theorem changeEntries_delete (hdelete : change.has evDelete) (huser : change.filter = .user)
    (kq : Int) : changeEntries kq change = [.deleted (kq, change.ident)] := by
  rw [changeEntries, if_neg (not_not.mpr huser), if_pos hdelete]

theorem covered_store {triggered : Bool} {q : Nat} (h : Covered w.eventfd credit s)
    (hchange : Registers change) (hlt : slot < s.registrations.length)
    (hunique : Unique (s.setSlot slot (some (changed kq change triggered))))
    (hq : w.eventfd kq = some q)
    (honly : change.filter = .user → ∀ i r, s.slot i = some r → r.filter = .user →
      w.eventfd r.kq = w.eventfd kq → i = slot)
    (hpaid : change.filter = .user → s.pending q = true ∨ triggered = true →
      0 < credit (kq, change.ident)) :
    Covered w.eventfd ((changeEntries kq change).foldl settle credit)
      (store w s slot (changed kq change triggered) change) := by
  by_cases huser : change.filter = .user
  · rw [changeEntries_user hchange huser, store]
    by_cases htriggers : change.triggers = true
    · rw [if_pos htriggers, if_pos ⟨huser, htriggers⟩]
      refine h.set_user hlt hunique hq (honly huser) ?_ ?_ fun _ => ?_
      · intro q' hne
        rw [setPending, show w.eventfd (changed kq change triggered).kq = some q from hq]
        exact update_of_ne hne true s.pending
      · intro key hkey
        exact update_of_ne (fun heq => hkey (congrArg fst heq)) _ credit
      · change 0 < update credit (kq, change.ident) _ (kq, change.ident)
        rw [update_self]
        exact Nat.succ_pos _
    · rw [if_neg htriggers, if_neg fun hand => htriggers hand.2]
      refine h.set_user hlt hunique hq (honly huser) (fun _ _ => rfl) (fun _ _ => rfl) ?_
      rintro (hready | hready)
      · exact hpaid huser (.inl hready)
      · refine hpaid huser (.inr ?_)
        rw [changed, Bool.or_eq_true] at hready
        exact hready.resolve_right htriggers
  · rw [changeEntries_other huser, store, if_neg fun hand => huser hand.1]
    exact h.set_other hlt hunique huser

theorem Covered.delete (h : Covered w.eventfd credit s) (hdelete : change.has evDelete)
    (hslot : ∀ i r, s'.slot i = some r → s.slot i = some r) (hpending : s'.pending = s.pending)
    (habsent : Absent s' kq change.ident change.filter) :
    Covered w.eventfd ((changeEntries kq change).foldl settle credit) s' := by
  refine h.weaken hslot hpending ?_
  intro i r hi huser
  by_cases hchange : change.filter = .user
  · rw [changeEntries_delete hdelete hchange]
    refine update_of_ne ?_ 0 credit
    intro heq
    obtain ⟨hkq, hident⟩ := mk.inj heq
    exact habsent i r hi (isFor_iff.mpr ⟨hkq, hident, huser.trans hchange.symm⟩)
  · rw [changeEntries_other hchange]
    rfl

theorem Covered.update (h : Covered w.eventfd credit s) (hupdated : Updated w kq s change s')
    (hcareful : CarefulChange w kq s change)
    (hleads : ∃ q, w.eventfd (s.resolveKqueueFd kq) = some q) :
    Covered w.eventfd ((changeEntries (s.resolveKqueueFd kq) change).foldl settle credit) s' := by
  obtain ⟨q, hq⟩ := hleads
  have hunique := hupdated.unique h.unique
  cases hupdated with
  | ignored hchange hfilter =>
    have huser : change.filter ≠ .user := fun huser => hfilter ⟨hchange, .inr (.inr huser)⟩
    rw [changeEntries_other huser]
    exact h
  | missing hchange habsent => exact h.delete hchange (fun _ _ hi => hi) rfl habsent
  | deleted slot r hchange hslot hfor =>
    refine h.delete hchange (fun i r' hi => (slot_of_clear hi).2) rfl ?_
    intro i r' hi hfor'
    obtain ⟨hne, hi⟩ := slot_of_clear hi
    obtain ⟨hkq, hident, hfilter⟩ := isFor_iff.mp hfor
    refine hne (h.unique slot i r r' hslot hi ?_).symm
    rw [hkq, hident, hfilter]
    exact hfor'
  | replaced slot r hchange hslot hfor =>
    obtain ⟨hkq, hident, hfilter⟩ := isFor_iff.mp hfor
    refine covered_store h hchange (lt_of_slot hslot) ?_ hq ?_ ?_
    · intro i j r₁ r₂ hi hj
      exact hunique i j r₁ r₂ ((slot_store ..).trans hi) ((slot_store ..).trans hj)
    · intro huser i r' hi hr' hfile
      have hfor' := (hcareful huser hchange).1 i r' hi hr' hfile
      refine (h.unique slot i r r' hslot hi ?_).symm
      rw [hkq, hident, hfilter, huser]
      exact hfor'
    · intro huser hready
      rw [← hkq, ← hident]
      exact h.paid slot r hslot (hfilter.trans huser) q (hkq ▸ hq) hready
  | added slot hchange hslot hlt habsent =>
    refine covered_store h hchange hlt ?_ hq ?_ ?_
    · intro i j r₁ r₂ hi hj
      exact hunique i j r₁ r₂ ((slot_store ..).trans hi) ((slot_store ..).trans hj)
    · intro huser i r hi hr hfile
      have hfor := (hcareful huser hchange).1 i r hi hr hfile
      exact absurd (huser ▸ hfor) (habsent i r hi)
    · intro huser hready
      have hpending := (hcareful huser hchange).2 (huser ▸ habsent) q hq
      rcases hready with hready | hready
      · rw [hpending] at hready
        cases hready
      · cases hready

theorem Updated.aliases (h : Updated w kq s change s') : s'.aliases = s.aliases := by
  cases h with
  | ignored | missing | deleted => rfl
  | replaced | added =>
    rw [store]
    split <;> rfl

theorem paid_changeEntries (credit : Key → Nat) (kq : Int) (change : Kevent) :
    Paid credit (changeEntries kq change) := by
  rw [changeEntries]
  split
  · trivial
  · split
    · exact ⟨fun key h => (nomatch h), trivial⟩
    · split
      · exact ⟨fun key h => (nomatch h), trivial⟩
      · trivial

theorem Covered.apply {changes : List Kevent} (h : Covered w.eventfd credit s)
    (hcareful : Careful w kq s changes) (hleads : ∃ q, w.eventfd (s.resolveKqueueFd kq) = some q) :
    Paid credit (appliedEntries w kq s changes) ∧
      Covered w.eventfd ((appliedEntries w kq s changes).foldl settle credit)
        (applyKqueueChanges w kq s changes).1 ∧
      (applyKqueueChanges w kq s changes).1.aliases = s.aliases := by
  induction changes generalizing s credit with
  | nil => exact ⟨trivial, h, rfl⟩
  | cons change rest ih =>
    rw [appliedEntries, applyKqueueChanges]
    cases hupdate : updateKqueueRegistration w kq s change with
    | none => exact ⟨trivial, h, rfl⟩
    | some next =>
      have hupdated := updated_of_update hupdate
      have haliases := Updated.aliases hupdated
      have hresolve : next.resolveKqueueFd kq = s.resolveKqueueFd kq :=
        resolve_congr (congrFun haliases kq)
      have hnext := h.update hupdated hcareful.1 hleads
      obtain ⟨hpaid, hcovered, hsame⟩ := ih hnext (hcareful.2 next hupdate) (hresolve ▸ hleads)
      refine ⟨?_, ?_, hsame.trans haliases⟩
      · rw [paid_append]
        exact ⟨paid_changeEntries _ _ _, hpaid⟩
      · rw [List.foldl_append]
        exact hcovered

end

variable {w : World} {s : Shim} {credit : Key → Nat} {c : Collected} {revents : BitVec 16} {q : Nat}

theorem unique_same {new : Registration} (h : Unique s) (hslot : s.slot c.slot = some c.snapshot)
    (hnew : c.snapshot.isFor new.kq new.ident new.filter) :
    Unique (s.setSlot c.slot (some new)) := by
  refine unique_set h (lt_of_slot hslot) ?_
  intro i r hi hfor
  obtain ⟨hkq, hident, hfilter⟩ := isFor_iff.mp hnew
  refine (h c.slot i c.snapshot r hslot hi ?_).symm
  rw [hkq, hident, hfilter]
  exact hfor

theorem pending_emitStep (h : c.snapshot.filter ≠ .user) :
    (emitStep w s c revents).1.pending = s.pending := by
  have hdrain : ∀ t, drain w t c.snapshot = t := fun t => if_neg h
  rw [emitStep]
  split
  · rw [hdrain]
  · split
    · rfl
    · split
      · rfl
      · split
        · rfl
        · rw [hdrain]
          rfl

/-- A turn of the loop reports a user event that has a trigger left, and uses it up. -/
theorem Covered.emitStep (h : Covered w.eventfd credit s)
    (hslot : s.slot c.slot = some c.snapshot) (hq : w.eventfd c.snapshot.kq = some q)
    (hrevents : c.snapshot.filter = .user → revents ≠ 0 → s.pending q = true) :
    Paid credit (reportEntries c.snapshot.kq (KqueueTable.emitStep w s c revents).2.toList) ∧
      Covered w.eventfd
        ((reportEntries c.snapshot.kq (KqueueTable.emitStep w s c revents).2.toList).foldl settle
          credit) (KqueueTable.emitStep w s c revents).1 := by
  have hlt := lt_of_slot hslot
  have hlive : ((s.slot c.slot).filter fun live => liveMatches live c.snapshot) =
      some c.snapshot := by
    rw [hslot]
    exact filter_eq_some_iff.mpr ⟨rfl, liveMatches_self c.snapshot⟩
  have hsame : c.snapshot.isFor c.snapshot.kq c.snapshot.ident c.snapshot.filter :=
    isFor_iff.mpr ⟨rfl, rfl, rfl⟩
  rw [KqueueTable.emitStep, hlive]
  simp only
  split
  · next hidle => exact ⟨trivial, h.set_other hlt (unique_same h.unique hslot hsame) hidle.2⟩
  · split
    · exact ⟨trivial, h⟩
    · next hready =>
      split
      · exact ⟨trivial, h⟩
      · have hunique := @unique_same s c (reported c.snapshot c.snapshot) h.unique hslot hsame
        by_cases huser : c.snapshot.filter = .user
        · have hentries : reportEntries c.snapshot.kq
              (some (eventOf w c.snapshot revents)).toList =
                [.reported (c.snapshot.kq, c.snapshot.ident)] := by
            simp [reportEntries, eventOf, huser]
          have htriggered : s.pending q = true ∨ c.snapshot.triggered = true := by
            by_cases hzero : revents = 0
            · right
              by_contra htriggered
              rw [Bool.not_eq_true] at htriggered
              exact hready ⟨hzero, by rw [htriggered]; rfl⟩
            · exact .inl (hrevents huser hzero)
          rw [hentries, drain, if_pos huser]
          refine ⟨⟨?_, trivial⟩, h.set_user hlt hunique hq ?_ ?_ ?_ ?_⟩
          · rintro key ⟨⟩
            exact h.paid c.slot c.snapshot hslot huser q hq htriggered
          · intro i r hi hr hfile
            exact h.lone i c.slot r c.snapshot hi hslot hr huser hfile
          · intro q' hne
            rw [setPending, hq]
            exact update_of_ne hne false s.pending
          · intro key hkey
            exact update_of_ne (fun heq => hkey (congrArg fst heq)) _ credit
          · rintro (hpending | hpending)
            · rw [setPending, hq] at hpending
              change Function.update s.pending q false q = true at hpending
              rw [update_self] at hpending
              cases hpending
            · rw [reported, if_pos huser] at hpending
              cases hpending
        · have hentries : reportEntries c.snapshot.kq
              (some (eventOf w c.snapshot revents)).toList = [] := by
            simp [reportEntries, eventOf, huser]
          rw [hentries, drain, if_neg huser]
          exact ⟨trivial, h.set_other hlt hunique huser⟩

end Machgate.KqueueTriggers
