import Machgate.KqueueClosing

namespace Machgate.KqueueKept

open KqueueTable KqueueSlots KqueueTriggers KqueueRuns Function Option
open KqueueDescriptors KqueueHeld KqueueAliases KqueueClosing

section

variable {sys : System} {k : Kqueues} {kq : Int} {q : Nat} {w : World} {s s' : Shim}
  {change : Kevent}

theorem SameHeld.sound (hsame : SameHeld s s') (h : Sound { sys with shim := s } k) :
    Sound { sys with shim := s' } k where
  toAliased := h.toAliased.congr hsame.aliases
  used := h.used
  unique := hsame.unique h.unique
  owner := by
    intro i r hr
    obtain ⟨r', hr', hkq, -⟩ := hsame.slot hr
    rw [hsame.resolve, ← hkq]
    exact h.owner i r' hr'
  held := by
    intro fd q hfile ident filter e
    rw [hsame.resolve, hsame.holds]
    exact h.held fd q hfile ident filter e

theorem kq_of_updated (h : Updated w kq s change s') {i : Nat} {r : Registration}
    (hr : s'.slot i = some r) : s.slot i = some r ∨ r.kq = s.resolveKqueueFd kq := by
  have hset : ∀ {slot new}, slot < s.registrations.length → new.kq = s.resolveKqueueFd kq →
      (store w s slot new change).slot i = some r →
        s.slot i = some r ∨ r.kq = s.resolveKqueueFd kq := by
    intro slot new hlt hnew hi
    rw [slot_store] at hi
    by_cases hslot : i = slot
    · subst hslot
      rw [slot_setSlot_self hlt] at hi
      obtain rfl := some.inj hi
      exact .inr hnew
    · rw [slot_setSlot_of_ne hslot] at hi
      exact .inl hi
  cases h with
  | ignored | missing => exact .inl hr
  | deleted slot r' hchange hslot hfor => exact .inl (slot_of_clear hr).2
  | replaced slot r' hchange hslot hfor => exact hset (lt_of_slot hslot) rfl hr
  | added slot hchange hslot hlt habsent => exact hset hlt rfl hr

theorem change_eq_some (held : BitVec 64 → Filter → Option Kevent) (ident : BitVec 64)
    (filter : Filter) (e : Kevent) :
    Kqueues.change held change ident filter = some e ↔
      if ident = change.ident ∧ filter = change.filter then
        ¬ change.has evDelete ∧ (Registers change ∧ e = change ∨
          ¬ Registers change ∧ held ident filter = some e)
      else held ident filter = some e := by
  rw [Kqueues.change]
  split
  · next hkey =>
    obtain ⟨rfl, rfl⟩ := hkey
    split
    · next hdelete =>
      constructor
      · exact fun h => nomatch h
      · exact fun h => absurd hdelete h.1
    · next hdelete =>
      split
      · next hfilter =>
        have hregisters : Registers change := ⟨hdelete, hfilter⟩
        constructor
        · exact fun h => ⟨hdelete, .inl ⟨hregisters, (some.inj h).symm⟩⟩
        · rintro ⟨-, ⟨-, rfl⟩ | ⟨hnot, -⟩⟩
          · rfl
          · exact absurd hregisters hnot
      · next hfilter =>
        have hregisters : ¬ Registers change := fun h => hfilter h.2
        constructor
        · exact fun h => ⟨hdelete, .inr ⟨hregisters, h⟩⟩
        · rintro ⟨-, ⟨h, -⟩ | ⟨-, h⟩⟩
          · exact absurd h hregisters
          · exact h
  · rfl

theorem Sound.update (h : Sound sys k) (hfile : sys.files kq = some (.kqueue q))
    (hupdated : Updated w kq sys.shim change s') :
    Sound { sys with shim := s' } (update k q (Kqueues.change (k q) change)) := by
  have haliases := Updated.aliases hupdated
  have hresolve : ∀ fd, s'.resolveKqueueFd fd = sys.shim.resolveKqueueFd fd :=
    fun fd => resolve_congr (congrFun haliases fd)
  refine ⟨h.toAliased.congr haliases, h.used, hupdated.unique h.unique, ?_, ?_⟩
  · intro i r hr
    rw [hresolve]
    rcases kq_of_updated hupdated hr with hold | hkq
    · exact h.owner i r hold
    · have hhome := h.home kq q hfile
      rw [hkq]
      exact ⟨(h.same kq _ q hfile hhome).symm, q, hhome⟩
  · intro fd q' hfd ident filter e
    rw [hresolve]
    by_cases hq : q' = q
    · subst hq
      rw [update_self, change_eq_some, h.same fd kq q' hfd hfile]
      split
      · next hkey =>
        obtain ⟨rfl, rfl⟩ := hkey
        rw [h.held kq q' hfile]
        constructor
        · rintro ⟨hdelete, ⟨hregisters, rfl⟩ | ⟨hregisters, hident, hfilter, hholds⟩⟩
          · exact ⟨rfl, rfl, (Updated.holds_self hupdated h.unique rfl rfl).mpr
              ⟨hdelete, .inl ⟨hregisters, rfl⟩⟩⟩
          · exact ⟨hident, hfilter, (Updated.holds_self hupdated h.unique hident hfilter).mpr
              ⟨hdelete, .inr ⟨hregisters, hholds⟩⟩⟩
        · rintro ⟨hident, hfilter, hholds⟩
          obtain ⟨hdelete, hcases⟩ := (Updated.holds_self hupdated h.unique hident hfilter).mp hholds
          exact ⟨hdelete, hcases.imp_right fun ⟨hregisters, hold⟩ =>
            ⟨hregisters, hident, hfilter, hold⟩⟩
      · next hkey =>
        rw [h.held kq q' hfile]
        refine and_congr_right fun hident => and_congr_right fun hfilter => ?_
        refine (Updated.holds_other hupdated ?_).symm
        rintro ⟨-, hident', hfilter'⟩
        exact hkey ⟨hident.symm.trans hident', hfilter.symm.trans hfilter'⟩
    · rw [update_of_ne hq, h.held fd q' hfd]
      refine and_congr_right fun _ => and_congr_right fun _ => (Updated.holds_other hupdated ?_).symm
      rintro ⟨heq, -⟩
      have hhome := h.home fd q' hfd
      rw [heq, h.home kq q hfile] at hhome
      exact hq (File.kqueue.inj (some.inj hhome)).symm

theorem Sound.apply {changes : List Kevent} (h : Sound sys k)
    (hfile : sys.files kq = some (.kqueue q)) :
    Sound { sys with shim := (applyKqueueChanges w kq sys.shim changes).1 }
      (Function.update k q (Kqueues.changes w kq sys.shim changes (k q))) := by
  induction changes generalizing sys k with
  | nil =>
    rw [Kqueues.changes, Function.update_eq_self]
    exact h
  | cons change rest ih =>
    rw [applyKqueueChanges, Kqueues.changes]
    cases hupdate : updateKqueueRegistration w kq sys.shim change with
    | none =>
      rw [Function.update_eq_self]
      exact h
    | some next =>
      have hrest := ih (Sound.update h hfile (updated_of_update hupdate)) hfile
      rw [Function.update_self, Function.update_idem] at hrest
      exact hrest

theorem Sound.kevent {call : Call} (h : Sound sys k) (hfile : sys.files call.kq = some (.kqueue q)) :
    Sound (sys.step (.kevent w call)) (k.step sys (.kevent w call)) := by
  have heventfd : sys.eventfd call.kq = some q := by rw [System.eventfd, hfile]
  rw [System.step, Kqueues.step, heventfd]
  dsimp only
  split
  · next hargs =>
    exact SameHeld.sound (SameHeld.kevent _ sys.shim call hargs) (Sound.apply h hfile)
  · next hargs =>
    rcases kevent_cases { w with eventfd := sys.eventfd } sys.shim call with
      ⟨-, hstate, -⟩ | ⟨hargs', -⟩
    · rw [hstate]
      exact h
    · exact absurd hargs' hargs

end

section

variable {sys : System} {k : Kqueues}

theorem copy_self (sys : System) (fd : Int) : sys.copy fd fd = sys := by
  rw [System.copy, rememberKqueueDup_self, update_eq_self]

theorem Sound.step {op : Op} (h : Sound sys k) (hallowed : sys.Allowed op)
    (hcareful : sys.Careful op) : Sound (sys.step op) (k.step sys op) := by
  cases op with
  | kqueue fd => exact h.kqueue hallowed.2
  | opened fd =>
    refine h.other ?_ ?_
    · exact fun q hfile => nomatch hallowed.2.symm.trans hfile
    · exact fun q hfile => nomatch hfile
  | dup fd result =>
    refine h.copy ?_ hcareful
    exact fun q hfile => nomatch hallowed.2.2.symm.trans hfile
  | dup2 oldfd newfd =>
    rw [System.step, Kqueues.step]
    by_cases heq : oldfd = newfd
    · rw [if_pos heq, if_pos heq, heq, copy_self]
      exact h
    · rw [if_neg heq, if_neg heq]
      obtain ⟨hcopies, hcloses⟩ := hcareful heq
      refine (sound_drop h hcloses).copy ?_ ?_
      · intro q hfile
        change Function.update sys.files newfd none newfd = _ at hfile
        rw [update_self] at hfile
        cases hfile
      · intro q hfile
        change Function.update sys.files newfd none oldfd = _ at hfile
        rw [update_of_ne heq] at hfile
        exact hcopies q hfile
  | kevent w call =>
    obtain ⟨q, hfile⟩ := hcareful
    exact Sound.kevent h hfile
  | close fd => exact sound_drop h hcareful

theorem sound_run {ops : List Op} (h : Sound sys k) (hallowed : sys.AllowedRun ops)
    (hcareful : sys.CarefulRun ops) : Sound (runOps (sys, k) ops).1 (runOps (sys, k) ops).2 := by
  induction ops generalizing sys k with
  | nil => exact h
  | cons op ops ih => exact ih (Sound.step h hallowed.1 hcareful.1) hallowed.2 hcareful.2

theorem sound_started (opened : Int → Bool) : Sound (System.started opened) fun _ _ _ => none := by
  have hfiles : ∀ fd q, (System.started opened).files fd ≠ some (.kqueue q) := by
    intro fd q hfile
    rw [System.started] at hfile
    dsimp only at hfile
    split at hfile <;> cases hfile
  have hslots : ∀ i, (System.started opened).shim.slot i = none := slot_started initKqueueAliases
  exact
    { home := fun fd q hfile => absurd hfile (hfiles fd q)
      same := fun fd _ q hfile => absurd hfile (hfiles fd q)
      known := fun fd q hfile => absurd hfile (hfiles fd q)
      plain := fun _ _ _ => rfl
      used := fun fd q hfile => absurd hfile (hfiles fd q)
      unique := fun i _ _ _ hi => nomatch (hslots i).symm.trans hi
      owner := fun i _ hi => nomatch (hslots i).symm.trans hi
      held := fun fd q hfile => absurd hfile (hfiles fd q) }

/-- In a run in which kqueues are copied to tracked numbers only and closed with their last
descriptor, the table is that of the kqueues which are open. -/
theorem kqueues_kept {opened : Int → Bool} {ops : List Op}
    (hallowed : (System.started opened).AllowedRun ops)
    (hcareful : (System.started opened).CarefulRun ops) :
    Kept (runOps (System.started opened, fun _ _ _ => none) ops).1
      (runOps (System.started opened, fun _ _ _ => none) ops).2 :=
  (sound_run (sound_started opened) hallowed hcareful).kept

end

def readChange (fd : BitVec 64) : Kevent := ⟨fd, .read, 1, 0, 0, 0⟩

def nothingOpen : System := System.started fun _ => false

def afterRun (ops : List Op) : System × Kqueues := runOps (nothingOpen, fun _ _ _ => none) ops

def copyClosed : List Op :=
  [.kqueue 3, .kevent quiet ⟨3, [readChange 5], false, 0, none⟩, .dup 3 4, .close 4]

/-- A kqueue with a number that is not tracked is closed, and the number is used again. -/
def numberReused : List Op :=
  [.kqueue 2000, .kevent quiet ⟨2000, [readChange 5], false, 0, none⟩, .close 2000, .kqueue 2000]

/-- The first kqueue loses its registration, and the second one of the other run has one from the
start. -/
theorem registrations_lost :
    nothingOpen.AllowedRun copyClosed ∧ (afterRun copyClosed).1.files 3 = some (.kqueue 0) ∧
      (afterRun copyClosed).2 0 5 .read = some (readChange 5) ∧
      registered (afterRun copyClosed).1.shim 3 5 .read = none ∧
      nothingOpen.AllowedRun numberReused ∧
      (afterRun numberReused).1.files 2000 = some (.kqueue 1) ∧
      (afterRun numberReused).2 1 5 .read = none ∧
      registered (afterRun numberReused).1.shim 2000 5 .read = some (readChange 5) ∧
      ¬ Kept (afterRun copyClosed).1 (afterRun copyClosed).2 ∧
      ¬ Kept (afterRun numberReused).1 (afterRun numberReused).2 := by
  have hcopy : (afterRun copyClosed).1.files 3 = some (.kqueue 0) ∧
      (afterRun copyClosed).2 0 5 .read = some (readChange 5) ∧
      registered (afterRun copyClosed).1.shim 3 5 .read = none := by decide +kernel
  have hreused : (afterRun numberReused).1.files 2000 = some (.kqueue 1) ∧
      (afterRun numberReused).2 1 5 .read = none ∧
      registered (afterRun numberReused).1.shim 2000 5 .read = some (readChange 5) := by
    decide +kernel
  refine ⟨?_, hcopy.1, hcopy.2.1, hcopy.2.2, ?_, hreused.1, hreused.2.1, hreused.2.2, ?_, ?_⟩
  · exact ⟨⟨by decide, rfl⟩, trivial, ⟨some_ne_none _, by decide, rfl⟩, some_ne_none _, trivial⟩
  · exact ⟨⟨by decide, rfl⟩, trivial, some_ne_none _, ⟨by decide, rfl⟩, trivial⟩
  · intro hkept
    have husable := hkept.usable 3 0 hcopy.1 5 .read
    rw [hcopy.2.1, hcopy.2.2] at husable
    cases husable
  · intro hkept
    have husable := hkept.usable 2000 1 hreused.1 5 .read
    rw [hreused.2.1, hreused.2.2] at husable
    cases husable

/-- A kqueue is closed with its only descriptor, and the number is used again. -/
def closedAndReused : List Op :=
  [.kqueue 3, .kevent quiet ⟨3, [readChange 5], false, 0, none⟩, .close 3, .kqueue 3]

theorem careful_closedAndReused : nothingOpen.CarefulRun closedAndReused := by
  refine ⟨trivial, ⟨0, rfl⟩, ?_, trivial, trivial⟩
  intro q hfile
  refine .inl ⟨?_, rfl⟩
  intro fd' hfile'
  by_contra hne
  change update (fun _ => none) 3 (some (File.kqueue 0)) fd' = _ at hfile'
  rw [update_of_ne hne] at hfile'
  cases hfile'

theorem closedAndReused_kept :
    nothingOpen.CarefulRun closedAndReused ∧
      Kept (afterRun closedAndReused).1 (afterRun closedAndReused).2 := by
  have hcareful := careful_closedAndReused
  have hallowed : nothingOpen.AllowedRun closedAndReused :=
    ⟨⟨by decide, rfl⟩, trivial, some_ne_none _, ⟨by decide, rfl⟩, trivial⟩
  refine ⟨hcareful, ?_⟩
  exact kqueues_kept hallowed hcareful

end Machgate.KqueueKept
