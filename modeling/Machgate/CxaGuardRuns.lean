import Machgate.CxaGuard

namespace Machgate.CxaGuard

open Interleaving List

/-- The thread has swapped the word to pending and not yet swapped the state away from it. -/
def Phase.claims : Phase → Bool
  | .storingOwner | .storingByte | .exchangingState | .abortingOwner | .emptyingState => true
  | _ => false

/-- The owner field may still name the thread. -/
def Phase.owns : Phase → Bool
  | .storingByte | .exchangingState | .clearingOwner _ | .abortingOwner => true
  | _ => false

def Phase.commits : Phase → Bool
  | .storingOwner | .storingByte | .exchangingState | .clearingOwner _ | .wakingReleased
  | .abortingOwner | .emptyingState | .wakingAborted => true
  | _ => false

/-- What the branches have found out about a word that was loaded. -/
def Phase.Sane : Phase → Prop
  | .readingOwner _ word | .markingWaiting _ word =>
    word &&& shimCxaGuardComplete = 0 ∧ shimCxaGuardStateFromWord word &&& shimCxaGuardPending ≠ 0
  | .takingGuard _ word =>
    word &&& shimCxaGuardComplete = 0 ∧
      shimCxaGuardStateFromWord word &&& shimCxaGuardPending = 0 ∧
        shimCxaGuardStateFromWord word ≠ shimCxaGuardComplete
  | _ => True

def Local.claims (l : Local) : Bool := l.holding || l.phase.claims

def Local.owns (l : Local) : Bool := l.holding || l.phase.owns

section

variable {log : List Event} {event : Event} {t t' : Thread}

def Allowed (log : List Event) : Event → Prop
  | .acquired _ => (∀ t', running log t' = false) ∧ ∀ t', .marked t' ∉ log
  | .refused _ => ∃ t', .marked t' ∈ log
  | .recursed t => running log t
  | _ => True

def Event.inert : Event → Bool
  | .refused _ | .recursed _ | .released _ | .aborted _ => true
  | _ => false

theorem running_concat (log : List Event) (event : Event) (t : Thread) :
    running (log ++ [event]) t =
      match event with
      | .acquired t' => if t' = t then true else running log t
      | .releasing t' | .aborting t' => if t' = t then false else running log t
      | _ => running log t := by
  rw [running, foldl_append]
  rfl

theorem running_inert (h : event.inert) : running (log ++ [event]) t = running log t := by
  rw [running_concat]
  cases event with
  | refused | recursed | released | aborted => rfl
  | acquired | releasing | marked | aborting => cases h

theorem marked_inert (h : event.inert) : .marked t ∈ log ++ [event] ↔ .marked t ∈ log := by
  cases event with
  | refused | recursed | released | aborted => simp
  | acquired | releasing | marked | aborting => cases h

theorem one_of_lawful (h : Lawful Allowed log) (ht : running log t) (ht' : running log t') :
    t = t' := by
  induction log using reverseRecOn with
  | nil => cases ht
  | append_singleton log event ih =>
    have hlog : Lawful Allowed log := fun before event' hbefore =>
      h before event' (hbefore.trans (prefix_append log [event]))
    have hevent := h log event (prefix_refl _)
    rw [running_concat] at ht ht'
    cases event with
    | acquired u =>
      simp [hevent.1] at ht ht'
      exact ht.symm.trans ht'
    | releasing u | aborting u =>
      simp at ht ht'
      exact ih hlog ht.2 ht'.2
    | refused u | recursed u | marked u | released u | aborted u => exact ih hlog ht ht'

theorem guards_of_lawful (h : Lawful Allowed log) : Guards .marked log where
  one := by
    intro before hbefore t t'
    apply one_of_lawful
    intro before' event hbefore'
    exact h before' event (hbefore'.trans hbefore)
  refused := fun before t hbefore => h before (.refused t) hbefore
  final := fun before t hbefore => (h before (.acquired t) hbefore).2
  recursed := fun before t hbefore => h before (.recursed t) hbefore

end

inductive WordOk (s : State) : Prop
  | free (hword : s.guard.word = 0) (hnone : ∀ t, (s.locals t).claims = false)
      (hmarked : ∀ t, .marked t ∉ s.log)
  | taken (t : Thread) (hword : s.guard.word = 0x200 ∨ s.guard.word = 0x600)
      (hclaims : (s.locals t).claims) (hphase : (s.locals t).phase ≠ .exchangingState)
      (hmarked : ∀ t, .marked t ∉ s.log)
  | closing (t : Thread) (hword : s.guard.word = 0x201 ∨ s.guard.word = 0x601)
      (hphase : (s.locals t).phase = .exchangingState) (hmarked : ∃ t, .marked t ∈ s.log)
  | closed (hword : s.guard.word = 0x101) (hnone : ∀ t, (s.locals t).claims = false)
      (hmarked : ∃ t, .marked t ∈ s.log)

structure Inv (s : State) : Prop where
  lawful : Lawful Allowed s.log
  running : ∀ t, running s.log t = (s.locals t).holding
  unique : ∀ t t', (s.locals t).claims → (s.locals t').claims → t = t'
  word : WordOk s
  owner : ∀ t : Thread, s.guard.owner = t.1 → (s.locals t).owns
  sane : ∀ t, (s.locals t).phase.Sane
  commits : ∀ t, (s.locals t).phase.commits → (s.locals t).holding = false

section

variable {s s' : State} {t : Thread} {g : Guard} {l : Local} {events : List Event}

theorem locals_after (s : State) (t : Thread) (g : Guard) (l : Local) (events : List Event)
    (t' : Thread) :
    (s.after t g l events).locals t' = if t' = t then l else s.locals t' :=
  Function.update_apply s.locals t l t'

theorem Inv.after (h : Inv s) (hlawful : Lawful Allowed (s.log ++ events))
    (hrunning : ∀ t', CxaGuard.running (s.log ++ events) t' =
      if t' = t then l.holding else CxaGuard.running s.log t')
    (hunique : l.claims → ∀ t', t' ≠ t → (s.locals t').claims = false)
    (hword : WordOk (s.after t g l events))
    (howner : ∀ t' : Thread, g.owner = t'.1 → if t' = t then l.owns else (s.locals t').owns)
    (hsane : l.phase.Sane) (hcommits : l.phase.commits → l.holding = false) :
    Inv (s.after t g l events) where
  lawful := hlawful
  running := by
    intro t'
    rw [locals_after]
    refine (hrunning t').trans ?_
    split
    · rfl
    · exact h.running t'
  unique := by
    intro t₁ t₂ h₁ h₂
    rw [locals_after] at h₁ h₂
    split at h₁
    · next heq₁ =>
      split at h₂
      · next heq₂ => exact heq₁.trans heq₂.symm
      · next hne₂ => simp [hunique h₁ t₂ hne₂] at h₂
    · next hne₁ =>
      split at h₂
      · simp [hunique h₂ t₁ hne₁] at h₁
      · exact h.unique t₁ t₂ h₁ h₂
  word := hword
  owner := by
    intro t' ht'
    rw [locals_after]
    have := howner t' ht'
    split at this
    · next heq => simpa [heq] using this
    · next hne => simpa [hne] using this
  sane := by
    intro t'
    rw [locals_after]
    split
    · exact hsane
    · exact h.sane t'
  commits := by
    intro t'
    rw [locals_after]
    split
    · exact hcommits
    · exact h.commits t'

theorem WordOk.quiet (h : WordOk s) (hword : g.word = s.guard.word)
    (hclaims : l.claims = (s.locals t).claims)
    (hphase : l.phase = .exchangingState ↔ (s.locals t).phase = .exchangingState)
    (hmarked : ∀ t', .marked t' ∈ s.log ++ events ↔ .marked t' ∈ s.log) :
    WordOk (s.after t g l events) := by
  have hsame : ∀ t', ((s.after t g l events).locals t').claims = (s.locals t').claims := by
    intro t'
    rw [locals_after]
    split
    · next heq => rw [heq, hclaims]
    · rfl
  have hsamePhase : ∀ t', ((s.after t g l events).locals t').phase = .exchangingState ↔
      (s.locals t').phase = .exchangingState := by
    intro t'
    rw [locals_after]
    split
    · next heq => rw [heq, hphase]
    · rfl
  cases h with
  | free hw hnone hnever =>
    exact .free (hword.trans hw) (fun t' => (hsame t').trans (hnone t'))
      fun t' => (hmarked t').not.mpr (hnever t')
  | taken t' hw hclaims hphase hnever =>
    exact .taken t' (hword.symm ▸ hw) (hsame t' ▸ hclaims) ((hsamePhase t').not.mpr hphase)
      fun t' => (hmarked t').not.mpr (hnever t')
  | closing t' hw hphase hsome =>
    exact .closing t' (hword.symm ▸ hw) ((hsamePhase t').mpr hphase)
      (hsome.imp fun t' => (hmarked t').mpr)
  | closed hw hnone hsome =>
    exact .closed (hword.trans hw) (fun t' => (hsame t').trans (hnone t'))
      (hsome.imp fun t' => (hmarked t').mpr)

def Silent (log events : List Event) : Prop :=
  events = [] ∨ ∃ event, events = [event] ∧ event.inert ∧ Allowed log event

theorem Silent.lawful (h : Silent s.log events) (hlawful : Lawful Allowed s.log) :
    Lawful Allowed (s.log ++ events) := by
  rcases h with rfl | ⟨event, rfl, -, hallowed⟩
  · simpa using hlawful
  · exact lawful_concat hlawful hallowed

theorem Silent.running (h : Silent s.log events) (t : Thread) :
    running (s.log ++ events) t = running s.log t := by
  rcases h with rfl | ⟨event, rfl, hinert, -⟩
  · rw [append_nil]
  · exact running_inert hinert

theorem Silent.marked (h : Silent s.log events) (t : Thread) :
    .marked t ∈ s.log ++ events ↔ .marked t ∈ s.log := by
  rcases h with rfl | ⟨event, rfl, hinert, -⟩
  · rw [append_nil]
  · exact marked_inert hinert

theorem Inv.others (h : Inv s) (hclaims : (s.locals t).claims) {t' : Thread} (hne : t' ≠ t) :
    (s.locals t').claims = false := by
  by_contra hother
  rw [Bool.not_eq_false] at hother
  exact hne (h.unique t' t hother hclaims)

theorem Inv.running_after (h : Inv s) (hevents : Silent s.log events)
    (hholding : l.holding = (s.locals t).holding) (t' : Thread) :
    CxaGuard.running (s.log ++ events) t' =
      if t' = t then l.holding else CxaGuard.running s.log t' := by
  rw [hevents.running]
  split
  · next heq => rw [heq, h.running, hholding]
  · rfl

theorem Inv.owner_after (h : Inv s) (howner : g.owner = s.guard.owner)
    (howns : (s.locals t).owns → l.owns) (t' : Thread) (ht' : g.owner = t'.1) :
    if t' = t then l.owns else (s.locals t').owns := by
  have hold := h.owner t' (howner ▸ ht')
  split
  · next heq => exact howns (heq ▸ hold)
  · exact hold

variable {phase : Phase}

theorem Inv.quiet (h : Inv s) (hevents : Silent s.log events) (hword : g.word = s.guard.word)
    (howner : g = s.guard ∧ phase.owns = (s.locals t).phase.owns ∨ g.owner = 0)
    (hclaims : phase.claims = (s.locals t).phase.claims)
    (hphase : phase = .exchangingState ↔ (s.locals t).phase = .exchangingState)
    (hsane : phase.Sane) (hcommits : phase.commits → (s.locals t).phase.commits) :
    Inv (s.after t g { s.locals t with phase := phase } events) := by
  have hsame : Local.claims { s.locals t with phase := phase } = (s.locals t).claims := by
    rw [Local.claims, Local.claims, hclaims]
  apply h.after (hevents.lawful h.lawful)
  · exact h.running_after hevents rfl
  · exact fun hclaim t' hne => h.others (hsame ▸ hclaim) hne
  · exact h.word.quiet hword hsame hphase hevents.marked
  · intro t' ht'
    rcases howner with ⟨rfl, howns⟩ | hzero
    · apply h.owner_after rfl _ t' ht'
      simp [Local.owns, howns]
    · exact absurd (ht'.symm.trans hzero) t'.2
  · exact hsane
  · exact fun hphase => h.commits t (hcommits hphase)

theorem claims_of_phase (hphase : (s.locals t).phase = phase) (h : phase.claims) :
    (s.locals t).claims := by
  simp [Local.claims, hphase, h]

theorem Inv.taken (h : Inv s) (hclaims : (s.locals t).claims)
    (hphase : (s.locals t).phase ≠ .exchangingState) :
    (s.guard.word = 0x200 ∨ s.guard.word = 0x600) ∧ ∀ t', .marked t' ∉ s.log := by
  cases h.word with
  | free _ hnone | closed _ hnone => simp [hnone t] at hclaims
  | taken _ hword _ _ hmarked => exact ⟨hword, hmarked⟩
  | closing t' _ hphase' =>
    have hclaims' : (s.locals t').claims := claims_of_phase hphase' rfl
    rw [h.unique t t' hclaims hclaims'] at hphase
    exact absurd hphase' hphase

theorem Inv.closing (h : Inv s) (hphase : (s.locals t).phase = .exchangingState) :
    (s.guard.word = 0x201 ∨ s.guard.word = 0x601) ∧ ∃ t', .marked t' ∈ s.log := by
  have hclaims : (s.locals t).claims := claims_of_phase hphase rfl
  cases h.word with
  | free _ hnone | closed _ hnone => simp [hnone t] at hclaims
  | taken t' _ hclaims' hphase' =>
    rw [h.unique t' t hclaims' hclaims] at hphase'
    exact absurd hphase hphase'
  | closing _ hword _ hmarked => exact ⟨hword, hmarked⟩

/-- The swap that notes a waiter succeeds only while the guard is taken. -/
theorem Inv.mark {word : BitVec 32} (h : Inv s) (hword : s.guard.word = word)
    (hcomplete : word &&& shimCxaGuardComplete = 0)
    (hpending : shimCxaGuardStateFromWord word &&& shimCxaGuardPending ≠ 0) :
    Inv { s with guard := { s.guard with word := word ||| (shimCxaGuardWaiting <<< 8) } } := by
  refine ⟨h.lawful, h.running, h.unique, ?_, h.owner, h.sane, h.commits⟩
  cases h.word with
  | free hw =>
    rw [hw] at hword
    subst hword
    exact absurd rfl hpending
  | taken t hw hclaims hphase hmarked =>
    refine .taken t (.inr ?_) hclaims hphase hmarked
    rw [hword] at hw
    rcases hw with rfl | rfl <;> rfl
  | closing t hw =>
    rw [hword] at hw
    rcases hw with rfl | rfl
    all_goals exact absurd hcomplete (by decide)
  | closed hw =>
    rw [hw] at hword
    subst hword
    exact absurd hcomplete (by decide)

/-- The swap to pending succeeds only while nobody has the guard. -/
theorem Inv.take {word : BitVec 32} (h : Inv s) (hword : s.guard.word = word)
    (hcomplete : word &&& shimCxaGuardComplete = 0)
    (hpending : shimCxaGuardStateFromWord word &&& shimCxaGuardPending = 0)
    (howns : (s.locals t).phase.owns = false) :
    Inv (s.after t { s.guard with word := shimCxaGuardWordWithState word shimCxaGuardPending }
      { s.locals t with phase := .storingOwner } []) := by
  cases h.word with
  | free hw hnone hmarked =>
    have hholding : (s.locals t).holding = false := by
      have := hnone t
      rw [Local.claims, Bool.or_eq_false_iff] at this
      exact this.1
    apply h.after
    · simpa using h.lawful
    · exact h.running_after (.inl rfl) rfl
    · exact fun _ t' _ => hnone t'
    · refine .taken t (.inl ?_) ?_ ?_ ?_
      · rw [← hword, hw]
        rfl
      · rw [locals_after, if_pos rfl, Local.claims, Phase.claims, Bool.or_true]
      · rw [locals_after, if_pos rfl]
        simp
      · simpa [State.after] using hmarked
    · apply h.owner_after rfl
      simp [Local.owns, howns, hholding]
    · trivial
    · exact fun _ => hholding
  | taken t' hw =>
    rw [hword] at hw
    rcases hw with rfl | rfl
    all_goals exact absurd hpending (by decide)
  | closing t' hw =>
    rw [hword] at hw
    rcases hw with rfl | rfl
    all_goals exact absurd hcomplete (by decide)
  | closed hw =>
    rw [hw] at hword
    subst hword
    exact absurd hcomplete (by decide)

theorem Inv.acquire (h : Inv s) (hphase : (s.locals t).phase = .storingOwner) :
    Inv (s.after t { s.guard with owner := t.1 } ⟨.outside, true⟩ [.acquired t]) := by
  have hclaims : (s.locals t).claims := claims_of_phase hphase rfl
  obtain ⟨hword, hmarked⟩ := h.taken hclaims (by simp [hphase])
  have hnone : ∀ t', CxaGuard.running s.log t' = false := by
    intro t'
    rw [h.running]
    rcases eq_or_ne t' t with rfl | hne
    · exact h.commits t' (by rw [hphase]; rfl)
    · have := h.others hclaims hne
      rw [Local.claims, Bool.or_eq_false_iff] at this
      exact this.1
  apply h.after
  · exact lawful_concat h.lawful ⟨hnone, hmarked⟩
  · intro t'
    simp [running_concat, eq_comm]
  · exact fun _ t' hne => h.others hclaims hne
  · refine .taken t hword ?_ ?_ ?_
    · rw [locals_after, if_pos rfl]
      rfl
    · rw [locals_after, if_pos rfl]
      simp
    · simpa [State.after] using hmarked
  · intro t' ht'
    rw [if_pos (Subtype.ext ht').symm]
    rfl
  · trivial
  · exact fun hcommits => nomatch hcommits

theorem Inv.call {event : Event} (h : Inv s) (hlocal : s.locals t = ⟨.outside, true⟩)
    (hphase : phase = .storingByte ∨ phase = .abortingOwner)
    (hevent : event = .releasing t ∨ event = .aborting t) :
    Inv (s.after t s.guard ⟨phase, false⟩ [event]) := by
  have hclaims : (s.locals t).claims := by rw [hlocal]; rfl
  apply h.after
  · apply lawful_concat h.lawful
    rcases hevent with rfl | rfl <;> trivial
  · intro t'
    rcases hevent with rfl | rfl <;> simp [running_concat, eq_comm]
  · exact fun _ t' hne => h.others hclaims hne
  · apply h.word.quiet rfl
    · rw [hclaims]
      rcases hphase with rfl | rfl <;> rfl
    · rw [hlocal]
      rcases hphase with rfl | rfl <;> simp
    · rcases hevent with rfl | rfl <;> simp
  · apply h.owner_after rfl
    rcases hphase with rfl | rfl <;> exact fun _ => rfl
  · rcases hphase with rfl | rfl <;> trivial
  · exact fun _ => rfl

theorem Inv.storeByte (h : Inv s) (hphase : (s.locals t).phase = .storingByte) :
    Inv (s.after t (s.guard.storeByte0 0x01) { s.locals t with phase := .exchangingState }
      [.marked t]) := by
  have hclaims : (s.locals t).claims := claims_of_phase hphase rfl
  obtain ⟨hword, -⟩ := h.taken hclaims (by simp [hphase])
  apply h.after
  · exact lawful_concat h.lawful trivial
  · intro t'
    simp only [running_concat]
    split
    · next heq => rw [heq, h.running]
    · rfl
  · exact fun _ t' hne => h.others hclaims hne
  · refine .closing t ?_ ?_ ⟨t, ?_⟩
    · rcases hword with hword | hword
      · exact .inl (by simp only [State.after, Guard.storeByte0, hword]; rfl)
      · exact .inr (by simp only [State.after, Guard.storeByte0, hword]; rfl)
    · rw [locals_after, if_pos rfl]
    · simp [State.after]
  · apply h.owner_after rfl
    simp [Local.owns, Phase.owns]
  · trivial
  · exact fun _ => h.commits t (by rw [hphase]; rfl)

theorem Inv.exchange (h : Inv s) (hphase : (s.locals t).phase = .exchangingState) (waiting : Bool) :
    Inv (s.after t (s.guard.storeByte1 0x01)
      { s.locals t with phase := .clearingOwner waiting } []) := by
  have hclaims : (s.locals t).claims := claims_of_phase hphase rfl
  have hholding : (s.locals t).holding = false := h.commits t (by rw [hphase]; rfl)
  obtain ⟨hword, hmarked⟩ := h.closing hphase
  apply h.after
  · simpa using h.lawful
  · exact h.running_after (.inl rfl) rfl
  · exact fun _ t' hne => h.others hclaims hne
  · refine .closed ?_ ?_ ?_
    · rcases hword with hword | hword <;> simp only [State.after, Guard.storeByte1, hword] <;> rfl
    · intro t'
      rw [locals_after]
      split
      · simp [Local.claims, Phase.claims, hholding]
      · next hne => exact h.others hclaims hne
    · simpa [State.after] using hmarked
  · apply h.owner_after rfl
    simp [Local.owns, Phase.owns]
  · trivial
  · exact fun _ => hholding

theorem Inv.empty (h : Inv s) (hphase : (s.locals t).phase = .emptyingState)
    (hevents : Silent s.log events) (hnext : phase = .wakingAborted ∨ phase = .outside) :
    Inv (s.after t (s.guard.storeByte1 0x00) { s.locals t with phase := phase } events) := by
  have hclaims : (s.locals t).claims := claims_of_phase hphase rfl
  have hholding : (s.locals t).holding = false := h.commits t (by rw [hphase]; rfl)
  obtain ⟨hword, hmarked⟩ := h.taken hclaims (by simp [hphase])
  apply h.after (hevents.lawful h.lawful)
  · exact h.running_after hevents rfl
  · exact fun _ t' hne => h.others hclaims hne
  · refine .free ?_ ?_ ?_
    · rcases hword with hword | hword <;> simp only [State.after, Guard.storeByte1, hword] <;> rfl
    · intro t'
      rw [locals_after]
      split
      · rcases hnext with rfl | rfl <;> simp [Local.claims, Phase.claims, hholding]
      · next hne => exact h.others hclaims hne
    · exact fun t' => (hevents.marked t').not.mpr (hmarked t')
  · apply h.owner_after rfl
    simp [Local.owns, hphase, Phase.owns, hholding]
  · rcases hnext with rfl | rfl <;> trivial
  · exact fun _ => hholding

/-- The phases in which a thread has no share in the guard. -/
def Phase.plain (phase : Phase) : Bool := !phase.claims && !phase.owns && !phase.commits

theorem Inv.pass (h : Inv s) (hevents : Silent s.log events)
    {old : Phase} (hphase : (s.locals t).phase = old) (hold : old.plain) (hnew : phase.plain)
    (hsane : phase.Sane) : Inv (s.after t s.guard { s.locals t with phase := phase } events) := by
  subst hphase
  simp only [Phase.plain, Bool.and_eq_true, Bool.not_eq_true'] at hold hnew
  rcases hold with ⟨⟨hclaims, howns⟩, hcommits⟩
  rcases hnew with ⟨⟨hclaims', howns'⟩, hcommits'⟩
  apply h.quiet hevents rfl (.inl ⟨rfl, howns'.trans howns.symm⟩) (hclaims'.trans hclaims.symm)
  · constructor
    · rintro rfl
      cases hclaims'
    · intro heq
      rw [heq] at hclaims
      cases hclaims
  · exact hsane
  · simp [hcommits']

theorem Inv.load (h : Inv s) {waitCount : Nat} (hphase : (s.locals t).phase = .loading waitCount) :
    Inv (s.after t s.guard (afterLoad t (s.locals t) waitCount s.guard.word).1
      (afterLoad t (s.locals t) waitCount s.guard.word).2) := by
  rw [afterLoad]
  split
  · next hcomplete =>
    -- A complete word is one that a release has marked.
    have hmarked : ∃ t', .marked t' ∈ s.log := by
      cases h.word with
      | free hw =>
        rw [hw] at hcomplete
        exact absurd hcomplete (by decide)
      | taken _ hw =>
        rcases hw with hw | hw <;> rw [hw] at hcomplete <;> exact absurd hcomplete (by decide)
      | closing _ _ _ hmarked | closed _ _ hmarked => exact hmarked
    exact h.pass (.inr ⟨.refused t, rfl, rfl, hmarked⟩) hphase rfl rfl trivial
  · next hcomplete =>
    rw [not_or, not_not] at hcomplete
    split
    · next hpending => exact h.pass (.inl rfl) hphase rfl rfl ⟨hcomplete.1, hpending⟩
    · next hpending =>
      exact h.pass (.inl rfl) hphase rfl rfl ⟨hcomplete.1, not_not.mp hpending, hcomplete.2⟩

theorem afterMarking_plain (waitCount : Nat) :
    (afterMarking waitCount).plain ∧ (afterMarking waitCount).Sane := by
  rw [afterMarking]
  split <;> exact ⟨rfl, trivial⟩

theorem Inv.advance (h : Inv s)
    (hmove : CxaGuard.advance t s.guard (s.locals t) = some (g, l, events)) :
    Inv (s.after t g l events) := by
  rw [CxaGuard.advance] at hmove
  have hsane := h.sane t
  split at hmove
  · next waitCount hphase =>
    rcases Prod.mk.inj (Option.some.inj hmove) with ⟨rfl, hload⟩
    simpa only [hload] using h.load hphase
  · next waitCount word hphase =>
    rw [hphase] at hsane
    split at hmove
    · next howner =>
      cases hmove
      have howns := h.owner t howner
      have hrunning : CxaGuard.running s.log t := by
        simpa [h.running, Local.owns, hphase, Phase.owns] using howns
      exact h.pass (.inr ⟨.recursed t, rfl, rfl, hrunning⟩) hphase rfl rfl trivial
    · split at hmove
      · cases hmove
        exact h.pass (.inl rfl) hphase rfl rfl hsane
      · cases hmove
        exact h.pass (.inl rfl) hphase rfl (afterMarking_plain _).1 (afterMarking_plain _).2
  · next waitCount word hphase =>
    rw [hphase] at hsane
    cases hmove
    split
    · next hword =>
      exact (h.mark hword hsane.1 hsane.2).pass (.inl rfl) hphase rfl (afterMarking_plain _).1
        (afterMarking_plain _).2
    · exact h.pass (.inl rfl) hphase rfl (afterMarking_plain _).1 (afterMarking_plain _).2
  · next waitCount hphase =>
    cases hmove
    exact h.pass (.inl rfl) hphase rfl rfl trivial
  · next waitCount word hphase =>
    rw [hphase] at hsane
    split at hmove
    · next hword =>
      cases hmove
      exact h.take hword hsane.1 hsane.2.1 (by rw [hphase]; rfl)
    · cases hmove
      exact h.pass (.inl rfl) hphase rfl rfl trivial
  · next hphase =>
    cases hmove
    exact h.acquire hphase
  · next hphase =>
    cases hmove
    exact h.storeByte hphase
  · next hphase =>
    cases hmove
    exact h.exchange hphase _
  · next oldWaiting hphase =>
    cases hmove
    cases oldWaiting with
    | true =>
      apply h.quiet (g := ⟨s.guard.word, 0⟩) (.inl rfl) rfl (.inr rfl) <;>
        simp [hphase, Phase.claims, Phase.Sane, Phase.commits]
    | false =>
      apply h.quiet (g := ⟨s.guard.word, 0⟩) (.inr ⟨.released t, rfl, rfl, trivial⟩) rfl
        (.inr rfl) <;> simp [hphase, Phase.claims, Phase.Sane, Phase.commits]
  · next hphase =>
    cases hmove
    apply h.quiet (.inr ⟨.released t, rfl, rfl, trivial⟩) rfl (.inl ⟨rfl, _⟩) <;>
      simp [hphase, Phase.owns, Phase.claims, Phase.Sane, Phase.commits]
  · next hphase =>
    cases hmove
    apply h.quiet (g := ⟨s.guard.word, 0⟩) (.inl rfl) rfl (.inr rfl) <;>
      simp [hphase, Phase.claims, Phase.Sane, Phase.commits]
  · next hphase =>
    split at hmove
    · cases hmove
      exact h.empty hphase (.inl rfl) (.inl rfl)
    · cases hmove
      exact h.empty hphase (.inr ⟨.aborted t, rfl, rfl, trivial⟩) (.inr rfl)
  · next hphase =>
    cases hmove
    apply h.quiet (.inr ⟨.aborted t, rfl, rfl, trivial⟩) rfl (.inl ⟨rfl, _⟩) <;>
      simp [hphase, Phase.owns, Phase.claims, Phase.Sane, Phase.commits]
  all_goals cases hmove

theorem Inv.step {a : Thread × Move} (h : Inv s) (hstep : CxaGuard.step s a = some s') : Inv s' := by
  rcases a with ⟨t, move⟩
  cases move with
  | acquire =>
    rw [CxaGuard.step] at hstep
    split at hstep
    · next hphase =>
      cases hstep
      exact h.pass (.inl rfl) hphase rfl rfl trivial
    · cases hstep
  | release =>
    rw [CxaGuard.step] at hstep
    split at hstep
    · next hlocal =>
      cases hstep
      exact h.call hlocal (.inl rfl) (.inl rfl)
    · cases hstep
  | abort =>
    rw [CxaGuard.step] at hstep
    split at hstep
    · next hlocal =>
      cases hstep
      exact h.call hlocal (.inr rfl) (.inr rfl)
    · cases hstep
  | advance =>
    rcases Option.map_eq_some_iff.mp hstep with ⟨⟨g, l, events⟩, hmove, rfl⟩
    exact h.advance hmove

end

theorem inv_initial : Inv initial where
  lawful := lawful_nil
  running := fun _ => rfl
  unique := fun _ _ h _ => nomatch h
  word := .free rfl (fun _ => rfl) fun _ h => nomatch h
  owner := fun t h => absurd h.symm t.2
  sane := fun _ => trivial
  commits := fun _ h => nomatch h

theorem guard_protects {schedule : List (Thread × Move)} {s : State}
    (hrun : run step initial schedule = some s) : Guards .marked s.log :=
  guards_of_lawful (invariant_run (fun _ _ _ h hstep => h.step hstep) inv_initial hrun).lawful

def first : Thread := ⟨1, by decide⟩
def second : Thread := ⟨2, by decide⟩

/-- The second thread acquires the guard between the two stores of the first one's release. -/
def early : List (Thread × Move) :=
  [(first, .acquire), (first, .advance), (first, .advance), (first, .advance), (first, .release),
    (first, .advance), (second, .acquire), (second, .advance)]

def loggedBy (schedule : List (Thread × Move)) : Option (List Event) :=
  (run step initial schedule).map State.log

theorem logged_early :
    loggedBy early =
      some [.acquired first, .releasing first, .marked first, .refused second] := by
  decide +kernel

theorem refused_early : ∃ s, run step initial early = some s ∧ ¬ Guards .released s.log := by
  rcases Option.map_eq_some_iff.mp logged_early with ⟨s, hrun, hlog⟩
  refine ⟨s, hrun, fun h => ?_⟩
  rw [hlog] at h
  rcases h.refused [.acquired first, .releasing first, .marked first] second (prefix_refl _)
    with ⟨t, ht⟩
  simp at ht

theorem early_protected : ∃ s, run step initial early = some s ∧ Guards .marked s.log := by
  rcases Option.map_eq_some_iff.mp logged_early with ⟨s, hrun, -⟩
  exact ⟨s, hrun, guard_protects hrun⟩

end Machgate.CxaGuard
