import Machgate.TextPatches

namespace Machgate.TextVisits

open Arm64Encoders CursorReplay MachineState TextPatches WordPointers List Prod Option

/-- The loops over the sections, taken apart. -/
inductive Event
  | visit (site : WordPtr)
  | lse (words : List WordPtr)

def eventsOf (sections : List (List WordPtr)) : List Event :=
  sections.flatMap fun words => words.map .visit ++ [.lse words]

def sitesOf : List Event → List WordPtr
  | [] => []
  | .visit site :: events => site :: sitesOf events
  | .lse _ :: events => sitesOf events

/-- The atomics of a word are looked for after the word was visited. -/
def Follows : List WordPtr → List Event → Prop
  | _, [] => True
  | seen, .visit site :: events => Follows (site :: seen) events
  | seen, .lse words :: events => (∀ w ∈ words, w ∈ seen) ∧ Follows seen events

theorem sitesOf_append (events events' : List Event) :
    sitesOf (events ++ events') = sitesOf events ++ sitesOf events' := by
  induction events with
  | nil => rfl
  | cons event events ih =>
    cases event with
    | visit site => exact congrArg (site :: ·) ih
    | lse words => exact ih

theorem sitesOf_visits (words : List WordPtr) : sitesOf (words.map .visit) = words := by
  induction words with
  | nil => rfl
  | cons w words ih => exact congrArg (w :: ·) ih

theorem sitesOf_eventsOf (sections : List (List WordPtr)) :
    sitesOf (eventsOf sections) = sections.flatten := by
  induction sections with
  | nil => rfl
  | cons words sections ih =>
    rw [eventsOf, flatMap_cons, sitesOf_append, sitesOf_append, sitesOf_visits, flatten_cons, ← ih]
    exact congrArg (· ++ _) (append_nil words)

theorem follows_visits (words seen : List WordPtr) (events : List Event) :
    Follows seen (words.map .visit ++ events) ↔ Follows (words.reverse ++ seen) events := by
  induction words generalizing seen with
  | nil => rfl
  | cons w words ih =>
    rw [reverse_cons, append_assoc]
    exact ih (w :: seen)

theorem follows_eventsOf (sections : List (List WordPtr)) (seen : List WordPtr) :
    Follows seen (eventsOf sections) := by
  induction sections generalizing seen with
  | nil => trivial
  | cons words sections ih =>
    rw [eventsOf, flatMap_cons, append_assoc, follows_visits]
    exact ⟨fun w hw => mem_append_left seen (mem_reverse.mpr hw), ih _⟩

variable (inp : TextInput)

def scanEvent (s : Scan) : Event → Scan
  | .visit site => inp.scanWord s site
  | .lse words => { s with toTextState := inp.lsePatch words s.toTextState }

def replayEvent (s : Replay) : Event → Replay
  | .visit site => inp.replayWord s site
  | .lse words => { s with toTextState := inp.lsePatch words s.toTextState }

theorem scanText_eq :
    inp.scanText = (eventsOf inp.sections).foldl (scanEvent inp) ⟨inp.start, []⟩ := by
  rw [TextInput.scanText, eventsOf, foldl_flatMap]
  congr 1
  funext s words
  rw [foldl_append, foldl_map]
  rfl

theorem replayText_eq (patches : List TextPatch) :
    inp.replayText patches =
      (eventsOf inp.sections).foldl (replayEvent inp) ⟨inp.start, patches⟩ := by
  rw [TextInput.replayText, eventsOf, foldl_flatMap]
  congr 1
  funext s words
  rw [foldl_append, foldl_map]
  rfl

def put (s : TextState) (site : WordPtr) : Option Word → TextState
  | none => s
  | some new => { s with mem := Function.update s.mem site new }

/-- The loops with what is written at each visit. -/
def runWith : List Event → List (Option Word) → TextState → TextState
  | [], _, s => s
  | .lse words :: events, news, s => runWith events news (inp.lsePatch words s)
  | .visit _ :: events, [], s => runWith events [] s
  | .visit site :: events, new :: news, s => runWith events news (put s site new)

section

def offsetOf (site : WordPtr) : Nat := (inp.textOffset site).toNat

def patchKey (patch : TextPatch) : Nat := patch.textOffset.toNat

def patchAt (site : WordPtr) : Option TextPatch :=
  (patchOf (inp.mem site)).map fun new => ⟨inp.textOffset site, new.1, new.2⟩

def visitsFrom : List WordPtr → List WordPtr → List (Nat × Option TextPatch)
  | _, [] => []
  | seen, site :: sites =>
    (offsetOf inp site, if seen.contains site then none else patchAt inp site) ::
      visitsFrom (site :: seen) sites

/-- The offsets of the instruction words in the order of the scan, with the patch a word needs when
it is first reached. -/
def visits : List (Nat × Option TextPatch) := visitsFrom inp [] inp.sections.flatten

def news (seen sites : List WordPtr) : List (Option Word) :=
  (visitsFrom inp seen sites).map fun v => v.2.map TextPatch.instruction

variable {inp} {seen sites : List WordPtr}

theorem map_fst_visitsFrom : (visitsFrom inp seen sites).map fst = sites.map (offsetOf inp) := by
  induction sites generalizing seen with
  | nil => rfl
  | cons site sites ih => exact congrArg (offsetOf inp site :: ·) ih

theorem offsetOf_injective : Function.Injective (offsetOf inp) := by
  intro site site' h
  exact toAddr_injective (sub_left_injective (BitVec.eq_of_toNat_eq h))

theorem of_mem_visitsFrom {k : Nat} {p : TextPatch} (h : (k, some p) ∈ visitsFrom inp seen sites) :
    ∃ site ∈ sites, site ∉ seen ∧ k = offsetOf inp site ∧ patchAt inp site = some p := by
  induction sites generalizing seen with
  | nil => cases h
  | cons site sites ih =>
    rcases mem_cons.mp h with heq | h
    · obtain ⟨rfl, hpatch⟩ := mk.inj heq
      split at hpatch
      · cases hpatch
      · next hseen =>
        exact ⟨site, mem_cons_self, fun hmem => hseen (contains_iff_mem.mpr hmem), rfl, hpatch.symm⟩
    · obtain ⟨site', hsite, hseen, hk, hpatch⟩ := ih h
      exact ⟨site', mem_cons_of_mem site hsite,
        fun hmem => hseen (mem_cons_of_mem site hmem), hk, hpatch⟩

theorem textOffset_of_patchAt {site : WordPtr} {p : TextPatch} (h : patchAt inp site = some p) :
    patchKey p = offsetOf inp site := by
  obtain ⟨new, -, rfl⟩ := map_eq_some_iff.mp h
  rfl

theorem recording_visitsFrom : Recording patchKey (visitsFrom inp seen sites) := by
  refine ⟨?_, ?_⟩
  · rintro ⟨k, o⟩ hv p hp
    obtain rfl : o = some p := hp
    obtain ⟨site, -, -, rfl, hpatch⟩ := of_mem_visitsFrom hv
    exact textOffset_of_patchAt hpatch
  · induction sites generalizing seen with
    | nil => exact .nil
    | cons site sites ih =>
      refine pairwise_cons.mpr ⟨?_, ih⟩
      rintro ⟨k, o⟩ hv hsome heq
      obtain ⟨p, rfl⟩ := isSome_iff_exists.mp hsome
      obtain ⟨site', -, hseen, hk, -⟩ := of_mem_visitsFrom hv
      exact hseen (offsetOf_injective (heq.trans hk) ▸ mem_cons_self)

theorem of_mem_zip_news {w : WordPtr} {o : Option Word}
    (h : (w, o) ∈ sites.zip (news inp seen sites)) :
    o = none ∨ o = (patchAt inp w).map TextPatch.instruction := by
  induction sites generalizing seen with
  | nil => cases h
  | cons site sites ih =>
    rcases mem_cons.mp h with heq | h
    · obtain ⟨rfl, rfl⟩ := mk.inj heq
      dsimp only
      split
      · exact .inl rfl
      · exact .inr rfl
    · exact ih h

theorem mem_zip_news {w : WordPtr} (hw : w ∈ sites) (hseen : w ∉ seen) :
    (w, (patchAt inp w).map TextPatch.instruction) ∈ sites.zip (news inp seen sites) := by
  induction sites generalizing seen with
  | nil => cases hw
  | cons site sites ih =>
    by_cases hsite : w = site
    · subst hsite
      have hfirst : (if seen.contains w then none else patchAt inp w) = patchAt inp w :=
        if_neg fun hmem => hseen (contains_iff_mem.mp hmem)
      refine mem_cons.mpr (.inl ?_)
      exact congrArg (fun p => (w, p.map TextPatch.instruction)) hfirst.symm
    · refine mem_cons_of_mem _ (ih ((mem_cons.mp hw).resolve_left hsite) ?_)
      exact fun hmem => hseen ((mem_cons.mp hmem).resolve_left hsite)

end

theorem replayWord_eq (s : Replay) (site : WordPtr) :
    inp.replayWord s site =
      ⟨put s.toTextState site
        ((seek patchKey (offsetOf inp site) s.left).1.map TextPatch.instruction),
        (seek patchKey (offsetOf inp site) s.left).2⟩ := by
  rw [TextInput.replayWord]
  split
  · next left hseek =>
    rw [show seek patchKey (offsetOf inp site) s.left = (none, left) from hseek]
    rfl
  · next p left hseek =>
    rw [show seek patchKey (offsetOf inp site) s.left = (some p, left) from hseek]
    rfl

theorem replay_eq_runWith (events : List Event) (s : Replay) :
    (events.foldl (replayEvent inp) s).toTextState =
      runWith inp events ((replay patchKey ((sitesOf events).map (offsetOf inp)) s.left).map
          (Option.map TextPatch.instruction)) s.toTextState := by
  induction events generalizing s with
  | nil => rfl
  | cons event events ih =>
    rw [foldl_cons, ih]
    cases event with
    | lse words => rfl
    | visit site =>
      rw [show replayEvent inp s (.visit site) = _ from replayWord_eq inp s site]
      rfl

end Machgate.TextVisits
