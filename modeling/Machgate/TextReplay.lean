import Machgate.TextVisits

namespace Machgate.TextReplay

open Arm64Encoders CursorReplay MachineState TextPatches TextVisits WordPointers
open List Function Prod Option

variable (inp : TextInput)

section

def Code (w : WordPtr) : Prop := ∃ words ∈ inp.sections, w ∈ words

def InPool (s : TextState) : Prop :=
  ∀ pool ∈ inp.pool, ∀ cur ∈ s.lsePoolCur,
    pool.start.toNat ≤ cur.toNat ∧ cur.toNat ≤ pool.stop.toNat

variable {inp} {s : TextState} {w : WordPtr}

theorem inPool_start : InPool inp inp.start := by
  rintro pool hpool cur hcur
  rw [TextInput.start, show inp.pool = some pool from hpool] at hcur
  cases hcur
  exact ⟨Nat.le_refl _, pool.start_le⟩

theorem InPool.lsePatch (h : InPool inp s) (words : List WordPtr) :
    InPool inp (inp.lsePatch words s) := by
  rw [TextInput.lsePatch]
  split
  · next pool cur hpool hcur =>
    obtain ⟨hlow, hhigh⟩ := h pool hpool cur hcur
    rintro pool' hpool' cur' ⟨⟩
    obtain rfl : pool = pool' := some.inj (hpool.symm.trans hpool')
    exact (patchSites_touched (σ := { mem := s.mem, island := cur, log := [] }) (w := pool.stop)
      hlow hhigh (.inr (Nat.le_refl _))).1
  · exact h

theorem lsePatch_touched (h : InPool inp s) (hw : Code inp w) (words : List WordPtr) :
    Touched words w (s.mem w) ((inp.lsePatch words s).mem w) := by
  rw [TextInput.lsePatch]
  split
  · next pool cur hpool hcur =>
    obtain ⟨section', hsection, hmem⟩ := hw
    obtain ⟨hlow, hhigh⟩ := h pool hpool cur hcur
    exact (patchSites_touched (σ := { mem := s.mem, island := cur, log := [] }) hlow hhigh
      (inp.apart pool hpool section' hsection w hmem)).2
  · exact .inl rfl

theorem InPool.put (h : InPool inp s) (site : WordPtr) (new : Option Word) :
    InPool inp (put s site new) := by
  cases new with
  | none | some new => exact h

theorem put_of_ne {site : WordPtr} (h : w ≠ site) (new : Option Word) :
    (put s site new).mem w = s.mem w := by
  cases new with
  | none => rfl
  | some new => exact update_of_ne h ..

/-- A word that is written, and written in one way only, keeps what was written. -/
theorem runWith_written {x : Word} (hx : Settled x) (hw : Code inp w) {events : List Event}
    {news : List (Option Word)} (hpool : InPool inp s)
    (hwrite : s.mem w = x ∨ (w, some x) ∈ (sitesOf events).zip news)
    (honly : ∀ o, (w, o) ∈ (sitesOf events).zip news → o = none ∨ o = some x) :
    (runWith inp events news s).mem w = x := by
  induction events generalizing news s with
  | nil => exact hwrite.resolve_right (by simp [sitesOf])
  | cons event events ih =>
    cases event with
    | lse words =>
      refine ih (hpool.lsePatch words) ?_ honly
      rcases hwrite with hmem | hwrite
      · have htouched := lsePatch_touched hpool hw words
        rw [hmem] at htouched
        exact .inl (htouched.of_settled hx)
      · exact .inr hwrite
    | visit site =>
      cases news with
      | nil => exact ih hpool (hwrite.imp_right (by simp)) (by simp)
      | cons new news =>
        refine ih (hpool.put site new) ?_ fun o ho => honly o (mem_cons_of_mem _ ho)
        by_cases hsite : w = site
        · subst hsite
          rcases honly new mem_cons_self with rfl | rfl
          · rcases hwrite with hmem | hwrite
            · exact .inl hmem
            · refine .inr ((mem_cons.mp hwrite).resolve_left fun heq => ?_)
              cases heq
          · exact .inl (update_self ..)
        · rw [put_of_ne hsite]
          refine hwrite.imp_right fun hwrite => (mem_cons.mp hwrite).resolve_left ?_
          intro heq
          exact hsite (mk.inj heq).1

/-- A word that is not written stays as it was, or becomes a branch to an island. -/
theorem runWith_unwritten (hw : Code inp w) {events : List Event} {news : List (Option Word)}
    (hpool : InPool inp s) (hnone : ∀ o, (w, o) ∈ (sitesOf events).zip news → o = none) :
    (runWith inp events news s).mem w = s.mem w ∨
      ∃ offset, (runWith inp events news s).mem w = encB offset := by
  induction events generalizing news s with
  | nil => exact .inl rfl
  | cons event events ih =>
    cases event with
    | lse words =>
      rcases lsePatch_touched hpool hw words with hsame | ⟨-, -, offset, hbranch⟩
      · rw [← hsame]
        exact ih (hpool.lsePatch words) hnone
      · refine .inr ⟨offset, ?_⟩
        change (runWith inp events news (inp.lsePatch words s)).mem w = encB offset
        exact runWith_written (settled_encB offset) hw (hpool.lsePatch words) (.inl hbranch)
          fun o ho => .inl (hnone o ho)
    | visit site =>
      cases news with
      | nil => exact ih hpool (by simp)
      | cons new news =>
        have hput : (put s site new).mem w = s.mem w := by
          by_cases hsite : w = site
          · subst hsite
            obtain rfl := hnone new mem_cons_self
            rfl
          · exact put_of_ne hsite new
        rw [← hput]
        exact ih (hpool.put site new) fun o ho => hnone o (mem_cons_of_mem _ ho)

end

section

/-- Where the scan stands: the words it has visited need no patch any more, the others are as they
were mapped. -/
structure Tracks (seen : List WordPtr) (s : TextState) : Prop where
  inPool : InPool inp s
  visited : ∀ w, Code inp w → w ∈ seen → patchOf (s.mem w) = none
  ahead : ∀ w, Code inp w → w ∉ seen → s.mem w = inp.mem w

variable {inp} {seen : List WordPtr} {s : TextState}

theorem tracks_start : Tracks inp [] inp.start where
  inPool := inPool_start
  visited := fun _ _ hw => absurd hw not_mem_nil
  ahead := fun _ _ _ => rfl

theorem Tracks.lsePatch (h : Tracks inp seen s) {words : List WordPtr}
    (hwords : ∀ w ∈ words, w ∈ seen) : Tracks inp seen (inp.lsePatch words s) where
  inPool := h.inPool.lsePatch words
  visited := fun w hw hseen => by
    rcases lsePatch_touched h.inPool hw words with hsame | ⟨-, -, offset, hbranch⟩
    · rw [hsame]
      exact h.visited w hw hseen
    · rw [hbranch]
      exact (settled_encB offset).patch
  ahead := fun w hw hseen => by
    rw [(lsePatch_touched h.inPool hw words).of_not_mem fun hmem => hseen (hwords w hmem)]
    exact h.ahead w hw hseen

theorem Tracks.put (h : Tracks inp seen s) {site : WordPtr} (new : Option Word)
    (hnew : patchOf ((put s site new).mem site) = none) :
    Tracks inp (site :: seen) (put s site new) where
  inPool := h.inPool.put site new
  visited := fun w hw hseen => by
    by_cases hsite : w = site
    · rw [hsite]
      exact hnew
    · rw [put_of_ne hsite]
      exact h.visited w hw ((mem_cons.mp hseen).resolve_left hsite)
  ahead := fun w hw hseen => by
    obtain ⟨hsite, hmem⟩ := not_or.mp (mt mem_cons.mpr hseen)
    rw [put_of_ne hsite]
    exact h.ahead w hw hmem

/-- The patch of a word is the one it needed when it was mapped, and it is made once. -/
theorem Tracks.patchOf_eq (h : Tracks inp seen s) {site : WordPtr} (hsite : Code inp site) :
    patchOf (s.mem site) = if seen.contains site then none else patchOf (inp.mem site) := by
  split
  · next hseen => exact h.visited site hsite (contains_iff_mem.mp hseen)
  · next hseen => rw [h.ahead site hsite fun hmem => hseen (contains_iff_mem.mpr hmem)]

theorem recordTextPatch_take (full : List TextPatch) (p : TextPatch) :
    recordTextPatch (full.take mainTextPatchMax) p = (full ++ [p]).take mainTextPatchMax := by
  rw [recordTextPatch, length_take]
  split
  · next hfull => rw [take_append_of_le_length (by omega)]
  · rw [take_of_length_le (by omega), take_of_length_le]
    rw [length_append, length_singleton]
    omega

/-- The scan writes and records what the text as it was mapped calls for. -/
theorem scan_eq_runWith {events : List Event} {t : Scan} {full : List TextPatch}
    (h : Tracks inp seen t.toTextState) (hfollows : Follows seen events)
    (hcode : ∀ site ∈ sitesOf events, Code inp site)
    (hrecorded : t.recorded = full.take mainTextPatchMax) :
    (events.foldl (scanEvent inp) t).toTextState =
        runWith inp events (news inp seen (sitesOf events)) t.toTextState ∧
      (events.foldl (scanEvent inp) t).recorded =
        (full ++ record (visitsFrom inp seen (sitesOf events))).take mainTextPatchMax := by
  induction events generalizing seen t full with
  | nil =>
    refine ⟨rfl, ?_⟩
    rw [show record (visitsFrom inp seen (sitesOf [])) = [] from rfl, append_nil]
    exact hrecorded
  | cons event events ih =>
    rw [foldl_cons]
    cases event with
    | lse words => exact ih (h.lsePatch hfollows.1) hfollows.2 hcode hrecorded
    | visit site =>
      have hsite := hcode site mem_cons_self
      have hrest : ∀ site' ∈ sitesOf events, Code inp site' :=
        fun site' hmem => hcode site' (mem_cons_of_mem site hmem)
      have hpatch := h.patchOf_eq hsite
      have hvisit : (if seen.contains site then none else patchAt inp site) =
          (patchOf (t.mem site)).map fun new => ⟨inp.textOffset site, new.1, new.2⟩ := by
        rw [hpatch]
        split
        · rfl
        · rfl
      have hcons : visitsFrom inp seen (sitesOf (.visit site :: events)) =
          (offsetOf inp site,
            (patchOf (t.mem site)).map fun new => ⟨inp.textOffset site, new.1, new.2⟩) ::
            visitsFrom inp (site :: seen) (sitesOf events) := by
        rw [← hvisit]
        rfl
      rw [news, hcons]
      cases hnew : patchOf (t.mem site) with
      | none =>
        have hstep : scanEvent inp t (.visit site) = t := inp.scanWord_of_none hnew
        rw [hstep]
        exact ih (h.put none hnew) hfollows hrest hrecorded
      | some new =>
        have hstep : scanEvent inp t (.visit site) =
            inp.rewrite site new.2 (some new.1) t := inp.scanWord_of_some hnew
        rw [hstep]
        have hsettled : patchOf (update t.mem site new.1 site) = none := by
          rw [update_self]
          exact (settled_of_patchOf hnew).patch
        have hrecorded' : (inp.rewrite site new.2 (some new.1) t).recorded =
            (full ++ [(⟨inp.textOffset site, new.1, new.2⟩ : TextPatch)]).take
              mainTextPatchMax := by
          rw [← recordTextPatch_take, ← hrecorded]
          rfl
        obtain ⟨hmem, hfull⟩ := ih (h.put (some new.1) hsettled) hfollows hrest hrecorded'
        refine ⟨hmem, ?_⟩
        rw [hfull, append_assoc]
        rfl

end

section

variable {inp}

theorem code_of_mem_flatten {w : WordPtr} (h : w ∈ inp.sections.flatten) : Code inp w :=
  mem_flatten.mp h

theorem scanText_spec :
    inp.scanText.toTextState =
        runWith inp (eventsOf inp.sections) (news inp [] inp.sections.flatten) inp.start ∧
      inp.scanText.recorded = (record (visits inp)).take mainTextPatchMax := by
  have hscan := scan_eq_runWith (t := (⟨inp.start, []⟩ : Scan)) tracks_start
    (follows_eventsOf inp.sections [])
    (fun site hmem => code_of_mem_flatten (sitesOf_eventsOf inp.sections ▸ hmem))
    (show [] = take mainTextPatchMax [] from rfl)
  rw [sitesOf_eventsOf] at hscan
  rw [scanText_eq]
  exact hscan

theorem replayText_spec (patches : List TextPatch) :
    (inp.replayText patches).toTextState =
      runWith inp (eventsOf inp.sections) ((replay patchKey ((visits inp).map fst) patches).map
          (Option.map TextPatch.instruction)) inp.start := by
  rw [replayText_eq, replay_eq_runWith, sitesOf_eventsOf, visits, map_fst_visitsFrom]

theorem recording_visits : Recording patchKey (visits inp) := recording_visitsFrom

/-- In step and within the limit, the replay writes what the scan wrote. -/
theorem replayText_eq_scanText (hstep : InStep patchKey (visits inp))
    (hmax : (record (visits inp)).length ≤ mainTextPatchMax) :
    (inp.replayText ((record (visits inp)).take mainTextPatchMax)).toTextState =
      inp.scanText.toTextState := by
  rw [replayText_spec, scanText_spec.1, take_of_length_le hmax,
    replay_record recording_visits hstep, List.map_map]
  rfl

theorem unwritten_of_lost {p : TextPatch} {w : WordPtr} {patches : List TextPatch}
    (hkey : patchKey p = offsetOf inp w)
    (hlost : Lost patchKey ((visits inp).map fst) patches p) (o : Option Word)
    (ho : (w, o) ∈ (sitesOf (eventsOf inp.sections)).zip
      ((replay patchKey ((visits inp).map fst) patches).map
        (Option.map TextPatch.instruction))) : o = none := by
  rw [zip_map_right, List.mem_map] at ho
  obtain ⟨⟨w', o'⟩, hmem, heq⟩ := ho
  obtain ⟨rfl, rfl⟩ := mk.inj heq
  have hfound := List.mem_map_of_mem (f := Prod.map (offsetOf inp) id) hmem
  rw [← zip_map_left, sitesOf_eventsOf, ← map_fst_visitsFrom] at hfound
  rw [hlost o' (hkey ▸ hfound), map_none]

/-- Out of step or past the limit, some word keeps the instruction it was mapped with, or has it
replaced by an island for an atomic it is not. -/
theorem replayText_ne_scanText
    (h : ¬ (InStep patchKey (visits inp) ∧ (record (visits inp)).length ≤ mainTextPatchMax)) :
    ∃ w, Code inp w ∧
      (inp.replayText ((record (visits inp)).take mainTextPatchMax)).mem w ≠ inp.scanText.mem w := by
  obtain ⟨p, hp, hlost⟩ := exists_lost recording_visits h
  obtain ⟨w, hw, -, hkey, hpatch⟩ := of_mem_visitsFrom (recording_visits.mem_of_mem_record hp)
  obtain ⟨⟨new, kind⟩, hnew, rfl⟩ := map_eq_some_iff.mp hpatch
  have hcode := code_of_mem_flatten hw
  have hscan : inp.scanText.mem w = new := by
    have hat : (patchAt inp w).map TextPatch.instruction = some new := by
      rw [hpatch]
      rfl
    rw [scanText_spec.1]
    refine runWith_written (settled_of_patchOf hnew) hcode inPool_start ?_ ?_
    · rw [sitesOf_eventsOf, ← hat]
      exact .inr (mem_zip_news hw not_mem_nil)
    · rw [sitesOf_eventsOf, ← hat]
      exact fun o ho => of_mem_zip_news ho
  refine ⟨w, hcode, ?_⟩
  rw [replayText_spec, hscan]
  have hreplay := runWith_unwritten hcode (@inPool_start inp) (unwritten_of_lost hkey hlost)
  rcases hreplay with hsame | ⟨offset, hbranch⟩
  · rw [hsame]
    exact (ne_of_patchOf hnew).symm
  · rw [hbranch]
    exact (ne_encB_of_patchOf hnew offset).symm

theorem inStep_of_record_eq_nil (h : record (visits inp) = []) : InStep patchKey (visits inp) := by
  intro front k rest heq p hp
  rw [heq, record, filterMap_append] at h
  have hrest : record rest = [] := (append_eq_nil_iff.mp h).2
  rw [hrest] at hp
  cases hp

end

/-- The cache gives the text of the scan exactly where no word lies behind the next one that is
patched, and no patch is beyond the limit; a slid image is scanned anyway. -/
theorem same_text_iff (inp : TextInput) :
    inp.SameText ↔
      (inp.slide = 0#62 →
        InStep patchKey (visits inp) ∧ (record (visits inp)).length ≤ mainTextPatchMax) := by
  have hfirst : inp.patchText [] = (inp.scanText.toTextState, inp.scanText.recorded) := rfl
  rw [TextInput.SameText, hfirst, scanText_spec.2]
  by_cases hnone : (record (visits inp)).take mainTextPatchMax = []
  · -- nothing is recorded, and the second start scans too
    rw [hnone, hfirst]
    have hrecord : record (visits inp) = [] := by
      rcases take_eq_nil_iff.mp hnone with hzero | hnil
      · exact absurd hzero (by decide)
      · exact hnil
    refine iff_of_true (fun _ _ _ _ => rfl) fun _ => ⟨inStep_of_record_eq_nil hrecord, ?_⟩
    rw [hrecord]
    exact Nat.zero_le _
  · rw [TextInput.patchText, if_neg hnone]
    split
    · next hslide =>
      constructor
      · intro hsame _
        by_contra hout
        obtain ⟨w, ⟨words, hwords, hw⟩, hne⟩ := replayText_ne_scanText hout
        exact hne (hsame words hwords w hw)
      · intro hcond words _ w _
        obtain ⟨hstep, hmax⟩ := hcond hslide
        exact congrArg (fun s => s.mem w) (replayText_eq_scanText hstep hmax)
    · next hslide => exact iff_of_true (fun _ _ _ _ => rfl) fun h => absurd h hslide

/-- Two instruction sections, the one at the higher address first; the other one is a read of
`TPIDRRO_EL0`. -/
def swappedSections : TextInput where
  mem := fun w => if w = 0x40000400#62 then arm64MrsTpidrroEl0 else 0xd503201f#32
  slide := 0#62
  sizeofcmds := 232#32
  cmds := [
    { cmdsize := 232#32
      segment := some
        { maxprot := 5#32
          sections := [⟨0x40000800#62, 4#64, 0x80000400#32⟩, ⟨0x40000400#62, 4#64, 0x80000400#32⟩] }
      isText := true
      vmaddr := 0x100000000#64 }]
  pool := none
  apart := fun _ hpool => nomatch hpool

/-- The cursor is past the patch before the word is reached. -/
theorem swappedSections_unpatched :
    (swappedSections.patchText []).2 = [⟨0x1000#64, 0xd53bd040#32, .tpidrro⟩] ∧
      (swappedSections.patchText []).1.mem 0x40000400#62 = 0xd53bd040#32 ∧
      (swappedSections.patchText (swappedSections.patchText []).2).1.mem 0x40000400#62 =
        0xd53bd060#32 := by
  decide +kernel

end Machgate.TextReplay
