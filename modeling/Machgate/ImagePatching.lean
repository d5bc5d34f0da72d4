import Machgate.SegmentPatches
import Machgate.TextReplay

namespace Machgate.ImagePatching

open DylibPatches MachineState SegmentPatches TextPatches TextVisits WordPointers List Option
open GatePatch (Macho)

/-- The two ways an image is loaded, with the patches the cache holds for the main one. -/
inductive Loaded
  | main (inp : TextInput) (replayPatches : List TextPatch)
  | dylib (inp : DylibInput)

namespace Loaded

def image : Loaded → Macho
  | main inp _ | dylib inp => inp.toMacho

def pool : Loaded → Option LsePool
  | main inp _ | dylib inp => inp.pool

def patched : Loaded → TextState
  | main inp replayPatches => (inp.patchText replayPatches).1
  | dylib inp => inp.patch

def Code (l : Loaded) (w : WordPtr) : Prop :=
  ∃ sect ∈ l.image.sections, w ∈ l.image.sectionWords sect

/-- Outside the pool only words of the instruction sections change. -/
def AltersOnlyCode (l : Loaded) : Prop :=
  ∀ w, Outside l.pool w → l.patched.mem w ≠ l.image.mem w → l.Code w

/-- The data in the executable segments of a library reads as nothing that is rewritten. -/
def DataLeftAlone : Loaded → Prop
  | main _ _ => True
  | dylib inp => ∀ words ∈ inp.segments, ∀ w ∈ words, ¬ (dylib inp).Code w →
      LeftAlone inp.pool (inp.mem w)

end Loaded

/-- A main image needs no pool that serves it for what is said here. -/
def Loaded.Served : Loaded → Prop
  | main _ _ => True
  | dylib inp => ∀ pool ∈ inp.pool, Serves pool inp.segments.flatten inp.mem

section

variable {inp : TextInput} {s : TextState} {w : WordPtr}

theorem runWith_of_not_mem {events : List Event} {news : List (Option Word)} {seen : List WordPtr}
    (hpool : InPool inp.pool s) (hw : Outside inp.pool w) (hfollows : Follows seen events)
    (hseen : w ∉ seen) (hsites : w ∉ sitesOf events) :
    (runWith inp events news s).mem w = s.mem w := by
  induction events generalizing news seen s with
  | nil => rfl
  | cons event events ih =>
    cases event with
    | lse words =>
      have hkept : (inp.lsePatch words s).mem w = s.mem w :=
        (lsePatch_touched hpool hw words).of_not_mem fun hmem => hseen (hfollows.1 w hmem)
      rw [← hkept]
      exact ih (hpool.lsePatch words) hfollows.2 hseen hsites
    | visit site =>
      obtain ⟨hsite, hrest⟩ := not_or.mp fun h => hsites (mem_cons.mpr h)
      have hseen' : w ∉ site :: seen := by
        rw [mem_cons, not_or]
        exact ⟨hsite, hseen⟩
      cases news with
      | nil => exact ih hpool hfollows hseen' hrest
      | cons new news =>
        rw [← TextReplay.put_of_ne (s := s) hsite new]
        exact ih (TextReplay.InPool.put hpool site new) hfollows hseen' hrest

theorem patchText_of_not_mem (hw : Outside inp.pool w) (hcode : w ∉ inp.sections.flatten)
    (replayPatches : List TextPatch) : (inp.patchText replayPatches).1.mem w = inp.mem w := by
  have hframe (news : List (Option Word)) :
      (runWith inp (eventsOf inp.sections) news inp.start).mem w = inp.mem w := by
    refine runWith_of_not_mem (inPool_start inp.mem inp.pool) hw (follows_eventsOf inp.sections [])
      not_mem_nil ?_
    rw [sitesOf_eventsOf]
    exact hcode
  rw [TextInput.patchText]
  split
  · rw [TextReplay.scanText_spec.1]
    exact hframe _
  · split
    · rw [TextReplay.replayText_spec]
      exact hframe _
    · rw [TextReplay.scanText_spec.1]
      exact hframe _

theorem main_altersOnlyCode (inp : TextInput) (replayPatches : List TextPatch) :
    (Loaded.main inp replayPatches).AltersOnlyCode := by
  intro w hw hne
  by_contra hcode
  refine hne (patchText_of_not_mem hw (fun hmem => hcode ?_) replayPatches)
  obtain ⟨words, hwords, hmem⟩ := mem_flatten.mp hmem
  obtain ⟨sect, hsect, rfl⟩ := mem_map.mp hwords
  exact ⟨sect, hsect, hmem⟩

end

section

variable {pool : Option LsePool} {s : TextState} {w : WordPtr}

/-- The loop over the segments alters a word only if one of its segments holds it and the word reads
as something that is rewritten. -/
theorem patchSegments_of_leftAlone {segments : List (List WordPtr)} (hpool : InPool pool s)
    (hw : Outside pool w) (h : (∃ words ∈ segments, w ∈ words) → LeftAlone pool (s.mem w)) :
    (patchSegments pool segments s).mem w = s.mem w := by
  induction segments generalizing s with
  | nil => rfl
  | cons words segments ih =>
    have hkept : (patchSegment pool s words).mem w = s.mem w := by
      by_cases hmem : w ∈ words
      · exact patchSegment_of_leftAlone hpool hw (h ⟨words, mem_cons_self, hmem⟩) words
      · exact (patchSegment_mem hpool hw words).resolve_right fun hsettled => hmem hsettled.1
    rw [← hkept]
    refine ih (hpool.patchSegment words) ?_
    rintro ⟨words', hwords', hmem⟩
    rw [hkept]
    exact h ⟨words', mem_cons_of_mem words hwords', hmem⟩

theorem dylib_altersOnlyCode {inp : DylibInput} (h : (Loaded.dylib inp).DataLeftAlone) :
    (Loaded.dylib inp).AltersOnlyCode := by
  intro w hw hne
  by_contra hcode
  refine hne (patchSegments_of_leftAlone (inPool_start inp.mem inp.pool) hw ?_)
  rintro ⟨words, hwords, hmem⟩
  exact h words hwords w hmem hcode

end

theorem dylib_dataLeftAlone {inp : DylibInput} (hserved : (Loaded.dylib inp).Served)
    (h : (Loaded.dylib inp).AltersOnlyCode) : (Loaded.dylib inp).DataLeftAlone := by
  have hdone : ∀ words ∈ inp.segments, ∀ w ∈ words, LeftAlone inp.pool (inp.patch.mem w) := by
    have hout := inp.apart
    rw [DylibInput.patch, DylibInput.start]
    cases hpool : inp.pool with
    | none => exact patchSegments_none
    | some pool =>
      obtain ⟨hroom, hnear⟩ := hserved pool hpool
      have hle := pool.start_le
      have hfree : pool.start.toNat +
          24 * inp.segments.flatten.countP (fun w => emulated (inp.mem w)) ≤ pool.stop.toNat := by
        omega
      rw [hpool] at hout
      exact patchSegments_served rfl (Nat.le_refl _) hout hnear hfree fun w _ => Or.inl rfl
  intro words hwords w hw hcode
  have hkept : inp.patch.mem w = inp.mem w := by
    by_contra hne
    exact hcode (h w (inp.apart words hwords w hw) hne)
  rw [← hkept]
  exact hdone words hwords w hw

/-- A main image is altered in its instruction sections only.  A library is if the data in its
executable segments reads as nothing that is rewritten, and only then unless the pool gives out. -/
theorem alters_only_code_when (l : Loaded) :
    (l.DataLeftAlone → l.AltersOnlyCode) ∧ (l.Served → l.AltersOnlyCode → l.DataLeftAlone) := by
  cases l with
  | main inp replayPatches => exact ⟨fun _ => main_altersOnlyCode inp replayPatches, fun _ _ => trivial⟩
  | dylib inp => exact ⟨dylib_altersOnlyCode, dylib_dataLeftAlone⟩

/-- A segment of a word of code and a word of a constant behind it. -/
def constantImage (constant : Word) : DylibImage where
  mem := fun w => if w = 0x40000001#62 then constant else 0xd503201f#32
  slide := 0#62
  sizeofcmds := 232#32
  cmds := [
    { cmdsize := 232#32
      segment := some
        { maxprot := 5#32
          sections := [⟨0x40000000#62, 4#64, 0x80000400#32⟩, ⟨0x40000001#62, 4#64, 0#32⟩]
          vmaddr := 0x40000000#62
          vmsize := 8#64 } }]

theorem segments_constantImage (constant : Word) :
    (constantImage constant).segments = [[0x40000000#62, 0x40000001#62]] := rfl

def nearPool : LsePool :=
  ⟨0x40001000#62, 0x40002000#62, Nat.le_of_ble_eq_true rfl, Nat.le_of_ble_eq_true rfl⟩

theorem constantImage_below (constant : Word) :
    ∀ words ∈ (constantImage constant).segments, ∀ w ∈ words,
      0x40000000 ≤ w.toNat ∧ w.toNat < 0x40001000 := by
  rw [segments_constantImage]
  intro words hwords w hw
  obtain rfl := mem_singleton.mp hwords
  rcases mem_pair.mp hw with rfl | rfl
  · decide
  · decide

def constantLibrary (constant : Word) : DylibInput where
  toDylibImage := constantImage constant
  pool := some nearPool
  apart := fun words hwords w hw _ hp =>
    Or.inl (Option.some.inj hp ▸ (constantImage_below constant words hwords w hw).2)

theorem code_constantLibrary {constant : Word} {w : WordPtr}
    (h : (Loaded.dylib (constantLibrary constant)).Code w) : w = 0x40000000#62 := by
  obtain ⟨sect, hsect, hw⟩ := h
  have hsections : (Loaded.dylib (constantLibrary constant)).image.sections =
      [⟨0x40000000#62, 4#64, 0x80000400#32⟩] := rfl
  rw [hsections] at hsect
  obtain rfl := mem_singleton.mp hsect
  exact mem_singleton.mp hw

/-- The words of a program that are no atomics, whatever they mean. -/
theorem constantLibrary_zero :
    (Loaded.dylib (constantLibrary 0#32)).Served ∧
      (Loaded.dylib (constantLibrary 0#32)).DataLeftAlone ∧
      (Loaded.dylib (constantLibrary 0#32)).AltersOnlyCode := by
  have hserved : (Loaded.dylib (constantLibrary 0#32)).Served := by
    rintro pool hpool
    obtain rfl : nearPool = pool := some.inj hpool
    refine ⟨by decide +kernel, ?_⟩
    intro w hw island hlow hhigh
    obtain ⟨words, hwords, hmem⟩ := mem_flatten.mp hw
    have hbelow := constantImage_below 0#32 words hwords w hmem
    change 0x40001000 ≤ island.toNat at hlow
    change island.toNat ≤ 0x40002000 at hhigh
    rw [FitsBranch, wordDistance, BitVec.toInt_eq_toNat_cond, BitVec.toNat_sub]
    omega
  have hleft : (Loaded.dylib (constantLibrary 0#32)).DataLeftAlone := by
    intro words _ w _ _
    apply leftAlone_of_settled
    change Settled (if w = 0x40000001#62 then 0#32 else 0xd503201f#32)
    split
    all_goals exact ⟨by decide +kernel, by decide +kernel, by decide +kernel⟩
  exact ⟨hserved, hleft, (alters_only_code_when _).1 hleft⟩

/-- The constant reads as `ldadd w1, w3, [x2]` and becomes a branch to the pool. -/
theorem constantLibrary_altered :
    (constantLibrary 0xb8210043#32).patch.mem 0x40000001#62 = 0x14000fff#32 ∧
      ¬ (Loaded.dylib (constantLibrary 0xb8210043#32)).AltersOnlyCode := by
  have hpatch : (constantLibrary 0xb8210043#32).patch.mem 0x40000001#62 = 0x14000fff#32 := by
    decide +kernel
  refine ⟨hpatch, ?_⟩
  intro h
  have hcode := code_constantLibrary (h 0x40000001#62 (fun p hp => ?_) ?_)
  · exact absurd hcode (by decide)
  · obtain rfl : nearPool = p := some.inj hp
    exact Or.inl (by decide)
  · change (constantLibrary 0xb8210043#32).patch.mem 0x40000001#62 ≠ 0xb8210043#32
    rw [hpatch]
    decide

end Machgate.ImagePatching
