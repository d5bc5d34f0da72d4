import Machgate.CText

namespace Machgate.ConfigFile

open CText List Option

abbrev Text := List Char

def configMaxTrampolines : Nat := 8
def configMaxPrefixes : Nat := 8
def configMaxDylibPatches : Nat := 8

structure TrampolineConfig where
  name : Text
  lib : Option Text := none
  prefixes : List Text := []
  initWrapper : Bool := false
  renderer : Option Text := none
  overrideLib : Option Text := none
  matchLocal : Bool := false

structure DylibPatchConfig where
  dylib : Text
  patches : Option Text := none

structure GeneralConfig where
  dylibMap : Option Text := none
  patches : Option Text := none
deriving DecidableEq

structure Config where
  general : GeneralConfig := {}
  trampolines : List TrampolineConfig := []
  dylibPatches : List DylibPatchConfig := []

def strip (s : Text) : Text := ((s.dropWhile isSpace).reverse.dropWhile isSpace).reverse

inductive Line
  | skipped
  | header (name : Text)
  | assign (key val : Text)
deriving DecidableEq

/-- What a buffer that `fgets` filled holds. -/
def parseLine (buf : Text) : Line :=
  match strip (cString buf) with
  | [] => .skipped
  | c :: s =>
    if c = '#' ∨ c = ';' then .skipped
    else if c = '[' then
      if ']' ∈ s then .header (s.takeWhile (· ≠ ']')) else .skipped
    else if '=' ∈ c :: s then
      .assign (strip ((c :: s).takeWhile (· ≠ '=')))
        (strip (((c :: s).dropWhile (· ≠ '=')).tail))
    else .skipped

def fileLines (file : Text) : List Line := (fgets 511 file).map parseLine

/-- The configuration with the two pointers into its tables. -/
structure Loader where
  cfg : Config := {}
  curTramp : Option Nat := none
  curDylibPatch : Option Nat := none

def isTrue (val : Text) : Bool := val = "true".toList ∨ val = "1".toList

def TrampolineConfig.set (t : TrampolineConfig) (key val : Text) : TrampolineConfig :=
  if key = "lib".toList then { t with lib := some val }
  else if key = "prefix".toList then
    if t.prefixes.length < configMaxPrefixes then { t with prefixes := t.prefixes ++ [val] } else t
  else if key = "init_wrapper".toList then { t with initWrapper := isTrue val }
  else if key = "renderer".toList then { t with renderer := some val }
  else if key = "override_lib".toList then { t with overrideLib := some val }
  else if key = "match_local".toList then { t with matchLocal := isTrue val }
  else t

def DylibPatchConfig.set (d : DylibPatchConfig) (key val : Text) : DylibPatchConfig :=
  if key = "patches".toList then { d with patches := some val } else d

def GeneralConfig.set (g : GeneralConfig) (key val : Text) : GeneralConfig :=
  if key = "dylib_map".toList then { g with dylibMap := some val }
  else if key = "patches".toList then { g with patches := some val }
  else g

def trampolinePrefix : Text := "trampoline.".toList
def dylibPatchPrefix : Text := "dylib_patch.".toList

def Loader.step (s : Loader) : Line → Loader
  | .skipped => s
  | .header name =>
    let cfg := s.cfg
    if name = "general".toList then { cfg := cfg }
    else if trampolinePrefix.isPrefixOf name then
      if cfg.trampolines.length < configMaxTrampolines then
        { cfg := { cfg with trampolines := cfg.trampolines ++ [{ name := name.drop 11 }] }
          curTramp := some cfg.trampolines.length }
      else { cfg := cfg }
    else if dylibPatchPrefix.isPrefixOf name then
      if cfg.dylibPatches.length < configMaxDylibPatches then
        { cfg := { cfg with dylibPatches := cfg.dylibPatches ++ [{ dylib := name.drop 12 }] }
          curDylibPatch := some cfg.dylibPatches.length }
      else { cfg := cfg }
    else { cfg := cfg }
  | .assign key val =>
    match s.curDylibPatch, s.curTramp with
    | some i, _ =>
      { s with cfg.dylibPatches := s.cfg.dylibPatches.modify i (·.set key val) }
    | none, some i =>
      { s with cfg.trampolines := s.cfg.trampolines.modify i (·.set key val) }
    | none, none => { s with cfg.general := s.cfg.general.set key val }

def load (lines : List Line) : Loader := lines.foldl Loader.step {}

/-- The section a line stands in, by the header in front of it.  The sections of the two tables are
numbered as they come, those without room in their table too. -/
inductive Section
  | general
  | trampoline (i : Nat)
  | dylibPatch (i : Nat)
  | unknown
deriving DecidableEq

structure Place where
  current : Section := .general
  trampolines : Nat := 0
  dylibPatches : Nat := 0

def Place.step (p : Place) : Line → Place
  | .header name =>
    if name = "general".toList then { p with current := .general }
    else if trampolinePrefix.isPrefixOf name then
      { p with current := .trampoline p.trampolines, trampolines := p.trampolines + 1 }
    else if dylibPatchPrefix.isPrefixOf name then
      { p with current := .dylibPatch p.dylibPatches, dylibPatches := p.dylibPatches + 1 }
    else { p with current := .unknown }
  | _ => p

def placeAfter (lines : List Line) : Place := lines.foldl Place.step {}

structure Confined (here : Section) (cfg cfg' : Config) : Prop where
  general : here ≠ .general → cfg'.general = cfg.general
  trampoline : ∀ i, here ≠ .trampoline i → cfg'.trampolines[i]? = cfg.trampolines[i]?
  dylibPatch : ∀ i, here ≠ .dylibPatch i → cfg'.dylibPatches[i]? = cfg.dylibPatches[i]?

/-- The sections that have no entry: those beyond the tables, and those that are not recognised. -/
def Section.Stray : Section → Prop
  | .general => False
  | .trampoline i => configMaxTrampolines ≤ i
  | .dylibPatch i => configMaxDylibPatches ≤ i
  | .unknown => True

/-- The pointers are those of the section the line stands in, if it has an entry. -/
structure Agrees (s : Loader) (p : Place) : Prop where
  trampolines : s.cfg.trampolines.length = min p.trampolines configMaxTrampolines
  dylibPatches : s.cfg.dylibPatches.length = min p.dylibPatches configMaxDylibPatches
  curTramp : ∀ i, s.curTramp = some i ↔ p.current = .trampoline i ∧ i < configMaxTrampolines
  curDylibPatch : ∀ i,
    s.curDylibPatch = some i ↔ p.current = .dylibPatch i ∧ i < configMaxDylibPatches

theorem Agrees.step {s : Loader} {p : Place} (h : Agrees s p) (line : Line) :
    Agrees (s.step line) (p.step line) := by
  have htramps := h.trampolines
  have hdylibs := h.dylibPatches
  cases line with
  | skipped => exact h
  | header name =>
    simp only [Loader.step, Place.step]
    split_ifs with hgeneral htramp hroom hdylib hroom
    · exact ⟨htramps, hdylibs, by simp, by simp⟩
    · refine ⟨?_, hdylibs, fun i => ?_, by simp⟩
      · simp only [length_append, length_singleton]
        omega
      · simp only [some.injEq, Section.trampoline.injEq]
        omega
    · refine ⟨by simp only; omega, hdylibs, fun i => ?_, by simp⟩
      simp only [reduceCtorEq, Section.trampoline.injEq, false_iff]
      omega
    · refine ⟨htramps, ?_, by simp, fun i => ?_⟩
      · simp only [length_append, length_singleton]
        omega
      · simp only [some.injEq, Section.dylibPatch.injEq]
        omega
    · refine ⟨htramps, by simp only; omega, by simp, fun i => ?_⟩
      simp only [reduceCtorEq, Section.dylibPatch.injEq, false_iff]
      omega
    · exact ⟨htramps, hdylibs, by simp, by simp⟩
  | assign key val =>
    simp only [Loader.step, Place.step]
    split
    · exact ⟨htramps, (length_modify ..).trans hdylibs, h.curTramp, h.curDylibPatch⟩
    · exact ⟨(length_modify ..).trans htramps, hdylibs, h.curTramp, h.curDylibPatch⟩
    · exact ⟨htramps, hdylibs, h.curTramp, h.curDylibPatch⟩

theorem agrees_load (lines : List Line) : Agrees (load lines) (placeAfter lines) := by
  have hfold : ∀ {s p}, Agrees s p →
      Agrees (lines.foldl Loader.step s) (lines.foldl Place.step p) := by
    induction lines with
    | nil => exact id
    | cons line lines ih => exact fun h => ih (h.step line)
  exact hfold ⟨rfl, rfl, by simp, by simp⟩

/-- A setting line is confined to its section, or it stands in a section without an entry and
changes a general setting. -/
theorem confined_iff (before : List Line) (key val : Text) :
    Confined (placeAfter before).current (load before).cfg
        (load (before ++ [.assign key val])).cfg ↔
      ((placeAfter before).current.Stray →
        (load before).cfg.general.set key val = (load before).cfg.general) := by
  obtain ⟨-, -, htramp, hdylib⟩ := agrees_load before
  have hload : load (before ++ [.assign key val]) = (load before).step (.assign key val) := by
    rw [load, foldl_append]
    rfl
  rw [hload, Loader.step]
  split
  · next i hcur =>
    obtain ⟨hplace, hi⟩ := (hdylib i).mp hcur
    refine iff_of_true ⟨fun _ => rfl, fun _ _ => rfl, fun j hj => ?_⟩ fun hstray => ?_
    · rw [getElem?_modify_ne]
      rintro rfl
      exact hj hplace
    · rw [hplace] at hstray
      exact absurd hstray (Nat.not_le.mpr hi)
  · next i hnone hcur =>
    obtain ⟨hplace, hi⟩ := (htramp i).mp hcur
    refine iff_of_true ⟨fun _ => rfl, fun j hj => ?_, fun _ _ => rfl⟩ fun hstray => ?_
    · rw [getElem?_modify_ne]
      rintro rfl
      exact hj hplace
    · rw [hplace] at hstray
      exact absurd hstray (Nat.not_le.mpr hi)
  · have hstray : (placeAfter before).current ≠ .general ↔ (placeAfter before).current.Stray := by
      cases hplace : (placeAfter before).current with
      | general | unknown => simp [Section.Stray]
      | trampoline i | dylibPatch i =>
        simp_all [Section.Stray]
    rw [← hstray]
    exact ⟨fun h => h.general, fun h => ⟨h, fun _ _ => rfl, fun _ _ => rfl⟩⟩

def strayFile : Text := "[general]\npatches = a\n[dylib_patches.x]\npatches = b\n".toList

end Machgate.ConfigFile
