import Machgate.ByteMemory
import Machgate.SymbolIndex
import Machgate.SymbolNames

namespace Machgate.DylibTable

open ByteMemory SymbolIndex SymbolNames

inductive DylibAction
  | map
  | stub
  | skip
  | macho
  | deferred
  deriving DecidableEq

/-- `struct macho_dylib_info`; there is no table before the symbols are located. -/
structure MachoDylib where
  table : Option SymbolTable
  slide : BitVec 64

def nExt : BitVec 8 := 0x01

def dylibLoaderLookup (info : Option MachoDylib) (name : Name) : Addr :=
  match info with
  | none => 0
  | some dylib =>
    match dylib.table with
    | none => 0
    | some t =>
      match t.syms.find? fun nl => Scanned t nl ∧ nl.nType &&& nExt ≠ 0 ∧ t.symName nl = name with
      | none => 0
      | some nl => nl.nValue + dylib.slide

/-- A null `handle` is also what `dlsym` takes for `RTLD_DEFAULT`. -/
structure DylibEntry where
  name : Name
  installName : Name
  action : DylibAction
  soPath : Name
  handle : Addr
  machoInfo : Option MachoDylib

def maxDylibs : Nat := 64

/-- The library table with the count the load commands gave: the first 64 libraries have an entry,
the count goes on. -/
structure Dylibs where
  entries : List DylibEntry
  ndylibs : Nat
  length_eq : entries.length = min ndylibs maxDylibs

inductive LoadCommand
  | loadDylib (name : Name)
  | loadWeakDylib (name : Name)
  | reexportDylib (name : Name)
  | segment64 (vmaddr : Addr)
  | dyldChainedFixups
  | dyldInfo
  | dyldInfoOnly
  | other

structure ParsedCommands where
  dylibs : Dylibs
  segments : List Addr
  hasChainedFixups : Bool
  hasDyldInfo : Bool

def basenameFromPath (path : Name) : Name :=
  (path.reverse.takeWhile fun c => c ≠ octet '/').reverse

/-- An entry as `parse_load_commands` leaves it; a name is cut to its buffer of 256 bytes. -/
def newEntry (name : Name) : DylibEntry where
  name := (basenameFromPath name).take 255
  installName := name.take 255
  action := .skip
  soPath := []
  handle := 0
  machoInfo := none

namespace Dylibs

def empty : Dylibs where
  entries := []
  ndylibs := 0
  length_eq := rfl

def add (t : Dylibs) (name : Name) : Dylibs where
  entries := if t.ndylibs + 1 ≤ maxDylibs then t.entries ++ [newEntry name] else t.entries
  ndylibs := t.ndylibs + 1
  length_eq := by
    have hlength := t.length_eq
    split
    · rw [List.length_append, hlength, List.length_singleton]
      omega
    · rw [hlength]
      omega

def mapEntries (t : Dylibs) (f : DylibEntry → DylibEntry) : Dylibs where
  entries := t.entries.map f
  ndylibs := t.ndylibs
  length_eq := by rw [List.length_map, t.length_eq]

/-- `rs->dylibs[lib_ordinal - 1]`, if the table has an initialised entry there. -/
def entryAt? (t : Dylibs) (libOrdinal : Int) : Option DylibEntry :=
  t.entries[(libOrdinal - 1).toNat]?

def InRange (t : Dylibs) (libOrdinal : Int) : Prop :=
  1 ≤ libOrdinal ∧ libOrdinal ≤ t.ndylibs

instance (t : Dylibs) (libOrdinal : Int) : Decidable (t.InRange libOrdinal) :=
  inferInstanceAs (Decidable (_ ∧ _))

theorem entryAt?_isSome_iff {t : Dylibs} {libOrdinal : Int} (h : t.InRange libOrdinal) :
    (t.entryAt? libOrdinal).isSome ↔ libOrdinal ≤ maxDylibs := by
  obtain ⟨hlow, hhigh⟩ := h
  rw [entryAt?, Option.isSome_iff_ne_none, ne_eq, List.getElem?_eq_none_iff, t.length_eq]
  omega

theorem entryAt?_eq_none_iff {t : Dylibs} {libOrdinal : Int} (h : t.InRange libOrdinal) :
    t.entryAt? libOrdinal = none ↔ maxDylibs < libOrdinal := by
  rw [← Option.not_isSome_iff_eq_none, entryAt?_isSome_iff h, not_le]

theorem entryAt?_mapEntries (t : Dylibs) (f : DylibEntry → DylibEntry) (libOrdinal : Int) :
    (t.mapEntries f).entryAt? libOrdinal = (t.entryAt? libOrdinal).map f := by
  rw [entryAt?, entryAt?, mapEntries, List.getElem?_map]

end Dylibs

def parseCommand (rs : ParsedCommands) : LoadCommand → ParsedCommands
  | .loadDylib name | .loadWeakDylib name | .reexportDylib name =>
    { rs with dylibs := rs.dylibs.add name }
  | .segment64 vmaddr =>
    if rs.segments.length < 16 then { rs with segments := rs.segments ++ [vmaddr] } else rs
  | .dyldChainedFixups => { rs with hasChainedFixups := true }
  | .dyldInfo | .dyldInfoOnly => { rs with hasDyldInfo := true }
  | .other => rs

def parseLoadCommands (cmds : List LoadCommand) : ParsedCommands :=
  cmds.foldl parseCommand
    { dylibs := .empty, segments := [], hasChainedFixups := false, hasDyldInfo := false }

def LoadCommand.isDylib : LoadCommand → Bool
  | .loadDylib _ | .loadWeakDylib _ | .reexportDylib _ => true
  | _ => false

theorem ndylibs_parseCommand (rs : ParsedCommands) (lc : LoadCommand) :
    (parseCommand rs lc).dylibs.ndylibs = rs.dylibs.ndylibs + lc.isDylib.toNat := by
  cases lc with
  | segment64 vmaddr =>
    change (if rs.segments.length < 16 then _ else rs : ParsedCommands).dylibs.ndylibs = _
    split <;> rfl
  | _ => rfl

theorem ndylibs_foldl (cmds : List LoadCommand) (rs : ParsedCommands) :
    (cmds.foldl parseCommand rs).dylibs.ndylibs =
      rs.dylibs.ndylibs + cmds.countP LoadCommand.isDylib := by
  induction cmds generalizing rs with
  | nil => rfl
  | cons lc rest ih =>
    rw [List.foldl_cons, ih, ndylibs_parseCommand, List.countP_cons]
    cases lc.isDylib
    · simp
    · simp [Nat.add_assoc, Nat.add_comm 1]

theorem ndylibs_parseLoadCommands (cmds : List LoadCommand) :
    (parseLoadCommands cmds).dylibs.ndylibs = cmds.countP LoadCommand.isDylib := by
  rw [parseLoadCommands, ndylibs_foldl]
  exact Nat.zero_add _

structure DylibMapping where
  dylibPattern : Name
  soPath : Name

/-- What the libraries are opened with; `dylibLoader` is `dylib_loader_find`, then
`dylib_loader_load`. -/
structure Host where
  dlopen : Name → Addr
  dylibLoader : Name → Option MachoDylib
  fileIsMacho : Name → Bool
  argv0 : Option Name

def findMapping (mappings : List DylibMapping) (dylibName : Name) : Option DylibMapping :=
  mappings.find? fun m => strstr dylibName m.dylibPattern

/-- The part of the install name that is looked up beside the executable. -/
def relativeName (installName : Name) : Option Name :=
  if (text "@executable_path/").isPrefixOf installName then
    some (installName.drop (text "@executable_path/").length)
  else if (text "@loader_path/").isPrefixOf installName then
    some (installName.drop (text "@loader_path/").length)
  else if installName.contains (octet '/') then none
  else some installName

/-- The path in the directory of `argv[0]`, if it fits `PATH_MAX`. -/
def candidatePath (argv0 relative : Name) : Option Name :=
  let dirLen := argv0.length - (basenameFromPath argv0).length
  if argv0.contains (octet '/') ∧ dirLen + relative.length + 1 ≤ 4096 then
    some (argv0.take dirLen ++ relative)
  else none

def openExecutablePathDylib (h : Host) (de : DylibEntry) : Option DylibEntry :=
  ((relativeName de.installName).bind fun relative =>
    h.argv0.bind fun argv0 => candidatePath argv0 relative).bind fun candidate =>
      if h.fileIsMacho candidate then
        (h.dylibLoader candidate).map fun mdi =>
          { de with machoInfo := some mdi, action := .macho, soPath := candidate.take 255 }
      else none

def openDylib (h : Host) (mappings : List DylibMapping) (de : DylibEntry) : DylibEntry :=
  match findMapping mappings de.name with
  | none => (openExecutablePathDylib h de).getD { de with action := .skip }
  | some m =>
    if m.soPath = text "STUB" then { de with action := .stub }
    else if m.soPath = text "SKIP" then { de with action := .skip }
    else if strncmpEq m.soPath (text "MACHO:") 6 then
      match h.dylibLoader (m.soPath.drop 6) with
      | some mdi =>
        { de with machoInfo := some mdi, action := .macho, soPath := (m.soPath.drop 6).take 255 }
      | none => { de with action := .skip }
    else if strncmpEq m.soPath (text "DEFERRED:") 9 then
      { de with action := .deferred, soPath := (m.soPath.drop 9).take 255 }
    else
      let handle := h.dlopen m.soPath
      if handle = 0 then { de with handle := handle, action := .skip }
      else { de with handle := handle, soPath := m.soPath.take 255, action := .map }

def openDylibs (h : Host) (mappings : List DylibMapping) (t : Dylibs) : Dylibs :=
  t.mapEntries (openDylib h mappings)

/-- Whether opening the libraries sets `g_deferred.active`. -/
def defers (t : Dylibs) : Bool :=
  t.entries.any fun de => de.action = .deferred

end Machgate.DylibTable
