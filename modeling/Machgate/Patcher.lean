import Machgate.GatePools
import Machgate.PatchText

namespace Machgate.Patcher

open Arm64Encoders ByteMemory PatchText
open GatePools (arm64BranchInRange)

/-- What a call finds: whether a Mach-O is loaded, its slide and its symbols, and how the calls of
`mprotect` end, by their number. -/
structure Host where
  loaded : Bool
  slide : BitVec 64
  lookupSymbol : List Char → Addr
  symbolExtent : List Char → Option (Addr × Addr)
  mprotect : Nat → Bool

/-- A label is registered before it is resolved. -/
structure Label where
  name : List Char
  addr : Option Addr

def findLabel : List Label → List Char → Option Addr
  | [], _ => none
  | label :: labels, name => if label.name = name then label.addr else findLabel labels name

def setLabel : List Label → List Char → Addr → List Label
  | [], _, _ => []
  | label :: labels, name, addr =>
    if label.name = name then ⟨label.name, some addr⟩ :: labels
    else label :: setLabel labels name addr

def loadWord (mem : Memory) (a : Addr) : Word := readMem mem a 4

def storeWord (mem : Memory) (a : Addr) (w : Word) : Memory := writeMem mem a 4 w

def matchesAt (mem : Memory) : List Pattern → Addr → Bool
  | [], _ => true
  | p :: patterns, a => loadWord mem a &&& p.mask = p.value && matchesAt mem patterns (a + 4#64)

/-- The loop of `pattern_find_unique`; `none` where it never ends. -/
def scanPattern (mem : Memory) (patterns : List Pattern) (stop need : Addr) :
    Nat → Addr → Nat → Addr → Option (Nat × Addr)
  | 0, _, _, _ => none
  | fuel + 1, a, count, hit =>
    if a + need ≤ stop then
      if matchesAt mem patterns a then
        if 0 < count then some (count + 1, hit)
        else scanPattern mem patterns stop need fuel (a + 4#64) (count + 1) a
      else scanPattern mem patterns stop need fuel (a + 4#64) count hit
    else some (count, hit)

def patternFindUnique (mem : Memory) (start stop : Addr) (patterns : List Pattern) :
    Option (Nat × Addr) :=
  let need := BitVec.ofNat 64 (patterns.length * 4)
  if need = 0#64 ∨ stop < start ∨ stop - start < need then some (0, 0#64)
  -- `a` has 2^62 values, and comes to the first match again after as many rounds
  else scanPattern mem patterns stop need (2 ^ 64) start 0 0#64

section

variable (host : Host) (mem : Memory) (labels : List Label)

def symStart (name : List Char) : Option Addr :=
  if host.loaded ∧ host.lookupSymbol name ≠ 0#64 then some (host.lookupSymbol name) else none

def findEnd (segStart segEnd within : Addr) : Addr :=
  if within ≠ 0#64 ∧ segStart + within < segEnd then segStart + within else segEnd

def resolveLoc : LocExpr → Option Addr
  | .abs offset => some (offset + host.slide)
  | .label name offset => (findLabel labels name).map (· + offset)
  | .sym name offset => (symStart host name).map (· + offset)
  | .symFind name _ patterns within =>
    (symStart host name).bind fun _ =>
      (host.symbolExtent name).bind fun (segStart, segEnd) =>
        (patternFindUnique mem segStart (findEnd segStart segEnd within) patterns).bind
          fun (count, hit) => if count = 1 then some hit else none

end

/-- The names of all labels, so that a reference to a later one is found out. -/
def registerLabels : List PatchLine → List Label
  | [] => []
  | .letLine name _ :: lines => ⟨name, none⟩ :: registerLabels lines
  | _ :: lines => registerLabels lines

def resolveLets (host : Host) (mem : Memory) : List PatchLine → List Label → Option (List Label)
  | [], labels => some labels
  | .letLine name loc :: lines, labels =>
    (resolveLoc host mem labels loc).bind fun addr =>
      resolveLets host mem lines (setLabel labels name addr)
  | _ :: lines, labels => resolveLets host mem lines labels

/-- The part of a line that is not a `let` that the last passes need. -/
structure Edit where
  loc : LocExpr
  insn : InsnExpr
  expected : Option Word

def editOf : PatchLine → Option Edit
  | .atLine loc insn expected => some ⟨loc, insn, expected⟩
  | .absLine offset raw => some ⟨.abs offset, .raw raw, none⟩
  | .letLine _ _ => none

structure ResolvedEdit where
  addr : Addr
  insn : Word

def encBl (wordOffset : BitVec 32) : Word := 0x94000000#32 ||| (wordOffset &&& 0x03FFFFFF#32)

def encodeBranch (enc : BitVec 32 → Word) (addr target : Addr) : Option Word :=
  let diff := target - addr
  if arm64BranchInRange diff then some (enc ((diff.sshiftRight 2).setWidth 32)) else none

def encodeInsn (host : Host) (mem : Memory) (labels : List Label) (addr : Addr) :
    InsnExpr → Option Word
  | .raw word => some word
  | .b target => (resolveLoc host mem labels target).bind (encodeBranch encB addr)
  | .bl target => (resolveLoc host mem labels target).bind (encodeBranch encBl addr)

def meetsExpect (mem : Memory) (addr : Addr) (expected : Option Word) : Bool :=
  expected.all fun word => loadWord mem addr = word

def resolveAddrs (host : Host) (mem : Memory) (labels : List Label) :
    List Edit → Option (List (Edit × Addr))
  | [] => some []
  | edit :: edits =>
    (resolveLoc host mem labels edit.loc).bind fun addr =>
      (resolveAddrs host mem labels edits).map ((edit, addr) :: ·)

def encodeEdits (host : Host) (mem : Memory) (labels : List Label) :
    List (Edit × Addr) → Option (List ResolvedEdit)
  | [] => some []
  | (edit, addr) :: edits =>
    (encodeInsn host mem labels addr edit.insn).bind fun insn =>
      if meetsExpect mem addr edit.expected then
        (encodeEdits host mem labels edits).map (⟨addr, insn⟩ :: ·)
      else none

def prepare (host : Host) (mem : Memory) (file : List Char) : Option (List ResolvedEdit) :=
  (parseFile file).bind fun lines =>
    (resolveLets host mem lines (registerLabels lines)).bind fun labels =>
      (resolveAddrs host mem labels (lines.filterMap editOf)).bind (encodeEdits host mem labels)

/-- The last pass from the edit with the number `applied` on.  Of the two calls of `mprotect` in
`write_word` only the first one is looked at. -/
def writeEdits (host : Host) : Nat → List ResolvedEdit → Memory → Option Nat × Memory
  | applied, [], mem => (some applied, mem)
  | applied, edit :: edits, mem =>
    if host.mprotect (2 * applied) then
      writeEdits host (applied + 1) edits (storeWord mem edit.addr edit.insn)
    else (none, mem)

/-- What is returned, with `none` for -1, and the memory afterwards; no file is one that cannot be
opened. -/
def patcherApply (host : Host) (file : Option (List Char)) (mem : Memory) : Option Nat × Memory :=
  match file.bind (prepare host mem) with
  | none => (none, mem)
  | some edits => writeEdits host 0 edits mem

end Machgate.Patcher
