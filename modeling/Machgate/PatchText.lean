import Machgate.CText

namespace Machgate.PatchText

open CText

abbrev Word := BitVec 32

def locMaxPatterns : Nat := 8

structure Pattern where
  mask : Word
  value : Word
  deriving DecidableEq

inductive LocExpr
  | abs (offset : BitVec 64)
  | sym (name : List Char) (offset : BitVec 64)
  | symFind (name : List Char) (offset : BitVec 64) (patterns : List Pattern) (within : BitVec 64)
  | label (name : List Char) (offset : BitVec 64)
  deriving DecidableEq

inductive InsnExpr
  | raw (word : Word)
  | b (target : LocExpr)
  | bl (target : LocExpr)
  deriving DecidableEq

inductive PatchLine
  | atLine (loc : LocExpr) (insn : InsnExpr) (expected : Option Word)
  | letLine (labelName : List Char) (loc : LocExpr)
  | absLine (offset : BitVec 64) (raw : Word)
  deriving DecidableEq

def encNop : Word := 0xD503201F#32
def encRet : Word := 0xD65F03C0#32

def stripComment (s : List Char) : List Char := s.takeWhile (· ≠ '#')

def isWs (c : Char) : Bool := c = ' ' || c = '\t' || c = '\n' || c = '\r'

def skipWs (p : List Char) : List Char := p.dropWhile isWs

def parseHexU64 (p : List Char) : Option (BitVec 64 × List Char) :=
  let p := skipWs p
  let p := if startsHexPrefix p then p.drop 2 else p
  if p.head?.any isHexDigit then some (strtoull p) else none

def looksLegacy (p : List Char) : Bool :=
  let p := p.dropWhile fun c => c = ' ' || c = '\t'
  if startsHexPrefix p then true
  else if p.head?.any isHexDigit then
    match p.dropWhile isHexDigit with
    | [] => true
    | c :: _ => c = ' ' || c = '\t' || c = '\n'
  else false

def patternNibble (c : Char) : Option (Word × Word) :=
  if c = '?' then some (0#32, 0#32)
  else if isHexDigit c then some (0xF#32, BitVec.ofNat 32 (hexDigit c))
  else none

def joinNibbles (nibbles : List (Word × Word)) : Pattern :=
  nibbles.foldl (fun p n => ⟨(p.mask <<< 4) ||| n.1, (p.value <<< 4) ||| n.2⟩) ⟨0#32, 0#32⟩

def endsPattern : List Char → Bool
  | [] => true
  | c :: _ => isSpace c || c = ';' || c = '#'

def parsePattern (s : List Char) : Option Pattern :=
  ((s.take 8).mapM patternNibble).bind fun nibbles =>
    if nibbles.length = 8 ∧ endsPattern (s.drop 8) then some (joinNibbles nibbles) else none

/-- The patterns of a `find`; `room` is what is left of `LOC_MAX_PATTERNS`. -/
def parsePatterns : Nat → List Char → Option (List Pattern × List Char)
  | 0, _ => none
  | room + 1, save =>
    (parsePattern save).bind fun pattern =>
      let save := skipWs (save.drop 8)
      if save.head?.any fun c => isHexDigit c || c = '?' then
        (parsePatterns room save).map fun r => (pattern :: r.1, r.2)
      else some ([pattern], save)

def parseWithin (save : List Char) : Option (BitVec 64 × List Char) :=
  if ['w', 'i', 't', 'h', 'i', 'n', ' '].isPrefixOf save then parseHexU64 (skipWs (save.drop 7))
  else some (0#64, save)

def parseOffset (minus : Bool) (p : List Char) : Option (BitVec 64 × List Char) :=
  match p with
  | '+' :: p => parseHexU64 p
  | '-' :: p => if minus then (parseHexU64 p).map fun r => (-r.1, r.2) else some (0#64, '-' :: p)
  | p => some (0#64, p)

def isSymChar (c : Char) : Bool := !isSpace c && c ≠ '+' && c ≠ '-' && c ≠ ';'

def isLabelChar (c : Char) : Bool := !isSpace c && c ≠ '+' && c ≠ ';'

def parseName (accepts : Char → Bool) (p : List Char) : Option (List Char × List Char) :=
  let name := p.takeWhile accepts
  if name = [] ∨ 255 < name.length then none else some (name, p.dropWhile accepts)

def parseSym (p : List Char) : Option (LocExpr × List Char) :=
  (parseName isSymChar p).bind fun (name, p) =>
    (parseOffset true p).bind fun (offset, p) =>
      let save := skipWs p
      if ['f', 'i', 'n', 'd', ' '].isPrefixOf save then
        (parsePatterns locMaxPatterns (skipWs (save.drop 5))).bind fun (patterns, save) =>
          (parseWithin save).map fun (within, save) => (.symFind name offset patterns within, save)
      else some (.sym name offset, p)

def parseLocExpr (p : List Char) : Option (LocExpr × List Char) :=
  let p := skipWs p
  if ['s', 'y', 'm', ':'].isPrefixOf p then parseSym (p.drop 4)
  else if startsHexPrefix p then (parseHexU64 p).map fun (offset, p) => (.abs offset, p)
  else
    (parseName isLabelChar p).bind fun (name, p) =>
      (parseOffset false p).map fun (offset, p) => (.label name offset, p)

def endsKeyword : List Char → Bool
  | [] => true
  | c :: _ => isSpace c || c = ';'

def parseInsnExpr (p : List Char) : Option (InsnExpr × List Char) :=
  let p := skipWs p
  if ['n', 'o', 'p'].isPrefixOf p ∧ endsKeyword (p.drop 3) then some (.raw encNop, p.drop 3)
  else if ['r', 'e', 't'].isPrefixOf p ∧ endsKeyword (p.drop 3) then some (.raw encRet, p.drop 3)
  else if ['b', 'l', ' '].isPrefixOf p then
    (parseLocExpr (p.drop 3)).map fun (target, p) => (.bl target, p)
  else if ['b', ' '].isPrefixOf p then
    (parseLocExpr (p.drop 2)).map fun (target, p) => (.b target, p)
  else
    (parseHexU64 p).bind fun (v, p) =>
      if 0xFFFFFFFF#64 < v then none else some (.raw (v.setWidth 32), p)

def parseExpect (p : List Char) : Option (Option Word) :=
  match skipWs p with
  | [] => some none
  | ';' :: p =>
    let p := skipWs p
    if ['e', 'x', 'p', 'e', 'c', 't', ' '].isPrefixOf p then
      (parseHexU64 (skipWs (p.drop 7))).bind fun (v, _) =>
        if 0xFFFFFFFF#64 < v then none else some (some (v.setWidth 32))
    else none
  | _ :: _ => none

def parseLegacy (p : List Char) : Option PatchLine :=
  (parseHexU64 p).bind fun (a, q) =>
    (parseHexU64 q).bind fun (i, _) =>
      if 0xFFFFFFFF#64 < i then none else some (.absLine a (i.setWidth 32))

def isLetChar (c : Char) : Bool := !isSpace c && c ≠ '='

/-- A label for `label_name[128]`; it may be empty. -/
def parseLet (p : List Char) : Option PatchLine :=
  let p := skipWs p
  let labelName := p.takeWhile isLetChar
  if 127 < labelName.length then none
  else
    match skipWs (p.dropWhile isLetChar) with
    | '=' :: p => (parseLocExpr (skipWs p)).map fun (loc, _) => .letLine labelName loc
    | _ => none

def parseAt (p : List Char) : Option PatchLine :=
  (parseLocExpr (skipWs p)).bind fun (loc, q) =>
    (parseInsnExpr q).bind fun (insn, q) => (parseExpect q).map fun expected => .atLine loc insn expected

/-- A line that was read; `some none` is a blank one. -/
def parseLine (buf : List Char) : Option (Option PatchLine) :=
  let p := skipWs (stripComment (cString buf))
  if p = [] then some none
  else if looksLegacy p then (parseLegacy p).map some
  else if ['l', 'e', 't', ' '].isPrefixOf p then (parseLet (p.drop 4)).map some
  else if ['a', 't', ' '].isPrefixOf p then (parseAt (p.drop 3)).map some
  else none

def parseLines : List (List Char) → Option (List PatchLine)
  | [] => some []
  | buf :: bufs =>
    (parseLine buf).bind fun line => (parseLines bufs).map fun lines => line.toList ++ lines

def parseFile (file : List Char) : Option (List PatchLine) := parseLines (fgets 511 file)

end Machgate.PatchText
