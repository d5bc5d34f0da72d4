import Machgate.PatchText

namespace Machgate.PatchGrammar

open CText PatchText

def isBlank (c : Char) : Bool := c = ' ' || c = '\t'

def isNameChar (c : Char) : Bool := isSymChar c && c ≠ '#' && c ≠ '\x00'

def isLabelNameChar (c : Char) : Bool := isLabelChar c && c ≠ '=' && c ≠ '#' && c ≠ '\x00'

def isPatternChar (c : Char) : Bool := isHexDigit c || c = '?'

def isCommentChar (c : Char) : Bool := c ≠ '\n'

structure Run (accepts : Char → Bool) where
  chars : List Char
  all : ∀ c ∈ chars, accepts c

structure Token (accepts : Char → Bool) extends Run accepts where
  ne : chars ≠ []

abbrev Blanks := Run isBlank

abbrev Gap := Token isBlank

/-- A hexadecimal number of at most `w` bits, with or without the `0x` in front. -/
structure Hex (w : Nat) where
  mark : List Char
  mark_mem : mark = [] ∨ mark = ['0', 'x'] ∨ mark = ['0', 'X']
  digits : Token isHexDigit
  value_lt : hexValue digits.chars < 2 ^ w

structure PatternText extends Run isPatternChar where
  length_eq : chars.length = 8

/-! The productions of the documented format, each with the separators that were chosen. -/

structure Within where
  before : Gap
  after : Gap
  bound : Hex 64

structure Find where
  before : Gap
  after : Gap
  pattern : PatternText
  more : List (Gap × PatternText)
  within : Option Within

inductive Loc
  | sym (name : Token isNameChar) (offset : Option (Bool × Hex 64))
  | symFind (name : Token isNameChar) (find : Find)
  | label (name : Token isLabelNameChar) (offset : Option (Hex 64))
  | addr (address : Hex 64)

inductive Insn
  | raw (word : Hex 32)
  | nop
  | ret
  | b (gap : Gap) (target : Loc)
  | bl (gap : Gap) (target : Loc)

structure Expect where
  before : Blanks
  after : Blanks
  gap : Gap
  word : Hex 32

inductive Line
  | legacy (address : Hex 64) (gap : Gap) (word : Hex 32)
  | atLine (gap : Gap) (loc : Loc) (sep : Gap) (insn : Insn) (expect : Option Expect)
  | letLine (gap : Gap) (name : Token isLabelNameChar) (before after : Blanks) (loc : Loc)

structure Source where
  leading : Blanks
  line : Line
  trailing : Blanks
  comment : Option (Run isCommentChar)

/-! The text of a derivation, in front of `rest`. -/

def Hex.write {w : Nat} (h : Hex w) (rest : List Char) : List Char :=
  h.mark ++ (h.digits.chars ++ rest)

def Within.write (w : Within) (rest : List Char) : List Char :=
  w.before.chars ++ 'w' :: 'i' :: 't' :: 'h' :: 'i' :: 'n' :: (w.after.chars ++ w.bound.write rest)

def writeMore : List (Gap × PatternText) → List Char → List Char
  | [], rest => rest
  | (gap, pattern) :: more, rest => gap.chars ++ (pattern.chars ++ writeMore more rest)

def Find.write (f : Find) (rest : List Char) : List Char :=
  f.before.chars ++ 'f' :: 'i' :: 'n' :: 'd' :: (f.after.chars ++
    (f.pattern.chars ++ writeMore f.more (f.within.elim rest fun w => w.write rest)))

/-- `true` is a `+`. -/
def writeOffset (offset : Option (Bool × Hex 64)) (rest : List Char) : List Char :=
  offset.elim rest fun o => (if o.1 then '+' else '-') :: o.2.write rest

def Loc.write : Loc → List Char → List Char
  | .sym name offset, rest => 's' :: 'y' :: 'm' :: ':' :: (name.chars ++ writeOffset offset rest)
  | .symFind name find, rest => 's' :: 'y' :: 'm' :: ':' :: (name.chars ++ find.write rest)
  | .label name offset, rest =>
    name.chars ++ writeOffset (offset.map fun o => (true, o)) rest
  | .addr address, rest => address.write rest

def Insn.write : Insn → List Char → List Char
  | .raw word, rest => word.write rest
  | .nop, rest => 'n' :: 'o' :: 'p' :: rest
  | .ret, rest => 'r' :: 'e' :: 't' :: rest
  | .b gap target, rest => 'b' :: (gap.chars ++ target.write rest)
  | .bl gap target, rest => 'b' :: 'l' :: (gap.chars ++ target.write rest)

def Expect.write (e : Expect) (rest : List Char) : List Char :=
  e.before.chars ++ ';' :: (e.after.chars ++
    'e' :: 'x' :: 'p' :: 'e' :: 'c' :: 't' :: (e.gap.chars ++ e.word.write rest))

def writeExpect (expect : Option Expect) (rest : List Char) : List Char :=
  expect.elim rest fun e => e.write rest

def Line.write : Line → List Char → List Char
  | .legacy address gap word, rest => address.write (gap.chars ++ word.write rest)
  | .atLine gap loc sep insn expect, rest =>
    'a' :: 't' :: (gap.chars ++ loc.write (sep.chars ++ insn.write (writeExpect expect rest)))
  | .letLine gap name before after loc, rest =>
    'l' :: 'e' :: 't' :: (gap.chars ++ (name.chars ++ (before.chars ++ '=' ::
      (after.chars ++ loc.write rest))))

def Source.behind (s : Source) : List Char :=
  s.trailing.chars ++ s.comment.elim [] fun c => '#' :: c.chars

def Source.text (s : Source) : List Char := s.leading.chars ++ s.line.write s.behind

section

variable (a b : List Char)

theorem Hex.write_append {w : Nat} (h : Hex w) : h.write (a ++ b) = h.write a ++ b := by
  simp [Hex.write]

theorem Within.write_append (w : Within) : w.write (a ++ b) = w.write a ++ b := by
  simp [Within.write, Hex.write_append]

theorem writeMore_append (more : List (Gap × PatternText)) :
    writeMore more (a ++ b) = writeMore more a ++ b := by
  induction more with
  | nil => rfl
  | cons m more ih => simp [writeMore, ih]

theorem Find.write_append (f : Find) : f.write (a ++ b) = f.write a ++ b := by
  cases h : f.within with
  | none => simp [Find.write, h, writeMore_append]
  | some w => simp [Find.write, h, writeMore_append, Within.write_append]

theorem writeOffset_append (offset : Option (Bool × Hex 64)) :
    writeOffset offset (a ++ b) = writeOffset offset a ++ b := by
  cases offset with
  | none => rfl
  | some o => simp [writeOffset, Hex.write_append]

theorem Loc.write_append (loc : Loc) : loc.write (a ++ b) = loc.write a ++ b := by
  cases loc with
  | sym name offset | label name offset => simp [Loc.write, writeOffset_append]
  | symFind name find => simp [Loc.write, Find.write_append]
  | addr address => exact Hex.write_append a b address

theorem Insn.write_append (insn : Insn) : insn.write (a ++ b) = insn.write a ++ b := by
  cases insn with
  | raw word => exact Hex.write_append a b word
  | nop | ret => rfl
  | b gap target | bl gap target => simp [Insn.write, Loc.write_append]

theorem writeExpect_append (expect : Option Expect) :
    writeExpect expect (a ++ b) = writeExpect expect a ++ b := by
  cases expect with
  | none => rfl
  | some e => simp [writeExpect, Expect.write, Hex.write_append]

theorem Line.write_append (line : Line) : line.write (a ++ b) = line.write a ++ b := by
  cases line with
  | legacy address gap word => simp only [Line.write, Hex.write_append, ← List.append_assoc]
  | atLine gap loc sep insn expect =>
    simp only [Line.write, writeExpect_append, Insn.write_append, ← List.append_assoc,
      Loc.write_append, List.cons_append]
  | letLine gap name before after loc =>
    simp only [Line.write, Loc.write_append, List.append_assoc, List.cons_append]

end

/-! What a derivation denotes, and what the parsed structures stand for. -/

inductive Place
  | abs (address : BitVec 64)
  | sym (name : List Char) (offset : BitVec 64)
  | find (name : List Char) (patterns : List (Word → Prop)) (within : Option (BitVec 64))
  | label (name : List Char) (offset : BitVec 64)

inductive Action
  | raw (word : Word)
  | b (target : Place)
  | bl (target : Place)

inductive Statement
  | patch (place : Place) (action : Action) (expected : Option Word)
  | define (name : List Char) (place : Place)

def Hex.value {w : Nat} (h : Hex w) : BitVec w := BitVec.ofNat w (hexValue h.digits.chars)

/-- The words that fit a pattern: each nibble is the digit in its place or stands under a `?`. -/
def PatternText.Fits (p : PatternText) (w : Word) : Prop :=
  ∀ i c, p.chars[i]? = some c →
    c = '?' ∨ w.extractLsb' (4 * (7 - i)) 4 = BitVec.ofNat 4 (hexDigit c)

def signed (o : Bool × Hex 64) : BitVec 64 := if o.1 then o.2.value else -o.2.value

def Find.patterns (f : Find) : List (Word → Prop) :=
  f.pattern.Fits :: f.more.map fun m => m.2.Fits

def Loc.place : Loc → Place
  | .sym name offset => .sym name.chars (offset.elim 0#64 signed)
  | .symFind name find =>
    .find name.chars find.patterns (find.within.map fun w => w.bound.value)
  | .label name offset => .label name.chars (offset.elim 0#64 Hex.value)
  | .addr address => .abs address.value

def Insn.action : Insn → Action
  | .raw word => .raw word.value
  | .nop => .raw encNop
  | .ret => .raw encRet
  | .b _ target => .b target.place
  | .bl _ target => .bl target.place

def Line.statement : Line → Statement
  | .legacy address _ word => .patch (.abs address.value) (.raw word.value) none
  | .atLine _ loc _ insn expect =>
    .patch loc.place insn.action (expect.map fun e => e.word.value)
  | .letLine _ name _ _ loc => .define name.chars loc.place

def wordsOf (p : Pattern) (w : Word) : Prop := w &&& p.mask = p.value

/-- A location as `resolve_loc` reads it: a `within` of 0 is no bound. -/
def placeOf : LocExpr → Place
  | .abs offset => .abs offset
  | .sym name offset => .sym name offset
  | .symFind name _ patterns within =>
    .find name (patterns.map wordsOf) (if within = 0#64 then none else some within)
  | .label name offset => .label name offset

def actionOf : InsnExpr → Action
  | .raw word => .raw word
  | .b target => .b (placeOf target)
  | .bl target => .bl (placeOf target)

def statementOf : PatchLine → Statement
  | .atLine loc insn expected => .patch (placeOf loc) (actionOf insn) expected
  | .letLine name loc => .define name (placeOf loc)
  | .absLine offset raw => .patch (.abs offset) (.raw raw) none

/-- In front of any file the line is read as one line, and as the one it denotes. -/
def Source.Reads (s : Source) : Prop :=
  ∃ line, statementOf line = s.line.statement ∧
    ∀ rest, parseFile (s.text ++ '\n' :: rest) = (parseFile rest).map (line :: ·)

/-! What the reader asks of a derivation. -/

/-- The keywords are recognised with the space behind them. -/
def Gap.Spaced (gap : Gap) : Prop := gap.chars.head? = some ' '

/-- The last thing in the text is a pattern. -/
def Loc.Open : Loc → Prop
  | .symFind _ find => find.within = none
  | _ => False

def Loc.Readable : Loc → Prop
  | .sym name _ => name.chars.length ≤ 255
  | .symFind name find =>
    name.chars.length ≤ 255 ∧ Gap.Spaced find.after ∧ find.more.length < locMaxPatterns ∧
      ∀ w ∈ find.within, Gap.Spaced w.after ∧ w.bound.value ≠ 0#64
  | .label name _ =>
    name.chars.length ≤ 255 ∧ ¬ ['s', 'y', 'm', ':'] <+: name.chars ∧
      ¬ startsHexPrefix name.chars
  | .addr address => address.mark ≠ []

def Insn.Readable (behind : List Char) : Insn → Prop
  | .raw word => word.mark = [] → word.digits.chars = ['b'] → behind.head? ≠ some ' '
  | .nop => True
  | .ret => True
  | .b gap target => Gap.Spaced gap ∧ target.Readable
  | .bl gap target => Gap.Spaced gap ∧ target.Readable

def Line.Readable (behind : List Char) : Line → Prop
  | .legacy _ _ _ => True
  | .atLine gap loc _ insn expect =>
    Gap.Spaced gap ∧ loc.Readable ∧ (loc.Open → insn = .nop ∨ insn = .ret) ∧
      insn.Readable (writeExpect expect behind) ∧ ∀ e ∈ expect, Gap.Spaced e.gap
  | .letLine gap name _ _ loc => Gap.Spaced gap ∧ name.chars.length ≤ 127 ∧ loc.Readable

/-- The line stands in the first buffer, and nothing of it is read from a later one. -/
def Source.Readable (s : Source) : Prop :=
  (s.leading.chars ++ s.line.write []).length ≤ 511 ∧
    (∀ buf ∈ (fgets 511 (s.text ++ ['\n'])).tail, parseLine buf = some none) ∧
    s.line.Readable s.behind

end Machgate.PatchGrammar
