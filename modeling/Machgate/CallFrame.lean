import Machgate.RecordBuffer

namespace Machgate.CallFrame

open RecordBuffer Option List

def readUleb : List Octet → Option (Nat × List Octet)
  | [] => none
  | b :: bytes =>
    if b.toNat < 128 then some (b.toNat, bytes)
    else (readUleb bytes).map fun r => (b.toNat - 128 + 128 * r.1, r.2)

def readSleb : List Octet → Option (Int × List Octet)
  | [] => none
  | b :: bytes =>
    if b.toNat < 64 then some (b.toNat, bytes)
    else if b.toNat < 128 then some (b.toNat - 128, bytes)
    else (readSleb bytes).map fun r => (b.toNat - 128 + 128 * r.1, r.2)

def readFixed (n : Nat) (bytes : List Octet) : Option (Nat × List Octet) :=
  if n ≤ bytes.length then some (ofLeBytes (bytes.take n), bytes.drop n) else none

def readBlock (bytes : List Octet) : Option (List Octet × List Octet) :=
  (readUleb bytes).bind fun r =>
    if r.1 ≤ r.2.length then some (r.2.take r.1, r.2.drop r.1) else none

inductive RegRule
  | unspecified
  | undefined
  | sameValue
  | offset (n : Int)
  | valOffset (n : Int)
  | register (reg : Nat)
  | expression (block : List Octet)
  | valExpression (block : List Octet)
  deriving DecidableEq

inductive CfaRule
  | unspecified
  | registerOffset (reg : Nat) (offset : Int)
  | expression (block : List Octet)
  deriving DecidableEq

structure Row where
  cfa : CfaRule
  rules : Nat → RegRule

def Row.empty : Row := ⟨.unspecified, fun _ => .unspecified⟩

def Row.set (row : Row) (reg : Nat) (rule : RegRule) : Row :=
  { row with rules := Function.update row.rules reg rule }

inductive Insn
  | nop
  | advance (delta : Nat)
  | rule (reg : Nat) (rule : RegRule)
  | offset (reg n : Nat)
  | offsetSf (reg : Nat) (n : Int)
  | valOffset (reg n : Nat)
  | valOffsetSf (reg : Nat) (n : Int)
  | restore (reg : Nat)
  | rememberState
  | restoreState
  | defCfa (reg offset : Nat)
  | defCfaSf (reg : Nat) (offset : Int)
  | defCfaRegister (reg : Nat)
  | defCfaOffset (offset : Nat)
  | defCfaOffsetSf (offset : Int)
  | defCfaExpression (block : List Octet)

def andThen {α β γ : Type} (first : List Octet → Option (α × List Octet))
    (second : List Octet → Option (β × List Octet)) (f : α → β → γ) (bytes : List Octet) :
    Option (γ × List Octet) :=
  (first bytes).bind fun r => (second r.2).map fun s => (f r.1 s.1, s.2)

def single {α γ : Type} (first : List Octet → Option (α × List Octet)) (f : α → γ)
    (bytes : List Octet) : Option (γ × List Octet) :=
  (first bytes).map fun r => (f r.1, r.2)

/-- The operands of the opcodes without an operand of their own in the first byte.  The operand of
`DW_CFA_set_loc` is encoded as the addresses of the FDE are; it is not read here. -/
def readExtended (opcode : Nat) (bytes : List Octet) : Option (Insn × List Octet) :=
  match opcode with
  | 0x00 => some (.nop, bytes)
  | 0x02 => single (readFixed 1) .advance bytes
  | 0x03 => single (readFixed 2) .advance bytes
  | 0x04 => single (readFixed 4) .advance bytes
  | 0x05 => andThen readUleb readUleb .offset bytes
  | 0x06 => single readUleb .restore bytes
  | 0x07 => single readUleb (.rule · .undefined) bytes
  | 0x08 => single readUleb (.rule · .sameValue) bytes
  | 0x09 => andThen readUleb readUleb (fun reg r => .rule reg (.register r)) bytes
  | 0x0a => some (.rememberState, bytes)
  | 0x0b => some (.restoreState, bytes)
  | 0x0c => andThen readUleb readUleb .defCfa bytes
  | 0x0d => single readUleb .defCfaRegister bytes
  | 0x0e => single readUleb .defCfaOffset bytes
  | 0x0f => single readBlock .defCfaExpression bytes
  | 0x10 => andThen readUleb readBlock (fun reg block => .rule reg (.expression block)) bytes
  | 0x11 => andThen readUleb readSleb .offsetSf bytes
  | 0x12 => andThen readUleb readSleb .defCfaSf bytes
  | 0x13 => single readSleb .defCfaOffsetSf bytes
  | 0x14 => andThen readUleb readUleb .valOffset bytes
  | 0x15 => andThen readUleb readSleb .valOffsetSf bytes
  | 0x16 => andThen readUleb readBlock (fun reg block => .rule reg (.valExpression block)) bytes
  | 0x2e => single readUleb (fun _ => .nop) bytes
  | _ => none

def readInsn : List Octet → Option (Insn × List Octet)
  | [] => none
  | b :: bytes =>
    match b.toNat / 64 with
    | 0 => readExtended b.toNat bytes
    | 1 => some (.advance (b.toNat % 64), bytes)
    | 2 => single readUleb (.offset (b.toNat % 64)) bytes
    | _ => some (.restore (b.toNat % 64), bytes)

structure Factors where
  codeAlign : Nat
  dataAlign : Int
  deriving DecidableEq

structure State where
  location : Nat
  row : Row
  saved : List Row

/-- One instruction; `initial` is the row of the CIE, which `DW_CFA_restore` goes back to. -/
def step (k : Factors) (initial : Row) (insn : Insn) (s : State) : Option State :=
  match insn with
  | .nop => some s
  | .advance delta => some { s with location := s.location + delta * k.codeAlign }
  | .rule reg rule => some { s with row := s.row.set reg rule }
  | .offset reg n => some { s with row := s.row.set reg (.offset (n * k.dataAlign)) }
  | .offsetSf reg n => some { s with row := s.row.set reg (.offset (n * k.dataAlign)) }
  | .valOffset reg n => some { s with row := s.row.set reg (.valOffset (n * k.dataAlign)) }
  | .valOffsetSf reg n => some { s with row := s.row.set reg (.valOffset (n * k.dataAlign)) }
  | .restore reg => some { s with row := s.row.set reg (initial.rules reg) }
  | .rememberState => some { s with saved := s.row :: s.saved }
  | .restoreState =>
    match s.saved with
    | [] => none
    | row :: saved => some { s with row := row, saved := saved }
  | .defCfa reg offset => some { s with row := { s.row with cfa := .registerOffset reg offset } }
  | .defCfaSf reg offset =>
    some { s with row := { s.row with cfa := .registerOffset reg (offset * k.dataAlign) } }
  | .defCfaRegister reg =>
    match s.row.cfa with
    | .registerOffset _ offset =>
      some { s with row := { s.row with cfa := .registerOffset reg offset } }
    | _ => none
  | .defCfaOffset offset =>
    match s.row.cfa with
    | .registerOffset reg _ =>
      some { s with row := { s.row with cfa := .registerOffset reg offset } }
    | _ => none
  | .defCfaOffsetSf offset =>
    match s.row.cfa with
    | .registerOffset reg _ =>
      some { s with row := { s.row with cfa := .registerOffset reg (offset * k.dataAlign) } }
    | _ => none
  | .defCfaExpression block => some { s with row := { s.row with cfa := .expression block } }

/-- The row for `pc`: the instructions run until one moves the location past it. -/
def run (k : Factors) (initial : Row) (pc : Nat) : Nat → State → List Octet → Option Row
  | 0, s, bytes => if bytes = [] then some s.row else none
  | fuel + 1, s, bytes =>
    if bytes = [] then some s.row
    else
      (readInsn bytes).bind fun r =>
        (step k initial r.1 s).bind fun s' =>
          if pc < s'.location then some s.row else run k initial pc fuel s' r.2

structure Cie where
  augmentation : List Octet
  factors : Factors
  initial : List Octet

namespace Cie

variable (cie : Cie)

def initialRow : Option Row :=
  run cie.factors .empty 0 cie.initial.length ⟨0, .empty, []⟩ cie.initial

def row (start : Nat) (program : List Octet) (pc : Nat) : Option Row :=
  cie.initialRow.bind fun initial =>
    run cie.factors initial pc program.length ⟨start, initial, []⟩ program

/-- The bytes an FDE of the CIE has in its augmentation data: an absolute LSDA pointer where the
string asks for one. -/
def declaredLength : Nat := if cie.augmentation.contains 0x4c then 8 else 0

end Cie

def readCie (bytes : List Octet) : Option Cie :=
  let body := (bytes.drop 4).take (field bytes 0 4)
  let augmentation := (body.drop 5).takeWhile fun b => b ≠ 0
  (readUleb (body.drop (5 + augmentation.length + 1))).bind fun code =>
    (readSleb code.2).bind fun data =>
      (if field body 4 1 = 1 then readFixed 1 data.2 else readUleb data.2).bind fun ra =>
        if augmentation.head? = some 0x7a then
          (readBlock ra.2).map fun aug => ⟨augmentation, ⟨code.1, data.1⟩, aug.2⟩
        else some ⟨augmentation, ⟨code.1, data.1⟩, ra.2⟩

structure FdeView where
  cie : Cie
  start : Nat
  range : Nat
  augLength : Nat
  behindLength : List Octet

namespace FdeView

variable (fde : FdeView)

def program : List Octet := fde.behindLength.drop fde.augLength

def row (pc : Nat) : Option Row := fde.cie.row fde.start fde.program pc

def lsda : Option Nat :=
  if fde.cie.declaredLength = 8 then some (field fde.behindLength 0 8) else none

end FdeView

/-- The FDE at `pos`, with absolute addresses, read by the CIE that its pointer counts back to. -/
def readFde (ehFrame : List Octet) (pos : Nat) : Option FdeView :=
  let body := ((ehFrame.drop pos).drop 4).take (field (ehFrame.drop pos) 0 4)
  (readCie (ehFrame.drop (pos + 4 - field body 0 4))).bind fun cie =>
    (readUleb (body.drop 20)).map fun aug =>
      { cie := cie, start := field body 4 8, range := field body 12 8
        augLength := aug.1, behindLength := aug.2 }

/-- A reader that never looks behind what it consumes. -/
def Extends {α : Type} (read : List Octet → Option (α × List Octet)) : Prop :=
  ∀ bytes a rest, read bytes = some (a, rest) → ∀ tail, read (bytes ++ tail) = some (a, rest ++ tail)

theorem extends_readUleb : Extends readUleb := by
  intro bytes
  induction bytes with
  | nil =>
    intro a rest h
    cases h
  | cons b bytes ih =>
    intro a rest h tail
    rw [readUleb] at h
    rw [cons_append, readUleb]
    split at h
    · next hlast =>
      cases h
      rw [if_pos hlast]
    · next hmore =>
      obtain ⟨⟨v, r⟩, hread, hv⟩ := map_eq_some_iff.mp h
      cases hv
      rw [if_neg hmore, ih v r hread tail]
      rfl

theorem extends_readSleb : Extends readSleb := by
  intro bytes
  induction bytes with
  | nil =>
    intro a rest h
    cases h
  | cons b bytes ih =>
    intro a rest h tail
    rw [readSleb] at h
    rw [cons_append, readSleb]
    split at h
    · next hsmall =>
      cases h
      rw [if_pos hsmall]
    · next hlarge =>
      rw [if_neg hlarge]
      split at h
      · next hlast =>
        cases h
        rw [if_pos hlast]
      · next hmore =>
        obtain ⟨⟨v, r⟩, hread, hv⟩ := map_eq_some_iff.mp h
        cases hv
        rw [if_neg hmore, ih v r hread tail]
        rfl

theorem extends_readFixed (n : Nat) : Extends (readFixed n) := by
  intro bytes a rest h tail
  rw [readFixed] at h
  split at h
  · next hlength =>
    cases h
    rw [readFixed, if_pos (by rw [length_append]; omega), take_append_of_le_length hlength,
      drop_append_of_le_length hlength]
  · cases h

theorem extends_readBlock : Extends readBlock := by
  intro bytes a rest h tail
  obtain ⟨⟨n, r⟩, hread, h⟩ := bind_eq_some_iff.mp h
  change (if n ≤ r.length then some (r.take n, r.drop n) else none) = _ at h
  rw [readBlock, extends_readUleb bytes n r hread tail]
  change (if n ≤ (r ++ tail).length then some ((r ++ tail).take n, (r ++ tail).drop n) else none) = _
  split at h
  · next hlength =>
    cases h
    rw [if_pos (by rw [length_append]; omega), take_append_of_le_length hlength,
      drop_append_of_le_length hlength]
  · cases h

theorem extends_single {α γ : Type} {first : List Octet → Option (α × List Octet)} (f : α → γ)
    (hfirst : Extends first) : Extends (single first f) := by
  intro bytes a rest h tail
  obtain ⟨⟨v, r⟩, hread, hv⟩ := map_eq_some_iff.mp h
  cases hv
  rw [single, hfirst bytes v r hread tail]
  rfl

theorem extends_andThen {α β γ : Type} {first : List Octet → Option (α × List Octet)}
    {second : List Octet → Option (β × List Octet)} (f : α → β → γ) (hfirst : Extends first)
    (hsecond : Extends second) : Extends (andThen first second f) := by
  intro bytes a rest h tail
  obtain ⟨⟨v, r⟩, hread, h⟩ := bind_eq_some_iff.mp h
  obtain ⟨⟨w, r'⟩, hread', hw⟩ := map_eq_some_iff.mp h
  cases hw
  rw [andThen, hfirst bytes v r hread tail, bind_some]
  rw [hsecond r w r' hread' tail]
  rfl

theorem extends_some {α : Type} (a : α) : Extends fun bytes => some (a, bytes) := by
  intro bytes b rest h tail
  cases h
  rfl

theorem extends_readExtended (opcode : Nat) : Extends (readExtended opcode) := by
  have huleb : ∀ {γ : Type} (f : Nat → γ), Extends (single readUleb f) :=
    fun f => extends_single f extends_readUleb
  have hfixed : ∀ n, Extends (single (readFixed n) Insn.advance) :=
    fun n => extends_single _ (extends_readFixed n)
  have htwo : ∀ f : Nat → Nat → Insn, Extends (andThen readUleb readUleb f) :=
    fun f => extends_andThen f extends_readUleb extends_readUleb
  have hsigned : ∀ f : Nat → Int → Insn, Extends (andThen readUleb readSleb f) :=
    fun f => extends_andThen f extends_readUleb extends_readSleb
  have hblock : ∀ f : Nat → List Octet → Insn, Extends (andThen readUleb readBlock f) :=
    fun f => extends_andThen f extends_readUleb extends_readBlock
  unfold readExtended
  split
  · exact extends_some _
  · exact hfixed _
  · exact hfixed _
  · exact hfixed _
  · exact htwo _
  · exact huleb _
  · exact huleb _
  · exact huleb _
  · exact htwo _
  · exact extends_some _
  · exact extends_some _
  · exact htwo _
  · exact huleb _
  · exact huleb _
  · exact extends_single _ extends_readBlock
  · exact hblock _
  · exact hsigned _
  · exact hsigned _
  · exact extends_single _ extends_readSleb
  · exact htwo _
  · exact hsigned _
  · exact hblock _
  · exact huleb _
  · intro bytes a rest h
    cases h

theorem extends_readInsn : Extends readInsn := by
  intro bytes a rest h tail
  cases bytes with
  | nil => cases h
  | cons b bytes =>
    rw [cons_append]
    simp only [readInsn] at h ⊢
    split at h
    · exact extends_readExtended _ bytes a rest h tail
    · cases h
      rfl
    · exact extends_single _ extends_readUleb bytes a rest h tail
    · cases h
      rfl

section

variable (k : Factors) (initial : Row) (pc : Nat)

theorem run_nil (fuel : Nat) (s : State) : run k initial pc fuel s [] = some s.row := by
  cases fuel with
  | zero | succ fuel => rfl

theorem run_nops (fuel n : Nat) (s : State) :
    run k initial pc (fuel + n) s (replicate n 0) = some s.row := by
  induction n with
  | zero => exact run_nil ..
  | succ n ih =>
    have hread : readInsn (replicate (n + 1) 0) = some (.nop, replicate n 0) := rfl
    rw [← Nat.add_assoc, run, if_neg (by simp), hread, bind_some]
    change (if pc < s.location then some s.row else _) = _
    rw [ih, ite_self]

/-- Padding behind a program leaves its rows alone. -/
theorem run_append_nops {fuel : Nat} {s : State} {bytes : List Octet} {row : Row}
    (h : run k initial pc fuel s bytes = some row) (n : Nat) :
    run k initial pc (fuel + n) s (bytes ++ replicate n 0) = some row := by
  induction fuel generalizing s bytes with
  | zero =>
    rw [run] at h
    split at h
    · next hnil => rw [hnil, nil_append, run_nops, h]
    · cases h
  | succ fuel ih =>
    rw [run] at h
    split at h
    · next hnil => rw [hnil, nil_append, run_nops, h]
    · next hne =>
      obtain ⟨⟨insn, rest⟩, hread, h⟩ := bind_eq_some_iff.mp h
      obtain ⟨s', hstep, h⟩ := bind_eq_some_iff.mp h
      rw [Nat.add_right_comm, run, if_neg (append_ne_nil_of_left_ne_nil hne _),
        extends_readInsn _ _ _ hread, bind_some, hstep, bind_some]
      split at h
      · next hpast => rw [if_pos hpast, h]
      · next hbefore =>
        rw [if_neg hbefore]
        exact ih h

end

theorem Cie.row_append_nops {cie : Cie} {start pc : Nat} {program : List Octet} {row : Row}
    (h : cie.row start program pc = some row) (n : Nat) :
    cie.row start (program ++ replicate n 0) pc = some row := by
  obtain ⟨initial, hinitial, h⟩ := bind_eq_some_iff.mp h
  rw [Cie.row, hinitial, bind_some, length_append, length_replicate]
  exact run_append_nops _ _ _ h n

end Machgate.CallFrame
