import Mathlib.Data.List.Find
import Machgate.MachineState

namespace Machgate.Instructions

open ByteMemory ConditionFlags MachineState Function List
open BitVec hiding and_assoc and_self not_or

/-- Two-operand data processing without flags, shifted-register form with a
zero shift. -/
inductive AluOp
  | add
  | bic
  | eor
  | orr
deriving DecidableEq, Repr

/-- The A64 instructions that the emitted code uses.  `sf` selects the 64-bit
form.  The ordering bits of the exclusives are kept but have no effect on a
single processing element. -/
inductive Instr
  | b (imm : BitVec 26)
  | bCond (cond : BitVec 4) (imm : BitVec 19)
  | cbnzW (rt : Reg) (imm : BitVec 19)
  | strPre (imm : BitVec 9) (rn rt : Reg)
  | ldrPost (imm : BitVec 9) (rn rt : Reg)
  | strQPre (imm : BitVec 9) (rn rt : Reg)
  | ldrQPost (imm : BitVec 9) (rn rt : Reg)
  | mrsNzcv (rt : Reg)
  | msrNzcv (rt : Reg)
  | ldxr (size : BitVec 2) (acquire : Bool) (rt rn : Reg)
  | stxr (size : BitVec 2) (release : Bool) (rs rt rn : Reg)
  | clrex
  | alu (op : AluOp) (sf : Bool) (rd rn rm : Reg)
  | subs (sf : Bool) (rd rn rm : Reg)
  | csel (sf : Bool) (rd rn rm : Reg) (cond : BitVec 4)
  | sxtbW (rd rn : Reg)
  | sxthW (rd rn : Reg)
  | vbic (vd vn vm : Reg)
  | veor (vd vn vm : Reg)
deriving DecidableEq, Repr

def accessBytes (size : BitVec 2) : Nat :=
  2 ^ size.toNat

theorem size_cases : ∀ size : BitVec 2, size = 0#2 ∨ size = 1#2 ∨ size = 2#2 ∨ size = 3#2 := by
  decide

theorem accessBytes_le (size : BitVec 2) : accessBytes size ≤ 8 := by
  revert size
  decide

theorem accessBytes_le_two_pow (size : BitVec 2) : accessBytes size ≤ 2 ^ 64 :=
  (accessBytes_le size).trans (by decide)

def AluOp.apply (op : AluOp) {w : Nat} (x y : BitVec w) : BitVec w :=
  match op with
  | .add => x + y
  | .bic => x &&& ~~~y
  | .eor => x ^^^ y
  | .orr => x ||| y

def aluResult (op : AluOp) (sf : Bool) (x y : BitVec 64) : BitVec 64 :=
  if sf then op.apply x y else (op.apply (x.setWidth 32) (y.setWidth 32)).setWidth 64

def subsResult (sf : Bool) (x y : BitVec 64) : BitVec 64 × Nzcv :=
  if sf then subtract x y
  else ((subtract (x.setWidth 32) (y.setWidth 32)).1.setWidth 64,
    (subtract (x.setWidth 32) (y.setWidth 32)).2)

def resultOf (sf : Bool) (x : BitVec 64) : BitVec 64 :=
  if sf then x else (x.setWidth 32).setWidth 64

def sextW (bits : Nat) (x : BitVec 64) : BitVec 64 :=
  (((x.setWidth bits).signExtend 32).setWidth 64)

def branchOffset {k : Nat} (imm : BitVec k) : Addr :=
  (imm ++ 0#2).signExtend 64

def nextPc (i : Instr) (s : State) : Addr :=
  match i with
  | .b imm => s.pc + branchOffset imm
  | .bCond cond imm => if condHolds cond s.nzcv then s.pc + branchOffset imm else s.pc + 4#64
  | .cbnzW rt imm =>
    if (s.readX rt).setWidth 32 = 0#32 then s.pc + 4#64 else s.pc + branchOffset imm
  | _ => s.pc + 4#64

def Instr.Sequential : Instr → Bool
  | .b _ => false
  | .bCond _ _ => false
  | .cbnzW _ _ => false
  | _ => true

theorem nextPc_of_sequential {i : Instr} (h : i.Sequential = true) (s : State) :
    nextPc i s = s.pc + 4#64 := by
  cases i <;> first | rfl | cases h

/-- A store-exclusive writes only while the monitor marks its own access, and
reports 0 for success and 1 for failure in the status register. -/
def storeExclusive (size : BitVec 2) (rs rt rn : Reg) (s : State) : State :=
  if s.monitor = some (s.gpr rn, accessBytes size) then
    match s.spurious with
    | 0 =>
      ({ s with
        mem := writeMem s.mem (s.gpr rn) (accessBytes size) (s.readX rt)
        monitor := none } : State).writeX rs 0#64
    | n + 1 => ({ s with monitor := none, spurious := n } : State).writeX rs 1#64
  else ({ s with monitor := none } : State).writeX rs 1#64

/-- Everything an instruction does except moving the program counter. -/
def effect (i : Instr) (s : State) : State :=
  match i with
  | .b _ => s
  | .bCond _ _ => s
  | .cbnzW _ _ => s
  | .strPre imm rn rt =>
    { s with
      mem := writeMem s.mem (s.gpr rn + imm.signExtend 64) 8 (s.readX rt)
      gpr := Function.update s.gpr rn (s.gpr rn + imm.signExtend 64) }
  | .ldrPost imm rn rt =>
    ({ s with
      gpr := Function.update s.gpr rn (s.gpr rn + imm.signExtend 64) } : State).writeX rt
        (readMem s.mem (s.gpr rn) 8)
  | .strQPre imm rn rt =>
    { s with
      mem := writeMem s.mem (s.gpr rn + imm.signExtend 64) 16 (s.vec rt)
      gpr := Function.update s.gpr rn (s.gpr rn + imm.signExtend 64) }
  | .ldrQPost imm rn rt =>
    { s with
      gpr := Function.update s.gpr rn (s.gpr rn + imm.signExtend 64)
      vec := Function.update s.vec rt (readMem s.mem (s.gpr rn) 16) }
  | .mrsNzcv rt => s.writeX rt s.nzcv.pack
  | .msrNzcv rt => { s with nzcv := Nzcv.unpack (s.readX rt) }
  | .ldxr size _ rt rn =>
    ({ s with monitor := some (s.gpr rn, accessBytes size) } : State).writeX rt
      ((readMem s.mem (s.gpr rn) (accessBytes size)).setWidth 64)
  | .stxr size _ rs rt rn => storeExclusive size rs rt rn s
  | .clrex => { s with monitor := none }
  | .alu op sf rd rn rm => s.writeX rd (aluResult op sf (s.readX rn) (s.readX rm))
  | .subs sf rd rn rm =>
    ({ s with nzcv := (subsResult sf (s.readX rn) (s.readX rm)).2 } : State).writeX rd
      (subsResult sf (s.readX rn) (s.readX rm)).1
  | .csel sf rd rn rm cond =>
    s.writeX rd (resultOf sf
      (if condHolds cond s.nzcv then s.readX rn else s.readX rm))
  | .sxtbW rd rn => s.writeX rd (sextW 8 (s.readX rn))
  | .sxthW rd rn => s.writeX rd (sextW 16 (s.readX rn))
  | .vbic vd vn vm => { s with vec := Function.update s.vec vd (s.vec vn &&& ~~~s.vec vm) }
  | .veor vd vn vm => { s with vec := Function.update s.vec vd (s.vec vn ^^^ s.vec vm) }

def exec (i : Instr) (s : State) : State :=
  { effect i s with pc := nextPc i s }

def Instr.dests : Instr → List Reg
  | .strPre _ rn _ => [rn]
  | .ldrPost _ rn rt => [rn, rt]
  | .strQPre _ rn _ => [rn]
  | .ldrQPost _ rn _ => [rn]
  | .mrsNzcv rt => [rt]
  | .ldxr _ _ rt _ => [rt]
  | .stxr _ _ rs _ _ => [rs]
  | .alu _ _ rd _ _ => [rd]
  | .subs _ rd _ _ => [rd]
  | .csel _ rd _ _ _ => [rd]
  | .sxtbW rd _ => [rd]
  | .sxthW rd _ => [rd]
  | _ => []

theorem gpr_exec_of_notMem {i : Instr} {r : Reg} (h : r ∉ i.dests) (s : State) :
    (exec i s).gpr r = s.gpr r := by
  have hstore : ∀ size rs rt rn, r ≠ rs → (storeExclusive size rs rt rn s).gpr r = s.gpr r := by
    intro size rs rt rn hne
    unfold storeExclusive
    split
    · split <;> exact State.gpr_writeX_of_ne _ _ hne
    · exact State.gpr_writeX_of_ne _ _ hne
  cases i with
  | strPre imm rn rt | strQPre imm rn rt | ldrQPost imm rn rt =>
    exact update_of_ne (by simpa [Instr.dests] using h) _ _
  | ldrPost imm rn rt =>
    simp only [Instr.dests, mem_cons, not_mem_nil, or_false, not_or] at h
    exact (State.gpr_writeX_of_ne _ _ h.2).trans (update_of_ne h.1 _ _)
  | stxr size release rs rt rn => exact hstore size rs rt rn (by simpa [Instr.dests] using h)
  | mrsNzcv rt | ldxr size acquire rt rn | alu op sf rd rn rm | subs sf rd rn rm
  | csel sf rd rn rm cond | sxtbW rd rn | sxthW rd rn =>
    exact State.gpr_writeX_of_ne _ _ (by simpa [Instr.dests] using h)
  | b imm | bCond cond imm | cbnzW rt imm | msrNzcv rt | clrex | vbic vd vn vm | veor vd vn vm =>
    rfl

def runSeq (is : List Instr) (s : State) : State :=
  is.foldl (fun s i => exec i s) s

@[simp] theorem runSeq_nil (s : State) : runSeq [] s = s :=
  rfl

@[simp] theorem runSeq_cons (i : Instr) (is : List Instr) (s : State) :
    runSeq (i :: is) s = runSeq is (exec i s) :=
  rfl

theorem runSeq_append (is js : List Instr) (s : State) :
    runSeq (is ++ js) s = runSeq js (runSeq is s) :=
  foldl_append

/-- One row of the decoding table: the word is of this form when the bits
under `mask` are those of `value`. -/
structure Encoding where
  mask : Word
  value : Word
  build : Word → Instr

def Encoding.Matches (e : Encoding) (w : Word) : Prop :=
  w &&& e.mask = e.value

instance (e : Encoding) (w : Word) : Decidable (e.Matches w) :=
  inferInstanceAs (Decidable (_ = _))

def fieldAt (w : Word) (lo : Nat) : Reg :=
  w.extractLsb' lo 5

/-- The encodings of the instructions above.  The should-be-one source field of
the load-exclusives is not decoded. -/
def encodings : List Encoding :=
  [{ mask := 0xFC000000#32, value := 0x14000000#32
     build := fun w => .b (w.extractLsb' 0 26) },
   { mask := 0xFF000010#32, value := 0x54000000#32
     build := fun w => .bCond (w.extractLsb' 0 4) (w.extractLsb' 5 19) },
   { mask := 0xFF000000#32, value := 0x35000000#32
     build := fun w => .cbnzW (fieldAt w 0) (w.extractLsb' 5 19) },
   { mask := 0xFFE00C00#32, value := 0xF8000C00#32
     build := fun w => .strPre (w.extractLsb' 12 9) (fieldAt w 5) (fieldAt w 0) },
   { mask := 0xFFE00C00#32, value := 0xF8400400#32
     build := fun w => .ldrPost (w.extractLsb' 12 9) (fieldAt w 5) (fieldAt w 0) },
   { mask := 0xFFE00C00#32, value := 0x3C800C00#32
     build := fun w => .strQPre (w.extractLsb' 12 9) (fieldAt w 5) (fieldAt w 0) },
   { mask := 0xFFE00C00#32, value := 0x3CC00400#32
     build := fun w => .ldrQPost (w.extractLsb' 12 9) (fieldAt w 5) (fieldAt w 0) },
   { mask := 0xFFFFFFE0#32, value := 0xD53B4200#32
     build := fun w => .mrsNzcv (fieldAt w 0) },
   { mask := 0xFFFFFFE0#32, value := 0xD51B4200#32
     build := fun w => .msrNzcv (fieldAt w 0) },
   { mask := 0x3FE07C00#32, value := 0x08407C00#32
     build := fun w => .ldxr (w.extractLsb' 30 2) (w.getLsbD 15) (fieldAt w 0) (fieldAt w 5) },
   { mask := 0x3FE07C00#32, value := 0x08007C00#32
     build := fun w => .stxr (w.extractLsb' 30 2) (w.getLsbD 15) (fieldAt w 16) (fieldAt w 0)
       (fieldAt w 5) },
   { mask := 0xFFFFF0FF#32, value := 0xD503305F#32
     build := fun _ => .clrex },
   { mask := 0x7FE0FC00#32, value := 0x0B000000#32
     build := fun w => .alu .add (w.getLsbD 31) (fieldAt w 0) (fieldAt w 5) (fieldAt w 16) },
   { mask := 0x7FE0FC00#32, value := 0x0A200000#32
     build := fun w => .alu .bic (w.getLsbD 31) (fieldAt w 0) (fieldAt w 5) (fieldAt w 16) },
   { mask := 0x7FE0FC00#32, value := 0x4A000000#32
     build := fun w => .alu .eor (w.getLsbD 31) (fieldAt w 0) (fieldAt w 5) (fieldAt w 16) },
   { mask := 0x7FE0FC00#32, value := 0x2A000000#32
     build := fun w => .alu .orr (w.getLsbD 31) (fieldAt w 0) (fieldAt w 5) (fieldAt w 16) },
   { mask := 0x7FE0FC00#32, value := 0x6B000000#32
     build := fun w => .subs (w.getLsbD 31) (fieldAt w 0) (fieldAt w 5) (fieldAt w 16) },
   { mask := 0x7FE00C00#32, value := 0x1A800000#32
     build := fun w => .csel (w.getLsbD 31) (fieldAt w 0) (fieldAt w 5) (fieldAt w 16)
       (w.extractLsb' 12 4) },
   { mask := 0xFFFFFC00#32, value := 0x13001C00#32
     build := fun w => .sxtbW (fieldAt w 0) (fieldAt w 5) },
   { mask := 0xFFFFFC00#32, value := 0x13003C00#32
     build := fun w => .sxthW (fieldAt w 0) (fieldAt w 5) },
   { mask := 0xFFE0FC00#32, value := 0x4E601C00#32
     build := fun w => .vbic (fieldAt w 0) (fieldAt w 5) (fieldAt w 16) },
   { mask := 0xFFE0FC00#32, value := 0x6E201C00#32
     build := fun w => .veor (fieldAt w 0) (fieldAt w 5) (fieldAt w 16) }]

def decode (w : Word) : Option Instr :=
  (encodings.find? fun e => e.Matches w).map fun e => e.build w

theorem matches_iff_of_fixed {w k b : Word} (hk : w &&& k = b) {e : Encoding}
    (h : e.mask &&& k = e.mask ∨ b &&& e.mask ≠ e.value &&& k) :
    e.Matches w ↔ e.Matches b := by
  have hw : w &&& e.mask &&& k = b &&& e.mask := by
    rw [← hk]
    ac_rfl
  have hb : b &&& e.mask &&& k = b &&& e.mask := by
    rw [← hk, BitVec.and_assoc, and_comm e.mask, ← BitVec.and_assoc,
      BitVec.and_assoc w, BitVec.and_self]
  rcases h with h | h
  · have hsame : w &&& e.mask = b &&& e.mask := by rw [← hw, BitVec.and_assoc, h]
    rw [Encoding.Matches, Encoding.Matches, hsame]
  · refine iff_of_false (fun hm => h ?_) (fun hm => h ?_)
    · rw [← hw, hm]
    · rw [← hb, hm]

/-- The known bits `b`, those under `k`, settle every row of the table. -/
def Settles (k b : Word) : Prop :=
  ∀ e ∈ encodings, e.mask &&& k = e.mask ∨ b &&& e.mask ≠ e.value &&& k

instance (k b : Word) : Decidable (Settles k b) :=
  inferInstanceAs (Decidable (∀ e ∈ encodings, _))

def rowOf (b : Word) : Nat :=
  encodings.findIdx fun e => e.Matches b

/-- Decoding looks only at the opcode bits `b` of a word whose other bits are
operands. -/
theorem decode_eq_row {w k b : Word} {i : Nat} (hk : w &&& k = b) (hsettles : Settles k b)
    (hrow : rowOf b = i) : decode w = encodings[i]?.map fun e => e.build w := by
  have hfind : (encodings.find? fun e => e.Matches w) = encodings.find? fun e => e.Matches b :=
    find?_congr fun e he => decide_eq_decide.mpr (matches_iff_of_fixed hk (hsettles e he))
  rw [decode, hfind, find?_eq_getElem?_findIdx, ← rowOf, hrow]

def threeRegisters (base : Word) (rd rn rm : Reg) : Word :=
  base ||| rm.setWidth 32 <<< 16 ||| rn.setWidth 32 <<< 5 ||| rd.setWidth 32

variable (base : Word) (rd rn rm : Reg)

theorem threeRegisters_and {k : Word} (hk : k &&& 0x001F03FF#32 = 0#32) :
    threeRegisters base rd rn rm &&& k = base &&& k := by
  have hoperand : ∀ x : Word, x &&& 0x001F03FF#32 = x → x &&& k = 0#32 := by
    intro x hx
    rw [← hx, BitVec.and_assoc, and_comm _ k, hk, and_zero]
  have h16 : ∀ r : Reg, r.setWidth 32 <<< 16 &&& 0x001F03FF#32 = r.setWidth 32 <<< 16 := by decide
  have h5 : ∀ r : Reg, r.setWidth 32 <<< 5 &&& 0x001F03FF#32 = r.setWidth 32 <<< 5 := by decide
  have h0 : ∀ r : Reg, r.setWidth 32 &&& 0x001F03FF#32 = r.setWidth 32 := by decide
  rw [threeRegisters, and_or_distrib_right, and_or_distrib_right,
    and_or_distrib_right, hoperand _ (h16 rm), hoperand _ (h5 rn), hoperand _ (h0 rd),
    or_zero, or_zero, or_zero]

theorem extractLsb'_threeRegisters {lo len : Nat}
    (h : (0xFFE0FC00#32 : Word).extractLsb' lo len = allOnes len) :
    (threeRegisters base rd rn rm).extractLsb' lo len = base.extractLsb' lo len := by
  have hand := congrArg (extractLsb' lo len)
    (threeRegisters_and base rd rn rm (k := 0xFFE0FC00#32) (by decide))
  simpa only [extractLsb'_and, h, and_allOnes] using hand

theorem getLsbD_threeRegisters {i : Nat} (h : (0xFFE0FC00#32 : Word).getLsbD i = true) :
    (threeRegisters base rd rn rm).getLsbD i = base.getLsbD i := by
  have hand := congrArg (getLsbD · i)
    (threeRegisters_and base rd rn rm (k := 0xFFE0FC00#32) (by decide))
  simpa only [getLsbD_and, h, Bool.and_true] using hand

theorem extractLsb'_of_clear {x m : Word} (hx : x &&& m = 0#32) {lo n : Nat}
    (hm : m.extractLsb' lo n = allOnes n) : x.extractLsb' lo n = 0#n := by
  have h : (x &&& m).extractLsb' lo n = 0#n := by rw [hx, extractLsb'_zero]
  rwa [extractLsb'_and, hm, and_allOnes] at h

variable {base} (hbase : base &&& 0x001F03FF#32 = 0#32)

include hbase

theorem fields_threeRegisters :
    fieldAt (threeRegisters base rd rn rm) 0 = rd ∧ fieldAt (threeRegisters base rd rn rm) 5 = rn ∧
      fieldAt (threeRegisters base rd rn rm) 16 = rm := by
  have h16 : ∀ r : Reg, fieldAt (r.setWidth 32 <<< 16) 0 = 0#5 ∧
      fieldAt (r.setWidth 32 <<< 16) 5 = 0#5 ∧ fieldAt (r.setWidth 32 <<< 16) 16 = r := by decide
  have h5 : ∀ r : Reg, fieldAt (r.setWidth 32 <<< 5) 0 = 0#5 ∧
      fieldAt (r.setWidth 32 <<< 5) 5 = r ∧ fieldAt (r.setWidth 32 <<< 5) 16 = 0#5 := by decide
  have h0 : ∀ r : Reg, fieldAt (r.setWidth 32) 0 = r ∧ fieldAt (r.setWidth 32) 5 = 0#5 ∧
      fieldAt (r.setWidth 32) 16 = 0#5 := by decide
  have hclear : ∀ i, fieldAt 0x001F03FF#32 i = allOnes 5 → fieldAt base i = 0#5 :=
    fun i hi => extractLsb'_of_clear hbase hi
  have hor : ∀ (x y : Word) i, fieldAt (x ||| y) i = fieldAt x i ||| fieldAt y i :=
    fun x y i => extractLsb'_or
  simp [threeRegisters, hor, h16, h5, h0, hclear 0 (by decide), hclear 5 (by decide),
    hclear 16 (by decide)]

theorem decode_threeRegisters {i : Nat} (hsettles : Settles 0xFFE0FC00#32 base)
    (hrow : rowOf base = i) :
    decode (threeRegisters base rd rn rm) =
      encodings[i]?.map fun e => e.build (threeRegisters base rd rn rm) := by
  have hall : (0xFFE0FC00#32 : Word) ||| 0x001F03FF#32 = allOnes 32 := by decide
  have hopcode : base &&& 0xFFE0FC00#32 = base := by
    have h := congrArg (base &&& ·) hall
    simpa only [and_or_distrib_left, hbase, or_zero, and_allOnes] using h
  refine decode_eq_row (k := 0xFFE0FC00#32) ?_ hsettles hrow
  rw [threeRegisters_and base rd rn rm (by decide), hopcode]

end Machgate.Instructions
