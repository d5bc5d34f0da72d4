import Machgate.Instructions

/-!
What the architecture prescribes for the instructions that the islands stand
in for.  Nothing here comes from the loader: the encodings and effects are
those of the atomic memory operations, of compare-and-swap and of BCAX.
-/

namespace Machgate.AtomicSemantics

open ByteMemory Instructions MachineState

inductive AtomicOp
  | add
  | clr
  | eor
  | set
  | smax
  | smin
  | umax
  | umin
  | swp
deriving DecidableEq, Repr

def AtomicOp.apply (op : AtomicOp) {w : Nat} (old value : BitVec w) : BitVec w :=
  match op with
  | .add => old + value
  | .clr => old &&& ~~~value
  | .eor => old ^^^ value
  | .set => old ||| value
  | .smax => if old.toInt > value.toInt then old else value
  | .smin => if old.toInt > value.toInt then value else old
  | .umax => if old.toNat > value.toNat then old else value
  | .umin => if old.toNat > value.toNat then value else old
  | .swp => value

structure AtomicInstr where
  op : AtomicOp
  size : BitVec 2
  acquire : Bool
  release : Bool
  rs : Reg
  rt : Reg
  rn : Reg
deriving DecidableEq, Repr

def AtomicInstr.target (i : AtomicInstr) (s : State) : Addr :=
  s.gpr i.rn

def AtomicInstr.run (i : AtomicInstr) (s : State) : State :=
  let old := readMem s.mem (i.target s) (accessBytes i.size)
  let new := i.op.apply old ((s.readX i.rs).setWidth (8 * accessBytes i.size))
  ({ s with
    mem := writeMem s.mem (i.target s) (accessBytes i.size) new
    pc := s.pc + 4#64 } : State).writeX i.rt (old.setWidth 64)

variable (i : AtomicInstr)

theorem AtomicInstr.run_vec (s : State) : (i.run s).vec = s.vec :=
  State.writeX_vec _ _ _

theorem AtomicInstr.run_nzcv (s : State) : (i.run s).nzcv = s.nzcv :=
  State.writeX_nzcv _ _ _

theorem AtomicInstr.run_pc (s : State) : (i.run s).pc = s.pc + 4#64 :=
  State.writeX_pc _ _ _

structure CasInstr where
  size : BitVec 2
  acquire : Bool
  release : Bool
  rs : Reg
  rt : Reg
  rn : Reg
deriving DecidableEq, Repr

def CasInstr.target (i : CasInstr) (s : State) : Addr :=
  s.gpr i.rn

def CasInstr.run (i : CasInstr) (s : State) : State :=
  let old := readMem s.mem (i.target s) (accessBytes i.size)
  ({ s with
    mem :=
      if old = (s.readX i.rs).setWidth (8 * accessBytes i.size) then
        writeMem s.mem (i.target s) (accessBytes i.size) (s.readX i.rt)
      else s.mem
    pc := s.pc + 4#64 } : State).writeX i.rs (old.setWidth 64)

theorem CasInstr.run_vec (i : CasInstr) (s : State) : (i.run s).vec = s.vec :=
  State.writeX_vec _ _ _

theorem CasInstr.run_nzcv (i : CasInstr) (s : State) : (i.run s).nzcv = s.nzcv :=
  State.writeX_nzcv _ _ _

structure BcaxInstr where
  vd : Reg
  vn : Reg
  vm : Reg
  va : Reg
deriving DecidableEq, Repr

def BcaxInstr.run (i : BcaxInstr) (s : State) : State :=
  { s with
    vec := Function.update s.vec i.vd (s.vec i.vn ^^^ (s.vec i.vm &&& ~~~s.vec i.va))
    pc := s.pc + 4#64 }

/-- The operation of the atomic class selected by the bits `o3` and `opc`;
the other values belong to other instructions or to none. -/
def atomicOpOf (o3 : Bool) (opc : BitVec 3) : Option AtomicOp :=
  match o3, opc.toNat with
  | false, 0 => some .add
  | false, 1 => some .clr
  | false, 2 => some .eor
  | false, 3 => some .set
  | false, 4 => some .smax
  | false, 5 => some .smin
  | false, 6 => some .umax
  | false, 7 => some .umin
  | true, 0 => some .swp
  | _, _ => none

/-- `size 111000 A R 1 Rs o3 opc 00 Rn Rt` -/
def IsAtomicClass (w : Word) : Prop :=
  w.extractLsb' 24 6 = 0b111000#6 ∧ w.extractLsb' 21 1 = 1#1 ∧ w.extractLsb' 10 2 = 0b00#2

/-- `size 001000 1 L 1 Rs o0 11111 Rn Rt` -/
def IsCasClass (w : Word) : Prop :=
  w.extractLsb' 23 7 = 0b0010001#7 ∧ w.extractLsb' 21 1 = 1#1 ∧ w.extractLsb' 10 5 = 0b11111#5

/-- `11001110001 Rm 0 Ra Rn Rd` -/
def IsBcax (w : Word) : Prop :=
  w.extractLsb' 21 11 = 0b11001110001#11 ∧ w.extractLsb' 15 1 = 0#1

instance (w : Word) : Decidable (IsAtomicClass w) :=
  inferInstanceAs (Decidable (_ ∧ _ ∧ _))

instance (w : Word) : Decidable (IsCasClass w) :=
  inferInstanceAs (Decidable (_ ∧ _ ∧ _))

instance (w : Word) : Decidable (IsBcax w) :=
  inferInstanceAs (Decidable (_ ∧ _))

def atomicInstr (w : Word) : Option AtomicInstr :=
  if IsAtomicClass w then
    (atomicOpOf (w.getLsbD 15) (w.extractLsb' 12 3)).map fun op =>
      { op
        size := w.extractLsb' 30 2
        acquire := w.getLsbD 23
        release := w.getLsbD 22
        rs := fieldAt w 16
        rt := fieldAt w 0
        rn := fieldAt w 5 }
  else none

def casInstr (w : Word) : Option CasInstr :=
  if IsCasClass w then
    some
      { size := w.extractLsb' 30 2
        acquire := w.getLsbD 22
        release := w.getLsbD 15
        rs := fieldAt w 16
        rt := fieldAt w 0
        rn := fieldAt w 5 }
  else none

def bcaxInstr (w : Word) : Option BcaxInstr :=
  if IsBcax w then
    some { vd := fieldAt w 0, vn := fieldAt w 5, vm := fieldAt w 16, va := fieldAt w 10 }
  else none

/-- Two states that differ at most in the program counter, the exclusive
monitor and the 64 bytes below the stack pointer `sp`. -/
structure SameEffect (sp : Addr) (s t : State) : Prop where
  gpr : s.gpr = t.gpr
  vec : s.vec = t.vec
  nzcv : s.nzcv = t.nzcv
  mem : ∀ b, ¬ InRange (sp - 64#64) 64 b → s.mem b = t.mem b

theorem SameEffect.trans {sp : Addr} {s t u : State} (hst : SameEffect sp s t)
    (htu : SameEffect sp t u) : SameEffect sp s u :=
  ⟨hst.gpr.trans htu.gpr, hst.vec.trans htu.vec, hst.nzcv.trans htu.nzcv,
    fun b hb => (hst.mem b hb).trans (htu.mem b hb)⟩

theorem SameEffect.symm {sp : Addr} {s t : State} (h : SameEffect sp s t) : SameEffect sp t s :=
  ⟨h.gpr.symm, h.vec.symm, h.nzcv.symm, fun b hb => (h.mem b hb).symm⟩

/-- Stores away from the ignored bytes have the same effect exactly when they
store the same bytes. -/
theorem sameEffect_writeMem_iff {sp a : Addr} {n v w : Nat} {s t : State} {x : BitVec v}
    {y : BitVec w} {mem : Memory} (hn : n ≤ 2 ^ 64)
    (hapart : Apart a n (sp - 64#64) 64) (hgpr : s.gpr = t.gpr) (hvec : s.vec = t.vec) (hnzcv : s.nzcv = t.nzcv)
    (hs : s.mem = writeMem mem a n x) (ht : t.mem = writeMem mem a n y) :
    SameEffect sp s t ↔ x.setWidth (8 * n) = y.setWidth (8 * n) := by
  have hiff : writeMem mem a n x = writeMem mem a n y ↔ _ := writeMem_eq_iff hn
  rw [← hiff]
  constructor
  · intro h
    funext b
    by_cases hb : InRange a n b
    · rw [← hs, ← ht]
      exact h.mem b (hapart b hb)
    · rw [writeMem_of_not_inRange hb, writeMem_of_not_inRange hb]
  · intro h
    refine ⟨hgpr, hvec, hnzcv, fun b _ => ?_⟩
    rw [hs, ht, h]

end Machgate.AtomicSemantics
