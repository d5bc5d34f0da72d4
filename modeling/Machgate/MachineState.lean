import Machgate.ByteMemory
import Machgate.ConditionFlags

namespace Machgate.MachineState

open ByteMemory ConditionFlags

abbrev Word := BitVec 32

abbrev Reg := BitVec 5

/-- The state of one processing element.  General register number 31 holds the
stack pointer; instructions whose operand 31 is the zero register go through
`readX` and `writeX`.  The next `spurious` store-exclusives whose monitor is
still set fail nevertheless. -/
structure State where
  pc : Addr
  gpr : Reg → BitVec 64
  vec : Reg → BitVec 128
  nzcv : Nzcv
  mem : Memory
  monitor : Option (Addr × Nat)
  spurious : Nat

def State.initial (pc : Addr) (gpr : Reg → BitVec 64) (mem : Memory) : State where
  pc := pc
  gpr := gpr
  vec := fun _ => 0#128
  nzcv := { n := false, z := false, c := false, v := false }
  mem := mem
  monitor := none
  spurious := 0

abbrev stackPointer : Reg := 31#5

def State.sp (s : State) : Addr :=
  s.gpr stackPointer

def State.readX (s : State) (r : Reg) : BitVec 64 :=
  if r = 31#5 then 0#64 else s.gpr r

def State.writeX (s : State) (r : Reg) (x : BitVec 64) : State :=
  if r = 31#5 then s else { s with gpr := Function.update s.gpr r x }

variable (s : State) (r q : Reg) (x : BitVec 64)

theorem State.readX_of_ne {s : State} {r : Reg} (h : r ≠ 31#5) : s.readX r = s.gpr r :=
  if_neg h

theorem State.gpr_writeX_of_ne {r q : Reg} (h : q ≠ r) : (s.writeX r x).gpr q = s.gpr q := by
  unfold State.writeX
  split
  · rfl
  · exact Function.update_of_ne h _ _

theorem State.gpr_writeX_self {r : Reg} (h : r ≠ 31#5) : (s.writeX r x).gpr r = x := by
  rw [State.writeX, if_neg h]
  exact Function.update_self _ _ _

@[simp] theorem State.writeX_pc : (s.writeX r x).pc = s.pc := by
  unfold State.writeX; split <;> rfl

@[simp] theorem State.writeX_vec : (s.writeX r x).vec = s.vec := by
  unfold State.writeX; split <;> rfl

@[simp] theorem State.writeX_nzcv : (s.writeX r x).nzcv = s.nzcv := by
  unfold State.writeX; split <;> rfl

@[simp] theorem State.writeX_mem : (s.writeX r x).mem = s.mem := by
  unfold State.writeX; split <;> rfl

@[simp] theorem State.writeX_monitor : (s.writeX r x).monitor = s.monitor := by
  unfold State.writeX; split <;> rfl

@[simp] theorem State.writeX_spurious : (s.writeX r x).spurious = s.spurious := by
  unfold State.writeX; split <;> rfl

@[simp] theorem State.writeX_sp : (s.writeX r x).sp = s.sp := by
  unfold State.writeX
  split
  · rfl
  · rename_i hr
    exact Function.update_of_ne (Ne.symm hr) _ _

theorem State.readX_congr {s t : State} {r : Reg} (h : t.gpr r = s.gpr r) :
    t.readX r = s.readX r := by
  rw [State.readX, State.readX, h]

end Machgate.MachineState
