import Machgate.CodeBlock
import Machgate.SavedSlots

namespace Machgate.GateInstructions

open ByteMemory CodeBlock ConditionFlags Instructions MachineState SavedSlots WordPointers
open List Function BitVec Option

/-- The instructions of the syscall island beside those of the other islands. The immediates of the
loads and stores count units of 8 bytes. -/
inductive GateInstr
  | stp (imm : BitVec 7) (rt2 rn rt : Reg)
  | ldp (imm : BitVec 7) (rt2 rn rt : Reg)
  | strImm (imm : BitVec 12) (rn rt : Reg)
  | ldrImm (imm : BitVec 12) (rn rt : Reg)
  | addImm (imm : BitVec 12) (rn rd : Reg)
  | subImm (imm : BitVec 12) (rn rd : Reg)
  | ldrLit (imm : BitVec 19) (rt : Reg)
  | blr (rn : Reg)
  | br (rn : Reg)
  | nop
  | other (i : Instr)
  deriving DecidableEq

structure GateEncoding where
  mask : Word
  value : Word
  build : Word → GateInstr

def gateEncodings : List GateEncoding :=
  [{ mask := 0xFFC00000#32, value := 0xA9000000#32
     build := fun w => .stp (w.extractLsb' 15 7) (fieldAt w 10) (fieldAt w 5) (fieldAt w 0) },
   { mask := 0xFFC00000#32, value := 0xA9400000#32
     build := fun w => .ldp (w.extractLsb' 15 7) (fieldAt w 10) (fieldAt w 5) (fieldAt w 0) },
   { mask := 0xFFC00000#32, value := 0xF9000000#32
     build := fun w => .strImm (w.extractLsb' 10 12) (fieldAt w 5) (fieldAt w 0) },
   { mask := 0xFFC00000#32, value := 0xF9400000#32
     build := fun w => .ldrImm (w.extractLsb' 10 12) (fieldAt w 5) (fieldAt w 0) },
   { mask := 0xFFC00000#32, value := 0x91000000#32
     build := fun w => .addImm (w.extractLsb' 10 12) (fieldAt w 5) (fieldAt w 0) },
   { mask := 0xFFC00000#32, value := 0xD1000000#32
     build := fun w => .subImm (w.extractLsb' 10 12) (fieldAt w 5) (fieldAt w 0) },
   { mask := 0xFF000000#32, value := 0x58000000#32
     build := fun w => .ldrLit (w.extractLsb' 5 19) (fieldAt w 0) },
   { mask := 0xFFFFFC1F#32, value := 0xD63F0000#32
     build := fun w => .blr (fieldAt w 5) },
   { mask := 0xFFFFFC1F#32, value := 0xD61F0000#32
     build := fun w => .br (fieldAt w 5) },
   { mask := 0xFFFFFFFF#32, value := 0xD503201F#32
     build := fun _ => .nop }]

def decodeGate (w : Word) : Option GateInstr :=
  match decode w with
  | some i => some (.other i)
  | none => (gateEncodings.find? fun e => w &&& e.mask = e.value).map fun e => e.build w

def literal (c : Block) (a : Addr) : Option (BitVec 64) :=
  (c.fetch a).bind fun low => (c.fetch (a + 4#64)).map fun high => high ++ low

theorem literal_addr {c : Block} {k : Nat} {low high : Word} (hlow : c.words[k]? = some low)
    (hhigh : c.words[k + 1]? = some high) : literal c (c.addr k) = some (high ++ low) := by
  rw [literal, ← c.addr_succ, Block.fetch_addr (List.getElem?_eq_some_iff.mp hlow).1, hlow,
    Block.fetch_addr (List.getElem?_eq_some_iff.mp hhigh).1, hhigh]
  rfl

/-- Everything an instruction does except moving the program counter; a literal is looked up in
`exec`. -/
def effect (i : GateInstr) (s : State) : State :=
  match i with
  | .stp imm rt2 rn rt =>
    let a := s.gpr rn + imm.signExtend 64 * 8#64
    { s with mem := writeMem (writeMem s.mem a 8 (s.readX rt)) (a + 8#64) 8 (s.readX rt2) }
  | .ldp imm rt2 rn rt =>
    let a := s.gpr rn + imm.signExtend 64 * 8#64
    (s.writeX rt (readMem s.mem a 8)).writeX rt2 (readMem s.mem (a + 8#64) 8)
  | .strImm imm rn rt =>
    { s with mem := writeMem s.mem (s.gpr rn + imm.setWidth 64 * 8#64) 8 (s.readX rt) }
  | .ldrImm imm rn rt => s.writeX rt (readMem s.mem (s.gpr rn + imm.setWidth 64 * 8#64) 8)
  | .addImm imm rn rd => { s with gpr := Function.update s.gpr rd (s.gpr rn + imm.setWidth 64) }
  | .subImm imm rn rd => { s with gpr := Function.update s.gpr rd (s.gpr rn - imm.setWidth 64) }
  | .ldrLit _ _ => s
  | .blr _ => s.writeX 30#5 (s.pc + 4#64)
  | .br _ => s
  | .nop => s
  | .other i => Instructions.effect i s

def nextPc (i : GateInstr) (s : State) : Addr :=
  match i with
  | .blr rn => s.readX rn
  | .br rn => s.readX rn
  | .other i => Instructions.nextPc i s
  | _ => s.pc + 4#64

def loaded (rt : Reg) (v : BitVec 64) (s : State) : State :=
  { s.writeX rt v with pc := s.pc + 4#64 }

theorem gpr_loaded_self {rt : Reg} (h : rt ≠ 31#5) (v : BitVec 64) (s : State) :
    (loaded rt v s).gpr rt = v :=
  State.gpr_writeX_self s v h

theorem gpr_loaded_of_ne {rt r : Reg} (h : r ≠ rt) (v : BitVec 64) (s : State) :
    (loaded rt v s).gpr r = s.gpr r :=
  State.gpr_writeX_of_ne s v h

theorem mem_loaded (rt : Reg) (v : BitVec 64) (s : State) : (loaded rt v s).mem = s.mem :=
  State.writeX_mem s rt v

def exec (c : Block) (i : GateInstr) (s : State) : Option State :=
  match i with
  | .ldrLit imm rt => (literal c (s.pc + branchOffset imm)).map fun v => loaded rt v s
  | i => some { effect i s with pc := nextPc i s }

def called (rn : Reg) (s : State) : State :=
  { s.writeX 30#5 (s.pc + 4#64) with pc := s.readX rn }

theorem gpr_called_of_ne (rn : Reg) {r : Reg} (h : r ≠ 30#5) (s : State) :
    (called rn s).gpr r = s.gpr r :=
  State.gpr_writeX_of_ne s _ h

theorem gpr_called_link (rn : Reg) (s : State) : (called rn s).gpr 30#5 = s.pc + 4#64 :=
  State.gpr_writeX_self s (s.pc + 4#64) (r := 30#5) (by decide)

theorem mem_called (rn : Reg) (s : State) : (called rn s).mem = s.mem :=
  State.writeX_mem s _ _

theorem exec_ldrLit {c : Block} {imm : BitVec 19} {s : State} {v : BitVec 64} (rt : Reg)
    (h : literal c (s.pc + branchOffset imm) = some v) :
    exec c (.ldrLit imm rt) s = some (loaded rt v s) := by
  rw [exec, h, map_some]

def step (c : Block) (s : State) : Option State :=
  ((c.fetch s.pc).bind decodeGate).bind fun i => exec c i s

def run (c : Block) : Nat → State → Option State
  | 0, s => some s
  | n + 1, s => (step c s).bind (run c n)

def Decodes (c : Block) (prog : List GateInstr) : Prop :=
  ∀ (k : Nat) (i : GateInstr), prog[k]? = some i → c.words[k]?.bind decodeGate = some i

section

variable {c : Block} {prog : List GateInstr} (hdec : Decodes c prog)

include hdec

theorem step_eq {k : Nat} {i : GateInstr} {s : State} (hi : prog[k]? = some i)
    (hpc : s.pc = c.addr k) : step c s = exec c i s := by
  have hword := hdec k i hi
  obtain ⟨w, hw, -⟩ := bind_eq_some_iff.mp hword
  rw [step, hpc, Block.fetch_addr (List.getElem?_eq_some_iff.mp hw).1, hword]
  rfl

theorem run_succ {k n : Nat} {i : GateInstr} {s t : State} (hi : prog[k]? = some i)
    (hpc : s.pc = c.addr k) (hexec : exec c i s = some t) : run c (n + 1) s = run c n t := by
  rw [run, step_eq hdec hi hpc, hexec, bind_some]

end

def GateInstr.Plain : GateInstr → Bool
  | .ldrLit _ _ => false
  | .blr _ => false
  | .br _ => false
  | .other i => i.Sequential
  | _ => true

def advance (i : GateInstr) (s : State) : State := { effect i s with pc := s.pc + 4#64 }

def runPlain (seg : List GateInstr) (s : State) : State := seg.foldl (fun s i => advance i s) s

section

variable (imm : BitVec 12) (rn : Reg) {rd r : Reg} (s : State)

theorem gpr_addImm_self : (advance (.addImm imm rn rd) s).gpr rd = s.gpr rn + imm.setWidth 64 :=
  update_self rd _ s.gpr

theorem gpr_addImm_of_ne (h : r ≠ rd) : (advance (.addImm imm rn rd) s).gpr r = s.gpr r :=
  update_of_ne h _ s.gpr

theorem mem_addImm : (advance (.addImm imm rn rd) s).mem = s.mem := rfl

theorem nzcv_addImm : (advance (.addImm imm rn rd) s).nzcv = s.nzcv := rfl

theorem gpr_subImm_self : (advance (.subImm imm rn rd) s).gpr rd = s.gpr rn - imm.setWidth 64 :=
  update_self rd _ s.gpr

theorem gpr_subImm_of_ne (h : r ≠ rd) : (advance (.subImm imm rn rd) s).gpr r = s.gpr r :=
  update_of_ne h _ s.gpr

end

section

variable (rt : Reg) (s : State)

theorem mem_msrNzcv : (advance (.other (.msrNzcv rt)) s).mem = s.mem := rfl

theorem gpr_msrNzcv : (advance (.other (.msrNzcv rt)) s).gpr = s.gpr := rfl

theorem nzcv_msrNzcv : (advance (.other (.msrNzcv rt)) s).nzcv = Nzcv.unpack (s.readX rt) := rfl

end

variable {i : GateInstr} {seg : List GateInstr}

theorem exec_plain {c : Block} {s : State} (h : i.Plain = true) :
    exec c i s = some (advance i s) := by
  cases i with
  | other i =>
    rw [advance, ← nextPc_of_sequential h s]
    rfl
  | ldrLit imm rt | blr rn | br rn => exact absurd h (by simp [GateInstr.Plain])
  | _ => rfl

theorem run_plain {c : Block} {prog pre post : List GateInstr} {s : State}
    (hdec : Decodes c prog) (hprog : prog = pre ++ seg ++ post)
    (hplain : ∀ i ∈ seg, i.Plain = true) (hpc : s.pc = c.addr pre.length) (n : Nat) :
    run c (n + seg.length) s = run c n (runPlain seg s) ∧
      (runPlain seg s).pc = c.addr (pre.length + seg.length) := by
  induction seg generalizing pre s with
  | nil => exact ⟨rfl, hpc⟩
  | cons i rest ih =>
    have hi : prog[pre.length]? = some i := by simp [hprog]
    have hnext : (advance i s).pc = c.addr (pre ++ [i]).length := by
      rw [length_append, length_singleton, c.addr_succ, ← hpc]
      rfl
    obtain ⟨hrun, hend⟩ := ih (by simp [hprog]) (fun j hj => hplain j (mem_cons_of_mem i hj)) hnext
    refine ⟨?_, ?_⟩
    · rw [length_cons, ← Nat.add_assoc,
        run_succ hdec hi hpc (exec_plain (hplain i mem_cons_self)), hrun]
      rfl
    · refine hend.trans (congrArg c.addr ?_)
      rw [length_append, length_singleton, length_cons]
      omega

def GateInstr.IsSave : GateInstr → Bool
  | .stp imm rt2 rn rt => imm.toNat < 64 ∧ rn = stackPointer ∧ rt ≠ 31#5 ∧ rt2 ≠ 31#5
  | .strImm _ rn rt => rn = stackPointer ∧ rt ≠ 31#5
  | _ => false

def GateInstr.saved : GateInstr → List (Nat × Reg)
  | .stp imm rt2 _ rt => [(imm.toNat, rt), (imm.toNat + 1, rt2)]
  | .strImm imm _ rt => [(imm.toNat, rt)]
  | _ => []

def GateInstr.IsReload : GateInstr → Bool
  | .ldp imm rt2 rn rt => imm.toNat < 64 ∧ rn = stackPointer ∧ rt ≠ 31#5 ∧ rt2 ≠ 31#5
  | .ldrImm _ rn rt => rn = stackPointer ∧ rt ≠ 31#5
  | _ => false

def GateInstr.reloaded : GateInstr → List (Reg × Nat)
  | .ldp imm rt2 _ rt => [(rt, imm.toNat), (rt2, imm.toNat + 1)]
  | .ldrImm imm _ rt => [(rt, imm.toNat)]
  | _ => []

theorem pair_offset : ∀ imm : BitVec 7, imm.toNat < 64 →
    imm.signExtend 64 * 8#64 = BitVec.ofNat 64 (8 * imm.toNat) := by
  decide

theorem unsigned_offset (imm : BitVec 12) :
    imm.setWidth 64 * 8#64 = BitVec.ofNat 64 (8 * imm.toNat) := by
  apply eq_of_toNat_eq
  rw [toNat_mul, toNat_setWidth, toNat_ofNat, toNat_ofNat]
  omega

theorem advance_save (s : State) (h : i.IsSave = true) :
    (advance i s).gpr = s.gpr ∧ (advance i s).nzcv = s.nzcv ∧
      (advance i s).mem = writeSlots s.gpr s.sp i.saved s.mem := by
  cases i with
  | stp imm rt2 rn rt =>
    obtain ⟨himm, rfl, hrt, hrt2⟩ := of_decide_eq_true h
    refine ⟨rfl, rfl, ?_⟩
    change writeMem (writeMem s.mem (s.sp + _) 8 (s.readX rt)) (s.sp + _ + 8#64) 8 (s.readX rt2) = _
    rw [pair_offset imm himm, State.readX_of_ne hrt, State.readX_of_ne hrt2]
    change _ = writeSlot (writeSlot s.mem s.sp imm.toNat (s.gpr rt)) s.sp (imm.toNat + 1) (s.gpr rt2)
    rw [writeSlot, writeSlot, slotAddr_succ, slotAddr]
  | strImm imm rn rt =>
    obtain ⟨rfl, hrt⟩ := of_decide_eq_true h
    refine ⟨rfl, rfl, ?_⟩
    change writeMem s.mem (s.sp + _) 8 (s.readX rt) = writeSlot s.mem s.sp imm.toNat (s.gpr rt)
    rw [unsigned_offset, State.readX_of_ne hrt, writeSlot, slotAddr]
  | _ => exact absurd h (by simp [GateInstr.IsSave])

theorem runPlain_saves (s : State) (h : ∀ i ∈ seg, i.IsSave = true) :
    (runPlain seg s).gpr = s.gpr ∧ (runPlain seg s).nzcv = s.nzcv ∧
      (runPlain seg s).mem = writeSlots s.gpr s.sp (seg.flatMap GateInstr.saved) s.mem := by
  induction seg generalizing s with
  | nil => exact ⟨rfl, rfl, rfl⟩
  | cons i rest ih =>
    obtain ⟨hgpr, hnzcv, hmem⟩ := advance_save s (h i mem_cons_self)
    obtain ⟨hgpr', hnzcv', hmem'⟩ := ih (advance i s) fun j hj => h j (mem_cons_of_mem i hj)
    have hsp : (advance i s).sp = s.sp := congrFun hgpr stackPointer
    refine ⟨hgpr'.trans hgpr, hnzcv'.trans hnzcv, hmem'.trans ?_⟩
    rw [hgpr, hmem, hsp, flatMap_cons, writeSlots, writeSlots, writeSlots, foldl_append]

theorem advance_reload (s : State) (h : i.IsReload = true) :
    (advance i s).mem = s.mem ∧ (advance i s).nzcv = s.nzcv ∧ (advance i s).sp = s.sp ∧
      (advance i s).gpr = assignAll (readSlot s.mem s.sp) i.reloaded s.gpr := by
  cases i with
  | ldp imm rt2 rn rt =>
    obtain ⟨himm, rfl, hrt, hrt2⟩ := of_decide_eq_true h
    have hstate : (advance (.ldp imm rt2 stackPointer rt) s).gpr =
        assignAll (readSlot s.mem s.sp) [(rt, imm.toNat), (rt2, imm.toNat + 1)] s.gpr := by
      change ((s.writeX rt (readMem s.mem (s.sp + _) 8)).writeX rt2
        (readMem s.mem (s.sp + _ + 8#64) 8)).gpr = _
      rw [pair_offset imm himm, State.writeX, if_neg hrt2, State.writeX, if_neg hrt]
      change update (update s.gpr rt (readMem s.mem (slotAddr s.sp imm.toNat) 8)) rt2
        (readMem s.mem (slotAddr s.sp imm.toNat + 8#64) 8) = _
      rw [← slotAddr_succ]
      rfl
    refine ⟨?_, ?_, ?_, hstate⟩
    · exact (State.writeX_mem _ _ _).trans (State.writeX_mem _ _ _)
    · exact (State.writeX_nzcv _ _ _).trans (State.writeX_nzcv _ _ _)
    · exact (State.writeX_sp _ _ _).trans (State.writeX_sp _ _ _)
  | ldrImm imm rn rt =>
    obtain ⟨rfl, hrt⟩ := of_decide_eq_true h
    refine ⟨State.writeX_mem _ _ _, State.writeX_nzcv _ _ _, State.writeX_sp _ _ _, ?_⟩
    change (s.writeX rt (readMem s.mem (s.sp + _) 8)).gpr = _
    rw [unsigned_offset, State.writeX, if_neg hrt]
    rfl
  | _ => exact absurd h (by simp [GateInstr.IsReload])

theorem runPlain_reloads (s : State) (h : ∀ i ∈ seg, i.IsReload = true) :
    (runPlain seg s).mem = s.mem ∧ (runPlain seg s).nzcv = s.nzcv ∧ (runPlain seg s).sp = s.sp ∧
      (runPlain seg s).gpr =
        assignAll (readSlot s.mem s.sp) (seg.flatMap GateInstr.reloaded) s.gpr := by
  induction seg generalizing s with
  | nil => exact ⟨rfl, rfl, rfl, rfl⟩
  | cons i rest ih =>
    obtain ⟨hmem, hnzcv, hsp, hgpr⟩ := advance_reload s (h i mem_cons_self)
    obtain ⟨hmem', hnzcv', hsp', hgpr'⟩ := ih (advance i s) fun j hj => h j (mem_cons_of_mem i hj)
    refine ⟨hmem'.trans hmem, hnzcv'.trans hnzcv, hsp'.trans hsp, hgpr'.trans ?_⟩
    rw [hmem, hsp, hgpr, flatMap_cons, assignAll_append]

end Machgate.GateInstructions
