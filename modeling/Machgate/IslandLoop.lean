import Machgate.IslandFrame

namespace Machgate.IslandLoop

open ByteMemory CodeBlock Instructions IslandFrame MachineState StackFrame WordPointers

/-- Data processing: besides registers `ws` and the flags nothing changes, the
exclusive monitor included. -/
structure Computes (ws : List Reg) (t u : State) : Prop extends Keeps ws t u where
  monitor : u.monitor = t.monitor
  spurious : u.spurious = t.spurious

section

variable {ws : List Reg} {t u v : State}

theorem Computes.trans (htu : Computes ws t u) (huv : Computes ws u v) : Computes ws t v where
  toKeeps := htu.toKeeps.trans huv.toKeeps
  monitor := huv.monitor.trans htu.monitor
  spurious := huv.spurious.trans htu.spurious

theorem Computes.mono {ws' : List Reg} (h : Computes ws t u) (hsub : ws ⊆ ws') : Computes ws' t u :=
  { h with toKeeps := h.toKeeps.mono hsub }

theorem Computes.readX (h : Computes ws t u) {r : Reg} (hr : r ∉ ws) : u.readX r = t.readX r :=
  State.readX_congr (h.gpr r hr)

theorem computes_exec {i : Instr} {r : Reg} {x : BitVec 64} (hr : r ≠ 31#5)
    (heffect : effect i t = t.writeX r x) :
    Computes [r] t (exec i t) ∧ (exec i t).gpr r = x := by
  have hexec : exec i t = { t.writeX r x with pc := nextPc i t } := by rw [exec, heffect]
  have hkeeps : Keeps [r] t (t.writeX r x) := keeps_writeX (List.mem_singleton_self r) x t
  rw [hexec]
  refine ⟨⟨⟨hkeeps.gpr, hkeeps.mem, hkeeps.vec⟩, ?_, ?_⟩, State.gpr_writeX_self t x hr⟩
  · exact State.writeX_monitor t r x
  · exact State.writeX_spurious t r x

theorem computes_compare (sf : Bool) (rn rm : Reg) (t : State) :
    Computes [] t (exec (.subs sf 31#5 rn rm) t) ∧
      (exec (.subs sf 31#5 rn rm) t).nzcv = (subsResult sf (t.readX rn) (t.readX rm)).2 :=
  ⟨⟨⟨fun _ _ => rfl, rfl, rfl⟩, rfl, rfl⟩, rfl⟩

end

section

variable {size : BitVec 2} {ordered : Bool} {rs rt rn : Reg} {t : State}

/-- A load-exclusive marks the location for the store that follows. -/
structure LoadedExclusive (size : BitVec 2) (rt rn : Reg) (t u : State) : Prop
    extends Keeps [rt] t u where
  monitor : u.monitor = some (t.gpr rn, accessBytes size)
  spurious : u.spurious = t.spurious
  value : u.gpr rt = (readMem t.mem (t.gpr rn) (accessBytes size)).setWidth 64

theorem loadedExclusive_exec (hrt : rt ≠ 31#5) :
    LoadedExclusive size rt rn t (exec (.ldxr size ordered rt rn) t) := by
  have hkeeps := keeps_writeX (List.mem_singleton_self rt)
    ((readMem t.mem (t.gpr rn) (accessBytes size)).setWidth 64)
    { t with monitor := some (t.gpr rn, accessBytes size) }
  refine ⟨⟨hkeeps.gpr, hkeeps.mem, hkeeps.vec⟩, ?_, ?_, ?_⟩
  · exact State.writeX_monitor _ _ _
  · exact State.writeX_spurious _ _ _
  · exact State.gpr_writeX_self _ _ hrt

theorem exec_stxr_of_zero (ordered : Bool) (rt : Reg) (hrs : rs ≠ 31#5)
    (hmonitor : t.monitor = some (t.gpr rn, accessBytes size)) (hspurious : t.spurious = 0) :
    Keeps [rs] { t with mem := writeMem t.mem (t.gpr rn) (accessBytes size) (t.readX rt) }
        (exec (.stxr size ordered rs rt rn) t) ∧
      (exec (.stxr size ordered rs rt rn) t).gpr rs = 0#64 := by
  have heffect : effect (.stxr size ordered rs rt rn) t =
      ({ t with
        mem := writeMem t.mem (t.gpr rn) (accessBytes size) (t.readX rt)
        monitor := none } : State).writeX rs 0#64 := by
    change storeExclusive size rs rt rn t = _
    rw [storeExclusive, if_pos hmonitor, hspurious]
  have hkeeps := keeps_writeX (List.mem_singleton_self rs) 0#64
    { t with
      mem := writeMem t.mem (t.gpr rn) (accessBytes size) (t.readX rt)
      monitor := none }
  rw [exec, heffect]
  exact ⟨⟨hkeeps.gpr, hkeeps.mem, hkeeps.vec⟩, State.gpr_writeX_self _ _ hrs⟩

theorem exec_stxr_of_succ (ordered : Bool) (rt : Reg) (hrs : rs ≠ 31#5)
    (hmonitor : t.monitor = some (t.gpr rn, accessBytes size)) {n : Nat}
    (hspurious : t.spurious = n + 1) :
    Keeps [rs] t (exec (.stxr size ordered rs rt rn) t) ∧
      (exec (.stxr size ordered rs rt rn) t).gpr rs = 1#64 ∧
      (exec (.stxr size ordered rs rt rn) t).spurious = n := by
  have heffect : effect (.stxr size ordered rs rt rn) t =
      ({ t with monitor := none, spurious := n } : State).writeX rs 1#64 := by
    change storeExclusive size rs rt rn t = _
    rw [storeExclusive, if_pos hmonitor, hspurious]
  have hkeeps := keeps_writeX (List.mem_singleton_self rs) 1#64
    { t with monitor := none, spurious := n }
  rw [exec, heffect]
  exact ⟨⟨hkeeps.gpr, hkeeps.mem, hkeeps.vec⟩, State.gpr_writeX_self _ _ hrs,
    State.writeX_spurious _ _ _⟩

end

variable {t : State} {r : Reg} {imm : BitVec 19}

theorem keeps_exec_cbnzW : Keeps [] t (exec (.cbnzW r imm) t) :=
  ⟨fun _ _ => rfl, rfl, rfl⟩

theorem pc_cbnzW_of_one (hr : r ≠ 31#5) (h : t.gpr r = 1#64) :
    (exec (.cbnzW r imm) t).pc = t.pc + branchOffset imm := by
  change (if (t.readX r).setWidth 32 = 0#32 then _ else _) = _
  rw [State.readX_of_ne hr, h]
  rfl

theorem pc_cbnzW_of_zero (hr : r ≠ 31#5) (h : t.gpr r = 0#64) :
    (exec (.cbnzW r imm) t).pc = t.pc + 4#64 := by
  change (if (t.readX r).setWidth 32 = 0#32 then _ else _) = _
  rw [State.readX_of_ne hr, h]
  rfl

theorem addr_backOver (c : Block) (k : Nat) {n : Nat} (hn : n < 2 ^ 18) :
    c.addr (k + n) + branchOffset (backOver n) = c.addr k := by
  have hoffset : (-(n : Int)).bmod (2 ^ 19) = -(n : Int) := by
    rw [Int.bmod_def]
    omega
  rw [backOver, branchOffset_eq, toInt_immediate (by decide), hoffset, Block.addr, ← toAddr_add,
    Block.addr, BitVec.ofNat_add, BitVec.ofInt_neg, BitVec.ofInt_natCast, ← sub_eq_add_neg,
    ← BitVec.add_assoc, add_sub_cancel_right]

end Machgate.IslandLoop
