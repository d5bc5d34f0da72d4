import Machgate.GateIsland
import Machgate.SyscallErrno

namespace Machgate.GateRoundTrip

open ByteMemory CodeBlock ConditionFlags GateInstructions GateIsland Instructions MachineState
open Function
open SavedSlots SyscallErrno WordPointers

def recordAt (mem : Memory) (base : Addr) : GateState where
  x := fun i => readSlot mem base i
  x30 := readSlot mem base 19
  nzcv := readSlot mem base 20
  pc := readSlot mem base 21

def guestRecord (s : State) (resume : Addr) : GateState where
  x := fun i => s.gpr (BitVec.ofNat 5 i)
  x30 := s.gpr 30#5
  nzcv := s.nzcv.pack
  pc := resume

def recordBase (s : State) : Addr := s.sp - 192#64

def savedSlots : List (Nat × Reg) := saveRegisters.flatMap GateInstr.saved

theorem savedSlots_lookup :
    (∀ i : Fin 19, savedSlots.reverse.lookup i.val = some (BitVec.ofNat 5 i.val)) ∧
      savedSlots.reverse.lookup 19 = some 30#5 ∧ ∀ e ∈ savedSlots, e.1 < 22 := by
  decide

/-- The state before the two literals: the record lacks the pc only. -/
structure SavedAt (s t : State) : Prop where
  mem : ∃ v : Reg → BitVec 64, (∀ r, r ≠ 31#5 → v r = s.gpr r) ∧
    t.mem = writeSlot (writeSlots v (recordBase s) savedSlots s.mem) (recordBase s) 20 s.nzcv.pack
  gpr : ∀ r, r ≠ 16#5 → r ≠ 31#5 → t.gpr r = s.gpr r
  sp : t.sp = recordBase s

theorem runPlain_append (seg seg' : List GateInstr) (s : State) :
    runPlain (seg ++ seg') s = runPlain seg' (runPlain seg s) :=
  List.foldl_append

theorem runPlain_singleton (i : GateInstr) (s : State) : runPlain [i] s = advance i s := rfl

theorem savedAt_save (s : State) : SavedAt s (runPlain save s) := by
  have hsub : (advance (.subImm 192 31#5 31#5) s).sp = recordBase s := gpr_subImm_self 192 31#5 s
  have hother : ∀ r, r ≠ 31#5 → (advance (.subImm 192 31#5 31#5) s).gpr r = s.gpr r :=
    fun r hr => gpr_subImm_of_ne 192 31#5 s hr
  have hsaves : ∀ i ∈ saveRegisters, i.IsSave = true := by decide
  obtain ⟨hgpr, hnzcv, hmem⟩ := runPlain_saves (advance (.subImm 192 31#5 31#5) s) hsaves
  change SavedAt s (advance (.strImm 20 31#5 16#5) (advance (.other (.mrsNzcv 16#5))
    (runPlain saveRegisters (advance (.subImm 192 31#5 31#5) s))))
  generalize runPlain saveRegisters (advance (.subImm 192 31#5 31#5) s) = t at hgpr hnzcv hmem
  have hflags : (advance (.other (.mrsNzcv 16#5)) t).gpr 16#5 = s.nzcv.pack := by
    change (t.writeX 16#5 t.nzcv.pack).gpr 16#5 = _
    rw [State.gpr_writeX_self t _ (by decide), hnzcv]
    rfl
  have hkept : ∀ r, r ≠ 16#5 → (advance (.other (.mrsNzcv 16#5)) t).gpr r = t.gpr r :=
    fun r hr => State.gpr_writeX_of_ne t _ hr
  have hsp : (advance (.other (.mrsNzcv 16#5)) t).sp = recordBase s := by
    rw [← hsub, State.sp, hkept _ (by decide), hgpr, State.sp]
  have hsame : (advance (.other (.mrsNzcv 16#5)) t).mem = t.mem := State.writeX_mem t _ _
  obtain ⟨hgpr', -, hmem'⟩ := advance_save (i := .strImm 20 31#5 16#5)
    (advance (.other (.mrsNzcv 16#5)) t) (by decide)
  refine ⟨⟨_, hother, ?_⟩, ?_, ?_⟩
  · rw [hmem', hsp, hsame, hmem]
    change writeSlot _ _ 20 ((advance (.other (.mrsNzcv 16#5)) t).gpr 16#5) = _
    rw [hflags]
    rfl
  · intro r hr hr31
    rw [hgpr', hkept r hr, hgpr, hother r hr31]
  · exact (congrFun hgpr' stackPointer).trans hsp

theorem recordAt_saved {s : State} {v : Reg → BitVec 64} (hv : ∀ r, r ≠ 31#5 → v r = s.gpr r)
    (mem : Memory) (base resume : Addr) :
    recordAt (writeSlot (writeSlot (writeSlots v base savedSlots mem) base 20 s.nzcv.pack) base 21
      resume) base = guestRecord s resume := by
  obtain ⟨hlookup, hlink, hbound⟩ := savedSlots_lookup
  have hslots : ∀ e ∈ savedSlots, e.1 < 2 ^ 61 := fun e he => (hbound e he).trans (by decide)
  -- the slots of the registers are not the last two
  have hregister : ∀ k, k < 20 →
      readSlot (writeSlot (writeSlot (writeSlots v base savedSlots mem) base 20 s.nzcv.pack) base 21
        resume) base k = ((savedSlots.reverse.lookup k).map v).getD (readSlot mem base k) := by
    intro k hk
    rw [readSlot_writeSlot _ _ (by omega) (by decide), update_of_ne (by omega),
      readSlot_writeSlot _ _ (by omega) (by decide), update_of_ne (by omega),
      readSlot_writeSlots hslots (by omega), assignAll_apply]
  simp only [recordAt, guestRecord, GateState.mk.injEq]
  refine ⟨funext fun i => ?_, ?_, ?_, ?_⟩
  · rw [hregister i (by omega), hlookup i]
    refine hv _ ?_
    revert i
    decide
  · rw [hregister 19 (by decide), hlink]
    exact hv _ (by decide)
  · rw [readSlot_writeSlot _ _ (by decide) (by decide), update_of_ne (by decide),
      readSlot_writeSlot _ _ (by decide) (by decide), update_self]
  · rw [readSlot_writeSlot _ _ (by decide) (by decide), update_self]

def CalleeSaved (r : Reg) : Prop := 19 ≤ r.toNat ∧ r.toNat ≤ 29

instance (r : Reg) : Decidable (CalleeSaved r) := inferInstanceAs (Decidable (_ ∧ _))

theorem calleeSaved_ne {r : Reg} (h : CalleeSaved r) :
    r ≠ 0#5 ∧ r ≠ 16#5 ∧ r ≠ 30#5 ∧ r ≠ 31#5 := by
  revert r
  decide

/-- The state in which the dispatcher is entered: the record and the pointer to it. -/
structure HandsOver (dispatcher resume : Addr) (s call : State) : Prop where
  pc : call.pc = dispatcher
  argument : call.gpr 0#5 = recordBase s
  record : recordAt call.mem (call.gpr 0#5) = guestRecord s resume
  sp : call.sp = recordBase s
  calleeSaved : ∀ r, CalleeSaved r → call.gpr r = s.gpr r
  mem : ∀ b, ¬ InRange (recordBase s) 192 b → call.mem b = s.mem b

section

variable {dispatcher : Addr} {island original : WordPtr}

/-- The state before the call: the record is complete, `x0` points to it. -/
structure ReadyAt (resume : Addr) (s t : State) : Prop where
  argument : t.gpr 0#5 = recordBase s
  record : recordAt t.mem (recordBase s) = guestRecord s resume
  sp : t.sp = recordBase s
  calleeSaved : ∀ r, CalleeSaved r → t.gpr r = s.gpr r
  mem : ∀ b, ¬ InRange (recordBase s) 192 b → t.mem b = s.mem b

theorem SavedAt.ready {s t : State} (h : SavedAt s t) (resume : Addr) :
    ReadyAt resume s (runPlain passRecord (loaded 16#5 resume t)) := by
  have hsp : (loaded 16#5 resume t).sp = recordBase s :=
    (gpr_loaded_of_ne (by decide) resume t).trans h.sp
  obtain ⟨hgpr', -, hmem'⟩ := advance_save (i := .strImm 21 31#5 16#5) (loaded 16#5 resume t) (by decide)
  have hstored : (advance (.strImm 21 31#5 16#5) (loaded 16#5 resume t)).mem =
      writeSlot t.mem (recordBase s) 21 resume := by
    rw [hmem', hsp, mem_loaded]
    change writeSlot t.mem _ 21 ((loaded 16#5 resume t).gpr 16#5) = _
    rw [gpr_loaded_self (by decide)]
  have hfinal : ∀ r, r ≠ 0#5 → (runPlain passRecord (loaded 16#5 resume t)).gpr r =
      (loaded 16#5 resume t).gpr r := by
    intro r hr
    rw [← hgpr']
    exact gpr_addImm_of_ne 0 31#5 _ hr
  have hlast : (runPlain passRecord (loaded 16#5 resume t)).mem =
      writeSlot t.mem (recordBase s) 21 resume := hstored
  obtain ⟨v, hv, hrecord⟩ := h.mem
  refine ⟨?_, ?_, (hfinal _ (by decide)).trans hsp, ?_, ?_⟩
  · have hsum : (advance (.strImm 21 31#5 16#5) (loaded 16#5 resume t)).sp + 0#64 = recordBase s := by
      rw [BitVec.add_zero, State.sp, hgpr']
      exact hsp
    exact (gpr_addImm_self 0 31#5 _).trans hsum
  · rw [hlast, hrecord]
    exact recordAt_saved hv _ _ _
  · intro r hr
    obtain ⟨hzero, hsixteen, -, hsp31⟩ := calleeSaved_ne hr
    rw [hfinal r hzero, gpr_loaded_of_ne hsixteen, h.gpr r hsixteen hsp31]
  · intro b hb
    have hframe : ¬ InRange (recordBase s) (8 * 22) b := fun hin => hb (hin.mono (by decide))
    rw [hlast, hrecord, writeSlot_of_not_inRange (by decide) (by decide) hframe,
      writeSlot_of_not_inRange (by decide) (by decide) hframe,
      writeSlots_of_not_inRange savedSlots_lookup.2.2 (by decide) hframe]

variable (dispatcher island original) in
theorem run_to_call (s : State) (hentry : s.pc = toAddr island) :
    ∃ call, run (gateBlock dispatcher island original) 19 s = some call ∧
      HandsOver dispatcher (toAddr (original + 1#62)) s call ∧
      call.gpr 30#5 = (gateBlock dispatcher island original).addr 19 := by
  have hdec := decodes_gateBlock dispatcher island original
  have hresume := resume_literal dispatcher island original
  have hdispatcher := dispatcher_literal dispatcher island original
  have hpc : s.pc = (gateBlock dispatcher island original).addr 0 := by
    rw [hentry, Block.addr_zero]
    rfl
  generalize gateBlock dispatcher island original = c at *
  obtain ⟨hsave, hsavePc⟩ := run_plain hdec (show program = [] ++ save ++
    ([.ldrLit 80 16#5] ++ passRecord ++ [.ldrLit 75 16#5, .blr 16#5] ++ reload ++ [.br 16#5]) by
      simp [program]) (by decide) hpc 5
  have hsaved := savedAt_save s
  generalize runPlain save s = t at hsave hsavePc hsaved
  have hfirst := run_succ (n := 4) hdec (show program[14]? = some (.ldrLit 80 16#5) from rfl) hsavePc
    (exec_ldrLit 16#5 (v := toAddr (original + 1#62)) (by rw [hsavePc]; exact hresume))
  obtain ⟨hpass, hpassPc⟩ := run_plain hdec (show program = (save ++ [.ldrLit 80 16#5]) ++ passRecord ++
    ([.ldrLit 75 16#5, .blr 16#5] ++ reload ++ [.br 16#5]) by simp [program]) (by decide)
    (s := loaded 16#5 (toAddr (original + 1#62)) t)
    (by change t.pc + 4#64 = _; rw [hsavePc]; exact (c.addr_succ 14).symm) 2
  have hready := hsaved.ready (toAddr (original + 1#62))
  generalize runPlain passRecord (loaded 16#5 (toAddr (original + 1#62)) t) = u at hpass hpassPc hready
  have hsecond := run_succ (n := 1) hdec (show program[17]? = some (.ldrLit 75 16#5) from rfl) hpassPc
    (exec_ldrLit 16#5 (v := dispatcher) (by rw [hpassPc]; exact hdispatcher))
  have hblrPc : (loaded 16#5 dispatcher u).pc = c.addr 18 := by
    change u.pc + 4#64 = _
    rw [hpassPc]
    exact (c.addr_succ 17).symm
  have hcall := run_succ (n := 0) hdec (show program[18]? = some (.blr 16#5) from rfl) hblrPc
    (show exec c (.blr 16#5) _ = some (called 16#5 _) from rfl)
  have hkept : ∀ r, r ≠ 16#5 → r ≠ 30#5 →
      (called 16#5 (loaded 16#5 dispatcher u)).gpr r = u.gpr r := by
    intro r hr hr30
    rw [gpr_called_of_ne 16#5 hr30, gpr_loaded_of_ne hr]
  have hargument := (hkept 0#5 (by decide) (by decide)).trans hready.argument
  have hmem : (called 16#5 (loaded 16#5 dispatcher u)).mem = u.mem := by rw [mem_called, mem_loaded]
  have htarget : (called 16#5 (loaded 16#5 dispatcher u)).pc = dispatcher := by
    change (loaded 16#5 dispatcher u).readX 16#5 = dispatcher
    rw [State.readX_of_ne (by decide), gpr_loaded_self (by decide)]
  refine ⟨_, hsave.trans (hfirst.trans (hpass.trans (hsecond.trans hcall))),
    ⟨htarget, hargument, ?_, ?_, ?_, ?_⟩, ?_⟩
  · rw [hargument, hmem]
    exact hready.record
  · exact (hkept _ (by decide) (by decide)).trans hready.sp
  · intro r hr
    obtain ⟨-, hsixteen, hthirty, -⟩ := calleeSaved_ne hr
    exact (hkept r hsixteen hthirty).trans (hready.calleeSaved r hr)
  · intro b hb
    exact hready.mem b hb
  · rw [gpr_called_link, hblrPc]
    exact (c.addr_succ 18).symm

end

def reloadedSlots : List (Reg × Nat) :=
  reloadRegisters.flatMap GateInstr.reloaded ++ reloadLast.flatMap GateInstr.reloaded

theorem reloadedSlots_lookup :
    (∀ i : Fin 19, i ≠ 16 → reloadedSlots.reverse.lookup (BitVec.ofNat 5 i.val) = some i.val) ∧
      reloadedSlots.reverse.lookup 30#5 = some 19 ∧ reloadedSlots.reverse.lookup 16#5 = some 21 ∧
      ∀ r, CalleeSaved r → reloadedSlots.reverse.lookup r = none := by
  decide

/-- The state behind the loads, with the flags set in between. -/
structure ReloadedAt (a u : State) : Prop where
  mem : u.mem = a.mem
  nzcv : u.nzcv = Nzcv.unpack (readSlot a.mem a.sp 20)
  sp : u.sp = a.sp + 192#64
  gpr : ∀ r, r ≠ 31#5 →
    u.gpr r = ((reloadedSlots.reverse.lookup r).map (readSlot a.mem a.sp)).getD (a.gpr r)

theorem reloadedAt_reload (a : State) : ReloadedAt a (runPlain reload a) := by
  have hfirst : ∀ i ∈ reloadRegisters, i.IsReload = true := by decide
  have hlast : ∀ i ∈ reloadLast, i.IsReload = true := by decide
  obtain ⟨hmem, -, hsp, hgpr⟩ := runPlain_reloads a hfirst
  rw [reload, runPlain_append, runPlain_append, runPlain_append, runPlain_singleton,
    runPlain_singleton]
  generalize runPlain reloadRegisters a = t at hmem hsp hgpr
  have hflags : t.gpr 16#5 = readSlot a.mem a.sp 20 := by
    have hslot : (reloadRegisters.flatMap GateInstr.reloaded).reverse.lookup 16#5 = some 20 := by
      decide
    rw [hgpr, assignAll_apply, hslot]
    rfl
  obtain ⟨hmem', hnzcv', hsp', hgpr'⟩ := runPlain_reloads (advance (.other (.msrNzcv 16#5)) t) hlast
  rw [mem_msrNzcv] at hmem' hgpr'
  rw [nzcv_msrNzcv, State.readX_of_ne (by decide), hflags] at hnzcv'
  rw [State.sp, State.sp, gpr_msrNzcv, ← State.sp, ← State.sp] at hsp'
  rw [State.sp, gpr_msrNzcv, ← State.sp] at hgpr'
  generalize runPlain reloadLast (advance (.other (.msrNzcv 16#5)) t) = u at hmem' hnzcv' hsp' hgpr'
  refine ⟨?_, ?_, ?_, ?_⟩
  · rw [mem_addImm, hmem', hmem]
  · rw [nzcv_addImm, hnzcv']
  · refine (gpr_addImm_self 192 31#5 _).trans ?_
    change u.sp + 192#64 = _
    rw [hsp', hsp]
  · intro r hr
    rw [gpr_addImm_of_ne 192 31#5 _ hr, hgpr', hgpr, hmem, hsp, ← assignAll_append, ← reloadedSlots,
      assignAll_apply]

/-- The dispatcher comes back as a function does under AAPCS64. It may have written any memory. -/
structure Respects (call after : State) : Prop where
  pc : after.pc = call.gpr 30#5
  sp : after.sp = call.sp
  calleeSaved : ∀ r, CalleeSaved r → after.gpr r = call.gpr r

structure Resumes (s : State) (record : GateState) (after final : State) : Prop where
  pc : final.pc = record.pc
  x : ∀ i : Fin 19, i ≠ 16 → final.gpr (BitVec.ofNat 5 i.val) = record.x i
  x30 : final.gpr 30#5 = record.x30
  nzcv : final.nzcv = Nzcv.unpack record.nzcv
  sp : final.sp = s.sp
  calleeSaved : ∀ r, CalleeSaved r → final.gpr r = s.gpr r
  mem : final.mem = after.mem

theorem run_from_call (dispatcher : Addr) (island original : WordPtr) {resume : Addr}
    {s call after : State} (hover : HandsOver dispatcher resume s call)
    (hlink : call.gpr 30#5 = (gateBlock dispatcher island original).addr 19)
    (hrespects : Respects call after) :
    ∃ final, run (gateBlock dispatcher island original) 17 after = some final ∧
      Resumes s (recordAt after.mem (recordBase s)) after final := by
  have hdec := decodes_gateBlock dispatcher island original
  have hpc := hrespects.pc.trans hlink
  obtain ⟨hreload, hreloadPc⟩ := run_plain hdec (show program = (save ++ [.ldrLit 80 16#5] ++
    passRecord ++ [.ldrLit 75 16#5, .blr 16#5]) ++ reload ++ [.br 16#5] by simp [program]) (by decide)
    hpc 1
  have hbase : after.sp = recordBase s := hrespects.sp.trans hover.sp
  obtain ⟨hmem, hnzcv, hsp, hgpr⟩ := reloadedAt_reload after
  rw [hbase] at hnzcv hsp hgpr
  generalize runPlain reload after = u at hreload hreloadPc hmem hnzcv hsp hgpr
  have hlast := run_succ (n := 0) (i := .br 16#5) hdec (k := 35) rfl hreloadPc rfl
  obtain ⟨hx, hx30, hx16, hsaved⟩ := reloadedSlots_lookup
  refine ⟨_, hreload.trans hlast, ?_, ?_, ?_, hnzcv, ?_, ?_, hmem⟩
  · change u.readX 16#5 = _
    rw [State.readX_of_ne (by decide), hgpr 16#5 (by decide), hx16]
    rfl
  · intro i hi
    refine (hgpr _ ?_).trans ?_
    · revert i
      decide
    · rw [hx i hi]
      rfl
  · refine (hgpr 30#5 (by decide)).trans ?_
    rfl
  · refine hsp.trans ?_
    rw [recordBase, BitVec.sub_add_cancel]
  · intro r hr
    refine (hgpr r (calleeSaved_ne hr).2.2.2).trans ?_
    rw [hsaved r hr]
    exact (hrespects.calleeSaved r hr).trans (hover.calleeSaved r hr)

/-- The island of a site, for every guest state and every dispatcher that keeps to the calling
convention: the dispatcher is given the guest's registers, flags and pc, and the guest goes on at
the pc of the record with the record's registers and flags. The island itself writes the 192 bytes
below the guest's stack pointer only. -/
theorem gate_island_round_trip (dispatcher : Addr) (island original : WordPtr) (s : State)
    (hentry : s.pc = toAddr island) :
    ∃ call, run (gateBlock dispatcher island original) 19 s = some call ∧
      HandsOver dispatcher (toAddr original + 4#64) s call ∧
      ∀ after, Respects call after →
        ∃ final, run (gateBlock dispatcher island original) 17 after = some final ∧
          Resumes s (recordAt after.mem (call.gpr 0#5)) after final := by
  obtain ⟨call, hrun, hover, hlink⟩ := run_to_call dispatcher island original s hentry
  rw [toAddr_next] at hover
  refine ⟨call, hrun, hover, fun after hrespects => ?_⟩
  rw [hover.argument]
  exact run_from_call dispatcher island original hover hlink hrespects

def guest : State :=
  State.initial (toAddr 0x1000#62) (fun r => if r = stackPointer then 0x8000#64 else r.setWidth 64)
    fun _ => 0#8

theorem guest_round_trip :
    ∃ call final, run (gateBlock 0x9000#64 0x1000#62 0x800#62) 19 guest = some call ∧
      run (gateBlock 0x9000#64 0x1000#62 0x800#62) 17 { call with pc := call.gpr 30#5 } = some final ∧
      final.pc = 0x2004#64 ∧ final.gpr 7#5 = 7#64 := by
  obtain ⟨call, hrun, hover, hafter⟩ :=
    gate_island_round_trip 0x9000#64 0x1000#62 0x800#62 guest rfl
  obtain ⟨final, hfinal, hresumes⟩ :=
    hafter { call with pc := call.gpr 30#5 } ⟨rfl, rfl, fun _ _ => rfl⟩
  have hpc := hresumes.pc
  have hx := hresumes.x 7 (by decide)
  rw [hover.record] at hpc hx
  exact ⟨call, final, hrun, hfinal, hpc, hx⟩

/-- A dispatcher that writes another pc to the record sends the guest there. -/
theorem rewritten_pc_not_site :
    ∃ call after final, run (gateBlock 0x9000#64 0x1000#62 0x800#62) 19 guest = some call ∧
      Respects call after ∧
      (∀ b, ¬ InRange (call.gpr 0#5) 176 b → after.mem b = call.mem b) ∧
      run (gateBlock 0x9000#64 0x1000#62 0x800#62) 17 after = some final ∧
      final.pc = 0x7000#64 ∧ final.pc ≠ toAddr 0x800#62 + 4#64 := by
  obtain ⟨call, hrun, hover, hlink⟩ := run_to_call 0x9000#64 0x1000#62 0x800#62 guest rfl
  let after : State :=
    { call with pc := call.gpr 30#5, mem := writeSlot call.mem (recordBase guest) 21 0x7000#64 }
  have hrespects : Respects call after := ⟨rfl, rfl, fun _ _ => rfl⟩
  obtain ⟨final, hfinal, hresumes⟩ := run_from_call 0x9000#64 0x1000#62 0x800#62 hover hlink hrespects
  have hpc : final.pc = 0x7000#64 := by
    refine hresumes.pc.trans ?_
    change readSlot (writeSlot call.mem (recordBase guest) 21 0x7000#64) (recordBase guest) 21 = _
    rw [readSlot_writeSlot _ _ (by decide) (by decide), update_self]
  refine ⟨call, after, final, hrun, hrespects, ?_, hfinal, hpc, ?_⟩
  · intro b hb
    rw [hover.argument] at hb
    exact writeSlot_of_not_inRange (n := 22) (by decide) (by decide) hb
  · rw [hpc]
    decide

end Machgate.GateRoundTrip
