import Machgate.Instructions

namespace Machgate.StackFrame

open ByteMemory ConditionFlags Instructions MachineState Function List Nat

abbrev minus16 : BitVec 9 := 0x1F0#9
abbrev plus16 : BitVec 9 := 0x010#9

def push (r : Reg) : Instr :=
  .strPre minus16 stackPointer r

def pop (r : Reg) : Instr :=
  .ldrPost plus16 stackPointer r

/-- The doublewords `vs` lie in consecutive 16-byte slots from `sp` upwards. -/
def Frame (mem : Memory) (sp : Addr) : List (BitVec 64) → Prop
  | [] => True
  | v :: vs => readMem mem sp 8 = v ∧ Frame mem (sp + 16#64) vs

theorem Frame.congr {mem mem' : Memory} {sp : Addr} {vs : List (BitVec 64)}
    (hfits : 16 * vs.length ≤ 2 ^ 64)
    (h : ∀ b, InRange sp (16 * vs.length) b → mem b = mem' b) (hframe : Frame mem sp vs) :
    Frame mem' sp vs := by
  induction vs generalizing sp with
  | nil => trivial
  | cons v vs ih =>
    obtain ⟨hhead, htail⟩ := hframe
    simp only [length_cons] at hfits h
    have hslot : readMem mem' sp 8 = readMem mem sp 8 := by
      refine readMem_congr (by omega) fun b hb => (h b ?_).symm
      rw [InRange] at hb ⊢
      omega
    refine ⟨hslot.trans hhead, ih (by omega) (fun b hb => h b ?_) htail⟩
    exact InRange.widen (k := 16) hb (by omega) (by omega)

/-- `t` belongs to a routine entered in `s`: it has pushed `vs`, the last one at
the top, and otherwise changed at most the registers `ws` and the flags. -/
structure Saved (vs : List (BitVec 64)) (ws : List Reg) (s t : State) : Prop where
  sp : t.sp = s.sp - BitVec.ofNat 64 (16 * vs.length)
  frame : Frame t.mem t.sp vs
  gpr : ∀ r, r ∉ ws → r ≠ stackPointer → t.gpr r = s.gpr r
  mem : ∀ b, ¬ InRange t.sp (16 * vs.length) b → t.mem b = s.mem b
  vec : t.vec = s.vec

section

variable {vs : List (BitVec 64)} {ws : List Reg} {s t u : State}

theorem saved_nil (ws : List Reg) (s : State) : Saved [] ws s s :=
  ⟨(sub_zero s.sp).symm, trivial, fun _ _ _ => rfl, fun _ _ => rfl, rfl⟩

theorem Saved.exec_push {r : Reg} (h : Saved vs ws s t) (hr : r ≠ stackPointer)
    (hfits : 16 * (vs.length + 1) ≤ 2 ^ 64) :
    Saved (t.gpr r :: vs) ws s (exec (push r) t) := by
  have hsp : (exec (push r) t).sp = t.sp - 16#64 := by
    change update t.gpr stackPointer (t.gpr stackPointer + minus16.signExtend 64) stackPointer = _
    rw [update_self, sub_eq_add_neg]
    rfl
  have hmem : (exec (push r) t).mem = writeMem t.mem (t.sp - 16#64) 8 (t.gpr r) := by
    rw [← State.readX_of_ne hr, sub_eq_add_neg]
    rfl
  have hbase : t.sp = (t.sp - 16#64) + BitVec.ofNat 64 16 := (BitVec.sub_add_cancel _ _).symm
  refine ⟨?_, ⟨?_, ?_⟩, ?_, ?_, h.vec⟩
  · rw [hsp, h.sp, length_cons, mul_succ, BitVec.ofNat_add, sub_sub]
  · rw [hsp, hmem, readMem_writeMem _ _ _ (by decide)]
    exact BitVec.setWidth_eq _
  · rw [hsp, BitVec.sub_add_cancel, hmem]
    -- The older slots lie above the new one.
    refine h.frame.congr (by omega) fun b hb => (writeMem_of_not_inRange fun hnew => ?_).symm
    rw [hbase] at hb
    exact hb.not_below (by omega) (hnew.mono (by decide))
  · intro q hq hne
    exact (update_of_ne hne _ _).trans (h.gpr q hq hne)
  · intro b hb
    rw [hsp, length_cons] at hb
    rw [hmem, writeMem_of_not_inRange fun hnew => hb (hnew.mono (by omega))]
    refine h.mem b fun hold => hb ?_
    rw [hbase] at hold
    exact hold.widen (by omega) (by omega)

theorem saved_pushes {rs : List Reg} (h : Saved vs ws s t) (hrs : ∀ r ∈ rs, r ≠ stackPointer)
    (hfits : 16 * (vs.length + rs.length) ≤ 2 ^ 64) :
    Saved ((rs.map t.gpr).reverse ++ vs) ws s (runSeq (rs.map push) t) := by
  induction rs generalizing t vs with
  | nil => exact h
  | cons r rs ih =>
    have hr : r ≠ stackPointer := hrs r mem_cons_self
    have htail : ∀ q ∈ rs, q ≠ stackPointer := fun q hq => hrs q (mem_cons_of_mem r hq)
    simp only [length_cons] at hfits
    have hrest := ih (h.exec_push hr (by omega)) htail (by simp only [length_cons]; omega)
    have hsame : rs.map (exec (push r) t).gpr = rs.map t.gpr :=
      map_congr_left fun q hq => update_of_ne (htail q hq) _ _
    rw [hsame] at hrest
    simpa using hrest

theorem nzcv_pushes (rs : List Reg) (s : State) : (runSeq (rs.map push) s).nzcv = s.nzcv := by
  induction rs generalizing s with
  | nil => rfl
  | cons r rs ih => exact ih (exec (push r) s)

/-- `u` differs from `t` at most in the registers `ws`, the flags and the
exclusive monitor. -/
structure Keeps (ws : List Reg) (t u : State) : Prop where
  gpr : ∀ r, r ∉ ws → u.gpr r = t.gpr r
  mem : u.mem = t.mem
  vec : u.vec = t.vec

theorem Keeps.trans {a b c : State} (hab : Keeps ws a b) (hbc : Keeps ws b c) : Keeps ws a c :=
  ⟨fun r hr => (hbc.gpr r hr).trans (hab.gpr r hr), hbc.mem.trans hab.mem, hbc.vec.trans hab.vec⟩

theorem Keeps.mono {ws' : List Reg} (h : Keeps ws t u) (hsub : ws ⊆ ws') : Keeps ws' t u :=
  { h with gpr := fun r hr => h.gpr r fun hmem => hr (hsub hmem) }

theorem keeps_writeX {r : Reg} (hr : r ∈ ws) (x : BitVec 64) (t : State) :
    Keeps ws t (t.writeX r x) := by
  refine ⟨fun q hq => State.gpr_writeX_of_ne t x ?_, State.writeX_mem t r x, State.writeX_vec t r x⟩
  rintro rfl
  exact hq hr

theorem keeps_exec {i : Instr} (h : Keeps ws t (effect i t)) : Keeps ws t (exec i t) :=
  ⟨h.gpr, h.mem, h.vec⟩

theorem Saved.keeps (h : Saved vs ws s t) (hsp : stackPointer ∉ ws) (hkeeps : Keeps ws t u) :
    Saved vs ws s u := by
  have hsame : u.sp = t.sp := hkeeps.gpr stackPointer hsp
  refine ⟨hsame.trans h.sp, ?_, ?_, ?_, hkeeps.vec.trans h.vec⟩
  · rw [hsame, hkeeps.mem]
    exact h.frame
  · intro r hr hne
    exact (hkeeps.gpr r hr).trans (h.gpr r hr hne)
  · intro b hb
    rw [hkeeps.mem]
    exact h.mem b (hsame ▸ hb)

theorem Saved.readX (h : Saved vs ws s t) {r : Reg} (hr : r ∉ ws) : t.readX r = s.readX r := by
  unfold State.readX
  split
  · rfl
  · rename_i hne
    exact h.gpr r hr hne

theorem Saved.inRange_below (h : Saved vs ws s t) (hlength : vs.length ≤ 4) {b : Addr}
    (hb : InRange t.sp (16 * vs.length) b) : InRange (s.sp - 64#64) 64 b := by
  have hsum : (64#64 : Addr) =
      BitVec.ofNat 64 (64 - 16 * vs.length) + BitVec.ofNat 64 (16 * vs.length) := by
    rw [← BitVec.ofNat_add]
    congr 1
    omega
  have hbase : t.sp = s.sp - 64#64 + BitVec.ofNat 64 (64 - 16 * vs.length) := by
    rw [h.sp, hsum, ← sub_sub, sub_right_comm, BitVec.sub_add_cancel]
  rw [hbase] at hb
  exact hb.widen (by omega) (by decide)

theorem Saved.apart (h : Saved vs ws s t) (hlength : vs.length ≤ 4) {a : Addr} {n : Nat}
    (hapart : Apart a n (s.sp - 64#64) 64) : Apart a n t.sp (16 * vs.length) :=
  fun b ha hb => hapart b ha (h.inRange_below hlength hb)

theorem Saved.exec {i : Instr} (h : Saved vs ws s (effect i t)) : Saved vs ws s (exec i t) :=
  ⟨h.sp, h.frame, h.gpr, h.mem, h.vec⟩

theorem Saved.write_mem {w : Nat} (h : Saved vs ws s t) {a : Addr} {n : Nat} (v : BitVec w)
    (hfits : 16 * vs.length ≤ 2 ^ 64) (hapart : Apart a n t.sp (16 * vs.length)) :
    Saved vs ws { s with mem := writeMem s.mem a n v } { t with mem := writeMem t.mem a n v } := by
  refine ⟨h.sp, ?_, h.gpr, ?_, h.vec⟩
  · refine h.frame.congr hfits fun b hb => (writeMem_of_not_inRange fun ha => ?_).symm
    exact hapart b ha hb
  · intro b hb
    change writeMem t.mem a n v b = writeMem s.mem a n v b
    by_cases ha : InRange a n b
    · rw [writeMem_of_inRange ha, writeMem_of_inRange ha]
    · rw [writeMem_of_not_inRange ha, writeMem_of_not_inRange ha]
      exact h.mem b hb

theorem Saved.write_register (h : Saved vs ws s t) (r : Reg) (x : BitVec 64) :
    Saved vs ws (s.writeX r x) (t.writeX r x) := by
  by_cases hr : r = 31#5
  · simpa only [State.writeX, hr, if_true] using h
  · have hsp : ∀ p : State, (p.writeX r x).sp = p.sp :=
      fun p => State.gpr_writeX_of_ne p x (Ne.symm hr)
    refine ⟨?_, ?_, ?_, ?_, ?_⟩
    · rw [hsp, hsp, h.sp]
    · rw [hsp, State.writeX_mem]
      exact h.frame
    · intro q hq hne
      by_cases heq : q = r
      · rw [heq, State.gpr_writeX_self _ _ hr, State.gpr_writeX_self _ _ hr]
      · rw [State.gpr_writeX_of_ne _ _ heq, State.gpr_writeX_of_ne _ _ heq]
        exact h.gpr q hq hne
    · rw [hsp, State.writeX_mem, State.writeX_mem]
      exact h.mem
    · rw [State.writeX_vec, State.writeX_vec]
      exact h.vec

end

/-- Popping the slots that hold `f` on `rs` restores `f` there. -/
structure Popped (rs : List Reg) (f : Reg → BitVec 64) (s t : State) : Prop where
  sp : t.sp = s.sp + BitVec.ofNat 64 (16 * rs.length)
  restored : ∀ r ∈ rs, t.gpr r = f r
  gpr : ∀ r, r ∉ rs → r ≠ stackPointer → t.gpr r = s.gpr r
  mem : t.mem = s.mem
  vec : t.vec = s.vec
  nzcv : t.nzcv = s.nzcv

theorem popped_pop {r : Reg} (hr : r ≠ stackPointer) {f : Reg → BitVec 64} {s : State}
    (hslot : readMem s.mem s.sp 8 = f r) : Popped [r] f s (exec (pop r) s) := by
  have hgpr : (exec (pop r) s).gpr =
      update (update s.gpr stackPointer (s.sp + 16#64)) r (f r) := by
    rw [← hslot]
    change (State.writeX _ r _).gpr = _
    rw [State.writeX, if_neg hr]
    rfl
  refine ⟨?_, ?_, ?_, State.writeX_mem _ _ _, State.writeX_vec _ _ _, State.writeX_nzcv _ _ _⟩
  · rw [State.sp, hgpr, update_of_ne (Ne.symm hr), update_self]
    rfl
  · intro q hq
    rw [mem_singleton.mp hq, hgpr, update_self]
  · intro q hq hsp
    rw [hgpr, update_of_ne (by simpa using hq), update_of_ne hsp]

theorem popped_pops {rs : List Reg} (hrs : ∀ r ∈ rs, r ≠ stackPointer) {f : Reg → BitVec 64}
    {s : State} (hframe : Frame s.mem s.sp (rs.map f)) :
    Popped rs f s (runSeq (rs.map pop) s) := by
  induction rs generalizing s with
  | nil =>
    refine ⟨?_, by simp, fun _ _ _ => rfl, rfl, rfl, rfl⟩
    exact (add_zero s.sp).symm
  | cons r rs ih =>
    have hr : r ≠ stackPointer := hrs r mem_cons_self
    have htail : ∀ q ∈ rs, q ≠ stackPointer := fun q hq => hrs q (mem_cons_of_mem r hq)
    have hfirst := popped_pop hr hframe.1
    have hframe' : Frame (exec (pop r) s).mem (exec (pop r) s).sp (rs.map f) := by
      rw [hfirst.mem, hfirst.sp]
      exact hframe.2
    have hrest := ih htail hframe'
    refine ⟨?_, ?_, ?_, hrest.mem.trans hfirst.mem, hrest.vec.trans hfirst.vec,
      hrest.nzcv.trans hfirst.nzcv⟩
    · rw [length_cons, mul_succ, Nat.add_comm, BitVec.ofNat_add, ← BitVec.add_assoc]
      exact hrest.sp.trans (by rw [hfirst.sp]; rfl)
    · intro q hq
      by_cases hmem : q ∈ rs
      · exact hrest.restored q hmem
      · have hqr : q = r := by simpa [hmem] using hq
        exact (hrest.gpr q hmem (hrs q hq)).trans (hfirst.restored q (by simp [hqr]))
    · intro q hq hsp
      rw [mem_cons, not_or] at hq
      exact (hrest.gpr q hq.2 hsp).trans (hfirst.gpr q (by simpa using hq.1) hsp)

end Machgate.StackFrame
