import Machgate.IslandLoop
import Machgate.LseArithmetic

namespace Machgate.RmwLoop

open AtomicSemantics ByteMemory CodeBlock ConditionFlags Instructions IslandFrame IslandLoop List
  LseDecode LseIsland MachineState LseArithmetic ScratchRegisters StackFrame WordPointers Relation

section

variable {d : LseDecoded} (p : ScratchTriple (operands d))

theorem regs_ne_sp : ∀ r ∈ p.regs, r ≠ stackPointer :=
  fun r hr => ne_sp_of_notMem (p.regs_notMem r hr)

theorem s1_ne_zero : p.s1 ≠ 31#5 :=
  ne_sp_of_notMem p.s1_notMem

theorem s2_ne_zero : p.s2 ≠ 31#5 :=
  regs_ne_sp p _ (by simp [ScratchTriple.regs])

theorem s3_ne_zero : p.s3 ≠ 31#5 :=
  regs_ne_sp p _ (by simp [ScratchTriple.regs])

theorem rs_notMem : d.rs ∉ [p.s2, p.s3] := by
  have h := p.notMem_regs (rs_mem_operands d)
  exact fun hmem => h (mem_cons_of_mem _ hmem)

theorem s1_notMem : p.s1 ∉ [p.s2, p.s3] := by
  rw [mem_pair, not_or]
  exact ⟨p.s1_ne_s2, p.s1_ne_s3⟩

theorem computes_single {i : Instr} {x : BitVec 64} {t : State}
    (heffect : effect i t = t.writeX p.s2 x) :
    Computes [p.s2, p.s3] t (exec i t) ∧ (exec i t).gpr p.s2 = x := by
  obtain ⟨hcomputes, hvalue⟩ := computes_exec (s2_ne_zero p) heffect
  exact ⟨hcomputes.mono (by simp), hvalue⟩

theorem computes_choose (sf : Bool) (rn rm : Reg) (cond : BitVec 4) (t : State) :
    let u := runSeq [.subs sf 31#5 rn rm, .csel (isX d.size) p.s2 d.rs p.s1 cond] t
    Computes [p.s2, p.s3] t u ∧
      u.gpr p.s2 = chosen d.size cond (subsResult sf (t.readX rn) (t.readX rm)).2 (t.gpr p.s1)
        (t.readX d.rs) := by
  obtain ⟨hcompare, hflags⟩ := computes_compare sf rn rm t
  obtain ⟨hchoose, hvalue⟩ := computes_single p (t := exec (.subs sf 31#5 rn rm) t)
    (i := .csel (isX d.size) p.s2 d.rs p.s1 cond) rfl
  refine ⟨(hcompare.mono (nil_subset _)).trans hchoose, hvalue.trans ?_⟩
  rw [hflags, hcompare.readX not_mem_nil, hcompare.readX not_mem_nil,
    State.readX_of_ne (s1_ne_zero p)]
  rfl

theorem computes_extend {bits : Nat} {extend : Reg → Reg → Instr}
    (heffect : ∀ rd rn t, effect (extend rd rn) t = t.writeX rd (sextW bits (t.readX rn)))
    (t : State) :
    let u := runSeq [extend p.s2 p.s1, extend p.s3 d.rs] t
    Computes [p.s2, p.s3] t u ∧ u.readX p.s2 = sextW bits (t.gpr p.s1) ∧
      u.readX p.s3 = sextW bits (t.readX d.rs) := by
  obtain ⟨hfirst, hs2⟩ := computes_single p (heffect p.s2 p.s1 t)
  obtain ⟨hsecond, hs3⟩ := computes_exec (s3_ne_zero p)
    (heffect p.s3 d.rs (exec (extend p.s2 p.s1) t))
  refine ⟨hfirst.trans (hsecond.mono (by simp)), ?_, ?_⟩
  · rw [State.readX_of_ne (s2_ne_zero p), runSeq_cons, runSeq_cons, runSeq_nil,
      hsecond.gpr _ (by simpa using p.s2_ne_s3), hs2, State.readX_of_ne (s1_ne_zero p)]
  · rw [State.readX_of_ne (s3_ne_zero p), runSeq_cons, runSeq_cons, runSeq_nil, hs3,
      hfirst.readX (rs_notMem p)]

theorem computes_signed (cond : BitVec 4) (t : State) :
    let u := runSeq ((if d.size.toNat < 2 then
        [if d.size = 0#2 then .sxtbW p.s2 p.s1 else .sxthW p.s2 p.s1,
          if d.size = 0#2 then .sxtbW p.s3 d.rs else .sxthW p.s3 d.rs,
          .subs false 31#5 p.s2 p.s3]
      else [.subs (isX d.size) 31#5 p.s1 d.rs]) ++
        [.csel (isX d.size) p.s2 d.rs p.s1 cond]) t
    Computes [p.s2, p.s3] t u ∧
      u.gpr p.s2 = chosen d.size cond (signedFlags d.size (t.gpr p.s1) (t.readX d.rs))
        (t.gpr p.s1) (t.readX d.rs) := by
  have hnarrow : ∀ {bits : Nat} (extend : Reg → Reg → Instr),
      (∀ rd rn t, effect (extend rd rn) t = t.writeX rd (sextW bits (t.readX rn))) →
      let u := runSeq ([extend p.s2 p.s1, extend p.s3 d.rs] ++
        [.subs false 31#5 p.s2 p.s3, .csel (isX d.size) p.s2 d.rs p.s1 cond]) t
      Computes [p.s2, p.s3] t u ∧
        u.gpr p.s2 = chosen d.size cond
          (subsResult false (sextW bits (t.gpr p.s1)) (sextW bits (t.readX d.rs))).2
          (t.gpr p.s1) (t.readX d.rs) := by
    intro bits extend heffect
    obtain ⟨hextend, hs2, hs3⟩ := computes_extend p heffect t
    obtain ⟨hchoose, hvalue⟩ := computes_choose p false p.s2 p.s3 cond
      (runSeq [extend p.s2 p.s1, extend p.s3 d.rs] t)
    rw [hs2, hs3, hextend.gpr _ (s1_notMem p), hextend.readX (rs_notMem p)] at hvalue
    rw [runSeq_append]
    exact ⟨hextend.trans hchoose, hvalue⟩
  unfold signedFlags
  split
  · by_cases hbyte : d.size = 0#2
    · simp only [hbyte, if_true]
      exact hbyte ▸ hnarrow .sxtbW fun _ _ _ => rfl
    · simp only [hbyte, if_false]
      exact hnarrow .sxthW fun _ _ _ => rfl
  · obtain ⟨hchoose, hvalue⟩ := computes_choose p (isX d.size) p.s1 d.rs cond t
    rw [State.readX_of_ne (s1_ne_zero p)] at hvalue
    exact ⟨hchoose, hvalue⟩

/-- What the `switch` computes: `s2` receives the value, the loaded value in
`s1` and the operands stay. -/
theorem computes_rmwOps (hop : d.op ≠ .cas) (t : State) :
    Computes [p.s2, p.s3] t (runSeq (rmwOps d p) t) ∧
      (runSeq (rmwOps d p) t).gpr p.s2 = rmwValue d.op d.size (t.gpr p.s1) (t.readX d.rs) := by
  have halu : ∀ op, Computes [p.s2, p.s3] t (exec (.alu op (isX d.size) p.s2 p.s1 d.rs) t) ∧
      (exec (.alu op (isX d.size) p.s2 p.s1 d.rs) t).gpr p.s2 =
        aluResult op (isX d.size) (t.gpr p.s1) (t.readX d.rs) := by
    intro op
    rw [← State.readX_of_ne (s1_ne_zero p)]
    exact computes_single p rfl
  have hunsigned : ∀ cond, _ := fun cond => computes_choose p (isX d.size) p.s1 d.rs cond t
  simp only [State.readX_of_ne (s1_ne_zero p)] at hunsigned
  unfold rmwOps rmwValue
  cases hcase : d.op with
  | ldadd => exact halu .add
  | ldclr => exact halu .bic
  | ldeor => exact halu .eor
  | ldset => exact halu .orr
  | ldsmax => exact computes_signed p condLt t
  | ldsmin => exact computes_signed p condGt t
  | ldumax => exact hunsigned condLo
  | ldumin => exact hunsigned condHi
  | swp => exact computes_single p rfl
  | cas => exact absurd hcase hop

end

def stored (d : LseDecoded) (t : State) : State :=
  { t with
    mem := writeMem t.mem (t.gpr d.rn) (accessBytes d.size)
      (rmwValue d.op d.size (oldValue d t) (t.readX d.rs)) }

variable {d : LseDecoded} (p : ScratchTriple (operands d))

theorem sequential_rmwLoop : ∀ i ∈ rmwLoop d p, i.Sequential = true := by
  have hops : ∀ i ∈ rmwOps d p, i.Sequential = true := by
    intro i hi
    rcases scratchOp_of_mem_rmwOps hi with _ | _ | _ | _ | _ <;> rfl
  intro i hi
  rcases mem_append.mp hi with hi | hi
  · rcases mem_cons.mp hi with rfl | hi
    · rfl
    · exact hops i hi
  · rw [mem_singleton.mp hi]
    rfl

theorem rmw_prepares (hop : d.op ≠ .cas) (t : State) :
    let u := runSeq (.ldxr d.size d.acquire p.s1 d.rn :: rmwOps d p) t
    Keeps p.regs t u ∧ u.monitor = some (u.gpr d.rn, accessBytes d.size) ∧
      u.spurious = t.spurious ∧ u.gpr p.s1 = oldValue d t ∧
      u.readX p.s2 = rmwValue d.op d.size (oldValue d t) (t.readX d.rs) := by
  have hload : LoadedExclusive d.size p.s1 d.rn t (exec (.ldxr d.size d.acquire p.s1 d.rn) t) :=
    loadedExclusive_exec (s1_ne_zero p)
  obtain ⟨hcomputes, hvalue⟩ := computes_rmwOps p hop (exec (.ldxr d.size d.acquire p.s1 d.rn) t)
  have hkeeps : Keeps p.regs t (runSeq (.ldxr d.size d.acquire p.s1 d.rn :: rmwOps d p) t) :=
    (hload.toKeeps.mono (by simp [ScratchTriple.regs])).trans
      (hcomputes.toKeeps.mono (by simp [ScratchTriple.regs]))
  have hrs : d.rs ∉ [p.s1] := by
    have h := p.notMem_regs (rs_mem_operands d)
    exact fun hmem => h (mem_singleton.mp hmem ▸ mem_cons_self)
  refine ⟨hkeeps, ?_, hcomputes.spurious.trans hload.spurious, ?_, ?_⟩
  · rw [hkeeps.gpr d.rn (p.notMem_regs (rn_mem_operands d))]
    exact hcomputes.monitor.trans hload.monitor
  · exact (hcomputes.gpr _ (s1_notMem p)).trans hload.value
  · rw [State.readX_of_ne (s2_ne_zero p)]
    rw [hload.value, State.readX_congr (hload.gpr _ hrs)] at hvalue
    exact hvalue

theorem runSeq_rmwLoop (t : State) :
    runSeq (rmwLoop d p) t = exec (.stxr d.size d.release p.s3 p.s2 d.rn)
      (runSeq (.ldxr d.size d.acquire p.s1 d.rn :: rmwOps d p) t) := by
  rw [rmwLoop, runSeq_append]
  rfl

theorem rmw_pass_of_zero (hop : d.op ≠ .cas) {t : State} (hspurious : t.spurious = 0) :
    Keeps p.regs (stored d t) (runSeq (rmwLoop d p) t) ∧
      (runSeq (rmwLoop d p) t).gpr p.s1 = oldValue d t ∧
      (runSeq (rmwLoop d p) t).gpr p.s3 = 0#64 := by
  obtain ⟨hkeeps, hmonitor, hcount, hs1, hs2⟩ := rmw_prepares p hop t
  rw [runSeq_rmwLoop]
  generalize runSeq (.ldxr d.size d.acquire p.s1 d.rn :: rmwOps d p) t = u at *
  obtain ⟨hstore, hs3⟩ := exec_stxr_of_zero d.release p.s2 (s3_ne_zero p)
    hmonitor (hcount.trans hspurious)
  refine ⟨?_, (hstore.gpr _ (by simpa using p.s1_ne_s3)).trans hs1, hs3⟩
  refine Keeps.trans ?_ (hstore.mono (by simp [ScratchTriple.regs]))
  refine ⟨hkeeps.gpr, ?_, hkeeps.vec⟩
  change writeMem u.mem _ _ _ = writeMem t.mem _ _ _
  rw [hs2, hkeeps.mem, hkeeps.gpr d.rn (p.notMem_regs (rn_mem_operands d))]

theorem rmw_pass_of_succ (hop : d.op ≠ .cas) {t : State} {n : Nat}
    (hspurious : t.spurious = n + 1) :
    Keeps p.regs t (runSeq (rmwLoop d p) t) ∧
      (runSeq (rmwLoop d p) t).gpr p.s3 = 1#64 ∧ (runSeq (rmwLoop d p) t).spurious = n := by
  obtain ⟨hkeeps, hmonitor, hcount, -, -⟩ := rmw_prepares p hop t
  rw [runSeq_rmwLoop]
  obtain ⟨hstore, hs3, hleft⟩ := exec_stxr_of_succ d.release p.s2
    (s3_ne_zero p) hmonitor (hcount.trans hspurious)
  exact ⟨hkeeps.trans (hstore.mono (by simp [ScratchTriple.regs])), hs3, hleft⟩

theorem stored_congr {t u : State} (h : Keeps p.regs t u) :
    oldValue d u = oldValue d t ∧ Keeps p.regs (stored d t) (stored d u) := by
  have hrn := h.gpr d.rn (p.notMem_regs (rn_mem_operands d))
  have hrs := h.gpr d.rs (p.notMem_regs (rs_mem_operands d))
  have hold : oldValue d u = oldValue d t := by rw [oldValue, oldValue, h.mem, hrn]
  refine ⟨hold, h.gpr, ?_, h.vec⟩
  change writeMem u.mem _ _ _ = writeMem t.mem _ _ _
  rw [hold, h.mem, hrn, State.readX_congr hrs]

variable {c : Block} {back : BitVec 26} (himp : c.Implements (rmwProgram d p back))

include himp

/-- The retry loop ends after every finite number of spurious failures, with
one store done. -/
theorem rmwLoop_exits (hop : d.op ≠ .cas) {t : State}
    (hpc : t.pc = c.addr (prologue p.regs p.s1).length) :
    ∃ u, c.Visits t u ∧
      u.pc = c.addr ((prologue p.regs p.s1).length + (rmwLoop d p).length + 1) ∧
      u.gpr p.s1 = oldValue d t ∧ Keeps p.regs (stored d t) u := by
  have hprog : rmwProgram d p back = prologue p.regs p.s1 ++ rmwLoop d p ++
      (.cbnzW p.s3 (backOver (rmwLoop d p).length) ::
        (movUnlessZero (isX d.size) d.rt p.s1 ++ epilogue p.regs p.s1 ++ [.b back])) := by
    simp [rmwProgram, islandProgram]
  have hcbnz : (rmwProgram d p back)[(prologue p.regs p.s1).length + (rmwLoop d p).length]? =
      some (.cbnzW p.s3 (backOver (rmwLoop d p).length)) := by
    rw [hprog, ← length_append, getElem?_append_right (le_refl _), Nat.sub_self]
    rfl
  have hinside : (prologue p.regs p.s1).length + (rmwLoop d p).length + 1 <
      (rmwProgram d p back).length := by
    simp only [hprog, length_append, length_cons]
    omega
  have hshort : (rmwLoop d p).length < 2 ^ 18 := (length_rmwLoop_le d p).trans_lt (by decide)
  -- Induction on the failures that are still to come.
  generalize hn : t.spurious = n
  induction n generalizing t with
  | zero =>
    obtain ⟨hvisits, hend⟩ := himp.visits_runSeq hprog (by simp) (sequential_rmwLoop p) hpc
    obtain ⟨hkeeps, hs1, hs3⟩ := rmw_pass_of_zero p hop hn
    refine ⟨_, hvisits.tail (himp.inner hcbnz hinside hend), ?_, hs1,
      ⟨hkeeps.gpr, hkeeps.mem, hkeeps.vec⟩⟩
    rw [pc_cbnzW_of_zero (s3_ne_zero p) hs3, hend, c.addr_succ]
  | succ n ih =>
    obtain ⟨hvisits, hend⟩ := himp.visits_runSeq hprog (by simp) (sequential_rmwLoop p) hpc
    obtain ⟨hkeeps, hs3, hleft⟩ := rmw_pass_of_succ p hop hn
    have hback : (exec (.cbnzW p.s3 (backOver (rmwLoop d p).length))
        (runSeq (rmwLoop d p) t)).pc = c.addr (prologue p.regs p.s1).length := by
      rw [pc_cbnzW_of_one (s3_ne_zero p) hs3, hend, addr_backOver c _ hshort]
    obtain ⟨u, hrest, hupc, hs1, hstored⟩ := ih hback hleft
    obtain ⟨hold, hsame⟩ := stored_congr p
      (u := exec (.cbnzW p.s3 (backOver (rmwLoop d p).length)) (runSeq (rmwLoop d p) t))
      ⟨hkeeps.gpr, hkeeps.mem, hkeeps.vec⟩
    exact ⟨u, (hvisits.tail (himp.inner hcbnz hinside hend)).trans hrest, hupc,
      hs1.trans hold, hsame.trans hstored⟩

end Machgate.RmwLoop
