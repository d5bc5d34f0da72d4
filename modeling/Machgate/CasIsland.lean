import Machgate.IslandLoop
import Machgate.LseArithmetic

namespace Machgate.CasIsland

open AtomicSemantics ByteMemory CodeBlock ConditionFlags Instructions IslandFrame IslandLoop List
  LseArithmetic LseDecode LseIsland MachineState ScratchRegisters StackFrame WordPointers Relation

/-- The comparison of the island, made on whole W or X registers. -/
def Matches (d : LseDecoded) (t : State) : Prop :=
  (readMem t.mem (t.gpr d.rn) (accessBytes d.size)).toNat = comparedOperand d.size (t.readX d.rs)

instance (d : LseDecoded) (t : State) : Decidable (Matches d t) :=
  inferInstanceAs (Decidable (_ = _))

def swapped (d : LseDecoded) (t : State) : State :=
  { t with
    mem :=
      if Matches d t then writeMem t.mem (t.gpr d.rn) (accessBytes d.size) (t.readX d.rt)
      else t.mem }

section

variable {d : LseDecoded} (p : ScratchPair (operands d))

theorem regs_ne_sp : ∀ r ∈ p.regs, r ≠ stackPointer :=
  fun r hr => ne_sp_of_notMem (p.regs_notMem r hr)

theorem s1_ne_zero : p.s1 ≠ 31#5 :=
  ne_sp_of_notMem p.s1_notMem

theorem s2_ne_zero : p.s2 ≠ 31#5 :=
  regs_ne_sp p _ (mem_cons_of_mem _ mem_cons_self)

theorem cas_compares (t : State) :
    let u := runSeq [.ldxr d.size d.acquire p.s2 d.rn, .subs (isX d.size) 31#5 p.s2 d.rs] t
    Keeps [p.s2] t u ∧ u.monitor = some (u.gpr d.rn, accessBytes d.size) ∧
      u.spurious = t.spurious ∧ u.gpr p.s2 = oldValue d t ∧
      (condHolds condNe u.nzcv = true ↔ ¬ Matches d t) := by
  have hload : LoadedExclusive d.size p.s2 d.rn t (exec (.ldxr d.size d.acquire p.s2 d.rn) t) :=
    loadedExclusive_exec (s2_ne_zero p)
  obtain ⟨hcompare, hflags⟩ := computes_compare (isX d.size) p.s2 d.rs
    (exec (.ldxr d.size d.acquire p.s2 d.rn) t)
  have hregs : ∀ {r}, r ∈ operands d → r ∉ [p.s2] := by
    intro r hr hmem
    exact p.notMem_regs hr (mem_cons_of_mem _ hmem)
  have hkeeps := hload.toKeeps.trans (hcompare.toKeeps.mono (nil_subset _))
  simp only [runSeq_cons, runSeq_nil]
  refine ⟨hkeeps, ?_, hcompare.spurious.trans hload.spurious, ?_, ?_⟩
  · rw [hkeeps.gpr _ (hregs (rn_mem_operands d))]
    exact hcompare.monitor.trans hload.monitor
  · exact (hcompare.gpr _ not_mem_nil).trans hload.value
  · rw [State.readX_of_ne (s2_ne_zero p), hload.value,
      State.readX_congr (hload.gpr _ (hregs (rs_mem_operands d)))] at hflags
    obtain ⟨w, x, y, heq, hx, hy⟩ := unsignedFlags_eq
      (readMem t.mem (t.gpr d.rn) (accessBytes d.size)) (t.readX d.rs)
    rw [hflags, heq, condHolds_ne, bne_iff_ne, Matches, ← hx, ← hy, BitVec.toNat_inj]

variable {t : State}

theorem swapped_congr {u : State} (h : Keeps p.regs t u) :
    oldValue d u = oldValue d t ∧ (Matches d u ↔ Matches d t) ∧
      Keeps p.regs (swapped d t) (swapped d u) := by
  have hrn := h.gpr d.rn (p.notMem_regs (rn_mem_operands d))
  have hrs : u.readX d.rs = t.readX d.rs :=
    State.readX_congr (h.gpr d.rs (p.notMem_regs (rs_mem_operands d)))
  have hrt : u.readX d.rt = t.readX d.rt :=
    State.readX_congr (h.gpr d.rt (p.notMem_regs (rt_mem_operands d)))
  have hmatches : Matches d u ↔ Matches d t := by rw [Matches, Matches, h.mem, hrn, hrs]
  refine ⟨by rw [oldValue, oldValue, h.mem, hrn], hmatches, h.gpr, ?_, h.vec⟩
  simp only [swapped, hmatches, h.mem, hrn, hrt]

variable {c : Block} {back : BitVec 26} (himp : c.Implements (casProgram d p back))

include himp

theorem cas_visits_branch (hpc : t.pc = c.addr 4) :
    ∃ u, c.Visits t u ∧ u.pc = c.addr 6 ∧ Keeps [p.s2] t u ∧
      u.monitor = some (u.gpr d.rn, accessBytes d.size) ∧ u.spurious = t.spurious ∧
      u.gpr p.s2 = oldValue d t ∧ (condHolds condNe u.nzcv = true ↔ ¬ Matches d t) := by
  have hprog : casProgram d p back = prologue p.regs p.s1 ++
      [.ldxr d.size d.acquire p.s2 d.rn, .subs (isX d.size) 31#5 p.s2 d.rs] ++
      (.bCond condNe 3#19 :: .stxr d.size d.release p.s1 d.rt d.rn :: .cbnzW p.s1 (backOver 4) ::
        (casTail d p ++ epilogue p.regs p.s1 ++ [.b back])) := by
    simp [casProgram, islandProgram, casLoop]
  obtain ⟨hvisits, hend⟩ := himp.visits_runSeq hprog (by simp) (by simp [Instr.Sequential]) hpc
  exact ⟨_, hvisits, hend, cas_compares p t⟩

theorem length_casProgram_ge : 9 < c.words.length := by
  rw [himp.length_eq]
  simp [casProgram, islandProgram, ScratchPair.regs, prologue, epilogue, casLoop, casTail]

theorem cas_pass_of_mismatch (hpc : t.pc = c.addr 4) (hmatches : ¬ Matches d t) :
    ∃ u, c.Visits t u ∧ u.pc = c.addr 9 ∧ u.gpr p.s2 = oldValue d t ∧ Keeps p.regs t u := by
  obtain ⟨u, hvisits, hupc, hkeeps, -, -, hs2, hne⟩ := cas_visits_branch p himp hpc
  have hlength := length_casProgram_ge p himp
  rw [himp.length_eq] at hlength
  refine ⟨exec (.bCond condNe 3#19) u, hvisits.tail (himp.inner rfl (by omega) hupc), ?_, hs2,
    (hkeeps.mono (by simp [ScratchPair.regs])).trans ⟨fun _ _ => rfl, rfl, rfl⟩⟩
  change (if condHolds condNe u.nzcv then _ else _) = _
  rw [if_pos (hne.mpr hmatches), hupc]
  exact (c.addr_add 6 3).symm

theorem cas_visits_store (hpc : t.pc = c.addr 4) (hmatches : Matches d t) :
    ∃ u, c.Visits t u ∧ u.pc = c.addr 7 ∧ Keeps [p.s2] t u ∧
      u.monitor = some (u.gpr d.rn, accessBytes d.size) ∧ u.spurious = t.spurious ∧
      u.gpr p.s2 = oldValue d t := by
  obtain ⟨u, hvisits, hupc, hkeeps, hmonitor, hcount, hs2, hne⟩ := cas_visits_branch p himp hpc
  have hlength := length_casProgram_ge p himp
  rw [himp.length_eq] at hlength
  refine ⟨exec (.bCond condNe 3#19) u, hvisits.tail (himp.inner rfl (by omega) hupc), ?_,
    ⟨hkeeps.gpr, hkeeps.mem, hkeeps.vec⟩, hmonitor, hcount, hs2⟩
  change (if condHolds condNe u.nzcv then _ else _) = _
  rw [if_neg fun h => hne.mp h hmatches, hupc, ← c.addr_succ]

theorem cas_visits_retry {u : State} (hpc : u.pc = c.addr 7) :
    c.Visits u (exec (.cbnzW p.s1 (backOver 4)) (exec (.stxr d.size d.release p.s1 d.rt d.rn) u)) ∧
      (exec (.stxr d.size d.release p.s1 d.rt d.rn) u).pc = c.addr 8 := by
  have hlength := length_casProgram_ge p himp
  rw [himp.length_eq] at hlength
  have hstep : c.Inner u (exec (.stxr d.size d.release p.s1 d.rt d.rn) u) :=
    himp.inner rfl (by omega) hpc
  have hend : (exec (.stxr d.size d.release p.s1 d.rt d.rn) u).pc = c.addr 8 := by
    rw [c.addr_succ, ← hpc]
    rfl
  exact ⟨(ReflTransGen.single hstep).tail (himp.inner rfl (by omega) hend), hend⟩

theorem cas_pass_of_zero (hpc : t.pc = c.addr 4) (hmatches : Matches d t)
    (hspurious : t.spurious = 0) :
    ∃ u, c.Visits t u ∧ u.pc = c.addr 9 ∧ u.gpr p.s2 = oldValue d t ∧
      Keeps p.regs (swapped d t) u := by
  obtain ⟨u, hvisits, hupc, hkeeps, hmonitor, hcount, hs2⟩ := cas_visits_store p himp hpc hmatches
  obtain ⟨hretry, hspc⟩ := cas_visits_retry p himp hupc
  obtain ⟨hstore, hs1⟩ := exec_stxr_of_zero d.release d.rt (s1_ne_zero p)
    hmonitor (hcount.trans hspurious)
  have hs2' : p.s2 ∉ [p.s1] := by simpa using p.s1_ne_s2.symm
  have hregs : ∀ {r}, r ∈ operands d → r ∉ [p.s2] := by
    intro r hr hmem
    exact p.notMem_regs hr (mem_cons_of_mem _ hmem)
  refine ⟨_, hvisits.trans hretry, ?_, (hstore.gpr _ hs2').trans hs2, ?_⟩
  · rw [pc_cbnzW_of_zero (s1_ne_zero p) hs1, hspc, ← c.addr_succ]
  · refine Keeps.trans ?_ ((hstore.mono (by simp [ScratchPair.regs])).trans
      (keeps_exec_cbnzW.mono (nil_subset _)))
    refine ⟨fun r hr => hkeeps.gpr r fun hmem => hr (mem_cons_of_mem _ hmem), ?_, hkeeps.vec⟩
    change writeMem u.mem _ _ _ = if Matches d t then _ else _
    rw [if_pos hmatches, hkeeps.mem, hkeeps.gpr _ (hregs (rn_mem_operands d)),
      State.readX_congr (hkeeps.gpr _ (hregs (rt_mem_operands d)))]

theorem cas_pass_of_succ (hpc : t.pc = c.addr 4) (hmatches : Matches d t) {n : Nat}
    (hspurious : t.spurious = n + 1) :
    ∃ u, c.Visits t u ∧ u.pc = c.addr 4 ∧ u.spurious = n ∧ Keeps p.regs t u := by
  obtain ⟨u, hvisits, hupc, hkeeps, hmonitor, hcount, -⟩ := cas_visits_store p himp hpc hmatches
  obtain ⟨hretry, hspc⟩ := cas_visits_retry p himp hupc
  obtain ⟨hstore, hs1, hleft⟩ := exec_stxr_of_succ d.release d.rt
    (s1_ne_zero p) hmonitor (hcount.trans hspurious)
  refine ⟨_, hvisits.trans hretry, ?_, hleft, ?_⟩
  · rw [pc_cbnzW_of_one (s1_ne_zero p) hs1, hspc]
    exact addr_backOver c 4 (n := 4) (by decide)
  · exact (hkeeps.mono (by simp [ScratchPair.regs])).trans
      ((hstore.mono (by simp [ScratchPair.regs])).trans (keeps_exec_cbnzW.mono (nil_subset _)))

/-- The loop is left at once when the comparison fails, and otherwise with the
store done, after every finite number of spurious failures. -/
theorem casLoop_exits (hpc : t.pc = c.addr 4) :
    ∃ u, c.Visits t u ∧ u.pc = c.addr 9 ∧ u.gpr p.s2 = oldValue d t ∧
      Keeps p.regs (swapped d t) u := by
  by_cases hmatches : Matches d t
  · -- Induction on the failures that are still to come.
    generalize hn : t.spurious = n
    induction n generalizing t with
    | zero => exact cas_pass_of_zero p himp hpc hmatches hn
    | succ n ih =>
      obtain ⟨u, hvisits, hupc, hleft, hkeeps⟩ := cas_pass_of_succ p himp hpc hmatches hn
      obtain ⟨hold, hsame, hswapped⟩ := swapped_congr p hkeeps
      obtain ⟨v, hrest, hvpc, hs2, hv⟩ := ih hupc (hsame.mpr hmatches) hleft
      exact ⟨v, hvisits.trans hrest, hvpc, hs2.trans hold, hswapped.trans hv⟩
  · obtain ⟨u, hvisits, hupc, hs2, hkeeps⟩ := cas_pass_of_mismatch p himp hpc hmatches
    refine ⟨u, hvisits, hupc, hs2, hkeeps.gpr, ?_, hkeeps.vec⟩
    rw [hkeeps.mem, swapped, if_neg hmatches]

end

def casResult (d : LseDecoded) (s : State) : State :=
  (swapped d s).writeX d.rs (oldValue d s)

theorem savedValues_casResult {d : LseDecoded} (p : ScratchPair (operands d)) (s : State) :
    savedValues p.regs (casResult d s) = savedValues p.regs s := by
  refine savedValues_congr (State.writeX_nzcv _ _ _) fun r hr => State.gpr_writeX_of_ne _ _ ?_
  rintro rfl
  exact p.notMem_regs (rs_mem_operands d) hr

theorem cas_island_effect {d : LseDecoded} (hop : d.op = .cas) (island origAddr : WordPtr)
    {s : State} (hrn : d.rn ≠ 31#5)
    (hapart : Apart (s.gpr d.rn) (accessBytes d.size) (s.sp - 64#64) 64) :
    ∃ s', (islandBlock d island origAddr).Completes { s with pc := toAddr island } s' ∧
      SameEffect s.sp s' (casResult d s) ∧
      s'.pc = (islandBlock d island origAddr).lastAddr +
        branchOffset (returnOffset island origAddr (islandWords d - 1)) := by
  have himp := implements_casProgram hop island origAddr
  generalize casScratch d = p at himp
  have hs1 : p.s1 ∈ p.regs := mem_cons_self
  have hne := regs_ne_sp p
  have hsp : (casResult d s).sp = s.sp := State.writeX_sp _ _ _
  have hseq : ∀ i ∈ casTail d p, i.Sequential = true :=
    forall_mem_cons.mpr ⟨rfl, sequential_mov _ _ _⟩
  rw [← hsp]
  refine island_completes himp hs1 hne (by decide : 2 < 4) hseq rfl ?_
  intro t htpc hsaved
  obtain ⟨u, htu, hupc, hold, hkeeps⟩ := casLoop_exits p himp htpc
  have hbase : t.gpr d.rn = s.gpr d.rn := hsaved.gpr d.rn (p.notMem_regs (rn_mem_operands d)) hrn
  have hrs : t.readX d.rs = s.readX d.rs := hsaved.readX (p.notMem_regs (rs_mem_operands d))
  have hrt : t.readX d.rt = s.readX d.rt := hsaved.readX (p.notMem_regs (rt_mem_operands d))
  have hmem := readMem_of_saved hsaved (by decide : 3 ≤ 4) hapart
  have hread : oldValue d t = oldValue d s := by rw [oldValue, hbase, oldValue, hmem]
  have hmatches : Matches d t ↔ Matches d s := by rw [Matches, hbase, hrs, hmem, Matches]
  have hswapped : Saved (savedValues p.regs s) p.regs (swapped d s) (swapped d t) := by
    have h := hsaved.write_mem (s.readX d.rt) (show 16 * 3 ≤ 2 ^ 64 by decide)
      (hsaved.apart (by decide : 3 ≤ 4) hapart)
    simp only [swapped, hmatches, hbase, hrt]
    split
    · exact ⟨h.sp, h.frame, h.gpr, h.mem, h.vec⟩
    · exact ⟨hsaved.sp, hsaved.frame, hsaved.gpr, hsaved.mem, hsaved.vec⟩
  have hclrex : Keeps p.regs u (exec .clrex u) := ⟨fun _ _ => rfl, rfl, rfl⟩
  refine ⟨u, htu, hupc, ?_⟩
  rw [savedValues_casResult]
  exact saved_mov d.rs (hne p.s2 (mem_cons_of_mem _ mem_cons_self)) (hold.trans hread)
    (hswapped.keeps (fun hmem => hne _ hmem rfl) (hkeeps.trans hclrex))

theorem ite_matches_eq_iff {size : BitVec 2} (old new : BitVec (8 * accessBytes size))
    (value : BitVec 64) :
    (if old.toNat = comparedOperand size value then new else old) =
        (if old = value.setWidth (8 * accessBytes size) then new else old) ↔
      comparedOperand size value = (value.setWidth (8 * accessBytes size)).toNat ∨
        old ≠ value.setWidth (8 * accessBytes size) ∨ old = new := by
  rcases comparedOperand_cases size value with hsame | hlarge
  · rw [hsame]
    exact iff_of_true (by simp only [BitVec.toNat_inj]) (Or.inl rfl)
  · rw [if_neg (by omega), or_iff_right (by omega)]
    by_cases heq : old = value.setWidth (8 * accessBytes size)
    · rw [if_pos heq, or_iff_right (not_not_intro heq)]
    · rw [if_neg heq]
      exact iff_of_true rfl (Or.inl heq)

section

variable {i : CasInstr} {s : State}
  (hapart : Apart (i.target s) (accessBytes i.size) (s.sp - 64#64) 64)

include hapart

/-- The island has the effect of the instruction unless it misses a match that
the bits above the access hide, and the store would have changed something. -/
theorem hasEffect_cas_iff (hrn : i.rn ≠ 31#5) (acquire : Bool) (island origAddr : WordPtr) :
    HasEffect (islandBlock { LseDecoded.ofCas i with acquire } island origAddr) s (i.run s) ↔
      2 ≤ i.size.toNat ∨
        ((s.readX i.rs).setWidth 32).toNat < 2 ^ (8 * accessBytes i.size) ∨
        readMem s.mem (i.target s) (accessBytes i.size) ≠
          (s.readX i.rs).setWidth (8 * accessBytes i.size) ∨
        readMem s.mem (i.target s) (accessBytes i.size) =
          (s.readX i.rt).setWidth (8 * accessBytes i.size) := by
  obtain ⟨s', hrun, heffect, -⟩ := cas_island_effect (d := { LseDecoded.ofCas i with acquire })
    rfl island origAddr hrn hapart
  have hn := accessBytes_le_two_pow i.size
  have hgpr : (casResult { LseDecoded.ofCas i with acquire } s).gpr = (i.run s).gpr := by
    change (State.writeX _ i.rs _).gpr = (State.writeX _ i.rs _).gpr
    unfold State.writeX
    split <;> rfl
  have hisland : (casResult { LseDecoded.ofCas i with acquire } s).mem = writeMem s.mem _ _ _ :=
    (State.writeX_mem _ _ _).trans (ite_writeMem (s.readX i.rt) hn _)
  have harch : (i.run s).mem = writeMem s.mem _ _ _ :=
    (State.writeX_mem _ _ _).trans (ite_writeMem (s.readX i.rt) hn _)
  rw [hasEffect_iff hrun heffect, sameEffect_writeMem_iff hn hapart hgpr
    ((State.writeX_vec _ _ _).trans (i.run_vec s).symm)
    ((State.writeX_nzcv _ _ _).trans (i.run_nzcv s).symm) hisland harch, BitVec.setWidth_eq,
    BitVec.setWidth_eq, ← or_assoc, ← comparedOperand_eq_iff]
  exact ite_matches_eq_iff _ _ _

end

theorem cas_island_hasEffect_iff {w : Word} {d : LseDecoded} {i : CasInstr} {s : State}
    (island origAddr : WordPtr) (hd : decodeLse w = some d) (hi : casInstr w = some i)
    (hrn : i.rn ≠ 31#5) (hapart : Apart (i.target s) (accessBytes i.size) (s.sp - 64#64) 64) :
    HasEffect (islandBlock d island origAddr) s (i.run s) ↔
      2 ≤ i.size.toNat ∨
        ((s.readX i.rs).setWidth 32).toNat < 2 ^ (8 * accessBytes i.size) ∨
        readMem s.mem (i.target s) (accessBytes i.size) ≠
          (s.readX i.rs).setWidth (8 * accessBytes i.size) ∨
        readMem s.mem (i.target s) (accessBytes i.size) =
          (s.readX i.rt).setWidth (8 * accessBytes i.size) := by
  obtain rfl := Option.some.inj (hd.symm.trans (decodeLse_of_casInstr hi))
  exact hasEffect_cas_iff hapart hrn true island origAddr

def casB : CasInstr where
  size := 0#2
  acquire := false
  release := false
  rs := 0#5
  rt := 1#5
  rn := 2#5

theorem casb_island_hasEffect :
    HasEffect (islandBlock { LseDecoded.ofCas casB with acquire := true } 0x100010#62 0x100000#62)
      (atSite 5#64 5#8) (casB.run (atSite 5#64 5#8)) :=
  (cas_island_hasEffect_iff (w := 0x08A07C41#32) (i := casB) _ _ (by decide) (by decide)
    (by decide) (apart_atSite _ 5#64 5#8)).mpr (by decide)

/-- The byte matches the operand byte, but not the operand register. -/
theorem casb_island_not_hasEffect :
    let d := { LseDecoded.ofCas casB with acquire := true }
    decodeLse 0x08A07C41#32 = some d ∧
      ¬ HasEffect (islandBlock d 0x100010#62 0x100000#62) (atSite 0x105#64 5#8)
        (casB.run (atSite 0x105#64 5#8)) := by
  refine ⟨by decide, ?_⟩
  rw [hasEffect_cas_iff (i := casB) (apart_atSite _ 0x105#64 5#8) (by decide)]
  decide

end Machgate.CasIsland
