import Machgate.CasIsland
import Machgate.RmwIsland

namespace Machgate.IslandAddress

open ByteMemory CodeBlock ConditionFlags Instructions IslandFrame IslandLoop LseDecode LseIsland
  MachineState ScratchRegisters StackFrame WordPointers List Option

def exclusiveBase : Instr → Option Reg
  | .ldxr _ _ _ rn => some rn
  | .stxr _ _ _ _ rn => some rn
  | _ => none

/-- Every exclusive that a pass from `s` executes accesses the location `a`. -/
def ExclusivesAccess (c : Block) (s : State) (a : Addr) : Prop :=
  ∀ t i r, c.Visits { s with pc := toAddr c.base } t → c.instrAt t.pc = some i →
    exclusiveBase i = some r → t.gpr r = a

/-- Control stays between the start of the loop and the word behind its retry
branch, and nothing on the way writes `rn`. -/
structure LoopOn (loop : List Instr) (rn : Reg) : Prop where
  head : ∃ size acquire rt, loop[0]? = some (.ldxr size acquire rt rn)
  short : loop.length < 2 ^ 18
  bases : ∀ i ∈ loop, ∀ r, exclusiveBase i = some r → r = rn
  dests : rn ≠ stackPointer → ∀ i ∈ loop, rn ∉ i.dests
  flow : ∀ k i, loop[k]? = some i → i.Sequential = true ∨
    ∃ cond, i = .bCond cond 3#19 ∧ k + 3 ≤ loop.length + 1

section

variable {c : Block} {saves : List Reg} {r status rn : Reg} {loop tail : List Instr}
  {back : BitVec 26}

theorem islandProgram_cases {k : Nat} {i : Instr}
    (hi : (islandProgram saves r loop status tail back)[k]? = some i) :
    (k < (prologue saves r).length ∧ i ∈ prologue saves r) ∨
      (∃ j, k = (prologue saves r).length + j ∧ loop[j]? = some i) ∨
      (k = (prologue saves r).length + loop.length ∧ i = .cbnzW status (backOver loop.length)) ∨
      ((prologue saves r).length + loop.length + 1 ≤ k ∧ i ∈ tail ++ epilogue saves r) ∨
      (k + 1 = (islandProgram saves r loop status tail back).length ∧ i = .b back) := by
  have hprog : islandProgram saves r loop status tail back =
      prologue saves r ++ (loop ++ (.cbnzW status (backOver loop.length) ::
        (tail ++ epilogue saves r ++ [.b back]))) := by
    simp [islandProgram]
  rw [hprog, getElem?_append] at hi
  split at hi
  · rename_i hk
    exact .inl ⟨hk, mem_of_getElem? hi⟩
  · rename_i hk
    obtain ⟨j, rfl⟩ := Nat.exists_eq_add_of_le (Nat.not_lt.mp hk)
    rw [Nat.add_sub_cancel_left, getElem?_append] at hi
    split at hi
    · exact .inr (.inl ⟨j, rfl, hi⟩)
    · rename_i hj
      obtain ⟨m, rfl⟩ := Nat.exists_eq_add_of_le (Nat.not_lt.mp hj)
      rw [Nat.add_sub_cancel_left] at hi
      cases m with
      | zero => exact .inr (.inr (.inl ⟨rfl, (some.inj hi).symm⟩))
      | succ m =>
        refine .inr (.inr (.inr ?_))
        rw [getElem?_cons_succ, getElem?_append] at hi
        split at hi
        · exact .inl ⟨by omega, mem_of_getElem? hi⟩
        · obtain ⟨hlast, hb⟩ := List.getElem?_eq_some_iff.mp hi
          simp only [length_singleton, Nat.lt_one_iff] at hlast
          simp only [hlast, getElem_cons_zero] at hb
          refine .inr ⟨?_, hb.symm⟩
          simp only [hprog, length_append, length_cons, length_nil] at *
          omega

theorem notMem_dests_prologue {q : Reg} (hr : r ∈ saves) (hq : q ∉ saves)
    (hsp : q ≠ stackPointer) : ∀ i ∈ prologue saves r, q ∉ i.dests := by
  have hne : q ≠ r := by
    rintro rfl
    exact hq hr
  intro i hi
  rcases mem_append.mp hi with hi | hi
  · obtain ⟨x, -, rfl⟩ := mem_map.mp hi
    simpa [push, Instr.dests] using hsp
  · rcases mem_pair.mp hi with rfl | rfl
    · simpa [Instr.dests] using hne
    · simpa [push, Instr.dests] using hsp

variable (himp : c.Implements (islandProgram saves r loop status tail back)) (hr : r ∈ saves)
  (hloop : LoopOn loop rn) (htail : ∀ i ∈ tail, i.Sequential = true)

include himp hr hloop htail

theorem base_kept (hrn : rn ∉ saves) (hsp : rn ≠ stackPointer) {s t : State}
    (hpc : s.pc = c.addr 0) (hvisits : c.Visits s t) :
    ∃ k, k < (islandProgram saves r loop status tail back).length ∧ t.pc = c.addr k ∧
      (k < (prologue saves r).length + loop.length + 1 → t.gpr rn = s.gpr rn) := by
  have hnonempty : islandProgram saves r loop status tail back ≠ [] := by simp [islandProgram]
  have hlength : (prologue saves r).length + loop.length + 1 <
      (islandProgram saves r loop status tail back).length := by
    simp only [islandProgram, length_append, length_singleton]
    omega
  refine himp.visits_invariant
    (I := fun k t => k < (prologue saves r).length + loop.length + 1 → t.gpr rn = s.gpr rn)
    hnonempty hpc (fun _ => rfl) ?_ hvisits
  intro k i t hi hk htpc hI
  have hnext : ∀ {i : Instr} {t : State}, i.Sequential = true → t.pc = c.addr k →
      (exec i t).pc = c.addr (k + 1) := by
    intro i t hseq htpc
    rw [c.addr_succ, ← htpc]
    exact nextPc_of_sequential hseq t
  rcases islandProgram_cases hi with ⟨hlt, hmem⟩ | ⟨j, rfl, hj⟩ | ⟨rfl, rfl⟩ | ⟨hge, hmem⟩ |
    ⟨hlast, -⟩
  · refine ⟨k + 1, hk, hnext (sequential_prologue saves r i hmem) htpc, fun _ => ?_⟩
    rw [gpr_exec_of_notMem (notMem_dests_prologue hr hrn hsp i hmem), hI (by omega)]
  · have hjlt : j < loop.length := (List.getElem?_eq_some_iff.mp hj).1
    have hsame : (exec i t).gpr rn = s.gpr rn := by
      rw [gpr_exec_of_notMem (hloop.dests hsp i (mem_of_getElem? hj)), hI (by omega)]
    rcases hloop.flow j i hj with hseq | ⟨cond, rfl, hahead⟩
    · exact ⟨_, hk, hnext hseq htpc, fun _ => hsame⟩
    · by_cases hcond : condHolds cond t.nzcv = true
      · refine ⟨(prologue saves r).length + j + 3, by omega, ?_, fun _ => hsame⟩
        change (if condHolds cond t.nzcv then _ else _) = _
        rw [if_pos hcond, htpc]
        exact (c.addr_add _ 3).symm
      · refine ⟨(prologue saves r).length + j + 1, by omega, ?_, fun _ => hsame⟩
        change (if condHolds cond t.nzcv then _ else _) = _
        rw [if_neg hcond, htpc, c.addr_succ]
  · have hsame : (exec (.cbnzW status (backOver loop.length)) t).gpr rn = s.gpr rn := hI (by omega)
    by_cases hzero : (t.readX status).setWidth 32 = 0#32
    · refine ⟨_, hk, ?_, fun _ => hsame⟩
      change (if _ then _ else _) = _
      rw [if_pos hzero, htpc, c.addr_succ]
    · refine ⟨(prologue saves r).length, by omega, ?_, fun _ => hsame⟩
      change (if _ then _ else _) = _
      rw [if_neg hzero, htpc, addr_backOver c _ hloop.short]
  · have hseq : i.Sequential = true := by
      rcases mem_append.mp hmem with hmem | hmem
      · exact htail i hmem
      · exact sequential_epilogue saves r i hmem
    exact ⟨k + 1, hk, hnext hseq htpc, fun hlt => by omega⟩
  · omega

theorem exclusivesAccess_of_ne (hplain : ∀ i ∈ tail, exclusiveBase i = none)
    (hrn : rn ∉ saves) (hsp : rn ≠ stackPointer) (s : State) :
    ExclusivesAccess c s (s.gpr rn) := by
  intro t i q hvisits hinstr hbase
  obtain ⟨k, hk, htpc, hI⟩ := base_kept himp hr hloop htail hrn hsp c.addr_zero.symm hvisits
  rw [htpc, himp.instrAt_addr hk] at hinstr
  rcases islandProgram_cases hinstr with ⟨-, hmem⟩ | ⟨j, rfl, hj⟩ | ⟨-, rfl⟩ | ⟨-, hmem⟩ | ⟨-, rfl⟩
  · rcases mem_append.mp hmem with hmem | hmem
    · obtain ⟨x, -, rfl⟩ := mem_map.mp hmem
      cases hbase
    · rcases mem_pair.mp hmem with rfl | rfl <;> cases hbase
  · obtain rfl := hloop.bases i (mem_of_getElem? hj) q hbase
    have hjlt : j < loop.length := (List.getElem?_eq_some_iff.mp hj).1
    exact hI (by omega)
  · cases hbase
  · rcases mem_append.mp hmem with hmem | hmem
    · rw [hplain i hmem] at hbase
      cases hbase
    · rcases mem_append.mp hmem with hmem | hmem
      · rcases mem_pair.mp hmem with rfl | rfl <;> cases hbase
      · obtain ⟨x, -, rfl⟩ := mem_map.mp hmem
        cases hbase
  · cases hbase

omit htail in
/-- The prologue moves the stack pointer before the first exclusive. -/
theorem not_exclusivesAccess_sp (hne : ∀ q ∈ saves, q ≠ stackPointer) (hfits : saves.length < 4)
    (hsp : rn = stackPointer) (s : State) : ¬ ExclusivesAccess c s (s.gpr rn) := by
  intro h
  obtain ⟨t, hvisits, htpc, hsaved⟩ := island_enters himp hr hne hfits
    (s := { s with pc := toAddr c.base }) c.addr_zero.symm
  obtain ⟨size, acquire, rt, hhead⟩ := hloop.head
  have hnonempty : 0 < loop.length := (List.getElem?_eq_some_iff.mp hhead).1
  have hat : (islandProgram saves r loop status tail back)[(prologue saves r).length]? =
      some (.ldxr size acquire rt rn) := by
    simp only [islandProgram, append_assoc]
    rw [getElem?_append_right (le_refl _), Nat.sub_self, getElem?_append_left hnonempty, hhead]
  have hinstr : c.instrAt t.pc = some (.ldxr size acquire rt rn) := by
    rw [htpc, himp.instrAt_addr (List.getElem?_eq_some_iff.mp hat).1, hat]
  have hmoved : t.sp = s.sp := by
    have haccess := h t _ rn hvisits hinstr rfl
    rwa [hsp] at haccess
  have hzero : BitVec.ofNat 64 (16 * (saves.length + 1)) = 0#64 := by
    rw [hsaved.sp, length_savedValues] at hmoved
    exact sub_eq_self.mp hmoved
  have hnat := congrArg BitVec.toNat hzero
  rw [BitVec.toNat_ofNat, Nat.mod_eq_of_lt (by omega)] at hnat
  simp at hnat

end

theorem loopOn_rmwLoop (d : LseDecoded) (p : ScratchTriple (operands d)) :
    LoopOn (rmwLoop d p) d.rn := by
  have hregs := p.notMem_regs (rn_mem_operands d)
  simp only [ScratchTriple.regs, mem_cons, not_mem_nil, or_false, not_or] at hregs
  obtain ⟨h1, h2, h3⟩ := hregs
  have hplain : ∀ i ∈ rmwOps d p, exclusiveBase i = none := by
    intro i hi
    rcases scratchOp_of_mem_rmwOps hi with _ | _ | _ | _ | _ <;> rfl
  have hdests : d.rn ≠ stackPointer → ∀ i ∈ rmwOps d p, d.rn ∉ i.dests := by
    intro hsp i hi
    have hextend : ∀ {rd : Reg}, rd = p.s2 ∨ rd = p.s3 → d.rn ≠ rd := by
      rintro rd (rfl | rfl)
      · exact h2
      · exact h3
    rcases scratchOp_of_mem_rmwOps hi with _ | _ | _ | ⟨_, hrd⟩ | ⟨_, hrd⟩
    · exact mt mem_singleton.mp h2
    · exact mt mem_singleton.mp hsp
    · exact mt mem_singleton.mp h2
    all_goals exact mt mem_singleton.mp (hextend hrd)
  refine ⟨⟨_, _, _, rfl⟩, (length_rmwLoop_le d p).trans_lt (by decide), ?_, ?_, ?_⟩
  · intro i hi r hbase
    rcases mem_append.mp hi with hi | hi
    · rcases mem_cons.mp hi with rfl | hi
      · exact (some.inj hbase).symm
      · rw [hplain i hi] at hbase
        cases hbase
    · rw [mem_singleton.mp hi] at hbase
      exact (some.inj hbase).symm
  · intro hsp i hi
    rcases mem_append.mp hi with hi | hi
    · rcases mem_cons.mp hi with rfl | hi
      · simpa [Instr.dests] using h1
      · exact hdests hsp i hi
    · rw [mem_singleton.mp hi]
      simpa [Instr.dests] using h3
  · intro k i hi
    exact .inl (RmwLoop.sequential_rmwLoop p i (mem_of_getElem? hi))

theorem loopOn_casLoop (d : LseDecoded) (p : ScratchPair (operands d)) :
    LoopOn (casLoop d p) d.rn := by
  have hregs := p.notMem_regs (rn_mem_operands d)
  simp only [ScratchPair.regs, mem_cons, not_mem_nil, or_false, not_or] at hregs
  obtain ⟨h1, h2⟩ := hregs
  refine ⟨⟨_, _, _, rfl⟩, (show 4 < 2 ^ 18 by decide), ?_, ?_, ?_⟩
  · simp [casLoop, exclusiveBase, eq_comm]
  · intro hsp
    simp [casLoop, Instr.dests, h1, h2, hsp]
  · intro k i hi
    rcases k with _ | _ | _ | _ | k
    · exact .inl (some.inj hi ▸ rfl)
    · exact .inl (some.inj hi ▸ rfl)
    · exact .inr ⟨condNe, (some.inj hi).symm, le_refl 5⟩
    · exact .inl (some.inj hi ▸ rfl)
    · cases hi

theorem exclusiveBase_mov (sf : Bool) (rd rn : Reg) :
    ∀ i ∈ movUnlessZero sf rd rn, exclusiveBase i = none := by
  unfold movUnlessZero
  split <;> simp [exclusiveBase]

theorem exclusivesAccess_island_iff (d : LseDecoded) (island origAddr : WordPtr) (s : State) :
    ExclusivesAccess (islandBlock d island origAddr) s (s.gpr d.rn) ↔ d.rn ≠ 31#5 := by
  rcases eq_or_ne d.op .cas with hop | hop
  · have himp := implements_casProgram hop island origAddr
    generalize casScratch d = p at himp
    have hplain : ∀ i ∈ casTail d p, exclusiveBase i = none :=
      forall_mem_cons.mpr ⟨rfl, exclusiveBase_mov _ _ _⟩
    have hseq : ∀ i ∈ casTail d p, i.Sequential = true :=
      forall_mem_cons.mpr ⟨rfl, LseArithmetic.sequential_mov _ _ _⟩
    constructor
    · intro h hsp
      exact not_exclusivesAccess_sp himp mem_cons_self (loopOn_casLoop d p)
        (CasIsland.regs_ne_sp p) (by decide : 2 < 4) hsp s h
    · intro hsp
      exact exclusivesAccess_of_ne himp mem_cons_self (loopOn_casLoop d p) hseq hplain
        (p.notMem_regs (rn_mem_operands d)) hsp s
  · have himp := implements_rmwProgram hop island origAddr
    generalize rmwScratch d = p at himp
    constructor
    · intro h hsp
      exact not_exclusivesAccess_sp himp mem_cons_self (loopOn_rmwLoop d p)
        (RmwLoop.regs_ne_sp p) (by decide : 3 < 4) hsp s h
    · intro hsp
      exact exclusivesAccess_of_ne himp mem_cons_self (loopOn_rmwLoop d p)
        (LseArithmetic.sequential_mov _ _ _) (exclusiveBase_mov _ _ _)
        (p.notMem_regs (rn_mem_operands d)) hsp s

/-- The exclusives of an island access the location of the original
instruction exactly when its base is not the stack pointer. -/
theorem exclusivesAccess_iff {w : Word} {d : LseDecoded} (hd : decodeLse w = some d)
    (island origAddr : WordPtr) (s : State) :
    ExclusivesAccess (islandBlock d island origAddr) s (s.gpr (fieldAt w 5)) ↔
      fieldAt w 5 ≠ 31#5 := by
  rw [← decodeLse_rn hd]
  exact exclusivesAccess_island_iff d island origAddr s

theorem exclusivesAccess_ldadd :
    ExclusivesAccess (islandBlock (LseDecoded.ofAtomic RmwIsland.ldaddX) 0x100010#62 0x100000#62)
      (atSite 1#64 0#8) ((atSite 1#64 0#8).gpr 2#5) :=
  (exclusivesAccess_iff (w := 0xF8200041#32) (by decide) _ _ _).mpr (by decide)

/-- `ldadd x0, x1, [sp]` -/
theorem not_exclusivesAccess_ldadd_sp :
    let d := LseDecoded.ofAtomic { RmwIsland.ldaddX with rn := 31#5 }
    decodeLse 0xF82003E1#32 = some d ∧
      ¬ ExclusivesAccess (islandBlock d 0x100010#62 0x100000#62) (atSite 1#64 0#8)
        ((atSite 1#64 0#8).gpr 31#5) := by
  refine ⟨by decide, fun h => ?_⟩
  exact (exclusivesAccess_island_iff
    (LseDecoded.ofAtomic { RmwIsland.ldaddX with rn := 31#5 }) _ _ _).mp h rfl

end Machgate.IslandAddress
