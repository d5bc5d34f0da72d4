import Machgate.AtomicSemantics
import Machgate.CodeBlock
import Machgate.StackFrame

namespace Machgate.IslandFrame

open AtomicSemantics ByteMemory CodeBlock ConditionFlags Instructions MachineState StackFrame List
  WordPointers Relation

/-- Entered at its first word in `s`, the block finishes with the effect of `t`,
wherever its last branch leads. -/
def HasEffect (c : Block) (s t : State) : Prop :=
  ∃ s', c.Completes { s with pc := toAddr c.base } s' ∧ SameEffect s.sp s' t

def Replaces (c : Block) (s t : State) : Prop :=
  ∃ s', c.Completes { s with pc := toAddr c.base } s' ∧ SameEffect s.sp s' t ∧ s'.pc = t.pc

theorem hasEffect_iff {c : Block} {s s' r t : State}
    (hrun : c.Completes { s with pc := toAddr c.base } s') (heffect : SameEffect s.sp s' r) :
    HasEffect c s t ↔ SameEffect s.sp r t := by
  constructor
  · rintro ⟨u, hu, hut⟩
    rw [c.completes_unique hu hrun] at hut
    exact heffect.symm.trans hut
  · intro h
    exact ⟨s', hrun, heffect.trans h⟩

theorem replaces_iff {c : Block} {s s' r t : State}
    (hrun : c.Completes { s with pc := toAddr c.base } s') (heffect : SameEffect s.sp s' r) :
    Replaces c s t ↔ SameEffect s.sp r t ∧ s'.pc = t.pc := by
  constructor
  · rintro ⟨u, hu, hut, hpc⟩
    rw [c.completes_unique hu hrun] at hut hpc
    exact ⟨heffect.symm.trans hut, hpc⟩
  · rintro ⟨h, hpc⟩
    exact ⟨s', hrun, heffect.trans h, hpc⟩

def prologue (saves : List Reg) (r : Reg) : List Instr :=
  saves.map push ++ [.mrsNzcv r, push r]

def epilogue (saves : List Reg) (r : Reg) : List Instr :=
  [pop r, .msrNzcv r] ++ saves.reverse.map pop

def backOver (n : Nat) : BitVec 19 :=
  (BitVec.ofInt 32 (-(n : Int))).setWidth 19

/-- The shape of an island: save, retry `loop` until the status register is
zero, finish with `tail`, restore, branch back. -/
def islandProgram (saves : List Reg) (r : Reg) (loop : List Instr) (status : Reg)
    (tail : List Instr) (back : BitVec 26) : List Instr :=
  prologue saves r ++ loop ++ [.cbnzW status (backOver loop.length)] ++ tail ++
    epilogue saves r ++ [.b back]

def savedValues (saves : List Reg) (s : State) : List (BitVec 64) :=
  s.nzcv.pack :: (saves.map s.gpr).reverse

theorem length_savedValues (saves : List Reg) (s : State) :
    (savedValues saves s).length = saves.length + 1 := by
  simp [savedValues]

theorem savedValues_congr {saves : List Reg} {s t : State} (hnzcv : t.nzcv = s.nzcv)
    (hgpr : ∀ r ∈ saves, t.gpr r = s.gpr r) : savedValues saves t = savedValues saves s := by
  rw [savedValues, savedValues, hnzcv, map_congr_left hgpr]

theorem sequential_prologue (saves : List Reg) (r : Reg) :
    ∀ i ∈ prologue saves r, i.Sequential = true := by
  intro i hi
  rcases mem_append.mp hi with hpush | hflags
  · obtain ⟨q, -, rfl⟩ := mem_map.mp hpush
    rfl
  · rcases mem_pair.mp hflags with rfl | rfl <;> rfl

theorem sequential_epilogue (saves : List Reg) (r : Reg) :
    ∀ i ∈ epilogue saves r, i.Sequential = true := by
  intro i hi
  rcases mem_append.mp hi with hflags | hpop
  · rcases mem_pair.mp hflags with rfl | rfl <;> rfl
  · obtain ⟨q, -, rfl⟩ := mem_map.mp hpop
    rfl

section

variable {saves : List Reg} {r : Reg} (hr : r ∈ saves)
  (hne : ∀ q ∈ saves, q ≠ stackPointer) (hfits : saves.length < 4)

include hr hne hfits

theorem saved_prologue (s : State) :
    Saved (savedValues saves s) saves s (runSeq (prologue saves r) s) := by
  have hpushed := saved_pushes (saved_nil saves s) hne (by simp only [length_nil]; omega)
  rw [append_nil] at hpushed
  have hnzcv := nzcv_pushes saves s
  rw [prologue, runSeq_append]
  generalize runSeq (saves.map push) s = t at hpushed hnzcv
  have hflags : Saved (saves.map s.gpr).reverse saves s (exec (.mrsNzcv r) t) :=
    hpushed.keeps (fun hmem => hne _ hmem rfl) (keeps_exec (keeps_writeX hr t.nzcv.pack t))
  have hvalue : (exec (.mrsNzcv r) t).gpr r = s.nzcv.pack := by
    rw [← hnzcv]
    exact State.gpr_writeX_self t _ (hne r hr)
  have hlast := hflags.exec_push (hne r hr) (by simp; omega)
  rw [hvalue] at hlast
  exact hlast

theorem sameEffect_epilogue {s t : State} (h : Saved (savedValues saves s) saves s t) :
    SameEffect s.sp (runSeq (epilogue saves r) t) s := by
  have hlength := length_savedValues saves s
  have hfirst : Popped [r] (fun _ => s.nzcv.pack) t (exec (pop r) t) :=
    popped_pop (hne r hr) h.frame.1
  have hflags : Nzcv.unpack ((exec (pop r) t).readX r) = s.nzcv := by
    rw [State.readX_of_ne (hne r hr), hfirst.restored r (mem_singleton_self r), Nzcv.unpack_pack]
  rw [epilogue, runSeq_append, runSeq_cons, runSeq_cons, runSeq_nil]
  generalize hu : exec (.msrNzcv r) (exec (pop r) t) = u
  have hugpr : u.gpr = (exec (pop r) t).gpr := by
    rw [← hu]
    rfl
  have humem : u.mem = t.mem := by
    rw [← hfirst.mem, ← hu]
    rfl
  have huvec : u.vec = t.vec := by
    rw [← hfirst.vec, ← hu]
    rfl
  have hunzcv : u.nzcv = s.nzcv := by
    rw [← hflags, ← hu]
    rfl
  have husp : u.sp = t.sp + 16#64 := by
    rw [State.sp, hugpr]
    exact hfirst.sp
  have hframe : Frame u.mem u.sp (saves.reverse.map s.gpr) := by
    rw [humem, husp, map_reverse]
    exact h.frame.2
  have hpopped := popped_pops (fun q hq => hne q (mem_reverse.mp hq)) hframe
  refine ⟨?_, ?_, hpopped.nzcv.trans hunzcv, ?_⟩
  · funext q
    by_cases hq : q ∈ saves
    · exact hpopped.restored q (mem_reverse.mpr hq)
    · by_cases hqsp : q = stackPointer
      · subst hqsp
        have hend := hpopped.sp
        rw [husp, h.sp, hlength, length_reverse] at hend
        change (runSeq (saves.reverse.map pop) u).sp = s.sp
        rw [hend, Nat.mul_succ, Nat.add_comm (16 * saves.length), BitVec.ofNat_add, ← sub_sub,
          sub_right_comm, BitVec.sub_add_cancel, BitVec.sub_add_cancel]
      · rw [hpopped.gpr q (by simpa using hq) hqsp, hugpr,
          hfirst.gpr q (fun hmem => hq (mem_singleton.mp hmem ▸ hr)) hqsp]
        exact h.gpr q hq hqsp
  · rw [hpopped.vec, huvec, h.vec]
  · intro b hb
    rw [hpopped.mem, humem]
    exact h.mem b fun hin => hb (h.inRange_below (by omega) hin)

end

section

variable {c : Block} {saves : List Reg} {r status : Reg} {loop tail : List Instr}
  {back : BitVec 26} (himp : c.Implements (islandProgram saves r loop status tail back))
  (hr : r ∈ saves) (hne : ∀ q ∈ saves, q ≠ stackPointer) (hfits : saves.length < 4)

include himp hr hne hfits

theorem island_enters {s : State} (hpc : s.pc = c.addr 0) :
    ∃ t, c.Visits s t ∧ t.pc = c.addr (prologue saves r).length ∧
      Saved (savedValues saves s) saves s t := by
  have hprog : islandProgram saves r loop status tail back = [] ++ prologue saves r ++
      (loop ++ [.cbnzW status (backOver loop.length)] ++ tail ++ epilogue saves r ++
        [.b back]) := by
    simp [islandProgram]
  obtain ⟨hvisits, hend⟩ := himp.visits_runSeq hprog (by simp) (sequential_prologue saves r) hpc
  refine ⟨_, hvisits, ?_, saved_prologue hr hne hfits s⟩
  simpa using hend

theorem island_leaves (htail : ∀ i ∈ tail, i.Sequential = true) {s u : State}
    (hpc : u.pc = c.addr ((prologue saves r).length + loop.length + 1))
    (hsaved : Saved (savedValues saves s) saves s (runSeq tail u)) :
    ∃ s', c.Completes u s' ∧ SameEffect s.sp s' s ∧
      s'.pc = c.lastAddr + branchOffset back := by
  have hprog : islandProgram saves r loop status tail back =
      (prologue saves r ++ loop ++ [.cbnzW status (backOver loop.length)]) ++
        (tail ++ epilogue saves r) ++ [.b back] := by
    simp [islandProgram]
  have hseq : ∀ i ∈ tail ++ epilogue saves r, i.Sequential = true := by
    intro i hi
    rcases mem_append.mp hi with h | h
    · exact htail i h
    · exact sequential_epilogue saves r i h
  obtain ⟨hvisits, hend⟩ := himp.visits_runSeq hprog (by simp) hseq (by simpa [Nat.add_assoc] using hpc)
  have hcompletes := himp.completes_last hprog (hend.trans (congrArg c.addr length_append.symm))
  have heffect := sameEffect_epilogue hr hne hfits hsaved
  rw [runSeq_append] at hvisits hend hcompletes
  refine ⟨_, Block.Completes.of_visits hvisits hcompletes,
    ⟨heffect.gpr, heffect.vec, heffect.nzcv, heffect.mem⟩, ?_⟩
  have hlength := himp.length_eq
  rw [hprog, length_append, length_append, length_singleton] at hlength
  rw [Block.lastAddr, hlength, Nat.add_sub_cancel, ← hend]
  rfl

/-- An island takes `s` to `r` when its loop and tail do so underneath the saved
frame. -/
theorem island_completes (htail : ∀ i ∈ tail, i.Sequential = true) {s r' : State}
    (hpc : s.pc = toAddr c.base) (hloop : ∀ t, t.pc = c.addr (prologue saves r).length →
      Saved (savedValues saves s) saves s t →
      ∃ u, c.Visits t u ∧ u.pc = c.addr ((prologue saves r).length + loop.length + 1) ∧
        Saved (savedValues saves r') saves r' (runSeq tail u)) :
    ∃ s', c.Completes s s' ∧ SameEffect r'.sp s' r' ∧
      s'.pc = c.lastAddr + branchOffset back := by
  obtain ⟨t, hst, htpc, hsaved⟩ := island_enters himp hr hne hfits (hpc.trans c.addr_zero.symm)
  obtain ⟨u, htu, hupc, hend⟩ := hloop t htpc hsaved
  obtain ⟨s', hus, heffect, hlast⟩ := island_leaves himp hr hne hfits htail hupc hend
  exact ⟨s', (hus.of_visits htu).of_visits hst, heffect, hlast⟩

end

def atSite (x : BitVec 64) (byte : BitVec 8) : State :=
  State.initial (toAddr 0x100000#62)
    (fun r => if r = 31#5 then 0x2000#64 else if r = 0#5 then x else 0#64) fun _ => byte

theorem apart_atSite (size : BitVec 2) (x : BitVec 64) (byte : BitVec 8) :
    Apart ((atSite x byte).gpr 2#5) (accessBytes size) ((atSite x byte).sp - 64#64) 64 := by
  have hbase : (atSite x byte).gpr 2#5 = 0#64 := rfl
  have hsp : (atSite x byte).sp = 0x2000#64 := rfl
  have hle := accessBytes_le size
  rw [hbase, hsp]
  refine apart_of_le ?_ (by decide)
  change 0 + _ ≤ 0x1FC0
  omega

end Machgate.IslandFrame
