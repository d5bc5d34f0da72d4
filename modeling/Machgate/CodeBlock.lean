import Machgate.WordPointers

namespace Machgate.CodeBlock

open ByteMemory Instructions MachineState WordPointers Relation List BitVec Option Nat

structure Block where
  base : WordPtr
  words : List Word
  fits : words.length < 2 ^ 62

def Block.addr (c : Block) (i : Nat) : Addr :=
  toAddr (c.base + BitVec.ofNat 62 i)

def Block.fetch (c : Block) (pc : Addr) : Option Word :=
  if pc.extractLsb' 0 2 = 0#2 then c.words[(pc.extractLsb' 2 62 - c.base).toNat]? else none

def Block.instrAt (c : Block) (pc : Addr) : Option Instr :=
  (c.fetch pc).bind decode

def Block.step (c : Block) (s : State) : Option State :=
  (c.instrAt s.pc).map fun i => exec i s

def Block.lastAddr (c : Block) : Addr :=
  c.addr (c.words.length - 1)

/-- One step that does not leave the block through its last word. -/
def Block.Inner (c : Block) (s t : State) : Prop :=
  s.pc ≠ c.lastAddr ∧ c.step s = some t

/-- The states of one pass through the block, up to the last word. -/
def Block.Visits (c : Block) : State → State → Prop :=
  ReflTransGen c.Inner

/-- A pass through the block that ends by executing its last word. -/
def Block.Completes (c : Block) (s s' : State) : Prop :=
  ∃ t, c.Visits s t ∧ t.pc = c.lastAddr ∧ c.step t = some s'

theorem Block.completes_unique (c : Block) {s a b : State} (ha : c.Completes s a)
    (hb : c.Completes s b) : a = b := by
  obtain ⟨t, hst, hlast, hstep⟩ := ha
  obtain ⟨t', hst', hlast', hstep'⟩ := hb
  have hunique : Relator.RightUnique c.Inner := by
    rintro x y z ⟨-, hy⟩ ⟨-, hz⟩
    exact some.inj (hy.symm.trans hz)
  -- Nothing follows the last word inside the pass, so the later state is the earlier one.
  have hstuck : ∀ {x y : State}, x.pc = c.lastAddr → c.Visits x y → x = y := by
    intro x y hx hxy
    rcases ReflTransGen.cases_head hxy with h | ⟨z, ⟨hz, -⟩, -⟩
    · exact h
    · exact absurd hx hz
  have hsame : t = t' := by
    rcases ReflTransGen.total_of_right_unique hunique hst hst' with h | h
    · exact hstuck hlast h
    · exact (hstuck hlast' h).symm
  subst hsame
  exact some.inj (hstep.symm.trans hstep')

theorem Block.Completes.of_visits {c : Block} {s t s' : State} (h : c.Visits s t)
    (ht : c.Completes t s') : c.Completes s s' := by
  obtain ⟨u, hu, hlast, hstep⟩ := ht
  exact ⟨u, h.trans hu, hlast, hstep⟩

theorem Block.addr_zero (c : Block) : c.addr 0 = toAddr c.base :=
  congrArg toAddr (BitVec.add_zero c.base)

theorem Block.addr_add (c : Block) (i k : Nat) :
    c.addr (i + k) = c.addr i + toAddr (BitVec.ofNat 62 k) := by
  rw [Block.addr, Block.addr, ofNat_add, ← BitVec.add_assoc, toAddr_add]

theorem Block.addr_succ (c : Block) (i : Nat) : c.addr (i + 1) = c.addr i + 4#64 :=
  c.addr_add i 1

theorem Block.addr_ne {c : Block} {i j : Nat} (hi : i < c.words.length)
    (hj : j < c.words.length) (h : i ≠ j) : c.addr i ≠ c.addr j := by
  intro heq
  have hfits := c.fits
  have hoffset := BitVec.add_right_inj _ |>.mp (toAddr_injective heq)
  have hnat := congrArg BitVec.toNat hoffset
  rw [toNat_ofNat, toNat_ofNat, mod_eq_of_lt (by omega), mod_eq_of_lt (by omega)] at hnat
  exact h hnat

theorem Block.fetch_addr {c : Block} {i : Nat} (hi : i < c.words.length) :
    c.fetch (c.addr i) = c.words[i]? := by
  have hfits := c.fits
  have hlow : (c.addr i).extractLsb' 0 2 = 0#2 := extractLsb'_append_eq_right
  have hhigh : (c.addr i).extractLsb' 2 62 = c.base + BitVec.ofNat 62 i :=
    extractLsb'_append_eq_left
  rw [Block.fetch, if_pos hlow, hhigh, add_sub_cancel_left, toNat_ofNat, mod_eq_of_lt (by omega)]

def Block.Implements (c : Block) (prog : List Instr) : Prop :=
  c.words.map decode = prog.map some

variable {c : Block} {prog : List Instr} (himp : c.Implements prog)

include himp

theorem Block.Implements.length_eq : c.words.length = prog.length := by
  have h := congrArg length himp
  simpa using h

variable {i : Nat} {ins : Instr} {s : State}

theorem Block.Implements.instrAt_addr (hi : i < prog.length) : c.instrAt (c.addr i) = prog[i]? := by
  have hlt : i < c.words.length := by rwa [himp.length_eq]
  have hword : c.words[i]?.map decode = some prog[i]? := by
    rw [← getElem?_map, himp, getElem?_map, List.getElem?_eq_getElem hi]
    rfl
  rw [Block.instrAt, Block.fetch_addr hlt]
  obtain ⟨w, hw, hdecode⟩ := map_eq_some_iff.mp hword
  rw [hw, bind_some, hdecode]

theorem Block.Implements.step_eq
    (hi : prog[i]? = some ins) (hpc : s.pc = c.addr i) : c.step s = some (exec ins s) := by
  rw [Block.step, hpc, himp.instrAt_addr (List.getElem?_eq_some_iff.mp hi).1, hi]
  rfl

theorem Block.Implements.inner
    (hi : prog[i]? = some ins) (hlast : i + 1 < prog.length) (hpc : s.pc = c.addr i) :
    c.Inner s (exec ins s) := by
  have hlength := himp.length_eq
  refine ⟨?_, himp.step_eq hi hpc⟩
  rw [hpc]
  exact Block.addr_ne (by omega) (by omega) (by omega)

theorem Block.Implements.visits_runSeq {pre seg post : List Instr}
    (hprog : prog = pre ++ seg ++ post) (hpost : post ≠ [])
    (hseq : ∀ i ∈ seg, i.Sequential = true) (hpc : s.pc = c.addr pre.length) :
    c.Visits s (runSeq seg s) ∧ (runSeq seg s).pc = c.addr (pre.length + seg.length) := by
  induction seg generalizing pre s with
  | nil => exact ⟨ReflTransGen.refl, hpc⟩
  | cons i seg ih =>
    have hi : prog[pre.length]? = some i := by simp [hprog]
    have hpostLength : 0 < post.length := length_pos_of_ne_nil hpost
    have hlast : pre.length + 1 < prog.length := by
      simp only [hprog, length_append, length_cons]
      omega
    have hnext : (exec i s).pc = c.addr (pre ++ [i]).length := by
      rw [length_append, length_singleton, c.addr_succ, ← hpc]
      exact nextPc_of_sequential (hseq i mem_cons_self) s
    obtain ⟨hvisits, hend⟩ := ih (by simp [hprog]) (fun j hj => hseq j (mem_cons_of_mem i hj)) hnext
    refine ⟨ReflTransGen.head (himp.inner hi hlast hpc) hvisits, ?_⟩
    rw [runSeq, foldl_cons, ← runSeq, hend]
    congr 1
    simp only [length_append, length_cons, length_nil]
    omega

/-- Along a pass the program counter stays on the words of the block, and what
each instruction preserves holds throughout. -/
theorem Block.Implements.visits_invariant {I : Nat → State → Prop}
    (hne : prog ≠ []) (hpc : s.pc = c.addr 0) (hinit : I 0 s)
    (hstep : ∀ k ins t, prog[k]? = some ins → k + 1 < prog.length → t.pc = c.addr k → I k t →
      ∃ j, j < prog.length ∧ (exec ins t).pc = c.addr j ∧ I j (exec ins t))
    {t : State} (h : c.Visits s t) : ∃ k, k < prog.length ∧ t.pc = c.addr k ∧ I k t := by
  induction h with
  | refl => exact ⟨0, length_pos_of_ne_nil hne, hpc, hinit⟩
  | tail hvisits hinner ih =>
    obtain ⟨k, hk, htpc, hI⟩ := ih
    obtain ⟨hlast, hnext⟩ := hinner
    have hins := List.getElem?_eq_getElem hk
    rw [himp.step_eq hins htpc] at hnext
    obtain rfl := some.inj hnext
    refine hstep k _ _ hins ?_ htpc hI
    by_contra hend
    have hlength := himp.length_eq
    refine hlast (htpc.trans ?_)
    rw [Block.lastAddr]
    congr 1
    omega

theorem Block.Implements.completes_last {pre : List Instr}
    (hprog : prog = pre ++ [ins]) (hpc : s.pc = c.addr pre.length) :
    c.Completes s (exec ins s) := by
  have hlength := himp.length_eq
  refine ⟨s, ReflTransGen.refl, ?_, himp.step_eq (by simp [hprog]) hpc⟩
  rw [hpc, Block.lastAddr]
  congr 1
  simp only [hprog, length_append, length_singleton] at hlength
  omega

theorem Block.Implements.completes_straight {seg : List Instr}
    (hprog : prog = seg ++ [ins]) (hseq : ∀ i ∈ seg, i.Sequential = true) (hpc : s.pc = c.addr 0) :
    c.Completes s (exec ins (runSeq seg s)) ∧ (runSeq seg s).pc = c.lastAddr := by
  obtain ⟨hvisits, hend⟩ := himp.visits_runSeq (show prog = [] ++ _ ++ _ by simpa using hprog) (by simp) hseq hpc
  rw [length_nil, Nat.zero_add] at hend
  refine ⟨Block.Completes.of_visits hvisits (himp.completes_last hprog hend), hend.trans ?_⟩
  rw [Block.lastAddr, himp.length_eq, hprog, length_append, length_singleton, Nat.add_sub_cancel]

end Machgate.CodeBlock
