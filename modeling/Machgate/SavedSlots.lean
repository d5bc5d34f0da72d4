import Machgate.ByteMemory

/-!
Lists of assignments, and memory seen as 8-byte slots above a base: what a sequence of saves or of
reloads leaves behind is read off the last assignment to each name.
-/

namespace Machgate.SavedSlots

open ByteMemory Function List

section

variable {κ β α : Type} [DecidableEq κ]

/-- Assigns to each key of the list, in order, the value of what is listed with it. -/
def assignAll (v : β → α) (l : List (κ × β)) (f : κ → α) : κ → α :=
  l.foldl (fun g e => Function.update g e.1 (v e.2)) f

theorem assignAll_apply (v : β → α) (l : List (κ × β)) (f : κ → α) (k : κ) :
    assignAll v l f k = ((l.reverse.lookup k).map v).getD (f k) := by
  induction l generalizing f with
  | nil => rfl
  | cons e rest ih =>
    obtain ⟨key, b⟩ := e
    rw [reverse_cons, lookup_append]
    change assignAll v rest (update f key (v b)) k = _
    rw [ih]
    rcases rest.reverse.lookup k with _ | found
    · rcases eq_or_ne k key with rfl | hne
      · simp
      · simp [update_of_ne hne, lookup_cons, beq_false_of_ne hne]
    · rfl

theorem assignAll_append (v : β → α) (l l' : List (κ × β)) (f : κ → α) :
    assignAll v (l ++ l') f = assignAll v l' (assignAll v l f) :=
  foldl_append

end

def slotAddr (base : Addr) (k : Nat) : Addr := base + BitVec.ofNat 64 (8 * k)

def readSlot (mem : Memory) (base : Addr) (k : Nat) : BitVec 64 := readMem mem (slotAddr base k) 8

def writeSlot (mem : Memory) (base : Addr) (k : Nat) (v : BitVec 64) : Memory :=
  writeMem mem (slotAddr base k) 8 v

variable {mem : Memory} {base : Addr} {k n : Nat}

theorem slotAddr_succ (base : Addr) (k : Nat) : slotAddr base (k + 1) = slotAddr base k + 8#64 := by
  rw [slotAddr, slotAddr, Nat.mul_succ, BitVec.ofNat_add, BitVec.add_assoc]

theorem slots_apart (base : Addr) {j k : Nat} (hj : j < 2 ^ 61) (hk : k < 2 ^ 61) (h : j ≠ k) :
    Apart (slotAddr base j) 8 (slotAddr base k) 8 := by
  rcases Nat.lt_or_gt_of_ne h with hlt | hlt
  · exact apart_offsets base (by omega) (by omega)
  · exact (apart_offsets base (by omega) (by omega)).symm

theorem readSlot_writeSlot (mem : Memory) (base : Addr) {j k : Nat} (hj : j < 2 ^ 61)
    (hk : k < 2 ^ 61) (v : BitVec 64) :
    readSlot (writeSlot mem base k v) base j = update (readSlot mem base) k v j := by
  rcases eq_or_ne j k with rfl | hne
  · rw [update_self]
    exact readMem_writeMem mem _ v (by decide)
  · rw [update_of_ne hne]
    apply readMem_congr (by decide)
    intro b hb
    exact writeMem_of_not_inRange (slots_apart base hj hk hne b hb)

theorem writeSlot_of_not_inRange {v : BitVec 64} {b : Addr} (hk : k < n) (hn : n ≤ 2 ^ 61)
    (hb : ¬ InRange base (8 * n) b) : writeSlot mem base k v b = mem b := by
  apply writeMem_of_not_inRange
  intro hslot
  exact hb (InRange.widen hslot (by omega) (by omega))

def writeSlots {β : Type} (v : β → BitVec 64) (base : Addr) (l : List (Nat × β)) (mem : Memory) :
    Memory :=
  l.foldl (fun m e => writeSlot m base e.1 (v e.2)) mem

variable {β : Type} {v : β → BitVec 64} {l : List (Nat × β)}

theorem readSlot_writeSlots (hl : ∀ e ∈ l, e.1 < 2 ^ 61) (hk : k < 2 ^ 61) :
    readSlot (writeSlots v base l mem) base k = assignAll v l (readSlot mem base) k := by
  induction l generalizing mem with
  | nil => rfl
  | cons e rest ih =>
    change readSlot (writeSlots v base rest (writeSlot mem base e.1 (v e.2))) base k = _
    rw [ih fun e' he' => hl e' (mem_cons_of_mem _ he'), assignAll_apply]
    rw [readSlot_writeSlot mem base hk (hl e mem_cons_self)]
    exact (assignAll_apply v rest (update (readSlot mem base) e.1 (v e.2)) k).symm

theorem writeSlots_of_not_inRange {b : Addr} (hl : ∀ e ∈ l, e.1 < n) (hn : n ≤ 2 ^ 61)
    (hb : ¬ InRange base (8 * n) b) : writeSlots v base l mem b = mem b := by
  induction l generalizing mem with
  | nil => rfl
  | cons e rest ih =>
    change writeSlots v base rest (writeSlot mem base e.1 (v e.2)) b = _
    rw [ih fun e' he' => hl e' (mem_cons_of_mem _ he')]
    exact writeSlot_of_not_inRange (hl e mem_cons_self) hn hb

end Machgate.SavedSlots
