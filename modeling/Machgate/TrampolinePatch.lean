import Mathlib.Data.List.Pairwise
import Machgate.PatcherRuns
import Machgate.StaleDataGuard

namespace Machgate.TrampolinePatch

open Arm64Encoders ByteMemory Instructions Patcher PatcherMeaning PatcherRuns RecordBuffer
open List BitVec Option Prod Nat
open SymbolIndex StaleDataGuard
open GatePools (alignDown alignUp arm64BranchInRange)
open PatchText (Word)

/-- The 16 bytes of an island: it branches to an address, or it loads a name and branches to the
island that calls `trampoline_abort`. -/
inductive Island
  | jump (target : Addr)
  | trap (name : List Octet) (caller : Addr)
deriving DecidableEq

/-- What a call of `trampoline_patch_lib` is about: the image, the prefixes, the overrides, the
native library's `dlsym` and the island pool.  The sections with instructions are given by their
numbers. -/
structure Library where
  slide : BitVec 64
  vmaddr : BitVec 64
  vmsize : BitVec 64
  pageSize : BitVec 64
  table : SymbolTable
  instructions : BitVec 8 → Bool
  prefixes : List (List Octet)
  overrides : List (List Octet × Addr)
  dlsym : List Octet → Addr
  poolBase : Addr
  poolSize : BitVec 64
  trampolineAbort : Addr

/-- The islands in the pool, `__TEXT`, and the symbols that were patched with their islands, the
last one first. -/
structure State where
  islands : List Island
  abortCaller : Option Addr
  text : Memory
  log : List (Nlist64 × Addr)

/-- The name with the letters that the mask selects, of the first 16 such letters, exchanged. -/
def exchange (old new : Octet) (mask : Nat) : Nat → List Octet → List Octet
  | _, [] => []
  | j, c :: name =>
    if c = old ∧ j < 16 then
      (if mask.testBit j then new else c) :: exchange old new mask (j + 1) name
    else c :: exchange old new mask j name

def firstVariant (dlsym : List Octet → Addr) (old new : Octet) (name : List Octet) : Addr :=
  (((List.range (2 ^ min 16 (name.count old))).tail.map fun mask =>
    dlsym (exchange old new mask 0 name)).find? (· ≠ 0)).getD 0

def tryManglingVariants (dlsym : List Octet → Addr) (name : List Octet) : Addr :=
  if name.count 0x79 = 0 then 0
  else
    let found := firstVariant dlsym 0x79 0x6d name
    if found ≠ 0 then found else firstVariant dlsym 0x6d 0x79 name

namespace Library

variable (lib : Library)

def textPatchBase : Addr := alignDown (lib.vmaddr + lib.slide) lib.pageSize

def textPatchSize : BitVec 64 :=
  alignUp (lib.vmaddr + lib.slide + lib.vmsize) lib.pageSize - lib.textPatchBase

def funcAddr (sym : Nlist64) : Addr := sym.nValue + lib.slide

def Matching (sym : Nlist64) : Prop :=
  Scanned lib.table sym ∧ sym.nType &&& 1 ≠ 0 ∧
    matchesPrefix (lib.table.symName sym) lib.prefixes ∧
    lib.textPatchBase ≤ lib.funcAddr sym ∧
    lib.funcAddr sym < lib.textPatchBase + lib.textPatchSize

instance (sym : Nlist64) : Decidable (lib.Matching sym) := inferInstanceAs (Decidable (_ ∧ _))

def nativeTarget (name : List Octet) : Addr :=
  let name := if name.head? = some 0x5f then name.tail else name
  let found := lib.dlsym name
  if found = 0 ∧ [0x5f, 0x5a, 0x4e].isPrefixOf name then tryManglingVariants lib.dlsym name
  else found

/-- The override or else the native function of a symbol; 0 is no target. -/
def target (sym : Nlist64) : Option Addr :=
  let name := lib.table.symName sym
  let override := ((lib.overrides.find? (·.1 = name)).map Prod.snd).getD 0
  let found := if override ≠ 0 then override else lib.nativeTarget name
  if found = 0 then none else some found

def islandAddr (k : Nat) : Addr := lib.poolBase + BitVec.ofNat 64 (16 * k)

def islandAt (islands : List Island) (a : Addr) : Option Island :=
  let offset := (a - lib.poolBase).toNat
  if offset % 16 = 0 then islands[offset / 16]? else none

def allocIsland (st : State) (island : Island) : Option (Addr × State) :=
  if lib.poolSize.toNat < 16 * st.islands.length + 16 then none
  else some (lib.islandAddr st.islands.length, { st with islands := st.islands ++ [island] })

def getAbortCaller (st : State) : Option (Addr × State) :=
  match st.abortCaller with
  | some a => some (a, st)
  | none => (lib.allocIsland st (.jump lib.trampolineAbort)).map fun (a, st) =>
    (a, { st with abortCaller := some a })

def makeAbortIsland (st : State) (name : List Octet) : Option Addr × State :=
  match lib.getAbortCaller st with
  | none => (none, st)
  | some (caller, st) =>
    match encodeBranch encB (lib.islandAddr st.islands.length + 4) caller,
      lib.allocIsland st (.trap name caller) with
    | some _, some (a, st) => (some a, st)
    | _, _ => (none, st)

def writeTrampoline (st : State) (sym : Nlist64) (native : Addr) : State :=
  match lib.allocIsland st (.jump native) with
  | none => st
  | some (island, st) =>
    match encodeBranch encB (lib.funcAddr sym) island with
    | none => st
    | some word =>
      { st with text := storeWord st.text (lib.funcAddr sym) word
                log := (sym, island) :: st.log }

def patchSymbol (st : State) (sym : Nlist64) : State :=
  match lib.target sym with
  | some target => lib.writeTrampoline st sym target
  | none =>
    match lib.makeAbortIsland st (lib.table.symName sym) with
    | (none, st) => st
    | (some trap, st) => lib.writeTrampoline st sym trap

def matching : List Nlist64 := lib.table.syms.filter fun sym => lib.Matching sym

/-- `trampoline_patch_lib` with a native library, in the state that earlier calls have left. -/
def patchLib (st : State) : State := lib.matching.foldl lib.patchSymbol { st with log := [] }

/-- The island at `a` branches to the trap for an unresolved name. -/
def LeadsToTrap (islands : List Island) (a : Addr) : Prop :=
  ∃ trap name caller, lib.islandAt islands a = some (.jump trap) ∧
    lib.islandAt islands trap = some (.trap name caller) ∧
    lib.islandAt islands caller = some (.jump lib.trampolineAbort)

def Leads (islands : List Island) (sym : Nlist64) (a : Addr) : Prop :=
  match lib.target sym with
  | some t => lib.islandAt islands a = some (.jump t)
  | none => lib.LeadsToTrap islands a

def lastAt (st : State) (a : Addr) : Option (Nlist64 × Addr) :=
  st.log.find? fun w => lib.funcAddr w.1 = a

/-- The word at `a` branches to an island that leads to the target of a matching symbol at `a`, or
none of them has one and it leads to the trap. -/
def Redirected (st : State) (a : Addr) : Prop :=
  ∃ island, branchTarget a (loadWord st.text a) = some (false, island) ∧
    ((∃ sym ∈ lib.matching, lib.funcAddr sym = a ∧ ∃ t, lib.target sym = some t ∧
        lib.islandAt st.islands island = some (.jump t)) ∨
      lib.LeadsToTrap st.islands island ∧
        ∀ sym ∈ lib.matching, lib.funcAddr sym = a → lib.target sym = none)

def InstructionAt (a : Addr) : Prop :=
  ∃ sym ∈ lib.table.syms, lib.funcAddr sym = a ∧ lib.instructions sym.nSect

/-- What the patching should leave: the bytes outside the patched words as they were, an island of
its own for each word, and each word a redirected first word of an instruction symbol. -/
structure Patched (before after : State) : Prop where
  unchanged : ∀ x, (∀ w ∈ after.log, ¬ InRange (lib.funcAddr w.1) 4 x) →
    after.text x = before.text x
  own : ∀ a b w v, lib.lastAt after a = some w → lib.lastAt after b = some v → a ≠ b →
    branchTarget a (loadWord after.text a) ≠ branchTarget b (loadWord after.text b)
  sites : ∀ a w, lib.lastAt after a = some w → lib.InstructionAt a ∧ lib.Redirected after a

section

variable {lib}

variable {islands : List Island} {k : Nat} {a : Addr} {st st' : State}

theorem islandAt_islandAddr (h : 16 * k < 2 ^ 64) :
    lib.islandAt islands (lib.islandAddr k) = islands[k]? := by
  have hoffset : (lib.islandAddr k - lib.poolBase).toNat = 16 * k := by
    rw [islandAddr, add_sub_cancel_left, toNat_ofNat, mod_eq_of_lt h]
  rw [islandAt, hoffset, if_pos (mul_mod_right 16 k), Nat.mul_div_cancel_left k (by decide)]

theorem islandAt_append {island : Island}
    (h : lib.islandAt islands a = some island) (new : List Island) :
    lib.islandAt (islands ++ new) a = some island := by
  rw [islandAt] at h ⊢
  split at h
  · next haligned =>
    rw [if_pos haligned, List.getElem?_append_left (List.getElem?_eq_some_iff.mp h).1, h]
  · cases h

theorem LeadsToTrap.append (h : lib.LeadsToTrap islands a)
    (new : List Island) : lib.LeadsToTrap (islands ++ new) a := by
  obtain ⟨trap, name, caller, hjump, htrap, hcaller⟩ := h
  exact ⟨trap, name, caller, islandAt_append hjump new, islandAt_append htrap new,
    islandAt_append hcaller new⟩

theorem Leads.append {sym : Nlist64}
    (h : lib.Leads islands sym a) (new : List Island) : lib.Leads (islands ++ new) sym a := by
  rw [Leads] at h ⊢
  split at h
  · exact islandAt_append h new
  · exact h.append new

/-- The pool is within its size, and the abort caller calls `trampoline_abort`. -/
structure Ready (lib : Library) (st : State) : Prop where
  bound : 16 * st.islands.length ≤ lib.poolSize.toNat
  caller : ∀ a, st.abortCaller = some a →
    lib.islandAt st.islands a = some (.jump lib.trampolineAbort)

theorem allocIsland_eq_some {island : Island}
    (h : lib.allocIsland st island = some (a, st')) (hready : Ready lib st) :
    a = lib.islandAddr st.islands.length ∧ st' = { st with islands := st.islands ++ [island] } ∧
      lib.islandAt st'.islands a = some island ∧ Ready lib st' := by
  rw [allocIsland] at h
  split at h
  · cases h
  · obtain ⟨rfl, rfl⟩ := Prod.mk.inj (Option.some.inj h)
    refine ⟨rfl, rfl, ?_, ?_, fun a ha => islandAt_append (hready.caller a ha) _⟩
    · rw [islandAt_islandAddr (by omega)]
      simp
    · simp only [length_append, length_singleton]
      omega

/-- Nothing but the pool has changed. -/
structure Extends (st st' : State) : Prop where
  islands : ∃ new, st'.islands = st.islands ++ new
  text : st'.text = st.text
  log : st'.log = st.log

theorem getAbortCaller_eq_some (h : lib.getAbortCaller st = some (a, st')) (hready : Ready lib st) :
    Ready lib st' ∧ Extends st st' ∧
      lib.islandAt st'.islands a = some (.jump lib.trampolineAbort) := by
  rw [getAbortCaller] at h
  split at h
  · next caller hcaller =>
    obtain ⟨rfl, rfl⟩ := Prod.mk.inj (Option.some.inj h)
    exact ⟨hready, ⟨⟨[], (append_nil _).symm⟩, rfl, rfl⟩, hready.caller _ hcaller⟩
  · obtain ⟨⟨b, st₁⟩, halloc, heq⟩ := map_eq_some_iff.mp h
    obtain ⟨rfl, rfl⟩ := Prod.mk.inj heq
    obtain ⟨-, rfl, hisland, hready'⟩ := allocIsland_eq_some halloc hready
    refine ⟨⟨hready'.bound, fun c hc => ?_⟩, ⟨⟨_, rfl⟩, rfl, rfl⟩, hisland⟩
    exact some.inj hc ▸ hisland

theorem makeAbortIsland_spec {name : List Octet} {found : Option Addr}
    (h : lib.makeAbortIsland st name = (found, st')) (hready : Ready lib st) :
    Ready lib st' ∧ Extends st st' ∧ ∀ a, found = some a → ∃ caller,
      lib.islandAt st'.islands a = some (.trap name caller) ∧
        lib.islandAt st'.islands caller = some (.jump lib.trampolineAbort) := by
  rw [makeAbortIsland] at h
  split at h
  · cases h
    exact ⟨hready, ⟨⟨[], (append_nil _).symm⟩, rfl, rfl⟩, nofun⟩
  · next caller st₁ hgot =>
    obtain ⟨hready₁, ⟨⟨new, hislands⟩, htext, hlog⟩, hcaller⟩ := getAbortCaller_eq_some hgot hready
    split at h
    · next halloc =>
      cases h
      obtain ⟨-, rfl, htrap, hready'⟩ := allocIsland_eq_some halloc hready₁
      refine ⟨hready', ⟨⟨new ++ [.trap name caller], ?_⟩, htext, hlog⟩, ?_⟩
      · simp [hislands]
      · rintro a ⟨rfl⟩
        exact ⟨caller, htrap, islandAt_append hcaller _⟩
    · cases h
      exact ⟨hready₁, ⟨⟨new, hislands⟩, htext, hlog⟩, nofun⟩

/-- One symbol changes the pool only, or its word is written and branches to a new island. -/
structure Writes (lib : Library) (sym : Nlist64) (st st' : State) (k : Nat) (word : Word) :
    Prop where
  islands : ∃ new, st'.islands = st.islands ++ new
  fresh : st.islands.length ≤ k ∧ k < st'.islands.length
  encoded : encodeBranch encB (lib.funcAddr sym) (lib.islandAddr k) = some word
  text : st'.text = storeWord st.text (lib.funcAddr sym) word
  log : st'.log = (sym, lib.islandAddr k) :: st.log
  leads : lib.Leads st'.islands sym (lib.islandAddr k)

theorem writeTrampoline_cases (hready : Ready lib st) (sym : Nlist64) (native : Addr)
    (hleads : ∀ a, lib.islandAt (st.islands ++ [.jump native]) a = some (.jump native) →
      lib.Leads (st.islands ++ [.jump native]) sym a) :
    Ready lib (lib.writeTrampoline st sym native) ∧
      (Extends st (lib.writeTrampoline st sym native) ∨
        ∃ k word, Writes lib sym st (lib.writeTrampoline st sym native) k word) := by
  rw [writeTrampoline]
  split
  · exact ⟨hready, .inl ⟨⟨[], (append_nil _).symm⟩, rfl, rfl⟩⟩
  · next island st₁ halloc =>
    obtain ⟨rfl, rfl, hisland, hready'⟩ := allocIsland_eq_some halloc hready
    split
    · exact ⟨hready', .inl ⟨⟨_, rfl⟩, rfl, rfl⟩⟩
    · next word hword =>
      refine ⟨⟨hready'.bound, hready'.caller⟩, .inr ⟨st.islands.length, word, ?_⟩⟩
      exact ⟨⟨_, rfl⟩, ⟨le_rfl, by simp⟩, hword, rfl, rfl, hleads _ hisland⟩

theorem patchSymbol_cases (hready : Ready lib st) (sym : Nlist64) :
    Ready lib (lib.patchSymbol st sym) ∧
      (Extends st (lib.patchSymbol st sym) ∨
        ∃ k word, Writes lib sym st (lib.patchSymbol st sym) k word) := by
  rw [patchSymbol]
  split
  · next t htarget =>
    exact writeTrampoline_cases hready sym t fun a ha => by rwa [Leads, htarget]
  · next htarget =>
    split
    · next st₁ htrap =>
      obtain ⟨hready₁, hextends, -⟩ := makeAbortIsland_spec htrap hready
      exact ⟨hready₁, .inl hextends⟩
    · next trap st₁ htrap =>
      obtain ⟨hready₁, ⟨⟨new, hislands⟩, htext, hlog⟩, hfound⟩ := makeAbortIsland_spec htrap hready
      obtain ⟨caller, hisland, hcaller⟩ := hfound trap rfl
      obtain ⟨hready', hcases⟩ := writeTrampoline_cases hready₁ sym trap
        fun a ha => by
          rw [Leads, htarget]
          exact ⟨trap, _, caller, ha, islandAt_append hisland _, islandAt_append hcaller _⟩
      refine ⟨hready', ?_⟩
      rcases hcases with ⟨⟨new', hnew⟩, htext', hlog'⟩ | ⟨k, word, hwrites⟩
      · exact .inl ⟨⟨new ++ new', by rw [hnew, hislands, List.append_assoc]⟩,
          htext'.trans htext, hlog'.trans hlog⟩
      · obtain ⟨⟨new', hnew⟩, hfresh, hencoded, htext', hlog', hleads⟩ := hwrites
        refine .inr ⟨k, word, ⟨new ++ new', ?_⟩, ?_, hencoded, ?_, ?_, hleads⟩
        · rw [hnew, hislands, List.append_assoc]
        · rw [hislands, length_append] at hfresh
          exact ⟨by omega, hfresh.2⟩
        · rw [htext', htext]
        · rw [hlog', hlog]

theorem toNat_mod_four {x : BitVec 64} (h : arm64BranchInRange x) : x.toNat % 4 = 0 := by
  have halign : x &&& 3#64 = 0#64 := by
    by_contra halign
    rw [arm64BranchInRange, if_pos halign] at h
    cases h
  have hint := toInt_mod_four halign
  rw [toInt_eq_toNat_cond] at hint
  split at hint
  · omega
  · omega

/-- Every patched word has the alignment of the pool. -/
theorem mod_four_of_encodeBranch {word : Word}
    (h : encodeBranch encB a (lib.islandAddr k) = some word) :
    a.toNat % 4 = lib.poolBase.toNat % 4 := by
  rw [encodeBranch] at h
  split at h
  · next hrange =>
    have hmod := toNat_mod_four hrange
    rw [islandAddr, toNat_sub, toNat_add, toNat_ofNat] at hmod
    omega
  · cases h

theorem loadWord_storeWord_of_ne {mem : Memory} {b : Addr} {word : Word}
    (hmod : a.toNat % 4 = b.toNat % 4) (hne : a ≠ b) :
    loadWord (storeWord mem b word) a = loadWord mem a := by
  refine readMem_congr (by decide) fun x hx => writeMem_of_not_inRange fun hx' => ?_
  rw [InRange, toNat_sub] at hx hx'
  have hnat : a.toNat ≠ b.toNat := fun heq => hne (eq_of_toNat_eq heq)
  omega

structure Progress (lib : Library) (before st : State) : Prop where
  ready : Ready lib st
  entries : ∀ w ∈ st.log, w.1 ∈ lib.matching ∧ lib.Leads st.islands w.1 w.2 ∧
    ∃ k word, k < st.islands.length ∧ w.2 = lib.islandAddr k ∧
      encodeBranch encB (lib.funcAddr w.1) w.2 = some word
  own : st.log.Pairwise fun v w => v.2 ≠ w.2
  last : ∀ a w, lib.lastAt st a = some w →
    branchTarget a (loadWord st.text a) = some (false, w.2)
  unchanged : ∀ x, (∀ w ∈ st.log, ¬ InRange (lib.funcAddr w.1) 4 x) → st.text x = before.text x

theorem islandAddr_inj {j : Nat} (hj : 16 * j < 2 ^ 64) (hk : 16 * k < 2 ^ 64)
    (h : lib.islandAddr j = lib.islandAddr k) : j = k := by
  have hnat := congrArg BitVec.toNat ((BitVec.add_right_inj _).mp h)
  rw [toNat_ofNat, toNat_ofNat] at hnat
  omega

theorem lastAt_eq_some {w : Nlist64 × Addr}
    (h : lib.lastAt st a = some w) : w ∈ st.log ∧ lib.funcAddr w.1 = a := by
  exact ⟨mem_of_find?_eq_some h, by simpa using find?_some h⟩

theorem Progress.step {before : State} (h : Progress lib before st) {sym : Nlist64}
    (hsym : sym ∈ lib.matching) : Progress lib before (lib.patchSymbol st sym) := by
  obtain ⟨hready, hcases⟩ := patchSymbol_cases h.ready sym
  have hold : ∀ new, (lib.patchSymbol st sym).islands = st.islands ++ new → ∀ w ∈ st.log,
      w.1 ∈ lib.matching ∧ lib.Leads (lib.patchSymbol st sym).islands w.1 w.2 ∧
        ∃ k word, k < (lib.patchSymbol st sym).islands.length ∧ w.2 = lib.islandAddr k ∧
          encodeBranch encB (lib.funcAddr w.1) w.2 = some word := by
    intro new hislands w hw
    obtain ⟨hmatching, hleads, k, word, hk, hisland⟩ := h.entries w hw
    rw [hislands]
    refine ⟨hmatching, hleads.append new, k, word, ?_, hisland⟩
    exact hk.trans_le (length_append ▸ Nat.le_add_right _ _)
  rcases hcases with ⟨⟨new, hislands⟩, htext, hlog⟩ | ⟨k, word, hwrites⟩
  · refine ⟨hready, ?_, ?_, ?_, ?_⟩
    · rw [hlog]
      exact hold new hislands
    · rw [hlog]
      exact h.own
    · rw [htext]
      simpa only [lastAt, hlog] using h.last
    · rw [htext, hlog]
      exact h.unchanged
  · obtain ⟨⟨new, hislands⟩, hfresh, hencoded, htext, hlog, hleads⟩ := hwrites
    refine ⟨hready, ?_, ?_, ?_, ?_⟩
    · rw [hlog, forall_mem_cons]
      exact ⟨⟨hsym, hleads, k, word, hfresh.2, rfl, hencoded⟩, hold new hislands⟩
    · rw [hlog, pairwise_cons]
      refine ⟨fun w hw heq => ?_, h.own⟩
      obtain ⟨-, -, j, -, hj, hisland, -⟩ := h.entries w hw
      have hbound := hready.bound
      have hkj := islandAddr_inj (by omega) (by omega) (heq.trans hisland)
      omega
    · intro a w hlast
      rw [lastAt, hlog, find?_cons] at hlast
      by_cases ha : lib.funcAddr sym = a
      · rw [decide_eq_true ha] at hlast
        obtain rfl := some.inj hlast
        obtain rfl := ha
        have hword : loadWord (lib.patchSymbol st sym).text (lib.funcAddr sym) = word := by
          rw [htext]
          exact (readMem_writeMem _ _ word (by decide)).trans (setWidth_eq word)
        rw [hword]
        exact branchTarget_encB hencoded
      · rw [decide_eq_false ha] at hlast
        obtain ⟨hmem, hw⟩ := lastAt_eq_some hlast
        obtain ⟨-, -, j, _, -, hisland, hencoded'⟩ := h.entries w hmem
        rw [hisland, hw] at hencoded'
        rw [htext, loadWord_storeWord_of_ne _ (Ne.symm ha)]
        · exact h.last a w hlast
        · rw [mod_four_of_encodeBranch hencoded, mod_four_of_encodeBranch hencoded']
    · intro x hx
      rw [hlog, forall_mem_cons] at hx
      rw [htext, storeWord, writeMem_of_not_inRange hx.1]
      exact h.unchanged x hx.2

theorem progress_patchLib (hready : Ready lib st) : Progress lib st (lib.patchLib st) := by
  have hfold : ∀ {syms : List Nlist64} {st' : State}, (∀ sym ∈ syms, sym ∈ lib.matching) →
      Progress lib st st' → Progress lib st (syms.foldl lib.patchSymbol st') := by
    intro syms
    induction syms with
    | nil => exact fun _ h => h
    | cons sym syms ih =>
      intro st' hsyms h
      rw [forall_mem_cons] at hsyms
      exact ih hsyms.2 (h.step hsyms.1)
  refine hfold (fun _ h => h) ⟨⟨hready.bound, hready.caller⟩, nofun, .nil, nofun, fun _ _ => rfl⟩

end

def Outside : Prop :=
  ∀ sym ∈ lib.matching, ∀ t ∈ lib.target sym, lib.poolSize.toNat ≤ (t - lib.poolBase).toNat

/-- There are instructions at `a`, and a symbol there with a target is not passed over for `sym`. -/
def Decides (a : Addr) (sym : Nlist64) : Prop :=
  lib.InstructionAt a ∧ (lib.target sym = none →
    ∀ sym ∈ lib.matching, lib.funcAddr sym = a → lib.target sym = none)

theorem patched_iff_lastAt {st : State} (hready : Ready lib st) (houtside : lib.Outside) :
    lib.Patched st (lib.patchLib st) ↔
      ∀ a w, lib.lastAt (lib.patchLib st) a = some w → lib.Decides a w.1 := by
  have h := progress_patchLib hready
  constructor
  · intro hpatched a w hlast
    obtain ⟨hinstruction, island, hbranch, hleads⟩ := hpatched.sites a w hlast
    refine ⟨hinstruction, fun htarget => ?_⟩
    rcases hleads with ⟨sym, hsym, -, t, ht, hjump⟩ | ⟨-, hnone⟩
    · -- the trap's island is in the pool, so it is nobody's target
      obtain ⟨-, hentry, -⟩ := h.entries w (lastAt_eq_some hlast).1
      rw [Leads, htarget] at hentry
      obtain ⟨trap, name, caller, hjump', htrap, -⟩ := hentry
      obtain rfl : w.2 = island :=
        (Prod.mk.inj (Option.some.inj ((h.last a w hlast).symm.trans hbranch))).2
      obtain rfl : trap = t := Island.jump.inj (Option.some.inj (hjump'.symm.trans hjump))
      rw [islandAt] at htrap
      split at htrap
      · have hlt := (List.getElem?_eq_some_iff.mp htrap).1
        have hbound := h.ready.bound
        have hout := houtside sym hsym trap ht
        omega
      · cases htrap
    · exact hnone
  · intro hcondition
    refine ⟨h.unchanged, ?_, fun a w hlast => ?_⟩
    · intro a b w v hw hv hab
      rw [h.last a w hw, h.last b v hv]
      obtain ⟨hwmem, rfl⟩ := lastAt_eq_some hw
      obtain ⟨hvmem, rfl⟩ := lastAt_eq_some hv
      have hne : w ≠ v := fun heq => hab (heq ▸ rfl)
      have : Std.Symm fun v w : Nlist64 × Addr => v.2 ≠ w.2 := ⟨fun _ _ => Ne.symm⟩
      have hown := h.own.forall hwmem hvmem hne
      exact fun heq => hown (Prod.mk.inj (Option.some.inj heq)).2
    · obtain ⟨hinstruction, hnone⟩ := hcondition a w hlast
      obtain ⟨hmem, hw⟩ := lastAt_eq_some hlast
      obtain ⟨hmatching, hleads, -⟩ := h.entries w hmem
      refine ⟨hinstruction, w.2, h.last a w hlast, ?_⟩
      rw [Leads] at hleads
      split at hleads
      · next t ht => exact .inl ⟨w.1, hmatching, hw, t, ht, hleads⟩
      · next htarget => exact .inr ⟨hleads, hnone htarget⟩

/-- There is room for three islands for each symbol, and all of the pool is in branch range. -/
structure Ample (st : State) : Prop where
  room : 16 * (st.islands.length + 3 * lib.matching.length) ≤ lib.poolSize.toNat
  sites : ∀ sym ∈ lib.matching, ∀ k, 16 * k < lib.poolSize.toNat →
    (encodeBranch encB (lib.funcAddr sym) (lib.islandAddr k)).isSome
  traps : ∀ j k, 16 * j < lib.poolSize.toNat → 16 * k < lib.poolSize.toNat →
    (encodeBranch encB (lib.islandAddr k + 4) (lib.islandAddr j)).isSome

section

variable {lib} {st : State}

theorem exists_islandAddr {islands : List Island} {a : Addr} {island : Island}
    (h : lib.islandAt islands a = some island) : ∃ j < islands.length, a = lib.islandAddr j := by
  rw [islandAt] at h
  split at h
  · next haligned =>
    refine ⟨_, (List.getElem?_eq_some_iff.mp h).1, ?_⟩
    rw [islandAddr, Nat.mul_div_cancel' (Nat.dvd_of_mod_eq_zero haligned), BitVec.ofNat_toNat,
      BitVec.setWidth_eq, BitVec.add_comm, BitVec.sub_add_cancel]
  · cases h

theorem writeTrampoline_written {sym : Nlist64} (native : Addr)
    (hroom : 16 * st.islands.length + 16 ≤ lib.poolSize.toNat)
    (hreach : (encodeBranch encB (lib.funcAddr sym) (lib.islandAddr st.islands.length)).isSome) :
    (lib.writeTrampoline st sym native).log.map fst = sym :: st.log.map fst ∧
      (lib.writeTrampoline st sym native).islands.length = st.islands.length + 1 := by
  obtain ⟨word, hword⟩ := isSome_iff_exists.mp hreach
  rw [writeTrampoline, allocIsland, if_neg (by omega)]
  simp [hword]

theorem patchSymbol_written {before : State} (hample : lib.Ample before) (hready : Ready lib st)
    {sym : Nlist64} (hsym : sym ∈ lib.matching)
    (hroom : 16 * (st.islands.length + 3) ≤ lib.poolSize.toNat) :
    (lib.patchSymbol st sym).log.map fst = sym :: st.log.map fst ∧
      (lib.patchSymbol st sym).islands.length ≤ st.islands.length + 3 := by
  rw [patchSymbol]
  split
  · next target _ =>
    obtain ⟨hlog, hlength⟩ := writeTrampoline_written target (by omega)
      (hample.sites sym hsym st.islands.length (by omega))
    exact ⟨hlog, by omega⟩
  · obtain ⟨caller, st₁, hcaller, hlength, hlog, j, hj, rfl⟩ : ∃ caller st₁,
        lib.getAbortCaller st = some (caller, st₁) ∧ st₁.islands.length ≤ st.islands.length + 1 ∧
          st₁.log = st.log ∧ ∃ j, 16 * j < lib.poolSize.toNat ∧ caller = lib.islandAddr j := by
      rw [getAbortCaller]
      split
      · next a ha =>
        obtain ⟨j, hj, rfl⟩ := exists_islandAddr (hready.caller a ha)
        exact ⟨_, st, rfl, by omega, rfl, j, by omega, rfl⟩
      · rw [allocIsland, if_neg (by omega)]
        exact ⟨_, _, rfl, by simp, rfl, st.islands.length, by omega, rfl⟩
    obtain ⟨word, hword⟩ := isSome_iff_exists.mp
      (hample.traps j st₁.islands.length hj (by omega))
    rw [makeAbortIsland, hcaller]
    simp only [hword, allocIsland]
    rw [if_neg (by omega)]
    obtain ⟨hwritten, hlength'⟩ := @writeTrampoline_written lib
      { st₁ with islands := st₁.islands ++ [.trap (lib.table.symName sym) (lib.islandAddr j)] } sym
      (lib.islandAddr st₁.islands.length) (by simp; omega)
      (hample.sites sym hsym _ (by simp; omega))
    rw [length_append, length_singleton] at hlength'
    exact ⟨hwritten.trans (by rw [hlog]), hlength'.trans_le (by omega)⟩

theorem log_foldl_patchSymbol {before : State} (hample : lib.Ample before) {syms : List Nlist64} :
    ∀ {st : State}, Ready lib st → (∀ sym ∈ syms, sym ∈ lib.matching) →
      16 * (st.islands.length + 3 * syms.length) ≤ lib.poolSize.toNat →
      (syms.foldl lib.patchSymbol st).log.map fst = syms.reverse ++ st.log.map fst := by
  induction syms with
  | nil => exact fun _ _ _ => rfl
  | cons sym syms ih =>
    intro st hready hsyms hroom
    rw [forall_mem_cons] at hsyms
    rw [length_cons] at hroom
    obtain ⟨hlog, hlength⟩ := patchSymbol_written hample hready hsyms.1 (by omega)
    rw [foldl_cons, ih (patchSymbol_cases hready sym).1 hsyms.2 (by omega), hlog, reverse_cons,
      List.append_assoc]
    rfl

end

/-- The last symbol that is written at an address decides; if the pool is large enough, each matching
symbol is written, and it is the last one of the table. -/
theorem patched_iff {st : State} (hready : Ready lib st) (houtside : lib.Outside) :
    (lib.Patched st (lib.patchLib st) ↔
        ∀ a w, lib.lastAt (lib.patchLib st) a = some w → lib.Decides a w.1) ∧
      (lib.Ample st → (lib.Patched st (lib.patchLib st) ↔
        ∀ a sym, lib.matching.reverse.find? (fun sym => lib.funcAddr sym = a) = some sym →
          lib.Decides a sym)) := by
  have hpatched := patched_iff_lastAt lib hready houtside
  refine ⟨hpatched, fun hample => ?_⟩
  have hlog := @log_foldl_patchSymbol lib st hample lib.matching { st with log := [] }
    ⟨hready.bound, hready.caller⟩ (fun _ h => h) hample.room
  rw [map_nil, append_nil] at hlog
  rw [hpatched, ← hlog]
  simp only [find?_map, map_eq_some_iff, forall_exists_index, and_imp, forall_apply_eq_imp_iff₂]
  rfl

/-- `_a` is in the native library and its alias `_b`, which comes behind it, is not. -/
def aliased : Library :=
  { slide := 0, vmaddr := 0x100000000, vmsize := 0x4000, pageSize := 0x1000
    table :=
      { syms := [⟨0, 0x0f, 1, 0, 0x100001000⟩, ⟨3, 0x0f, 1, 0, 0x100001000⟩]
        strtab := [0x5f, 0x61, 0, 0x5f, 0x62, 0], strsize := 6, nsyms_lt := by decide }
    instructions := fun _ => true, prefixes := [[0x5f]], overrides := []
    dlsym := fun name => if name = [0x61] then 0x7f0000001000 else 0
    poolBase := 0x100004000, poolSize := 0x60, trampolineAbort := 0x7f0000002000 }

def unpatched : State := ⟨[], none, fun _ => 0, []⟩

theorem outside_aliased : aliased.Outside := by
  intro sym hsym t ht
  have htargets : ∀ sym ∈ aliased.table.syms, aliased.target sym = none ∨
      aliased.target sym = some 0x7f0000001000 := by
    decide
  rcases htargets sym (mem_of_mem_filter hsym) with hnone | hsome
  · cases hnone.symm.trans ht
  · cases hsome.symm.trans ht
    decide

theorem ample_aliased : aliased.Ample unpatched where
  room := by decide
  sites := by
    have hall : ∀ sym ∈ aliased.matching, ∀ k < 6,
        (encodeBranch encB (aliased.funcAddr sym) (aliased.islandAddr k)).isSome := by decide
    exact fun sym hsym k hk => hall sym hsym k (Nat.lt_of_mul_lt_mul_left hk)
  traps := by
    have hall : ∀ j < 6, ∀ k < 6,
        (encodeBranch encB (aliased.islandAddr k + 4) (aliased.islandAddr j)).isSome := by decide
    exact fun j k hj hk =>
      hall j (Nat.lt_of_mul_lt_mul_left hj) k (Nat.lt_of_mul_lt_mul_left hk)

theorem aliased_patched_iff :
    aliased.Patched unpatched (aliased.patchLib unpatched) ↔
      ∀ a sym, aliased.matching.reverse.find? (fun sym => aliased.funcAddr sym = a) = some sym →
        aliased.Decides a sym :=
  (patched_iff aliased (show Ready aliased unpatched from ⟨by decide, nofun⟩)
    outside_aliased).2 ample_aliased

/-- The word of both names leads to the trap of `_b`. -/
theorem aliased_trapped :
    aliased.target ⟨0, 0x0f, 1, 0, 0x100001000⟩ = some 0x7f0000001000 ∧
      branchTarget 0x100001000 (loadWord (aliased.patchLib unpatched).text 0x100001000) =
        some (false, 0x100004030) ∧
      aliased.islandAt (aliased.patchLib unpatched).islands 0x100004030 =
        some (.jump 0x100004020) ∧
      aliased.islandAt (aliased.patchLib unpatched).islands 0x100004020 =
        some (.trap [0x5f, 0x62] 0x100004010) := by
  decide +kernel

end Library

end Machgate.TrampolinePatch
