import Machgate.ByteMemory

namespace Machgate.ChainedFixups

open ByteMemory BitVec Option Nat Function

def fixupPtrBind (raw : BitVec 64) : BitVec 64 := (raw >>> 63) &&& 1

def fixupPtrNext (raw : BitVec 64) : BitVec 32 := ((raw >>> 51) &&& 0xFFF).setWidth 32

def fixupBindOrdinal (raw : BitVec 64) : BitVec 32 := (raw &&& 0xFFFFFF).setWidth 32

/-- `(int64_t)(int8_t)FIXUP_BIND_ADDEND(raw)`. -/
def fixupBindAddend (raw : BitVec 64) : BitVec 64 :=
  (((raw >>> 24) &&& 0xFF).setWidth 8).signExtend 64

def fixupRebaseTarget (raw : BitVec 64) : BitVec 64 := raw &&& 0xFFFFFFFFF

def fixupRebaseHigh8 (raw : BitVec 64) : BitVec 8 := ((raw >>> 36) &&& 0xFF).setWidth 8

inductive PointerFormat
  | ptr64
  | ptr64Offset
  deriving DecidableEq

/-- What the walk knows of the image, with `resolve_import` on its own state. -/
structure Resolver (σ : Type) where
  slide : BitVec 64
  mhAddr : BitVec 64
  resolveImport : σ → (ordinal : BitVec 32) → (addend : BitVec 64) → (slot : Addr) → σ × BitVec 64

def rebaseValue {σ : Type} (r : Resolver σ) (format : PointerFormat) (raw : BitVec 64) :
    BitVec 64 :=
  let value := match format with
    | .ptr64Offset => r.mhAddr + fixupRebaseTarget raw
    | .ptr64 => fixupRebaseTarget raw + r.slide
  value ||| ((fixupRebaseHigh8 raw).setWidth 64 <<< 56)

def slotValue {σ : Type} (r : Resolver σ) (format : PointerFormat) (rs : σ) (loc : Addr)
    (raw : BitVec 64) : σ × BitVec 64 :=
  if fixupPtrBind raw ≠ 0 then
    r.resolveImport rs (fixupBindOrdinal raw) (fixupBindAddend raw) loc
  else (rs, rebaseValue r format raw)

/-- The slot the raw pointer at `loc` links to; the stride is 4 bytes. -/
def nextLoc (loc : Addr) (raw : BitVec 64) : Option Addr :=
  if fixupPtrNext raw = 0 then none else some (loc + (fixupPtrNext raw * 4).setWidth 64)

/-- `loc` is `none` once the loop is left. -/
structure WalkState (σ : Type) where
  loc : Option Addr
  mem : Memory
  rs : σ

def walkStep {σ : Type} (r : Resolver σ) (format : PointerFormat) (s : WalkState σ) :
    WalkState σ :=
  match s.loc with
  | none => s
  | some loc =>
    let raw : BitVec 64 := readMem s.mem loc 8
    let resolved := slotValue r format s.rs loc raw
    { loc := nextLoc loc raw, mem := writeMem s.mem loc 8 resolved.2, rs := resolved.1 }

def walkChain {σ : Type} (r : Resolver σ) (format : PointerFormat) (chainStart : Addr)
    (mem : Memory) (rs : σ) (n : Nat) : WalkState σ :=
  (walkStep r format)^[n] { loc := some chainStart, mem := mem, rs := rs }

structure Page where
  addr : Addr
  size : BitVec 16
  start : BitVec 16

def Page.chainStart (page : Page) : Addr :=
  page.addr + page.start.setWidth 64

def chainLoc (mem : Memory) (first : Addr) (n : Nat) : Option Addr :=
  (fun found : Option Addr => found.bind fun loc => nextLoc loc (readMem mem loc 8))^[n]
    (some first)

/-- All eight bytes of the slot belong to the page. -/
def Inside (page : Page) (loc : Addr) : Prop :=
  ∀ b, InRange loc 8 b → InRange page.addr page.size.toNat b

def slotValues {σ : Type} (r : Resolver σ) (format : PointerFormat) (mem : Memory) :
    σ → List Addr → List (BitVec 64)
  | _, [] => []
  | rs, loc :: slots =>
    let resolved := slotValue r format rs loc (readMem mem loc 8)
    resolved.2 :: slotValues r format mem resolved.1 slots

variable (raw : BitVec 64)

theorem toNat_fixupPtrNext_lt : (fixupPtrNext raw).toNat < 4096 := by
  rw [fixupPtrNext, toNat_setWidth, toNat_and]
  have := and_le_right (n := (raw >>> 51).toNat) (m := (0xFFF : BitVec 64).toNat)
  change _ ≤ 4095 at this
  omega

variable {page : Page} {mem : Memory} {first loc : Addr} {slots : List Addr} {n : Nat}

theorem nextLoc_eq_some_iff {loc' : Addr} {raw : BitVec 64} :
    nextLoc loc raw = some loc' ↔
      1 ≤ (fixupPtrNext raw).toNat ∧
        loc' = loc + BitVec.ofNat 64 (4 * (fixupPtrNext raw).toNat) := by
  have hlt := toNat_fixupPtrNext_lt raw
  have hstride : (fixupPtrNext raw * 4).setWidth 64 =
      BitVec.ofNat 64 (4 * (fixupPtrNext raw).toNat) := by
    apply eq_of_toNat_eq
    rw [toNat_setWidth, toNat_mul, toNat_ofNat]
    change (fixupPtrNext raw).toNat * 4 % 2 ^ 32 % 2 ^ 64 = _
    omega
  have hzero : fixupPtrNext raw = 0 ↔ (fixupPtrNext raw).toNat = 0 := by
    rw [← toNat_inj]
    rfl
  rw [nextLoc, hstride]
  split
  · next h => simp [hzero.mp h]
  · next h =>
    have hpos : 1 ≤ (fixupPtrNext raw).toNat := Nat.pos_of_ne_zero (mt hzero.mpr h)
    rw [some.injEq, eq_comm, and_iff_right hpos]

-- the link of a raw pointer lies in its two highest bytes
theorem fixupPtrNext_congr {mem' : Memory}
    (h : ∀ b, 6 ≤ (b - loc).toNat → (b - loc).toNat < 8 → mem b = mem' b) :
    fixupPtrNext (readMem mem loc 8) = fixupPtrNext (readMem mem' loc 8) := by
  have hbyte : ∀ k, 6 ≤ k → k < 8 →
      mem (loc + BitVec.ofNat 64 k) = mem' (loc + BitVec.ofNat 64 k) := by
    intro k hk hk'
    have hoff : (loc + BitVec.ofNat 64 k - loc).toNat = k := by
      rw [add_sub_cancel_left, toNat_ofNat, mod_eq_of_lt (by omega)]
    exact h _ (by omega) (by omega)
  apply eq_of_getLsbD_eq
  intro i hi
  simp only [fixupPtrNext, getLsbD_setWidth, getLsbD_and, getLsbD_ushiftRight, getLsbD_readMem]
  by_cases hi12 : i < 12
  · rw [hbyte ((51 + i) / 8) (by omega) (by omega)]
  · have hmask : (0xFFF : BitVec 64).getLsbD i = false := by
      change (BitVec.ofNat 64 (2 ^ 12 - 1)).getLsbD i = false
      rw [getLsbD_ofNat, testBit_two_pow_sub_one]
      simp [hi12]
    simp only [hmask, Bool.and_false]

def Page.offset (page : Page) (b : Addr) : Nat :=
  (b - page.addr).toNat

theorem Page.offset_add (page : Page) {b : Addr} {k : Nat} (h : page.offset b + k < 2 ^ 64) :
    page.offset (b + BitVec.ofNat 64 k) = page.offset b + k := by
  have hsub : b + BitVec.ofNat 64 k - page.addr = b - page.addr + BitVec.ofNat 64 k := by
    rw [BitVec.sub_eq_add_neg, BitVec.sub_eq_add_neg, BitVec.add_assoc, BitVec.add_assoc,
      BitVec.add_comm (BitVec.ofNat 64 k)]
  rw [Page.offset] at h ⊢
  rw [hsub, toNat_add, toNat_ofNat, Page.offset]
  omega

theorem Page.inRange_iff (page : Page) {b : Addr} (h : page.offset loc + 8 < 2 ^ 64) :
    InRange loc 8 b ↔ page.offset loc ≤ page.offset b ∧ page.offset b < page.offset loc + 8 := by
  constructor
  · intro hb
    obtain ⟨k, hk, rfl⟩ := hb.exists_eq
    rw [page.offset_add (by omega)]
    omega
  · rintro ⟨hle, hlt⟩
    have hb : b = loc + BitVec.ofNat 64 (page.offset b - page.offset loc) := by
      apply (BitVec.sub_left_inj page.addr).mp
      apply eq_of_toNat_eq
      change page.offset b = page.offset _
      rw [page.offset_add (by omega)]
      omega
    exact inRange_add (by omega) (by omega) hb

theorem inside_iff : Inside page loc ↔ page.offset loc + 8 ≤ page.size.toNat := by
  constructor
  · intro h
    have hfirst : page.offset loc < page.size.toNat :=
      h loc (inRange_add (k := 0) (by omega) (by omega) (by simp))
    have hlast : page.offset (loc + BitVec.ofNat 64 7) < page.size.toNat :=
      h _ (inRange_add (k := 7) (by omega) (by omega) rfl)
    rw [page.offset_add (by omega)] at hlast
    omega
  · intro h b hb
    have := (page.inRange_iff (by omega)).mp hb
    change page.offset b < _
    omega

@[simp]
theorem chainLoc_zero (mem : Memory) (first : Addr) : chainLoc mem first 0 = some first := rfl

theorem chainLoc_succ (mem : Memory) (first : Addr) (n : Nat) :
    chainLoc mem first (n + 1) =
      (chainLoc mem first n).bind fun loc => nextLoc loc (readMem mem loc 8) :=
  iterate_succ_apply' ..

theorem chainLoc_succ_of_none (h : nextLoc first (readMem mem first 8) = none) (n : Nat) :
    chainLoc mem first (n + 1) = none := by
  induction n with
  | zero => rw [chainLoc_succ, chainLoc_zero, bind_some, h]
  | succ n ih => rw [chainLoc_succ, ih, bind_none]

theorem chainLoc_succ_of_some (h : nextLoc first (readMem mem first 8) = some loc) (n : Nat) :
    chainLoc mem first (n + 1) = chainLoc mem loc n := by
  induction n with
  | zero => rw [chainLoc_succ, chainLoc_zero, bind_some, h, chainLoc_zero]
  | succ n ih => rw [chainLoc_succ, ih, chainLoc_succ]

theorem offset_nextLoc {loc' : Addr} {raw : BitVec 64}
    (h : nextLoc loc raw = some loc') (hinside : Inside page loc) :
    page.offset loc' = page.offset loc + 4 * (fixupPtrNext raw).toNat := by
  obtain ⟨-, rfl⟩ := nextLoc_eq_some_iff.mp h
  have := inside_iff.mp hinside
  rw [page.offset_add (by omega)]

section

variable {σ : Type} (r : Resolver σ) (format : PointerFormat)

theorem walkChain_succ (first : Addr) (mem : Memory) (rs : σ) (n : Nat) :
    walkChain r format first mem rs (n + 1) =
      walkStep r format (walkChain r format first mem rs n) :=
  iterate_succ_apply' ..

theorem walkStep_of_none {s : WalkState σ} (h : s.loc = none) : walkStep r format s = s := by
  rw [walkStep, h]

theorem walkStep_of_some {s : WalkState σ} {loc : Addr} (h : s.loc = some loc) :
    walkStep r format s =
      { loc := nextLoc loc (readMem s.mem loc 8)
        mem := writeMem s.mem loc 8 (slotValue r format s.rs loc (readMem s.mem loc 8)).2
        rs := (slotValue r format s.rs loc (readMem s.mem loc 8)).1 } := by
  rw [walkStep, h]

/-- The walk stands where the contents `mem` link to, and has not written the link ahead of it. -/
structure Tracks (page : Page) (mem : Memory) (n : Nat) (s : WalkState σ) : Prop where
  loc_eq : s.loc = chainLoc mem page.chainStart n
  ahead : ∀ loc, s.loc = some loc → ∀ b, page.offset loc + 4 ≤ page.offset b → s.mem b = mem b

variable {r format}

theorem Tracks.step {s : WalkState σ}
    (h : Tracks page mem n s) (hinside : ∀ loc, s.loc = some loc → Inside page loc) :
    Tracks page mem (n + 1) (walkStep r format s) := by
  rcases hloc : s.loc with _ | loc
  · rw [walkStep_of_none r format hloc]
    refine ⟨?_, h.ahead⟩
    rw [chainLoc_succ, ← h.loc_eq, hloc, bind_none]
  · have hin := inside_iff.mp (hinside loc hloc)
    have hnext : fixupPtrNext (readMem s.mem loc 8) = fixupPtrNext (readMem mem loc 8) := by
      apply fixupPtrNext_congr
      intro b hlow hhigh
      have hsum : b = loc + BitVec.ofNat 64 (b - loc).toNat := by
        rw [ofNat_toNat, setWidth_eq, BitVec.add_comm, BitVec.sub_add_cancel]
      have hoff := page.offset_add (b := loc) (k := (b - loc).toNat) (by omega)
      rw [← hsum] at hoff
      exact h.ahead loc hloc b (by omega)
    have hlink : nextLoc loc (readMem s.mem loc 8) = nextLoc loc (readMem mem loc 8) := by
      rw [nextLoc, nextLoc, hnext]
    rw [walkStep_of_some r format hloc]
    refine ⟨?_, fun loc' hloc' b hb => ?_⟩
    · rw [chainLoc_succ, ← h.loc_eq, hloc, bind_some, ← hlink]
    · have hmoved := offset_nextLoc hloc' (hinside loc hloc)
      have hpos := (nextLoc_eq_some_iff.mp hloc').1
      have hout : ¬ InRange loc 8 b := by
        rw [page.inRange_iff (by omega)]
        omega
      change writeMem s.mem loc 8 _ b = _
      rw [writeMem_of_not_inRange hout]
      exact h.ahead loc hloc b (by omega)

theorem tracks_walkChain (rs : σ)
    (hinside : ∀ m < n, ∀ loc, (walkChain r format page.chainStart mem rs m).loc = some loc →
      Inside page loc) :
    Tracks page mem n (walkChain r format page.chainStart mem rs n) := by
  induction n with
  | zero => exact ⟨rfl, fun _ _ _ _ => rfl⟩
  | succ n ih =>
    rw [walkChain_succ]
    have htracks := ih fun m hm => hinside m (lt_succ_of_lt hm)
    exact htracks.step (hinside n (lt_succ_self n))

theorem walkChain_loc (rs : σ)
    (hinside : ∀ n loc, chainLoc mem page.chainStart n = some loc → Inside page loc) (n : Nat) :
    (walkChain r format page.chainStart mem rs n).loc = chainLoc mem page.chainStart n := by
  induction n using Nat.strong_induction_on with
  | h n ih =>
    apply (tracks_walkChain rs fun m hm loc hloc => ?_).loc_eq
    exact hinside m loc (ih m hm ▸ hloc)

end

def IsChain (mem : Memory) (first : Addr) (slots : List Addr) : Prop :=
  ∀ n, slots[n]? = chainLoc mem first n

theorem isChain_singleton
    (h : nextLoc first (readMem mem first 8) = none) : IsChain mem first [first] := by
  intro n
  cases n with
  | zero => rfl
  | succ n => rw [chainLoc_succ_of_none h]; rfl

theorem IsChain.cons
    (h : nextLoc first (readMem mem first 8) = some loc) (hslots : IsChain mem loc slots) :
    IsChain mem first (first :: slots) := by
  intro n
  cases n with
  | zero => rfl
  | succ n => rw [chainLoc_succ_of_some h, ← hslots n, List.getElem?_cons_succ]

theorem isChain_cases (h : IsChain mem first slots) :
    (nextLoc first (readMem mem first 8) = none ∧ slots = [first]) ∨
      ∃ loc rest, nextLoc first (readMem mem first 8) = some loc ∧ slots = first :: rest ∧
        IsChain mem loc rest := by
  rcases slots with _ | ⟨a, rest⟩
  · exact absurd (h 0) (by simp)
  · obtain rfl : a = first := some.inj (h 0)
    rcases hnext : nextLoc a (readMem mem a 8) with _ | loc
    · refine .inl ⟨rfl, ?_⟩
      rw [List.cons.injEq, and_iff_right rfl]
      apply List.eq_nil_of_length_eq_zero
      have := h 1
      rw [chainLoc_succ_of_none hnext, List.getElem?_eq_none_iff, List.length_cons] at this
      omega
    · refine .inr ⟨loc, rest, rfl, rfl, fun n => ?_⟩
      rw [← chainLoc_succ_of_some hnext, ← h (n + 1), List.getElem?_cons_succ]

theorem IsChain.exists_chainLoc (h : IsChain mem first slots) (hloc : loc ∈ slots) :
    ∃ n, chainLoc mem first n = some loc := by
  obtain ⟨n, hn, rfl⟩ := List.getElem_of_mem hloc
  exact ⟨n, (h n).symm.trans (List.getElem?_eq_getElem hn)⟩

/-- A chain that stays inside its page ends: every link advances. -/
theorem exists_isChain (h : ∀ n loc, chainLoc mem first n = some loc → Inside page loc) :
    ∃ slots, IsChain mem first slots := by
  generalize hk : page.size.toNat - page.offset first = k
  induction k using Nat.strong_induction_on generalizing first with
  | h k ih =>
    rcases hnext : nextLoc first (readMem mem first 8) with _ | loc
    · exact ⟨[first], isChain_singleton hnext⟩
    · have hfirst := h 0 first rfl
      have hmoved := offset_nextLoc hnext hfirst
      have hpos := (nextLoc_eq_some_iff.mp hnext).1
      have hin := inside_iff.mp hfirst
      obtain ⟨slots, hslots⟩ := ih (page.size.toNat - page.offset loc) (by omega)
        (fun n a ha => h (n + 1) a (by rw [chainLoc_succ_of_some hnext, ha])) rfl
      exact ⟨first :: slots, hslots.cons hnext⟩

/-- The chain stays inside the page, and no link leads into the slot it starts from. -/
def Walkable (page : Page) (mem : Memory) : Prop :=
  ∀ n loc, chainLoc mem page.chainStart n = some loc →
    Inside page loc ∧ fixupPtrNext (readMem mem loc 8) ≠ 1

section

theorem offset_nextLoc_of_ne_one {loc : Addr} {raw : BitVec 64} (h : nextLoc first raw = some loc)
    (hinside : Inside page first) (hone : fixupPtrNext raw ≠ 1) :
    page.offset first + 8 ≤ page.offset loc := by
  have hmoved := offset_nextLoc h hinside
  have hpos := (nextLoc_eq_some_iff.mp h).1
  have hne : (fixupPtrNext raw).toNat ≠ 1 := fun heq => hone (eq_of_toNat_eq heq)
  omega

theorem IsChain.pairwise (h : IsChain mem first slots)
    (hwalk : ∀ n loc, chainLoc mem first n = some loc →
      Inside page loc ∧ fixupPtrNext (readMem mem loc 8) ≠ 1) :
    slots.Pairwise fun a b => page.offset a + 8 ≤ page.offset b := by
  induction slots generalizing first with
  | nil => exact .nil
  | cons a rest ih =>
    rcases isChain_cases h with ⟨-, heq⟩ | ⟨loc, rest, hnext, heq, hrest⟩
    · cases heq
      exact List.pairwise_singleton ..
    · cases heq
      have hgap := offset_nextLoc_of_ne_one hnext (hwalk 0 _ rfl).1 (hwalk 0 _ rfl).2
      have hrestWalk := ih hrest fun n b hb =>
        hwalk (n + 1) b (by rw [chainLoc_succ_of_some hnext, hb])
      refine List.pairwise_cons.mpr ⟨fun b hb => ?_, hrestWalk⟩
      have hhead : rest.head? = some loc := (List.head?_eq_getElem? ..).trans (hrest 0)
      obtain ⟨tail, rfl⟩ := List.head?_eq_some_iff.mp hhead
      rcases List.mem_cons.mp hb with rfl | hb
      · exact hgap
      · have := List.rel_of_pairwise_cons hrestWalk hb
        omega

theorem not_inRange_of_le {loc b : Addr} (hinside : Inside page loc)
    (h : page.offset b < page.offset loc ∨ page.offset loc + 8 ≤ page.offset b) :
    ¬ InRange loc 8 b := by
  have := inside_iff.mp hinside
  rw [page.inRange_iff (by omega)]
  omega

variable {σ : Type} (r : Resolver σ) (format : PointerFormat)

/-- From any memory that agrees with the contents from the first slot on, the walk gives every
slot of the chain its value and leaves all other bytes alone. -/
theorem walk_slots (h : IsChain mem first slots) (hwalk : ∀ n loc, chainLoc mem first n = some loc →
      Inside page loc ∧ fixupPtrNext (readMem mem loc 8) ≠ 1)
    (m : Memory) (hm : ∀ b, page.offset first ≤ page.offset b → m b = mem b) (rs : σ) :
    (slots.map fun loc => readMem
        ((walkStep r format)^[slots.length] ⟨some first, m, rs⟩).mem loc 8) =
        slotValues r format mem rs slots ∧
      ∀ b, (∀ loc ∈ slots, ¬ InRange loc 8 b) →
        ((walkStep r format)^[slots.length] ⟨some first, m, rs⟩).mem b = m b := by
  induction slots generalizing first m rs with
  | nil => exact ⟨rfl, fun _ _ => rfl⟩
  | cons a rest ih =>
    obtain rfl : a = first := some.inj (h 0)
    have hin := (hwalk 0 a rfl).1
    have hoff := inside_iff.mp hin
    have hraw : readMem m a 8 = readMem mem a 8 := by
      apply readMem_congr (by omega)
      intro b hb
      exact hm b ((page.inRange_iff (by omega)).mp hb).1
    have hstep := walkStep_of_some r format (s := ⟨some a, m, rs⟩) rfl
    simp only [hraw] at hstep
    have hpair := h.pairwise hwalk
    rcases isChain_cases h with ⟨hnext, heq⟩ | ⟨loc, rest, hnext, heq, hrest⟩
    · cases heq
      rw [List.length_singleton, iterate_one, hstep]
      refine ⟨?_, fun b hb => writeMem_of_not_inRange (hb a List.mem_cons_self)⟩
      rw [List.map_singleton, readMem_writeMem _ _ _ (by omega)]
      exact congrArg (· :: []) (setWidth_eq _)
    · cases heq
      have hgap := offset_nextLoc_of_ne_one hnext hin (hwalk 0 a rfl).2
      rw [hnext] at hstep
      obtain ⟨hvalues, hrestMem⟩ := ih hrest
        (fun n b hb => hwalk (n + 1) b (by rw [chainLoc_succ_of_some hnext, hb]))
        (writeMem m a 8 (slotValue r format rs a (readMem mem a 8)).2)
        (fun b hb => by
          rw [writeMem_of_not_inRange (not_inRange_of_le hin (.inr (by omega)))]
          exact hm b (by omega))
        (slotValue r format rs a (readMem mem a 8)).1
      rw [List.length_cons, iterate_succ_apply, hstep]
      refine ⟨?_, fun b hb => ?_⟩
      · rw [List.map_cons, hvalues]
        -- no later slot reaches back into the first one
        have hhead : readMem ((walkStep r format)^[rest.length] ⟨some loc,
            writeMem m a 8 (slotValue r format rs a (readMem mem a 8)).2,
            (slotValue r format rs a (readMem mem a 8)).1⟩).mem a 8 =
            readMem (writeMem m a 8 (slotValue r format rs a (readMem mem a 8)).2) a 8 := by
          apply readMem_congr (by omega)
          intro b hb
          apply hrestMem
          intro loc' hloc'
          obtain ⟨n, hn⟩ := h.exists_chainLoc (List.mem_cons_of_mem _ hloc')
          have hlater := List.rel_of_pairwise_cons hpair hloc'
          have hb' := (page.inRange_iff (by omega)).mp hb
          exact not_inRange_of_le (hwalk n loc' hn).1 (.inl (by omega))
        rw [hhead, readMem_writeMem _ _ _ (by omega)]
        exact congrArg (· :: _) (setWidth_eq _)
      · rw [hrestMem b fun loc' hloc' => hb loc' (List.mem_cons_of_mem _ hloc')]
        exact writeMem_of_not_inRange (hb a List.mem_cons_self)

end

def upper (v : BitVec 64) : BitVec 32 := v.extractLsb' 32 32

def lower (v : BitVec 64) : BitVec 32 := v.setWidth 32

theorem upper_readMem (mem : Memory) (a : Addr) :
    upper (readMem mem a 8) = lower (readMem mem (a + BitVec.ofNat 64 4) 8) := by
  apply eq_of_getLsbD_eq
  intro i hi
  have hdiv : (32 + i) / 8 = 4 + i / 8 := by omega
  have hmod : (32 + i) % 8 = i % 8 := by omega
  simp only [upper, lower, getLsbD_extractLsb', getLsbD_setWidth, getLsbD_readMem,
    hi, hdiv, hmod, ofNat_add, BitVec.add_assoc, decide_true, Bool.true_and]
  rw [decide_eq_true (by omega : 32 + i < 8 * 8), decide_eq_true (by omega : i < 8 * 8)]

theorem upper_or (v w : BitVec 64) : upper (v ||| w) = upper v ||| upper w :=
  extractLsb'_or ..

theorem lower_or_shift (v : BitVec 64) (h : BitVec 8) :
    lower (v ||| (h.setWidth 64 <<< 56)) = lower v := by
  apply eq_of_getLsbD_eq
  intro i hi
  simp [lower]

theorem lower_add (v w : BitVec 64) : lower (v + w) = lower v + lower w :=
  setWidth_add _ _ (by omega)

/-- The image loaded at `base`, with every import at `target`. -/
def constantResolver (base target : BitVec 64) : Resolver Unit :=
  { slide := base, mhAddr := base, resolveImport := fun _ _ _ _ => ((), target) }

theorem slotValue_constantResolver (base target : BitVec 64) (format : PointerFormat) (loc : Addr)
    (raw : BitVec 64) :
    (slotValue (constantResolver base target) format () loc raw).2 =
      if fixupPtrBind raw ≠ 0 then target
      else base + fixupRebaseTarget raw ||| ((fixupRebaseHigh8 raw).setWidth 64 <<< 56) := by
  rw [slotValue]
  split
  · rfl
  · cases format with
    | ptr64 => exact congrArg (· ||| _) (BitVec.add_comm ..)
    | ptr64Offset => rfl

-- one of these two bases moves the target without a carry into its upper half
theorem exists_upper_add_eq :
    ∃ base : BitVec 64, lower base ≠ 0 ∧
      upper (base + fixupRebaseTarget raw) = upper (fixupRebaseTarget raw) := by
  by_cases hcarry : (fixupRebaseTarget raw).toNat % 2 ^ 32 = 2 ^ 32 - 1
  · refine ⟨BitVec.ofNat 64 (2 ^ 64 - 1), by decide, ?_⟩
    apply eq_of_toNat_eq
    rw [upper, upper, extractLsb'_toNat, extractLsb'_toNat, toNat_add,
      toNat_ofNat, shiftRight_eq_div_pow, shiftRight_eq_div_pow]
    omega
  · refine ⟨1, by decide, ?_⟩
    apply eq_of_toNat_eq
    rw [upper, upper, extractLsb'_toNat, extractLsb'_toNat, toNat_add,
      shiftRight_eq_div_pow, shiftRight_eq_div_pow]
    change (1 + _) % 2 ^ 64 / 2 ^ 32 % 2 ^ 32 = _
    omega

/-- Two overlapping slots cannot both be right at every load address and for all imports. -/
theorem exists_slotValue_clash (format : PointerFormat) (loc loc' : Addr) (raw raw' : BitVec 64) :
    ∃ base target, upper (slotValue (constantResolver base target) format () loc raw).2 ≠
        lower (slotValue (constantResolver base target) format () loc' raw').2 := by
  simp only [slotValue_constantResolver]
  by_cases hbind : fixupPtrBind raw ≠ 0
  · by_cases hbind' : fixupPtrBind raw' ≠ 0
    · refine ⟨0, 1, ?_⟩
      rw [if_pos hbind, if_pos hbind']
      decide
    · simp only [if_pos hbind, if_neg hbind']
      by_contra hall
      push Not at hall
      have hzero := hall 0 0
      have hone := hall 0 (1 <<< 32)
      rw [← hzero] at hone
      exact absurd hone (by decide)
  · simp only [if_neg hbind]
    by_contra hall
    push Not at hall
    by_cases hbind' : fixupPtrBind raw' ≠ 0
    · simp only [if_pos hbind'] at hall
      have h := (hall 0 0).symm.trans (hall 0 1)
      exact absurd h (by decide)
    · simp only [if_neg hbind', lower_or_shift, upper_or, lower_add] at hall
      obtain ⟨base, hbase, hupper⟩ := exists_upper_add_eq raw
      have hmoved := hall base 0
      have hstill := hall 0 0
      rw [hupper] at hmoved
      rw [zero_add, hmoved] at hstill
      exact hbase ((BitVec.add_left_inj _).mp hstill)

/-- Whatever the load address and the imports are, the walk stays inside the page; and if the
chain does, each of its slots is visited once and given its value, and nothing else changes. -/
structure WalksPage (page : Page) (format : PointerFormat) (mem : Memory) : Prop where
  staysInside : ∀ {σ : Type} (r : Resolver σ) (rs : σ) (n : Nat) (loc : Addr),
    (walkChain r format page.chainStart mem rs n).loc = some loc → Inside page loc
  rewrites : (∀ n loc, chainLoc mem page.chainStart n = some loc → Inside page loc) →
    ∀ {σ : Type} (r : Resolver σ) (rs : σ), ∃ slots : List Addr,
      IsChain mem page.chainStart slots ∧ slots.Nodup ∧
      (∀ n, (walkChain r format page.chainStart mem rs n).loc = slots[n]?) ∧
      (slots.map fun loc =>
        readMem (walkChain r format page.chainStart mem rs slots.length).mem loc 8) =
        slotValues r format mem rs slots ∧
      ∀ b, (∀ loc ∈ slots, ¬ InRange loc 8 b) →
        (walkChain r format page.chainStart mem rs slots.length).mem b = mem b

theorem slotValues_constantResolver (base target : BitVec 64) (format : PointerFormat)
    (mem : Memory) (slots : List Addr) :
    slotValues (constantResolver base target) format mem () slots =
      slots.map fun loc =>
        (slotValue (constantResolver base target) format () loc (readMem mem loc 8)).2 := by
  induction slots with
  | nil => rfl
  | cons loc slots ih => exact congrArg (_ :: ·) ih

theorem WalksPage.inside {format : PointerFormat} (h : WalksPage page format mem)
    (hloc : chainLoc mem page.chainStart n = some loc) : Inside page loc := by
  have htracks := tracks_walkChain () (n := n) fun m _ => h.staysInside (constantResolver 0 0) () m
  exact h.staysInside (constantResolver 0 0) () n loc (htracks.loc_eq.trans hloc)

theorem WalksPage.next_ne_one {format : PointerFormat} (h : WalksPage page format mem)
    (hloc : chainLoc mem page.chainStart n = some loc) :
    fixupPtrNext (readMem mem loc 8) ≠ 1 := by
  intro hone
  have hnext : chainLoc mem page.chainStart (n + 1) = some (loc + BitVec.ofNat 64 4) := by
    rw [chainLoc_succ, hloc, bind_some, nextLoc_eq_some_iff, hone]
    exact ⟨by decide, rfl⟩
  obtain ⟨base, target, hclash⟩ := exists_slotValue_clash format loc (loc + BitVec.ofNat 64 4)
    (readMem mem loc 8) (readMem mem (loc + BitVec.ofNat 64 4) 8)
  obtain ⟨slots, hchain, -, -, hvalues, -⟩ :=
    h.rewrites (fun _ _ => h.inside) (constantResolver base target) ()
  rw [slotValues_constantResolver, List.map_inj_left] at hvalues
  have hmem := List.mem_of_getElem? ((hchain n).trans hloc)
  have hmem' := List.mem_of_getElem? ((hchain (n + 1)).trans hnext)
  apply hclash
  rw [← hvalues loc hmem, ← hvalues _ hmem']
  exact upper_readMem ..

theorem walksPage_of_walkable {format : PointerFormat}
    (h : Walkable page mem) : WalksPage page format mem where
  staysInside r rs n loc hloc :=
    (h n loc (walkChain_loc rs (fun n loc hloc => (h n loc hloc).1) n ▸ hloc)).1
  rewrites hinside _ r rs := by
    obtain ⟨slots, hchain⟩ := exists_isChain hinside
    have hpair := hchain.pairwise h
    have hnodup : slots.Nodup := hpair.imp fun hgap heq => by
      subst heq
      omega
    refine ⟨slots, hchain, hnodup, fun n => ?_, ?_⟩
    · rw [walkChain_loc rs hinside, hchain]
    · exact walk_slots r format hchain h mem (fun _ _ => rfl) rs

/-- `walk_chain` is right about a page, and keeps to it, exactly where the chain stays inside the
page and no link is shorter than a slot. -/
theorem walksPage_iff (page : Page) (format : PointerFormat) (mem : Memory) :
    WalksPage page format mem ↔ Walkable page mem := by
  constructor
  · intro h n loc hloc
    exact ⟨h.inside hloc, h.next_ne_one hloc⟩
  · exact walksPage_of_walkable

/-- The last slot of a data page whose link leads on into the next page. -/
def crossingPage : Page :=
  { addr := 0x100004000, size := 0x4000, start := 0x3FF8 }

def crossingContents : Memory :=
  writeMem (fun _ => 0) 0x100007FF8 8 (0x0010000000001000 : BitVec 64)

theorem crossingPage_left : ¬ WalksPage crossingPage .ptr64 crossingContents := by
  intro h
  have hvisit : (walkChain (constantResolver 0 0) .ptr64 crossingPage.chainStart
      crossingContents () 1).loc = some 0x100008000 := by
    decide +kernel
  have hinside := inside_iff.mp (h.staysInside _ _ _ _ hvisit)
  exact absurd hinside (by decide)

end Machgate.ChainedFixups
