import Mathlib.Data.BitVec

namespace Machgate.GuestSignals

open List Prod
open BitVec hiding or_assoc

/-- The system calls of the gate and the functions of the shim keep their own tables. -/
inductive Path
  | gate
  | shim
deriving DecidableEq

/-- The signals that all the tables have: Darwin's number and Linux's. -/
def signalPairs : List (Nat × Nat) :=
  [(1, 1), (2, 2), (3, 3), (4, 4), (5, 5), (6, 6), (8, 8), (9, 9), (10, 7), (11, 11), (12, 31),
    (13, 13), (14, 14), (15, 15), (16, 23), (17, 19), (18, 20), (19, 18), (20, 17), (21, 21),
    (22, 22), (23, 29), (24, 24), (25, 25), (26, 26), (27, 27), (28, 28), (30, 10), (31, 12)]

/-- In the shim 7 has a case of its own, and what no case names keeps its number. -/
def darwinSignalToLinux : Path → Nat → Int
  | .gate, darwin => if darwin = 0 then 0 else (signalPairs.lookup darwin).elim (-1) Int.ofNat
  | .shim, darwin => (((7, 7) :: signalPairs).lookup darwin).elim darwin Int.ofNat

/-- The shim has no cases for `SIGFPE` and `SIGKILL`, whose numbers are the same. -/
def linuxSignalToDarwin : Path → Nat → Nat
  | .gate, linux => ((signalPairs.map Prod.swap).lookup linux).getD 0
  | .shim, linux =>
    (((signalPairs.filter fun p => p.1 ≠ 8 ∧ p.1 ≠ 9).map Prod.swap).lookup linux).getD linux

abbrev SigSet := Finset Nat

def darwinSignals : List Nat := List.range' 1 31

/-- One round of the loop of `darwin_sigset_to_linux`; the shim's goes on past a bad number. -/
def addSignal (path : Path) (darwinSet : BitVec 32) (linuxSet : SigSet) (darwin : Nat) :
    Option SigSet :=
  if darwinSet.getLsbD (darwin - 1) then
    let linux := darwinSignalToLinux path darwin
    if linux ≤ 0 then if path = .shim then some linuxSet else none
    else some (insert linux.toNat linuxSet)
  else some linuxSet

def darwinSigsetToLinux (path : Path) (darwinSet : BitVec 32) : Option SigSet :=
  darwinSignals.foldlM (addSignal path darwinSet) ∅

def linuxSignals : Path → List Nat
  | .gate => List.range' 1 64
  | .shim => List.range' 1 31

def linuxSigsetToDarwin (path : Path) (linuxSet : SigSet) : BitVec 32 :=
  (linuxSignals path).foldl (fun result linux =>
    let darwin := linuxSignalToDarwin path linux
    if linux ∈ linuxSet ∧ 0 < darwin ∧ darwin < 32 then result ||| twoPow 32 (darwin - 1)
    else result) 0

inductive How
  | block
  | unblock
  | setmask
deriving DecidableEq

def darwinSigprocmaskHowToLinux (how : Int) : Option How :=
  if how = 1 then some .block else if how = 2 then some .unblock
  else if how = 3 then some .setmask else none

def newMask (how : How) (set mask : SigSet) : SigSet :=
  (match how with
    | .block => mask ∪ set
    | .unblock => mask \ set
    | .setmask => set) \ {9, 19}

def darwinEinval : Nat := 22

/-- A call with its mask, if one is given: the thread's new mask and the old one as it is reported. -/
def sigmask (path : Path) (how : Int) (set : Option (BitVec 32)) (mask : SigSet) :
    Except Nat (SigSet × BitVec 32) :=
  let linuxHow := darwinSigprocmaskHowToLinux how
  if linuxHow = none ∧ (path = .shim ∨ set.isSome) then .error darwinEinval
  else
    match set with
    | none => .ok (mask, linuxSigsetToDarwin path mask)
    | some darwinSet =>
      match darwinSigsetToLinux path darwinSet with
      | none => .error darwinEinval
      | some linuxSet =>
        .ok (newMask (linuxHow.getD .setmask) linuxSet mask, linuxSigsetToDarwin path mask)

def handleSigprocmask := sigmask .gate
def handlePthreadSigmask := sigmask .gate
def pthreadSigmask := sigmask .shim

def entryPoints : List (Int → Option (BitVec 32) → SigSet → Except Nat (SigSet × BitVec 32)) :=
  [handleSigprocmask, handlePthreadSigmask, pthreadSigmask]

theorem eq_sigmask_of_mem {call} (h : call ∈ entryPoints) : ∃ path, call = sigmask path := by
  simp only [entryPoints, mem_cons, not_mem_nil, or_false] at h
  rcases h with rfl | rfl | rfl
  · exact ⟨.gate, rfl⟩
  · exact ⟨.gate, rfl⟩
  · exact ⟨.shim, rfl⟩

def Shared (darwin : Nat) : Prop := darwin ∈ darwinSignals ∧ darwin ≠ 7 ∧ darwin ≠ 29

instance (darwin : Nat) : Decidable (Shared darwin) := inferInstanceAs (Decidable (_ ∧ _))

def linuxNumber (darwin : Nat) : Nat := (signalPairs.lookup darwin).getD 0

/-- Both pairs of tables are inverse to each other on the shared signals. -/
theorem tables_shared (path : Path) {darwin : Nat} (h : Shared darwin) :
    darwinSignalToLinux path darwin = linuxNumber darwin ∧ 0 < linuxNumber darwin ∧
      linuxNumber darwin ∈ linuxSignals path ∧
      linuxSignalToDarwin path (linuxNumber darwin) = darwin ∧
      (linuxNumber darwin ∈ ({9, 19} : SigSet) ↔ darwin = 9 ∨ darwin = 17) := by
  obtain ⟨hmem, hshared⟩ := h
  revert darwin
  cases path
  · decide
  · decide

theorem foldlM_addSignal (path : Path) {m : BitVec 32} {ds : List Nat}
    (h : ∀ d ∈ ds, m.getLsbD (d - 1) → Shared d) (acc : SigSet) :
    ∃ set, ds.foldlM (addSignal path m) acc = some set ∧
      ∀ n, n ∈ set ↔ n ∈ acc ∨ ∃ d ∈ ds, m.getLsbD (d - 1) ∧ linuxNumber d = n := by
  induction ds generalizing acc with
  | nil => exact ⟨acc, rfl, by simp⟩
  | cons d ds ih =>
    have hrest := ih fun e he => h e (mem_cons_of_mem d he)
    rw [foldlM_cons, addSignal]
    by_cases hbit : m.getLsbD (d - 1)
    · obtain ⟨hlinux, hpos, -⟩ := tables_shared path (h d mem_cons_self hbit)
      obtain ⟨set, hset, hmem⟩ := hrest (insert (linuxNumber d) acc)
      rw [if_pos hbit, hlinux, if_neg (by omega)]
      refine ⟨set, hset, fun n => ?_⟩
      rw [hmem, Finset.mem_insert, exists_mem_cons_iff]
      simp only [hbit, true_and, eq_comm (a := n)]
      tauto
    · obtain ⟨set, hset, hmem⟩ := hrest acc
      rw [if_neg hbit]
      refine ⟨set, hset, fun n => ?_⟩
      rw [hmem, exists_mem_cons_iff]
      simp only [hbit, false_and, false_or, Bool.false_eq_true]

/-- Bit by bit, what a reader makes of a mask. -/
theorem getLsbD_linuxSigsetToDarwin {path : Path} {s : SigSet} {i : Nat} :
    (linuxSigsetToDarwin path s).getLsbD i ↔ i < 31 ∧
      ∃ linux ∈ linuxSignals path, linux ∈ s ∧ linuxSignalToDarwin path linux = i + 1 := by
  have hfold : ∀ (ls : List Nat) (acc : BitVec 32), (ls.foldl (fun result linux =>
      let darwin := linuxSignalToDarwin path linux
      if linux ∈ s ∧ 0 < darwin ∧ darwin < 32 then result ||| twoPow 32 (darwin - 1)
      else result) acc).getLsbD i ↔ acc.getLsbD i ∨ i < 31 ∧
        ∃ linux ∈ ls, linux ∈ s ∧ linuxSignalToDarwin path linux = i + 1 := by
    intro ls
    induction ls with
    | nil => simp
    | cons l ls ih =>
      intro acc
      rw [foldl_cons, ih, exists_mem_cons_iff, and_or_left, ← or_assoc]
      refine or_congr_left ?_
      dsimp only
      split
      · next h =>
        simp only [getLsbD_or, getLsbD_twoPow, Bool.or_eq_true, Bool.and_eq_true,
          decide_eq_true_eq, h.1, true_and]
        refine or_congr_right ?_
        omega
      · next h =>
        refine (or_iff_left ?_).symm
        rintro ⟨hi, hmem, hdarwin⟩
        exact h ⟨hmem, by omega, by omega⟩
  refine (hfold _ 0).trans ?_
  simp

/-- The gate stops at the first signal of the mask that is not in its table. -/
theorem pos_of_gate_foldlM {m : BitVec 32} {ds : List Nat} {acc set : SigSet}
    (h : ds.foldlM (addSignal .gate m) acc = some set) :
    ∀ d ∈ ds, m.getLsbD (d - 1) → 0 < darwinSignalToLinux .gate d := by
  induction ds generalizing acc with
  | nil => simp
  | cons d ds ih =>
    obtain ⟨acc', hfirst, hrest⟩ := Option.bind_eq_some_iff.mp h
    rw [forall_mem_cons]
    refine ⟨fun hbit => ?_, ih hrest⟩
    by_contra hneg
    simp [addSignal, hbit, Int.not_lt.mp hneg] at hfirst

/-- A set call with shared signals goes through, and it puts their numbers in. -/
theorem sigmask_set (path : Path) (how : Int) {m : BitVec 32}
    (hm : ∀ d ∈ darwinSignals, m.getLsbD (d - 1) → Shared d) {linuxHow : How}
    (hhow : darwinSigprocmaskHowToLinux how = some linuxHow) (mask : SigSet) :
    ∃ set, (∀ n, n ∈ set ↔ ∃ d ∈ darwinSignals, m.getLsbD (d - 1) ∧ linuxNumber d = n) ∧
      sigmask path how (some m) mask =
        .ok (newMask linuxHow set mask, linuxSigsetToDarwin path mask) := by
  obtain ⟨set, hset, hmem⟩ := foldlM_addSignal path hm ∅
  refine ⟨set, fun n => ?_, ?_⟩
  · rw [hmem]
    simp
  · simp [sigmask, hhow, darwinSigsetToLinux, hset]

def blockable (m : BitVec 31) : BitVec 32 := m.setWidth 32 &&& ~~~0x10100#32

def RoundTrips (m : BitVec 31) : Prop :=
  ∀ set ∈ entryPoints, ∀ read ∈ entryPoints, ∀ mask, ∃ blocked old,
    set 3 (some (m.setWidth 32)) mask = .ok (blocked, old) ∧
      read 3 none blocked = .ok (blocked, blockable m)

/-- Blocking the signal makes no other one appear blocked. -/
def BlocksOnly (darwin : Nat) : Prop :=
  ∀ block ∈ entryPoints, ∀ read ∈ entryPoints, ∀ mask blocked old before after,
    block 1 (some (twoPow 32 (darwin - 1))) mask = .ok (blocked, old) →
      read 3 none mask = .ok (mask, before) → read 3 none blocked = .ok (blocked, after) →
        ∀ i, after.getLsbD i → before.getLsbD i ∨ i + 1 = darwin

theorem roundTrips_of_shared {m : BitVec 31}
    (hm : ∀ d ∈ darwinSignals, (m.setWidth 32).getLsbD (d - 1) → Shared d) : RoundTrips m := by
  intro set hset read hread mask
  obtain ⟨path, rfl⟩ := eq_sigmask_of_mem hset
  obtain ⟨path', rfl⟩ := eq_sigmask_of_mem hread
  obtain ⟨linuxSet, hmem, hcall⟩ := sigmask_set path 3 hm rfl mask
  have hword : linuxSigsetToDarwin path' (linuxSet \ {9, 19}) = blockable m := by
    apply eq_of_getLsbD_eq
    intro i hi
    have hbits : (blockable m).getLsbD i ↔
        i < 31 ∧ (m.setWidth 32).getLsbD i ∧ i ≠ 8 ∧ i ≠ 16 := by
      have hkept : (~~~0x10100#32).getLsbD i = decide (i ≠ 8 ∧ i ≠ 16) := by
        revert i
        decide
      rw [blockable, getLsbD_and, hkept, Bool.and_eq_true, decide_eq_true_eq,
        iff_and_self, getLsbD_setWidth, Bool.and_eq_true]
      exact fun h => lt_of_getLsbD h.1.2
    rw [Bool.eq_iff_iff, hbits, getLsbD_linuxSigsetToDarwin]
    refine and_congr_right fun htop => ?_
    simp only [Finset.mem_sdiff, hmem]
    constructor
    · rintro ⟨linux, -, ⟨⟨d, hd, hbit, rfl⟩, hblockable⟩, hdarwin⟩
      obtain ⟨-, -, -, hback, hkill⟩ := tables_shared path' (hm d hd hbit)
      obtain rfl : d = i + 1 := hback.symm.trans hdarwin
      rw [hkill] at hblockable
      exact ⟨hbit, by omega⟩
    · rintro ⟨hbit, hkill⟩
      have hd : i + 1 ∈ darwinSignals := mem_range'.mpr ⟨i, htop, by omega⟩
      obtain ⟨-, -, hlinux, hback, hstop⟩ := tables_shared path' (hm _ hd hbit)
      refine ⟨_, hlinux, ⟨⟨i + 1, hd, hbit, rfl⟩, ?_⟩, hback⟩
      rw [hstop]
      omega
  exact ⟨_, _, hcall, congrArg (fun word => Except.ok (_, word)) hword⟩

theorem blocksOnly_of_shared {d : Nat} (hd : Shared d) : BlocksOnly d := by
  intro block hblock read hread mask blocked old before after hcall hbefore hafter i hbit
  obtain ⟨path, rfl⟩ := eq_sigmask_of_mem hblock
  obtain ⟨path', rfl⟩ := eq_sigmask_of_mem hread
  have honly : ∀ e ∈ darwinSignals, (twoPow 32 (d - 1)).getLsbD (e - 1) → e = d := by
    intro e he hbit
    have hone := mem_range'.mp he
    have hone' := mem_range'.mp hd.1
    simp only [getLsbD_twoPow, Bool.and_eq_true, decide_eq_true_eq] at hbit
    omega
  obtain ⟨set, hmem, hcall'⟩ := sigmask_set path 1 (fun e he hbit => honly e he hbit ▸ hd) rfl mask
  obtain ⟨rfl, -⟩ := mk.inj (Except.ok.inj (hcall'.symm.trans hcall))
  obtain rfl : linuxSigsetToDarwin path' mask = before := (mk.inj (Except.ok.inj hbefore)).2
  obtain rfl := (mk.inj (Except.ok.inj hafter)).2
  rw [getLsbD_linuxSigsetToDarwin] at hbit ⊢
  obtain ⟨hi, linux, hlinux, hin, hdarwin⟩ := hbit
  rcases Finset.mem_union.mp (Finset.mem_sdiff.mp hin).1 with hmask | hset
  · exact .inl ⟨hi, linux, hlinux, hmask, hdarwin⟩
  · obtain ⟨e, he, hbit, rfl⟩ := (hmem linux).mp hset
    obtain rfl := honly e he hbit
    obtain ⟨-, -, -, hback, -⟩ := tables_shared path' hd
    exact .inr (hdarwin.symm.trans hback)

theorem masks_kept_iff (m : BitVec 31) :
    RoundTrips m ∧ (∀ i, m.getLsbD i → BlocksOnly (i + 1)) ↔
      m.getLsbD 6 = false ∧ m.getLsbD 28 = false := by
  constructor
  · rintro ⟨htrips, -⟩
    obtain ⟨blocked, old, hset, -⟩ := htrips handleSigprocmask (.head _) _ (.head _) ∅
    have hpos : ∀ d ∈ darwinSignals, (m.setWidth 32).getLsbD (d - 1) →
        0 < darwinSignalToLinux .gate d := by
      cases hlinux : darwinSigsetToLinux .gate (m.setWidth 32) with
      | none => simp [handleSigprocmask, sigmask, darwinSigprocmaskHowToLinux, hlinux] at hset
      | some set => exact pos_of_gate_foldlM hlinux
    constructor
    · rw [Bool.eq_false_iff]
      exact fun hbit => absurd (hpos 7 (by decide) (by simpa using hbit)) (by decide)
    · rw [Bool.eq_false_iff]
      exact fun hbit => absurd (hpos 29 (by decide) (by simpa using hbit)) (by decide)
  · rintro ⟨hemt, hinfo⟩
    have hshared : ∀ i, m.getLsbD i → Shared (i + 1) := by
      intro i hbit
      have hi := lt_of_getLsbD hbit
      refine ⟨mem_range'.mpr ⟨i, hi, by omega⟩, ?_, ?_⟩
      · rintro h
        obtain rfl : i = 6 := by omega
        rw [hemt] at hbit
        cases hbit
      · rintro h
        obtain rfl : i = 28 := by omega
        rw [hinfo] at hbit
        cases hbit
    refine ⟨roundTrips_of_shared fun d hd hbit => ?_, fun i hbit => blocksOnly_of_shared (hshared i hbit)⟩
    obtain ⟨i, hi, rfl⟩ := mem_range'.mp hd
    rw [getLsbD_setWidth, Bool.and_eq_true] at hbit
    have := hshared _ hbit.2
    rwa [show 1 + 1 * i - 1 + 1 = 1 + 1 * i by omega] at this

/-- `SIGEMT` alone: the gate refuses the mask, and the shim blocks Linux's 7, its `SIGBUS`. -/
theorem sigemt_not_kept :
    handleSigprocmask 3 (some 0x40) ∅ = .error darwinEinval ∧
      pthreadSigmask 3 (some 0x40) ∅ = .ok ({7}, 0) ∧
      pthreadSigmask 3 none {7} = .ok ({7}, 0x200) := by
  decide

end Machgate.GuestSignals
