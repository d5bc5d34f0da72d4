import Machgate.PatcherMeaning

namespace Machgate.PatcherRuns

open Arm64Encoders ByteMemory CText Instructions Patcher PatcherMeaning PatchText WordPointers
open Option List Prod Nat
open GatePools (arm64BranchInRange)

section

theorem setWidth_branch {base : Word} (hbase : base &&& 0x03FFFFFF#32 = 0#32) (x : BitVec 64) :
    (base ||| (x.setWidth 32 &&& 0x03FFFFFF#32)).setWidth 26 = x.setWidth 26 := by
  have hmask : (0x03FFFFFF#32).setWidth 26 = BitVec.allOnes 26 := by decide
  have hzero : base.setWidth 26 = 0#26 := by
    have h := congrArg (BitVec.setWidth 26) hbase
    rwa [BitVec.setWidth_and, hmask, BitVec.and_allOnes] at h
  rw [BitVec.setWidth_or, BitVec.setWidth_and, hmask, BitVec.and_allOnes, hzero, BitVec.zero_or,
    BitVec.setWidth_setWidth_of_le _ (by decide)]

theorem toInt_mod_four {diff : BitVec 64} (h : diff &&& 3#64 = 0#64) : diff.toInt % 4 = 0 := by
  have hnat := congrArg BitVec.toNat h
  change diff.toNat &&& (2 ^ 2 - 1) = 0 at hnat
  rw [and_two_pow_sub_one_eq_mod] at hnat
  rw [BitVec.toInt_eq_toNat_cond]
  split
  · omega
  · omega

theorem branchOffset_of_inRange {diff : Addr} (h : arm64BranchInRange diff) :
    branchOffset ((diff.sshiftRight 2).setWidth 26) = diff := by
  have halign : diff &&& 3#64 = 0#64 := by
    by_contra halign
    rw [arm64BranchInRange, if_pos halign] at h
    cases h
  rw [arm64BranchInRange, if_neg (not_not.mpr halign), decide_eq_true_iff] at h
  obtain ⟨hlow, hhigh⟩ := h
  have hmod := toInt_mod_four halign
  have himm : ((diff.sshiftRight 2).setWidth 26).toInt = (diff.sshiftRight 2).toInt := by
    rw [← BitVec.signExtend_eq_setWidth_of_le _ (by decide), BitVec.toInt_signExtend,
      Nat.min_eq_left (by decide), Int.bmod_def]
    omega
  have hshift : (diff.sshiftRight 2).toInt = diff.toInt / 4 := by
    rw [BitVec.toInt_sshiftRight, Int.shiftRight_eq_div_pow]
    rfl
  have hback : 4 * (diff.toInt / 4) = diff.toInt := by omega
  rw [branchOffset_eq, toAddr_ofInt, himm, hshift, hback, BitVec.ofInt_toInt]

variable {addr target : Addr} {w : Word}

theorem of_encodeBranch {enc : BitVec 32 → Word} {base : Word}
    (henc : ∀ wordOffset, enc wordOffset = base ||| (wordOffset &&& 0x03FFFFFF#32))
    (hopcode : base &&& 0xFC000000#32 = base) (hbase : base &&& 0x03FFFFFF#32 = 0#32)
    (h : encodeBranch enc addr target = some w) :
    w &&& 0xFC000000#32 = base ∧ addr + branchOffset (w.setWidth 26) = target := by
  rw [encodeBranch] at h
  split at h
  · next hrange =>
    obtain rfl := some.inj h
    rw [henc, setWidth_branch hbase, branchOffset_of_inRange hrange, add_sub_cancel]
    exact ⟨branchWord_and hopcode _, rfl⟩
  · cases h

theorem branchTarget_encB
    (h : encodeBranch encB addr target = some w) : branchTarget addr w = some (false, target) := by
  obtain ⟨hopcode, htarget⟩ := of_encodeBranch (fun _ => rfl) (by decide) (by decide) h
  rw [branchTarget, if_pos hopcode, htarget]

theorem branchTarget_encBl
    (h : encodeBranch encBl addr target = some w) : branchTarget addr w = some (true, target) := by
  obtain ⟨hopcode, htarget⟩ := of_encodeBranch (fun _ => rfl) (by decide) (by decide) h
  rw [branchTarget, hopcode, if_neg (by decide), if_pos rfl, htarget]

variable {host : Host} {mem : Memory} {labels : List Label} {env : List Char → Option Addr}

theorem encodes_of_encodeInsn (hlabels : Holds labels env) {insn : InsnExpr}
    (hinsn : InsnBounded insn) (h : encodeInsn host mem labels addr insn = some w) :
    Encodes host mem env ⟨addr, w⟩ insn := by
  cases insn with
  | raw word =>
    obtain rfl := some.inj h
    exact .raw
  | b loc =>
    obtain ⟨target, htarget, h⟩ := bind_eq_some_iff.mp h
    exact .b (means_of_resolveLoc hlabels hinsn htarget) (branchTarget_encB h)
  | bl loc =>
    obtain ⟨target, htarget, h⟩ := bind_eq_some_iff.mp h
    exact .bl (means_of_resolveLoc hlabels hinsn htarget) (branchTarget_encBl h)

theorem bounded_of_editOf {line : PatchLine} (hline : LineBounded line) {edit : Edit}
    (h : editOf line = some edit) : Bounded edit.loc ∧ InsnBounded edit.insn := by
  cases line with
  | atLine loc insn expected =>
    obtain rfl := some.inj h
    exact hline
  | absLine offset raw =>
    obtain rfl := some.inj h
    exact ⟨trivial, trivial⟩
  | letLine name loc => cases h

/-- Each edit is resolved and encoded over the memory before the first write. -/
theorem realizes_of_encodeEdits (hlabels : Holds labels env) {edits : List Edit}
    {resolved : List (Edit × Addr)} {out : List ResolvedEdit}
    (hbounded : ∀ edit ∈ edits, Bounded edit.loc ∧ InsnBounded edit.insn)
    (haddrs : resolveAddrs host mem labels edits = some resolved)
    (hout : encodeEdits host mem labels resolved = some out) :
    Forall₂ (Realizes host mem env) edits out := by
  induction edits generalizing resolved out with
  | nil =>
    obtain rfl := some.inj haddrs
    obtain rfl := some.inj hout
    exact .nil
  | cons edit edits ih =>
    obtain ⟨addr, haddr, haddrs⟩ := bind_eq_some_iff.mp haddrs
    obtain ⟨rest, hrest, rfl⟩ := map_eq_some_iff.mp haddrs
    obtain ⟨insn, hinsn, hout⟩ := bind_eq_some_iff.mp hout
    split at hout
    · next hexpect =>
      obtain ⟨out', hout', rfl⟩ := map_eq_some_iff.mp hout
      obtain ⟨hloc, hboundedInsn⟩ := hbounded edit mem_cons_self
      refine .cons ⟨means_of_resolveLoc hlabels hloc haddr,
        encodes_of_encodeInsn hlabels hboundedInsn hinsn, ?_⟩
        (ih (fun edit' hmem => hbounded edit' (mem_cons_of_mem edit hmem)) hrest hout')
      intro w hw
      rw [meetsExpect, show edit.expected = some w from hw] at hexpect
      exact of_decide_eq_true hexpect
    · cases hout

theorem prepare_spec {file : List Char} {out : List ResolvedEdit}
    (h : prepare host mem file = some out) :
    ∃ lines env, parseFile file = some lines ∧ Defines host mem (fun _ => none) lines env ∧
      Forall₂ (Realizes host mem env) (lines.filterMap editOf) out := by
  obtain ⟨lines, hlines, h⟩ := bind_eq_some_iff.mp h
  obtain ⟨labels, hlets, h⟩ := bind_eq_some_iff.mp h
  obtain ⟨resolved, haddrs, hout⟩ := bind_eq_some_iff.mp h
  have hbounded := bounded_parseLines hlines
  obtain ⟨env, hdefines, hholds⟩ := defines_of_resolveLets (holds_registerLabels lines) hbounded
    (fun name loc hmem => mem_registerLabels hmem) hlets
  refine ⟨lines, env, hlines, hdefines, realizes_of_encodeEdits hholds ?_ haddrs hout⟩
  intro edit hedit
  obtain ⟨line, hline, hedit⟩ := mem_filterMap.mp hedit
  exact bounded_of_editOf (hbounded line hline) hedit

end

/-- The last pass makes the writes up to the first one whose page cannot be opened. -/
theorem writeEdits_eq (host : Host) (edits : List ResolvedEdit) (applied : Nat) (mem : Memory) :
    (∀ k < edits.length, host.mprotect (2 * (applied + k))) ∧
        writeEdits host applied edits mem = (some (applied + edits.length), applyEdits edits mem) ∨
      ∃ k < edits.length, (∀ j < k, host.mprotect (2 * (applied + j))) ∧
        ¬ host.mprotect (2 * (applied + k)) ∧
        writeEdits host applied edits mem = (none, applyEdits (edits.take k) mem) := by
  induction edits generalizing applied mem with
  | nil => exact .inl ⟨fun k hk => absurd hk (Nat.not_lt_zero k), rfl⟩
  | cons edit edits ih =>
    rw [writeEdits]
    split
    · next hpage =>
      have hshift : ∀ k, applied + 1 + k = applied + (k + 1) := fun k => by omega
      have hpages : ∀ n, (∀ j < n, host.mprotect (2 * (applied + 1 + j))) →
          ∀ j < n + 1, host.mprotect (2 * (applied + j)) := by
        intro n hn j hj
        cases j with
        | zero => exact hpage
        | succ j => exact hshift j ▸ hn j (by omega)
      rcases ih (applied + 1) (storeWord mem edit.addr edit.insn) with
        ⟨hall, hdone⟩ | ⟨k, hk, hbefore, hfail, hdone⟩
      · refine .inl ⟨hpages _ hall, ?_⟩
        rw [hdone, hshift]
        rfl
      · refine .inr ⟨k + 1, succ_lt_succ hk, hpages k hbefore, ?_, hdone⟩
        rwa [hshift] at hfail
    · next hpage => exact .inr ⟨0, succ_pos _, fun j hj => absurd hj (Nat.not_lt_zero j),
        hpage, rfl⟩

section

variable {host : Host} {file : Option (List Char)} {mem mem' : Memory}

/-- Where the call succeeds, the memory is the old one with the words of the lines written over it
in their order, each at the place and with the contents that its line stands for in the old
memory. -/
theorem patcherApply_correct {n : Nat} (h : patcherApply host file mem = (some n, mem')) :
    ∃ text lines env edits, file = some text ∧ parseFile text = some lines ∧
      Defines host mem (fun _ => none) lines env ∧
      List.Forall₂ (Realizes host mem env) (lines.filterMap editOf) edits ∧
      mem' = applyEdits edits mem ∧ n = (lines.filterMap editOf).length := by
  rw [patcherApply] at h
  split at h
  · cases h
  · next edits hprepare =>
    obtain ⟨text, rfl, hprepare⟩ := bind_eq_some_iff.mp hprepare
    obtain ⟨lines, env, hlines, hdefines, hrealizes⟩ := prepare_spec hprepare
    rcases writeEdits_eq host edits 0 mem with ⟨-, hdone⟩ | ⟨k, -, -, -, hdone⟩
    · rw [hdone, Nat.zero_add] at h
      obtain ⟨hn, rfl⟩ := mk.inj h
      refine ⟨text, lines, env, edits, rfl, hlines, hdefines, hrealizes, rfl, ?_⟩
      rw [hrealizes.length_eq]
      exact (some.inj hn).symm
    · rw [hdone] at h
      cases h

/-- Where the call fails, the memory is the old one, or a page could not be opened and the words in
front of it were written. -/
theorem patcherApply_failed (h : patcherApply host file mem = (none, mem')) :
    file.bind (prepare host mem) = none ∧ mem' = mem ∨
      ∃ edits k, file.bind (prepare host mem) = some edits ∧ k < edits.length ∧
        (∀ j < k, host.mprotect (2 * j)) ∧ ¬ host.mprotect (2 * k) ∧
        mem' = applyEdits (edits.take k) mem := by
  rw [patcherApply] at h
  split at h
  · next hprepare => exact .inl ⟨hprepare, (mk.inj h).2.symm⟩
  · next edits hprepare =>
    rcases writeEdits_eq host edits 0 mem with ⟨-, hdone⟩ | ⟨k, hk, hbefore, hfail, hdone⟩
    · rw [hdone] at h
      cases h
    · rw [hdone] at h
      simp only [Nat.zero_add] at hbefore hfail
      exact .inr ⟨edits, k, hprepare, hk, hbefore, hfail, (mk.inj h).2.symm⟩

end

/-- A function of four instructions, the second one a `ret`. -/
def sampleHost (mprotect : Nat → Bool) : Host where
  loaded := true
  slide := 0x100#64
  lookupSymbol := fun name => if name = "_main".toList then 0x1000#64 else 0#64
  symbolExtent := fun name =>
    if name = "_main".toList then some (0x1000#64, 0x1010#64) else none
  mprotect := mprotect

def sampleMemory : Memory := storeWord (fun _ => 0#8) 0x1004#64 encRet

def sampleFile : List Char :=
  "let spot = sym:_main find D65F03C0\nat spot bl sym:_main+C ; expect D65F03C0\n3000 5\n".toList

theorem sampleFile_realized :
    ∃ text lines env edits, some sampleFile = some text ∧ parseFile text = some lines ∧
      Defines (sampleHost fun _ => true) sampleMemory (fun _ => none) lines env ∧
      List.Forall₂ (Realizes (sampleHost fun _ => true) sampleMemory env)
        (lines.filterMap editOf) edits ∧
      (patcherApply (sampleHost fun _ => true) (some sampleFile) sampleMemory).2 =
        applyEdits edits sampleMemory ∧ 2 = (lines.filterMap editOf).length :=
  patcherApply_correct (Prod.ext (by decide +kernel) rfl)

def twoWords : List Char := "1004 5\n3000 5\n".toList

/-- The page of the second word cannot be opened. -/
theorem secondPage_failed :
    (some twoWords).bind (prepare (sampleHost (· < 2)) sampleMemory) = none ∧
        (patcherApply (sampleHost (· < 2)) (some twoWords) sampleMemory).2 = sampleMemory ∨
      ∃ edits k, (some twoWords).bind (prepare (sampleHost (· < 2)) sampleMemory) = some edits ∧
        k < edits.length ∧ (∀ j < k, (sampleHost (· < 2)).mprotect (2 * j)) ∧
        ¬ (sampleHost (· < 2)).mprotect (2 * k) ∧
        (patcherApply (sampleHost (· < 2)) (some twoWords) sampleMemory).2 =
          applyEdits (edits.take k) sampleMemory :=
  patcherApply_failed (Prod.ext (by decide +kernel) rfl)

theorem secondPage_changed :
    (patcherApply (sampleHost (· < 2)) (some twoWords) sampleMemory).1 = none ∧
      loadWord sampleMemory 0x1104#64 = 0#32 ∧
      loadWord (patcherApply (sampleHost (· < 2)) (some twoWords) sampleMemory).2 0x1104#64 = 5#32 := by
  decide +kernel

end Machgate.PatcherRuns
