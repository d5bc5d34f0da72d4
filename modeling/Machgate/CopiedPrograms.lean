import Machgate.FdeLayout

namespace Machgate.CopiedPrograms

open ByteMemory RecordBuffer UnwindEntries EhFrameRecords EhFrameTable NativeEhFrame CallFrame
open Option List
open FdeLayout

/-- The row for `pc` that an unwinder computes from the FDE of an entry, right behind the entries
before it. -/
def entryRow (image : UnwindImage) (before : List CuEntry) (e : CuEntry) (pc : Nat) : Option Row :=
  (readFde (emitEntry image (emitEntries image before) e) (emitEntries image before).length).bind
    fun view => view.row pc

def entryState : Row := ⟨.registerOffset 31 0, fun _ => .unspecified⟩

theorem initialRow_emittedCie (personalityAddr : BitVec 64) :
    (emittedCie personalityAddr).initialRow = some entryState := by
  rw [emittedCie]
  split
  · rfl
  · rfl

theorem row_emittedCie (personalityAddr : BitVec 64) (start : Nat) (program : List Octet) (pc : Nat) :
    (emittedCie personalityAddr).row start program pc =
      run ⟨4, -8⟩ entryState pc program.length ⟨start, entryState, []⟩ program := by
  rw [Cie.row, initialRow_emittedCie]
  rfl

/-- The copied instructions are run by the factors and the initial row of the emitted CIE, from the
start of the entry. -/
theorem entryRow_of_nativeCfi {image : UnwindImage} {before : List CuEntry} {e : CuEntry}
    {n : NativeFde} (hpos : (emitEntries image before).length + 4 < 2 ^ 32)
    (hn : image.nativeCfi e = some n) :
    ∃ padding, ∀ pc, entryRow image before e pc =
      (emittedCie image.gxxPersonality).row (image.funcAddr e).toNat
        (n.cfi ++ replicate padding dwCfaNop) pc := by
  obtain ⟨f, hfde, haddr, hcfi⟩ : ∃ f, entryFde image e = some f ∧
      f.funcAddr = image.funcAddr e ∧ f.cfi = n.cfi :=
    ⟨_, entryFde_eq_some_iff.mpr (.inl ⟨n, hn, rfl⟩), rfl, rfl⟩
  have hpersonality : entryPersonality image e = image.gxxPersonality :=
    if_pos (hasLsda_of_nativeCfi hn)
  have hread := readFde_entryFde hfde hpos []
  rw [append_nil, hpersonality, haddr, hcfi] at hread
  refine ⟨FdeLayout.padding (emitEntries image before).length
    (fdeBody f (emitEntries image before).length), fun pc => ?_⟩
  rw [entryRow, emitEntry, ← entryFde, hfde]
  rw [hread, bind_some, FdeView.row, FdeView.program, append_assoc, drop_left]

/-- The instructions of `DW_CFA_advance_loc` and `DW_CFA_def_cfa`: the row changes where the
advance ends. -/
theorem run_advance (k : Factors) (initial : Row) (start pc delta : Nat) {b : Octet}
    (hb : ∀ rest, readInsn (b :: rest) = some (.advance delta, rest)) :
    run k initial pc 4 ⟨start, initial, []⟩ [b, 0x0c, 0, 1] =
      some (if pc < start + delta * k.codeAlign then initial
        else { initial with cfa := .registerOffset 0 1 }) := by
  have hdef : readInsn [0x0c, 0, 1] = some (.defCfa 0 1, []) := rfl
  rw [run, if_neg (cons_ne_nil _ _), hb, bind_some, step, bind_some]
  split
  · rfl
  · next hbefore =>
    rw [run, if_neg (cons_ne_nil _ _), hdef, bind_some, step, bind_some, if_neg hbefore, run_nil]
    rfl

theorem run_offset (k : Factors) (initial : Row) (start pc : Nat) (hpc : start ≤ pc) :
    run k initial pc 2 ⟨start, initial, []⟩ [0x80, 1] =
      some (initial.set 0 (.offset k.dataAlign)) := by
  have hread : readInsn [0x80, 1] = some (.offset 0 1, []) := rfl
  rw [run, if_neg (cons_ne_nil _ _), hread, bind_some, step, bind_some,
    if_neg (Nat.not_lt.mpr hpc), run_nil, Nat.cast_one, one_mul]

/-- For every image, entry and native FDE that starts at `start` and holds the entry's start `func`:
the rows of the emitted FDE are the rows of the native one under its own CIE. -/
def CopiesRows (cie : Cie) (start func : BitVec 64) : Prop :=
  ∀ image before e n, (emitEntries image before).length + 4 < 2 ^ 32 →
    image.nativeCfi e = some n → n.initialLocation = start → image.funcAddr e = func →
    ∀ pc row, func.toNat ≤ pc → pc < func.toNat + e.funcSize.toNat →
      cie.row start.toNat n.cfi pc = some row → entryRow image before e pc = some row

section

variable (start func : BitVec 64) (cfi : List Octet) (hcfi : cfi.length < 2 ^ 31)

def probeFde : NativeFde :=
  { initialLocation := start, addressRange := func - start + 1, fdePtr := 0, cfi := cfi
    cfi_lt := hcfi }

def probeImage : UnwindImage :=
  { textBase := func, slide := 0, info := ⟨[], 0⟩, natives := [probeFde start func cfi hcfi]
    nativeSize := 0, got := fun _ => 0 }

def probeEntry : CuEntry := ⟨0, 16, 0x43000000, 1⟩

theorem funcAddr_probeImage : (probeImage start func cfi hcfi).funcAddr probeEntry = func := by
  change func + 0#64 + 0#64 = func
  rw [BitVec.add_zero, BitVec.add_zero]

theorem nativeCfi_probeImage (hinside : start ≤ func) (huser : func.toNat < 2 ^ 63) (hne : cfi ≠ []) :
    (probeImage start func cfi hcfi).nativeCfi probeEntry =
      some (probeFde start func cfi hcfi) := by
  have hlsda : (probeImage start func cfi hcfi).lsdaAddr probeEntry ≠ 0 := by
    change func + 0 + 1 ≠ 0
    bv_omega
  have hfound : start = func ∨
      (func - start + 1 ≠ 0 ∧ start < func ∧ func < start + (func - start + 1)) := by
    by_cases h : start = func
    · exact .inl h
    · refine .inr ⟨?_, ?_, ?_⟩ <;> bv_omega
  have hfind : findNativeFde [probeFde start func cfi hcfi] func =
      some (probeFde start func cfi hcfi) := by
    rw [findNativeFde, find?_cons_of_pos]
    exact decide_eq_true hfound
  rw [UnwindImage.nativeCfi, if_pos hlsda, funcAddr_probeImage]
  change (findNativeFde [probeFde start func cfi hcfi] func).filter _ = _
  rw [hfind, filter_some, if_pos]
  exact decide_eq_true hne

end

/-- The two runs of an instruction sequence end in one row wherever the copy is faithful. -/
theorem CopiesRows.run_eq {cie : Cie} {init : Row} (hinit : cie.initialRow = some init)
    {start func : BitVec 64} (hinside : start ≤ func) (huser : func.toNat < 2 ^ 63)
    (h : CopiesRows cie start func) {cfi : List Octet} (hcfi : cfi.length < 2 ^ 31) (hne : cfi ≠ [])
    {pc : Nat} (hpc : func.toNat ≤ pc) (hlast : pc < func.toNat + 16) {row row' : Row}
    (hrow : run cie.factors init pc cfi.length ⟨start.toNat, init, []⟩ cfi = some row)
    (hrow' : run ⟨4, -8⟩ entryState pc cfi.length ⟨func.toNat, entryState, []⟩ cfi = some row') :
    row = row' := by
  have hn := nativeCfi_probeImage start func cfi hcfi hinside huser hne
  have hpos : (emitEntries (probeImage start func cfi hcfi) []).length + 4 < 2 ^ 32 := by
    have hnone : entryFdes (probeImage start func cfi hcfi) [] = [] := rfl
    rw [length_emitEntries, ciesSize, hnone, map_nil, sum_nil]
    split
    · omega
    · omega
  have hnative : cie.row start.toNat (probeFde start func cfi hcfi).cfi pc = some row := by
    rw [Cie.row, hinit]
    exact hrow
  have hcopy := h _ [] probeEntry _ hpos hn rfl (funcAddr_probeImage ..) pc row hpc hlast hnative
  obtain ⟨n, hentry⟩ := entryRow_of_nativeCfi hpos hn
  rw [hentry, funcAddr_probeImage] at hcopy
  have hbase : (emittedCie (probeImage start func cfi hcfi).gxxPersonality).row func.toNat cfi pc =
      some row' := by
    rw [row_emittedCie, hrow']
  exact some.inj (hcopy.symm.trans (Cie.row_append_nops hbase n))

/-- The copy of a native program keeps its rows exactly where the native CIE has the factors 4 and
-8 and sets up `CFA = SP + 0`, and the entry starts where the native FDE does. -/
theorem copied_rows_iff {cie : Cie} {init : Row} (hinit : cie.initialRow = some init)
    {start func : BitVec 64} (hinside : start ≤ func) (huser : func.toNat < 2 ^ 63) :
    CopiesRows cie start func ↔
      cie.factors = ⟨4, -8⟩ ∧ init = entryState ∧ start = func := by
  constructor
  · intro h
    have hsame := @h.run_eq _ _ hinit _ _ hinside huser
    have hle : start.toNat ≤ func.toNat := BitVec.le_def.mp hinside
    have hstate : init = entryState :=
      hsame (show [(0 : Octet)].length < 2 ^ 31 by decide) (by simp) (Nat.le_refl _) (by omega)
        (run_nops _ _ _ 0 1 _) (run_nops _ _ _ 0 1 _)
    have hdata : cie.factors.dataAlign = -8 := by
      have hrows := hsame (show [(0x80 : Octet), 1].length < 2 ^ 31 by decide) (by simp)
        (Nat.le_refl _) (by omega) (run_offset _ init start.toNat func.toNat hle)
        (run_offset _ entryState func.toNat func.toNat (Nat.le_refl _))
      have hrule := congrArg (fun row => row.rules 0) hrows
      simpa [Row.set] using hrule
    have hends : ∀ delta b, (∀ rest, readInsn (b :: rest) = some (.advance delta, rest)) →
        ∀ pc, func.toNat ≤ pc → pc < func.toNat + 16 →
          (pc < start.toNat + delta * cie.factors.codeAlign ↔ pc < func.toNat + delta * 4) := by
      intro delta b hb pc hpc hlast
      have hrows := hsame (show [b, 0x0c, 0, 1].length < 2 ^ 31 by simp) (by simp) hpc hlast
        (run_advance _ init start.toNat pc delta hb)
        (run_advance _ entryState func.toNat pc delta hb)
      rw [hstate] at hrows
      have hcfa := congrArg Row.cfa hrows
      split at hcfa
      · next hbefore =>
        split at hcfa
        · next hbefore' => exact iff_of_true hbefore hbefore'
        · exact absurd hcfa (by decide)
      · next hbefore =>
        split at hcfa
        · exact absurd hcfa (by decide)
        · next hbefore' => exact iff_of_false hbefore hbefore'
    have hone := hends 1 0x41 (fun _ => rfl)
    have htwo := hends 2 0x42 (fun _ => rfl)
    have h3 := hone (func.toNat + 3) (by omega) (by omega)
    have h8 := htwo (func.toNat + 8) (by omega) (by omega)
    have hcode : cie.factors.codeAlign = 4 := by omega
    refine ⟨?_, hstate, BitVec.eq_of_toNat_eq (by omega)⟩
    exact (congrArg₂ Factors.mk hcode hdata :)
  · rintro ⟨hfactors, rfl, rfl⟩ image before e n hpos hn hstart hfunc pc row hpc - hrow
    obtain ⟨padding, hentry⟩ := entryRow_of_nativeCfi hpos hn
    rw [hentry, hfunc]
    apply Cie.row_append_nops
    rw [Cie.row, hinit, hfactors] at hrow
    rw [row_emittedCie]
    exact hrow

theorem copiesRows_longSection :
    readCie longSection.bytes = some ⟨zR, ⟨4, -8⟩, [0x0c, 31, 0]⟩ ∧
      CopiesRows ⟨zR, ⟨4, -8⟩, [0x0c, 31, 0]⟩ 0x100001000 0x100001000 :=
  ⟨rfl, (copied_rows_iff (show Cie.initialRow ⟨zR, ⟨4, -8⟩, [0x0c, 31, 0]⟩ = some entryState from rfl)
    (by decide) (by decide)).mpr ⟨rfl, rfl, rfl⟩⟩

/-- A native FDE under a CIE with the code factor 1, as the system's compilers write it: the stack
pointer moves by 16 after the first instruction. -/
def byteSection : NativeSection :=
  { addr := 0x100008000, size := 52
    bytes := fields [(4, 16), (4, 0), (1, 1), (1, 0x7a), (1, 0x52), (1, 0), (1, 1), (1, 0x78), (1, 30),
      (1, 1), (1, 0), (1, 0x0c), (1, 31), (1, 0),
      (4, 28), (4, 24), (8, 0x100001000), (8, 0x40), (1, 0),
      (1, 0x44), (1, 0x0e), (1, 16), (4, 0)]
    deref := fun _ => 0 }

def oneInfo : UnwindInfo :=
  { bytes := fields [(4, 1), (4, 28), (4, 0), (4, 28), (4, 1), (4, 32), (4, 2),
      (4, 0x4000),
      (4, 0x1000), (4, 64), (4, 56), (4, 0x1040), (4, 0), (4, 64),
      (4, 0x1000), (4, 0x3000),
      (4, 2), (2, 8), (2, 1), (4, 0x1000), (4, 0x53000000)]
    size := 80 }

def oneImage : UnwindImage :=
  { splitImage with info := oneInfo, natives := byteSection.natives, nativeSize := byteSection.size }

def oneEntry : CuEntry := ⟨0x1000, 256, 0x53000000, 0x3000⟩

/-- Two instructions into the function the copy still has `CFA = SP + 0`. -/
theorem oneEntry_row_differs :
    collectEntries oneImage.info = some [oneEntry] ∧
      (oneImage.nativeCfi oneEntry).map (fun n => (n.initialLocation, n.cfi)) =
        some (0x100001000, [0x44, 0x0e, 16, 0, 0, 0, 0]) ∧
      oneImage.funcAddr oneEntry = 0x100001000 ∧
      ((readFde byteSection.bytes 20).bind fun view => (view.row 0x100001008).map Row.cfa) =
        some (.registerOffset 31 16) ∧
      (entryRow oneImage [] oneEntry 0x100001008).map Row.cfa = some (.registerOffset 31 0) := by
  decide +kernel

end Machgate.CopiedPrograms
