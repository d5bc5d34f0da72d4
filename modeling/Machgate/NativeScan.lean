import Machgate.NativeEhFrame

namespace Machgate.NativeEhFrame.NativeSection

open RecordBuffer EhFrameTable Option List Prod

variable (sec : NativeSection)

/-- One round of the loop of `parse_native_eh_frame_fdes`: the next position and the entry of the
record, `none` where the loop ends. -/
def scanStep (pos : Nat) : Option (Nat × List NativeEntry) :=
  let length := field sec.bytes pos 4
  let isLong := length = 0xFFFFFFFF
  let dataStart := if isLong then pos + 12 else pos + 4
  let dataEnd :=
    if isLong then (dataStart + field sec.bytes (pos + 4) 8) % 2 ^ 64 else dataStart + length
  if sec.size < pos + 4 ∨ length = 0 ∨ isLong ∧ sec.size < pos + 12 ∨ sec.size < dataEnd then none
  else some (dataEnd, sec.fdeAt pos dataStart dataEnd)

inductive Visited : Nat → Prop
  | start : Visited 0
  | next {pos pos' : Nat} {entries : List NativeEntry} :
      Visited pos → sec.scanStep pos = some (pos', entries) → Visited pos'

def Forward : Prop :=
  ∀ ⦃pos pos' entries⦄, sec.Visited pos → sec.scanStep pos = some (pos', entries) → pos < pos'

/-- Every round goes forward, the loop ends, and no record start has two entries. -/
def Terminates : Prop :=
  sec.Forward ∧ ∃ entries, sec.parseNativeEhFrameFdes = some entries ∧
    (entries.map (·.fdePtr)).Nodup ∧
    ∀ e ∈ entries, ∃ pos, sec.Visited pos ∧ e.fdePtr = sec.addr + BitVec.ofNat 64 pos

/-- The record at `pos` has a 64-bit length with which `data_start + length` wraps to `pos` or to a
position before it.  The lengths above `2 ^ 64 - 12` wrap too, into the record's own head. -/
def WrapsBack (pos : Nat) : Prop :=
  field sec.bytes pos 4 = 0xFFFFFFFF ∧ pos + 12 ≤ sec.size ∧
    2 ^ 64 ≤ pos + 12 + field sec.bytes (pos + 4) 8 ∧ field sec.bytes (pos + 4) 8 ≤ 2 ^ 64 - 12

theorem parseFrom_succ (fuel pos : Nat) :
    sec.parseFrom (fuel + 1) pos =
      match sec.scanStep pos with
      | none => some []
      | some (pos', entries) => (sec.parseFrom fuel pos').map (entries ++ ·) := by
  rw [parseFrom, scanStep]
  by_cases hhead : sec.size < pos + 4
  · rw [if_pos hhead, if_pos (.inl hhead)]
  by_cases hzero : field sec.bytes pos 4 = 0
  · rw [if_neg hhead, if_pos hzero, if_pos (.inr (.inl hzero))]
  by_cases hroom : field sec.bytes pos 4 = 0xFFFFFFFF ∧ sec.size < pos + 12
  · rw [if_neg hhead, if_neg hzero, if_pos hroom, if_pos (.inr (.inr (.inl hroom)))]
  · rw [if_neg hhead, if_neg hzero, if_neg hroom]
    simp only [hhead, hzero, hroom, false_or]
    split <;> split <;> rfl

theorem fdeAt_cases (pos dataStart dataEnd : Nat) :
    sec.fdeAt pos dataStart dataEnd = [] ∨
      ∃ e : NativeEntry, e.fdePtr = sec.addr + BitVec.ofNat 64 pos ∧
        sec.fdeAt pos dataStart dataEnd = [e] := by
  simp only [fdeAt]
  split
  · exact .inl rfl
  · split
    · exact .inl rfl
    · exact .inr ⟨_, rfl, rfl⟩

variable {sec}

theorem lt_of_scanStep {pos pos' : Nat} {entries : List NativeEntry}
    (hstep : sec.scanStep pos = some (pos', entries)) (hsize : sec.size + 12 ≤ 2 ^ 64)
    (hwrap : ¬ sec.WrapsBack pos) : pos < pos' ∧ pos' ≤ sec.size := by
  have hlength := field_lt sec.bytes (pos + 4) 8
  simp only [scanStep, ite_none_left_eq_some, not_or, some.injEq] at hstep
  obtain ⟨⟨-, hzero, hhead, hend⟩, rfl, -⟩ := hstep
  refine ⟨?_, Nat.le_of_not_lt hend⟩
  simp only [WrapsBack, not_and, not_le] at hwrap
  split_ifs with hlong
  · have hroom : pos + 12 ≤ sec.size := Nat.le_of_not_lt fun h => hhead ⟨hlong, h⟩
    have hback := hwrap hlong hroom
    omega
  · omega

theorem scanStep_of_wrapsBack {pos : Nat} (hwrap : sec.WrapsBack pos)
    (hsize : sec.size + 12 ≤ 2 ^ 64) :
    ∃ pos' entries, sec.scanStep pos = some (pos', entries) ∧ pos' ≤ pos := by
  obtain ⟨hlong, hroom, hover, hlength⟩ := hwrap
  refine ⟨(pos + 12 + field sec.bytes (pos + 4) 8) % 2 ^ 64,
    sec.fdeAt pos (pos + 12) ((pos + 12 + field sec.bytes (pos + 4) 8) % 2 ^ 64), ?_, by omega⟩
  rw [scanStep, if_pos hlong, if_pos hlong, if_neg]
  omega

/-- The induction is on the fuel, of which one unit is used for each position passed. -/
theorem parseFrom_ends (hsize : sec.size + 12 ≤ 2 ^ 64)
    (hwrap : ∀ pos, sec.Visited pos → ¬ sec.WrapsBack pos) {fuel pos : Nat}
    (hvisited : sec.Visited pos) (hpos : pos ≤ sec.size) (hfuel : sec.size < fuel + pos) :
    ∃ entries, sec.parseFrom fuel pos = some entries ∧ (entries.map (·.fdePtr)).Nodup ∧
      ∀ e ∈ entries, ∃ p, pos ≤ p ∧ p ≤ sec.size ∧ sec.Visited p ∧
        e.fdePtr = sec.addr + BitVec.ofNat 64 p := by
  induction fuel generalizing pos with
  | zero => omega
  | succ fuel ih =>
    rw [parseFrom_succ]
    cases hstep : sec.scanStep pos with
    | none => exact ⟨[], rfl, nodup_nil, nofun⟩
    | some next =>
      obtain ⟨pos', found⟩ := next
      obtain ⟨hlt, hle⟩ := lt_of_scanStep hstep hsize (hwrap pos hvisited)
      obtain ⟨entries, hparse, hnodup, hentries⟩ := ih (hvisited.next hstep) hle (by omega)
      have hlater : ∀ e ∈ entries, ∃ p, pos ≤ p ∧ p ≤ sec.size ∧ sec.Visited p ∧
          e.fdePtr = sec.addr + BitVec.ofNat 64 p := by
        intro e he
        obtain ⟨p, hp, hrest⟩ := hentries e he
        exact ⟨p, hlt.le.trans hp, hrest⟩
      have hfound : found = [] ∨ ∃ e : NativeEntry,
          e.fdePtr = sec.addr + BitVec.ofNat 64 pos ∧ found = [e] := by
        simp only [scanStep, ite_none_left_eq_some, some.injEq] at hstep
        obtain ⟨-, -, rfl⟩ := hstep
        exact fdeAt_cases sec ..
      refine ⟨found ++ entries, congrArg (Option.map (found ++ ·)) hparse, ?_⟩
      rcases hfound with rfl | ⟨e, hptr, rfl⟩
      · exact ⟨hnodup, hlater⟩
      · refine ⟨nodup_cons.mpr ⟨?_, hnodup⟩, ?_⟩
        · -- an equal pointer behind would be that of a position behind
          rw [List.mem_map]
          rintro ⟨e', he', heq⟩
          obtain ⟨p, hp, hpsize, -, hptr'⟩ := hentries e' he'
          have hsame := BitVec.add_right_inj _ |>.mp (hptr'.symm.trans (heq.trans hptr))
          have hnat := congrArg BitVec.toNat hsame
          simp only [BitVec.toNat_ofNat] at hnat
          omega
        · intro e' he'
          rcases mem_cons.mp he' with rfl | he'
          · exact ⟨pos, le_rfl, hpos, hvisited, hptr⟩
          · exact hlater e' he'

theorem terminates_iff (sec : NativeSection) (hsize : sec.size + 12 ≤ 2 ^ 64) :
    sec.Terminates ↔ ∀ pos, sec.Visited pos → ¬ sec.WrapsBack pos := by
  constructor
  · rintro ⟨hforward, -⟩ pos hvisited hwrap
    obtain ⟨pos', entries, hstep, hle⟩ := scanStep_of_wrapsBack hwrap hsize
    exact Nat.not_lt.mpr hle (hforward hvisited hstep)
  · intro hwrap
    have hforward : sec.Forward := fun pos pos' entries hvisited hstep =>
      (lt_of_scanStep hstep hsize (hwrap pos hvisited)).1
    obtain ⟨entries, hparse, hnodup, hentries⟩ :=
      parseFrom_ends hsize hwrap .start (Nat.zero_le _) (Nat.lt_succ_self _)
    refine ⟨hforward, entries, hparse, hnodup, ?_⟩
    intro e he
    obtain ⟨p, -, -, hp⟩ := hentries e he
    exact ⟨p, hp⟩

/-- A section of one CIE without data behind its `cie_ptr`. -/
def bareCie : NativeSection :=
  { addr := 0x100004000, size := 8, bytes := [4, 0, 0, 0, 0, 0, 0, 0], deref := fun _ => 0 }

theorem bareCie_terminates : bareCie.size + 12 ≤ 2 ^ 64 ∧
    (bareCie.Terminates ↔ ∀ pos, bareCie.Visited pos → ¬ bareCie.WrapsBack pos) :=
  ⟨by decide, terminates_iff bareCie (by decide)⟩

/-- A first record with the 64-bit length `2 ^ 64 - 12`. -/
def wrappingRecord : NativeSection :=
  { addr := 0x100004000, size := 16
    bytes := leBytes 4 0xFFFFFFFF ++ leBytes 8 (2 ^ 64 - 12) ++ leBytes 4 0, deref := fun _ => 0 }

theorem wrappingRecord_never_ends :
    ¬ wrappingRecord.Terminates ∧ ∀ fuel, wrappingRecord.parseFrom fuel 0 = none := by
  have hstep : wrappingRecord.scanStep 0 = some (0, []) := by rfl
  refine ⟨fun h => Nat.lt_irrefl 0 (h.1 .start hstep), fun fuel => ?_⟩
  induction fuel with
  | zero => rfl
  | succ fuel ih =>
    rw [parseFrom_succ, hstep]
    exact congrArg (Option.map ([] ++ ·)) ih

end Machgate.NativeEhFrame.NativeSection
