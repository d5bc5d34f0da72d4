import Machgate.PatchLines

namespace Machgate.PatchFiles

open CText PatchText PatchGrammar PatchTokens PatchReader PatchLines List Option

section

variable {s : Source} {ws : List Char}

theorem parseLines_blank {bufs : List (List Char)} (hbufs : ∀ buf ∈ bufs, parseLine buf = some none)
    (more : List (List Char)) : parseLines (bufs ++ more) = parseLines more := by
  induction bufs with
  | nil => rfl
  | cons buf bufs ih =>
    rw [cons_append, parseLines, hbufs buf mem_cons_self, bind_some,
      ih fun b hb => hbufs b (mem_cons_of_mem buf hb)]
    exact Option.map_id' ..

theorem stripped_append {body : List Char} (hbody : Plain body) (front : List Char) :
    stripComment (cString (body ++ front)) = body ++ stripComment (cString front) := by
  rw [cString, takeWhile_append_of_pos fun c hc => by simp [(hbody.mem hc).2.1], stripComment,
    takeWhile_append_of_pos fun c hc => by simp [(hbody.mem hc).1]]
  rfl

/-- What is left of a buffer behind the line, without the comment, is blank. -/
theorem isWs_of_behind (hws : ws <+: s.behind ++ ['\n']) (hhash : ∀ c ∈ ws, c ≠ '#') :
    ∀ c ∈ ws, isWs c := by
  have htrailing : ∀ c ∈ s.trailing.chars, isWs c := fun c hc =>
    isWs_of_isBlank (s.trailing.all c hc)
  rw [Source.behind, append_assoc] at hws
  cases hcomment : s.comment with
  | none =>
    rw [hcomment] at hws
    intro c hc
    rcases mem_append.mp (hws.subset hc) with hc | hc
    · exact htrailing c hc
    · rw [mem_singleton.mp hc]
      rfl
  | some comment =>
    rw [hcomment] at hws
    have hfront := prefix_run (p := fun c => c ≠ '#')
      (all_eq_true.mpr fun c hc => by simpa using hhash c hc) (by rintro c ⟨⟩; rfl) hws
    exact fun c hc => htrailing c (hfront.subset hc)

theorem head_behind (hws : ws <+: s.behind ++ ['\n']) (hhead : ws.head? = some ' ') :
    s.behind.head? = some ' ' := by
  obtain ⟨t, ht⟩ := hws
  cases ws with
  | nil => cases hhead
  | cons c ws =>
    cases hhead
    cases hbehind : s.behind with
    | nil =>
      rw [hbehind] at ht
      cases ht
    | cons d ds =>
      rw [hbehind] at ht
      rw [← (cons.inj ht).1]
      rfl

theorem readable_mono {behind : List Char} {line : Line} (h : line.Readable behind)
    (hhead : ws.head? = some ' ' → behind.head? = some ' ') : line.Readable ws := by
  cases line with
  | legacy address gap word => trivial
  | letLine gap name before after loc => exact h
  | atLine gap loc sep insn expect =>
    obtain ⟨hgap, hloc, hopen, hinsn, hexpect⟩ := h
    refine ⟨hgap, hloc, hopen, ?_, hexpect⟩
    cases insn with
    | raw word =>
      intro hmark hdigits hspace
      refine hinsn hmark hdigits ?_
      cases expect with
      | none => exact hhead hspace
      | some e =>
        rw [← hspace]
        cases hbefore : e.before.chars with
        | nil | cons c cs => simp [writeExpect, Expect.write, hbefore]
    | _ => exact hinsn

theorem skipWs_line (line : Line) (rest : List Char) : skipWs (line.write rest) = line.write rest := by
  cases line with
  | legacy address gap word => exact skipWs_hex address _
  | atLine gap loc sep insn expect | letLine gap name before after loc => exact skipWs_cons rfl _

/-- The first buffer holds the line, and behind it only blanks and a part of the comment. -/
theorem exists_first_buffer (h : s.Readable) :
    ∃ front bufs, fgets 511 (s.text ++ ['\n']) =
        (s.leading.chars ++ s.line.write [] ++ front) :: bufs ∧ front <+: s.behind ++ ['\n'] := by
  have hbody : '\n' ∉ s.leading.chars ++ s.line.write [] := fun hmem =>
    ((plain_blanks s.leading (plain_line s.line plain_nil)).mem hmem).2.2 rfl
  have htext : s.text ++ ['\n'] = s.leading.chars ++ s.line.write [] ++ (s.behind ++ ['\n']) := by
    rw [Source.text, append_assoc, append_assoc, ← Line.write_append, ← Line.write_append,
      nil_append]
  rw [htext]
  exact exists_fgetsFrom_append 511 _ _ (by simp) hbody 511 h.1 []

theorem readable_reads (h : s.Readable) : s.Reads := by
  obtain ⟨front, bufs, hfgets, hfront⟩ := exists_first_buffer h
  obtain ⟨-, hlater, hread⟩ := h
  rw [hfgets, tail_cons] at hlater
  have hbody : Plain (s.leading.chars ++ s.line.write []) :=
    plain_blanks s.leading (plain_line s.line plain_nil)
  have hws : stripComment (cString front) <+: s.behind ++ ['\n'] :=
    (( takeWhile_prefix _).trans ( takeWhile_prefix _)).trans hfront
  have hblank : ∀ c ∈ stripComment (cString front), isWs c :=
    isWs_of_behind hws fun c hc => by simpa using mem_takeWhile_imp hc
  have hcontents : skipWs (stripComment (cString (s.leading.chars ++ s.line.write [] ++ front))) =
      s.line.write (stripComment (cString front)) := by
    rw [stripped_append hbody, append_assoc, ← Line.write_append, nil_append, skipWs_run,
      skipWs_line]
  obtain ⟨parsed, hparse, hstatement⟩ := exists_parseLine
    (readable_mono hread (head_behind hws)) hblank hcontents
  refine ⟨parsed, hstatement, fun rest => ?_⟩
  have hline : fgets 511 (s.text ++ '\n' :: rest) =
      (s.leading.chars ++ s.line.write [] ++ front) :: (bufs ++ fgets 511 rest) := by
    rw [fgets, fgetsFrom_line, ← fgets, hfgets, cons_append]
  rw [parseFile, hline, parseLines, hparse, bind_some, parseLines_blank hlater]
  rfl

end

def token {accepts : Char → Bool} (chars : List Char) (hne : chars ≠ [])
    (hchars : chars.all accepts = true) : Token accepts :=
  ⟨⟨chars, List.all_eq_true.mp hchars⟩, hne⟩

def space : Gap := token [' '] (List.cons_ne_nil _ _) rfl

def tab : Gap := token ['\t'] (List.cons_ne_nil _ _) rfl

def noBlanks : Blanks := ⟨[], List.all_eq_true.mp rfl⟩

def mainName : Token isNameChar := token ['_', 'm', 'a', 'i', 'n'] (List.cons_ne_nil _ _) rfl

def shift : PatternText :=
  ⟨⟨['5', '3', '1', 'F', '7', '9', '?', '?'], List.all_eq_true.mp rfl⟩, rfl⟩

def spot : Token isLabelNameChar := token ['s', 'p', 'o', 't'] (List.cons_ne_nil _ _) rfl

def nopWord : Hex 32 :=
  ⟨[], .inl rfl, token ['D', '5', '0', '3', '2', '0', '1', 'F'] (List.cons_ne_nil _ _) rfl,
    Nat.le_of_ble_eq_true rfl⟩

def hex (mark : List Char) (hmark : mark = [] ∨ mark = ['0', 'x'] ∨ mark = ['0', 'X']) (digit : Char)
    (hdigit : [digit].all isHexDigit = true) (hlt : (hexValue [digit]).blt (2 ^ 64) = true) : Hex 64 :=
  ⟨mark, hmark, token [digit] (List.cons_ne_nil _ _) hdigit, Nat.le_of_ble_eq_true hlt⟩

def findShift (more : Nat) (within : Option Within) : Loc :=
  .symFind mainName ⟨space, space, shift, List.replicate more (space, shift), within⟩

def sourceOf (line : Line) : Source := ⟨noBlanks, line, noBlanks, none⟩

def branchAtFind : Source :=
  sourceOf (.atLine space (findShift 1 (some ⟨space, space, hex ['0', 'x'] (.inr (.inl rfl)) '8' rfl rfl⟩))
    space (.b space (.label spot (some (hex [] (.inl rfl) '4' rfl rfl))))
    (some ⟨space.toRun, space.toRun, space, nopWord⟩))

theorem branchAtFind_reads :
    branchAtFind.text = "at sym:_main find 531F79?? 531F79?? within 0x8 b spot+4 ; expect D503201F".toList ∧
      branchAtFind.Reads := by
  refine ⟨by decide +kernel, readable_reads ⟨by decide +kernel, by decide +kernel, rfl, ?_, ?_, ?_, ?_⟩⟩
  · refine ⟨by decide, rfl, by decide, ?_⟩
    rintro w ⟨⟩
    exact ⟨rfl, by decide⟩
  · exact fun h => nomatch h
  · exact ⟨rfl, by decide, by decide, by decide⟩
  · rintro e ⟨⟩
    rfl

theorem not_reads_of_none {s : Source} (h : parseFile (s.text ++ ['\n']) = none) : ¬ s.Reads := by
  rintro ⟨line, -, hread⟩
  rw [hread []] at h
  cases h

theorem not_reads_of_ne {s : Source} (line : PatchLine)
    (h : parseFile (s.text ++ ['\n']) = some [line]) (hne : statementOf line ≠ s.line.statement) :
    ¬ s.Reads := by
  rintro ⟨parsed, hstatement, hread⟩
  rw [hread []] at h
  cases h
  exact hne hstatement

def ninePatterns : Source := sourceOf (.atLine space (findShift 8 none) space .nop none)

def repeated {accepts : Char → Bool} (n : Nat) (c : Char) (hc : accepts c = true) : Token accepts :=
  ⟨⟨List.replicate (n + 1) c, fun _ hd => List.eq_of_mem_replicate hd ▸ hc⟩, List.cons_ne_nil _ _⟩

def longName : Source :=
  sourceOf (.atLine space (.sym (repeated 255 'f' rfl) none) space .nop none)

def longLabel : Source :=
  sourceOf (.letLine space (repeated 127 'f' rfl) noBlanks noBlanks (.label spot none))

def longLine : Source :=
  sourceOf (.atLine (repeated 509 ' ' rfl) (.label spot none) space .nop none)

def bareAddress : Source :=
  sourceOf (.atLine space (.addr (hex [] (.inl rfl) '8' rfl rfl)) space .nop none)

def markedLabel : Source :=
  sourceOf (.atLine space (.label (token ['0', 'x', '8'] (List.cons_ne_nil _ _) rfl) none) space .nop none)

def zeroBound : Source :=
  sourceOf (.atLine space (findShift 0 (some ⟨space, space, hex [] (.inl rfl) '0' rfl rfl⟩)) space .nop none)

def tabbed : Source := sourceOf (.atLine tab (.label spot none) space .nop none)

theorem not_reads_zeroBound : ¬ zeroBound.Reads := by
  refine not_reads_of_ne
    (.atLine (.symFind ['_', 'm', 'a', 'i', 'n'] 0#64 [⟨0xFFFFFF00#32, 0x531F7900#32⟩] 0#64)
      (.raw encNop) none) (by decide +kernel) ?_
  intro h
  injection h with hplace
  injection hplace with hname hpatterns hwithin
  cases hwithin

/-- An address without its mark is a label, and a label with one is an address. -/
theorem not_reads_mark : ¬ bareAddress.Reads ∧ ¬ markedLabel.Reads := by
  constructor
  · refine not_reads_of_ne (.atLine (.label ['8'] 0#64) (.raw encNop) none) (by decide +kernel) ?_
    intro h
    injection h with hplace
    cases hplace
  · refine not_reads_of_ne (.atLine (.abs 8#64) (.raw encNop) none) (by decide +kernel) ?_
    intro h
    injection h with hplace
    cases hplace

/-- The limits of the reader: patterns, names, labels, the buffer, the bound 0, the mark of an
address and the space behind a keyword. -/
theorem limits_not_read :
    (¬ ninePatterns.Reads ∧ ¬ longName.Reads ∧ ¬ longLabel.Reads ∧ ¬ longLine.Reads) ∧
      ¬ zeroBound.Reads ∧ (¬ bareAddress.Reads ∧ ¬ markedLabel.Reads) ∧ ¬ tabbed.Reads := by
  refine ⟨⟨?_, ?_, ?_, ?_⟩, not_reads_zeroBound, not_reads_mark, ?_⟩
  all_goals exact not_reads_of_none (by decide +kernel)

-- a word or a branch right behind a pattern is taken for another pattern
example : parseFile "at sym:_main find 531F79?? D503201F\n".toList = none := by decide +kernel

example : parseFile "at sym:_main find 531F79?? b spot\n".toList = none := by decide +kernel

end Machgate.PatchFiles
