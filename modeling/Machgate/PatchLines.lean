import Machgate.PatchReader

namespace Machgate.PatchLines

open CText PatchText PatchGrammar PatchTokens PatchReader List Option

section

variable {ws : List Char}

theorem ends_blank (hws : ∀ c ∈ ws, isWs c) : Ends ws :=
  ⟨fun c hc => .inl (hws c (mem_of_mem_head? hc)), .inl (dropWhile_eq_nil_iff.mpr hws)⟩

theorem delimited_blanks {blanks : Blanks} {rest : List Char} (hrest : Delimited rest) :
    Delimited (blanks.chars ++ rest) := by
  intro c hc
  cases hchars : blanks.chars with
  | nil => exact hrest c (by rwa [hchars] at hc)
  | cons d ds =>
    rw [hchars] at hc
    cases hc
    exact .inl (isWs_of_isBlank (blanks.all c (by simp [hchars])))

theorem ends_writeExpect (expect : Option Expect) (hws : ∀ c ∈ ws, isWs c) :
    Ends (writeExpect expect ws) := by
  cases expect with
  | none => exact ends_blank hws
  | some e =>
    refine ⟨delimited_blanks fun c hc => ?_, .inr ⟨_, (skipWs_run e.before _).trans (skipWs_cons rfl _)⟩⟩
    cases hc
    exact .inr rfl

theorem parseExpect_write {expect : Option Expect} {q : List Char} (hws : ∀ c ∈ ws, isWs c)
    (hspaced : ∀ e ∈ expect, Gap.Spaced e.gap) (hq : skipWs q = skipWs (writeExpect expect ws)) :
    parseExpect q = some (expect.map fun e => e.word.value) := by
  cases expect with
  | none =>
    have hnil : skipWs q = [] := hq.trans (dropWhile_eq_nil_iff.mpr hws)
    simp only [parseExpect, hnil, map_none]
  | some e =>
    obtain ⟨tail, hgap⟩ := exists_spaced (hspaced e rfl)
    have hstart : skipWs q = ';' :: (e.after.chars ++ ['e', 'x', 'p', 'e', 'c', 't', ' '] ++
        (tail.chars ++ e.word.write ws)) := by
      rw [hq]
      refine ((skipWs_run e.before _).trans (skipWs_cons rfl _)).trans ?_
      rw [hgap, append_assoc]
      rfl
    obtain ⟨hfits, hvalue⟩ := word_value e.word
    have hhex := parseHexU64_hex (p := skipWs (tail.chars ++ e.word.write ws)) e.word (by decide)
      ((skipWs_skipWs _).trans ((skipWs_run tail _).trans (skipWs_hex e.word ws)))
      (ends_blank hws).1
    have hkeyword : skipWs (e.after.chars ++ ['e', 'x', 'p', 'e', 'c', 't', ' '] ++
        (tail.chars ++ e.word.write ws)) =
        ['e', 'x', 'p', 'e', 'c', 't', ' '] ++ (tail.chars ++ e.word.write ws) := by
      rw [append_assoc, skipWs_run e.after]
      exact skipWs_cons rfl _
    simp only [parseExpect, hstart, hkeyword]
    rw [if_pos ( isPrefixOf_iff_prefix.mpr (prefix_append _ _))]
    change (parseHexU64 (skipWs (tail.chars ++ e.word.write ws))).bind _ = _
    rw [hhex, bind_some, if_neg hfits, hvalue]
    rfl

variable {loc : Loc} {gap : Gap}

theorem follows_insn {insn : Insn} {sep : Gap} {rest : List Char}
    (hopen : loc.Open → insn = .nop ∨ insn = .ret) (hrest : Delimited rest) :
    Follows loc (sep.chars ++ insn.write rest) := by
  have hskip : skipWs (sep.chars ++ insn.write rest) = insn.write rest :=
    (skipWs_run sep.toRun _).trans (skipWs_insn insn rest)
  refine ⟨delimited_gap sep _, ?_, ?_, ?_⟩
  · rw [hskip]
    cases insn with
    | raw word =>
      rintro ⟨t, ht⟩
      rcases hex_second ht.symm with hc | ⟨-, -, hnext⟩
      · exact absurd hc (by decide)
      · rw [hnext] at hrest
        exact not_delimited rfl (by decide) hrest
    | _ => simp [Insn.write]
  · rw [hskip]
    cases insn with
    | raw word => exact not_prefix_hex word rfl rest
    | _ => simp [Insn.write]
  · rw [hskip]
    intro h
    rcases hopen h with rfl | rfl
    · rintro c ⟨⟩
      rfl
    · rintro c ⟨⟩
      rfl

/-- A line whose location and instruction can be read is read as what it denotes. -/
theorem exists_parseAt {sep : Gap} {insn : Insn} {expect : Option Expect}
    {p : List Char} (hread : (Line.atLine gap loc sep insn expect).Readable ws)
    (hws : ∀ c ∈ ws, isWs c)
    (hp : skipWs p = loc.write (sep.chars ++ insn.write (writeExpect expect ws))) :
    ∃ line, parseAt p = some line ∧
      statementOf line = (Line.atLine gap loc sep insn expect).statement := by
  obtain ⟨-, hloc, hopen, hinsn, hexpect⟩ := hread
  have hends := ends_writeExpect expect hws
  obtain ⟨e, q, hparse, hplace, hq⟩ := exists_parseLocExpr (p := skipWs p) hloc
    (follows_insn hopen hends.1) ((skipWs_skipWs p).trans hp)
  obtain ⟨i, r, hinsn', haction, hr⟩ := exists_parseInsnExpr hinsn hends
    (hq.trans ((skipWs_run sep.toRun _).trans (skipWs_insn insn _)))
  refine ⟨.atLine e i (expect.map fun e => e.word.value), ?_, ?_⟩
  · simp only [parseAt, hparse, bind_some, hinsn', parseExpect_write hws hexpect hr, map_some]
  · rw [statementOf, hplace, haction, Line.statement]

theorem isLetChar_of_isLabelNameChar {c : Char} (h : isLabelNameChar c) : isLetChar c := by
  simp only [isLabelNameChar, isLabelChar, Bool.and_eq_true] at h
  rw [isLetChar, Bool.and_eq_true]
  exact ⟨h.1.1.1.1.1, h.1.1.2⟩

theorem exists_parseLet {name : Token isLabelNameChar} {before after : Blanks} {p : List Char}
    (hread : (Line.letLine gap name before after loc).Readable ws) (hws : ∀ c ∈ ws, isWs c)
    (hp : skipWs p = name.chars ++ (before.chars ++ '=' :: (after.chars ++ loc.write ws))) :
    ∃ line, parseLet p = some line ∧
      statementOf line = (Line.letLine gap name before after loc).statement := by
  obtain ⟨-, hlen, hloc⟩ := hread
  have hstop : ∀ c ∈ (before.chars ++ '=' :: (after.chars ++ loc.write ws)).head?,
      isLetChar c = false := by
    intro c hc
    cases hchars : before.chars with
    | nil =>
      rw [hchars] at hc
      cases hc
      rfl
    | cons d ds =>
      rw [hchars] at hc
      cases hc
      have hblank := before.all c (by simp [hchars])
      rw [isBlank, Bool.or_eq_true, decide_eq_true_eq, decide_eq_true_eq] at hblank
      rcases hblank with rfl | rfl
      · rfl
      · rfl
  obtain ⟨htake, hdrop⟩ := scan_run (fun c hc => isLetChar_of_isLabelNameChar (name.all c hc)) hstop
  have hequals : skipWs (before.chars ++ '=' :: (after.chars ++ loc.write ws)) =
      '=' :: (after.chars ++ loc.write ws) := (skipWs_run before _).trans (skipWs_cons rfl _)
  obtain ⟨e, q, hparse, hplace, -⟩ := exists_parseLocExpr (p := skipWs (after.chars ++ loc.write ws))
    hloc ((ends_blank hws).follows loc)
    ((skipWs_skipWs _).trans ((skipWs_run after _).trans (skipWs_loc loc ws)))
  refine ⟨.letLine name.chars e, ?_, ?_⟩
  · simp only [parseLet, hp, htake, hdrop, hequals, hparse, Nat.not_lt.mpr hlen, if_false, map_some]
  · rw [statementOf, hplace, Line.statement]

theorem looksLegacy_write (address : Hex 64) (gap : Gap) (rest : List Char) :
    looksLegacy (address.write (gap.chars ++ rest)) := by
  obtain ⟨d, q, hwrite, hd⟩ := exists_hex_cons address (gap.chars ++ rest)
  have hstart : (address.write (gap.chars ++ rest)).dropWhile (fun c => c = ' ' || c = '\t') =
      address.write (gap.chars ++ rest) := by
    rw [hwrite]
    refine dropWhile_cons_of_neg fun hblank => ?_
    rw [Bool.or_eq_true, decide_eq_true_eq, decide_eq_true_eq] at hblank
    rcases hblank with rfl | rfl
    all_goals exact absurd hd (by decide)
  have hhead : (address.write (gap.chars ++ rest)).head?.any isHexDigit := by
    rw [hwrite]
    exact hd
  simp only [looksLegacy, hstart, hhead, if_true]
  split
  · rfl
  · next hplain =>
    have hmark : address.mark = [] := by
      by_contra hmark
      exact hplain (starts_of_mark address hmark _).1
    obtain ⟨-, hdrop⟩ := scan_run address.digits.all ((delimited_gap gap rest).stops (by decide))
    rw [Hex.write, hmark, nil_append, hdrop]
    obtain ⟨c, cs, hgap⟩ := exists_cons_of_ne_nil gap.ne
    have hblank : isBlank c := gap.all c (by simp [hgap])
    rw [hgap]
    change (isBlank c || c = '\n') = true
    rw [hblank, Bool.true_or]

theorem exists_parseLegacy {address : Hex 64} {word : Hex 32} (hws : ∀ c ∈ ws, isWs c) :
    ∃ line, parseLegacy (address.write (gap.chars ++ word.write ws)) = some line ∧
      statementOf line = (Line.legacy address gap word).statement := by
  obtain ⟨hfits, hvalue⟩ := word_value word
  have haddress := parseHexU64_hex address le_rfl (skipWs_hex address _)
    (delimited_gap gap (word.write ws))
  have hword := parseHexU64_hex (p := gap.chars ++ word.write ws) word (by decide)
    ((skipWs_run gap.toRun _).trans (skipWs_hex word ws)) (ends_blank hws).1
  refine ⟨.absLine address.value word.value, ?_, rfl⟩
  simp only [parseLegacy, haddress, bind_some, hword, hfits, if_false, hvalue]
  rfl

/-- A buffer that holds a readable line and blanks is read as that line. -/
theorem exists_parseLine {line : Line} {buf : List Char} (hread : line.Readable ws)
    (hws : ∀ c ∈ ws, isWs c) (hbuf : skipWs (stripComment (cString buf)) = line.write ws) :
    ∃ parsed, parseLine buf = some (some parsed) ∧ statementOf parsed = line.statement := by
  cases line with
  | legacy address gap word =>
    obtain ⟨parsed, hparse, hstatement⟩ := @exists_parseLegacy ws gap address word hws
    obtain ⟨d, q, hwrite, -⟩ := exists_hex_cons address (gap.chars ++ word.write ws)
    have hne : address.write (gap.chars ++ word.write ws) ≠ [] := by
      rw [hwrite]
      exact cons_ne_nil d q
    refine ⟨parsed, ?_, hstatement⟩
    rw [parseLine, hbuf, Line.write, if_neg hne, if_pos (looksLegacy_write address gap _), hparse]
    rfl
  | atLine gap loc sep insn expect =>
    obtain ⟨tail, hgap⟩ := exists_spaced hread.1
    obtain ⟨parsed, hparse, hstatement⟩ := exists_parseAt hread hws
      ((skipWs_run tail _).trans (skipWs_loc loc _))
    refine ⟨parsed, ?_, hstatement⟩
    rw [parseLine, hbuf, Line.write, hgap]
    exact congrArg (Option.map some) hparse
  | letLine gap name before after loc =>
    obtain ⟨tail, hgap⟩ := exists_spaced hread.1
    obtain ⟨parsed, hparse, hstatement⟩ := exists_parseLet hread hws
      ((skipWs_run tail _).trans (skipWs_token name (by decide) _))
    refine ⟨parsed, ?_, hstatement⟩
    rw [parseLine, hbuf, Line.write, hgap]
    exact congrArg (Option.map some) hparse

end

/-- Not a character that ends a line, a string or the part in front of a comment. -/
def isPlain (c : Char) : Bool := c ≠ '#' && c ≠ '\x00' && c ≠ '\n'

def Plain (p : List Char) : Prop := p.all isPlain

variable {p rest : List Char}

theorem plain_nil : Plain [] := rfl

theorem Plain.mem (h : Plain p) {c : Char} (hc : c ∈ p) : c ≠ '#' ∧ c ≠ '\x00' ∧ c ≠ '\n' := by
  have hplain := all_eq_true.mp h c hc
  simpa [isPlain, and_assoc] using hplain

theorem Plain.append (hp : Plain p) (hrest : Plain rest) : Plain (p ++ rest) := by
  rw [Plain, all_append, hp, hrest]
  rfl

theorem plain_run {accepts : Char → Bool} (run : Run accepts)
    (haccepts : ['#', '\x00', '\n'].all fun c => !accepts c) : Plain run.chars := by
  refine all_eq_true.mpr fun c hc => ?_
  have hnot : c ∉ ['#', '\x00', '\n'] := fun hmem => by
    simpa [run.all c hc] using all_eq_true.mp haccepts c hmem
  simpa [isPlain, and_assoc] using hnot

theorem plain_hex {w : Nat} (h : Hex w) (hrest : Plain rest) : Plain (h.write rest) := by
  refine .append ?_ ((plain_run h.digits.toRun (by decide)).append hrest)
  rcases h.mark_mem with hmark | hmark | hmark <;> rw [hmark] <;> rfl

theorem plain_blanks (blanks : Blanks) (hrest : Plain rest) : Plain (blanks.chars ++ rest) :=
  (plain_run blanks (by decide)).append hrest

theorem plain_more (more : List (Gap × PatternText)) (hrest : Plain rest) :
    Plain (writeMore more rest) := by
  induction more with
  | nil => exact hrest
  | cons m more ih => exact plain_blanks m.1.toRun ((plain_run m.2.toRun (by decide)).append ih)

theorem plain_within (w : Within) (hrest : Plain rest) : Plain (w.write rest) :=
  plain_blanks w.before.toRun (.append (p := ['w', 'i', 't', 'h', 'i', 'n']) rfl
    (plain_blanks w.after.toRun (plain_hex w.bound hrest)))

theorem plain_find (find : Find) (hrest : Plain rest) : Plain (find.write rest) := by
  have hend : Plain (find.within.elim rest fun w => w.write rest) := by
    cases find.within with
    | none => exact hrest
    | some w => exact plain_within w hrest
  exact plain_blanks find.before.toRun (.append (p := ['f', 'i', 'n', 'd']) rfl
    (plain_blanks find.after.toRun ((plain_run find.pattern.toRun (by decide)).append
      (plain_more find.more hend))))

theorem plain_offset (offset : Option (Bool × Hex 64)) (hrest : Plain rest) :
    Plain (writeOffset offset rest) := by
  rcases offset with - | ⟨sign, h⟩
  · exact hrest
  · refine .append (p := [if sign then '+' else '-']) ?_ (plain_hex h hrest)
    cases sign <;> rfl

theorem plain_loc (loc : Loc) (hrest : Plain rest) : Plain (loc.write rest) := by
  have hsym : Plain ['s', 'y', 'm', ':'] := rfl
  cases loc with
  | sym name offset =>
    exact hsym.append ((plain_run name.toRun (by decide)).append (plain_offset offset hrest))
  | symFind name find =>
    exact hsym.append ((plain_run name.toRun (by decide)).append (plain_find find hrest))
  | label name offset => exact (plain_run name.toRun (by decide)).append (plain_offset _ hrest)
  | addr address => exact plain_hex address hrest

theorem plain_insn (insn : Insn) (hrest : Plain rest) : Plain (insn.write rest) := by
  cases insn with
  | raw word => exact plain_hex word hrest
  | nop => exact .append (p := ['n', 'o', 'p']) rfl hrest
  | ret => exact .append (p := ['r', 'e', 't']) rfl hrest
  | b gap target => exact .append (p := ['b']) rfl (plain_blanks gap.toRun (plain_loc target hrest))
  | bl gap target =>
    exact .append (p := ['b', 'l']) rfl (plain_blanks gap.toRun (plain_loc target hrest))

theorem plain_expect (expect : Option Expect) (hrest : Plain rest) :
    Plain (writeExpect expect rest) := by
  cases expect with
  | none => exact hrest
  | some e =>
    exact plain_blanks e.before (.append (p := [';']) rfl
      (plain_blanks e.after (.append (p := ['e', 'x', 'p', 'e', 'c', 't']) rfl
        (plain_blanks e.gap.toRun (plain_hex e.word hrest)))))

theorem plain_line (line : Line) (hrest : Plain rest) : Plain (line.write rest) := by
  cases line with
  | legacy address gap word => exact plain_hex address (plain_blanks gap.toRun (plain_hex word hrest))
  | atLine gap loc sep insn expect =>
    exact .append (p := ['a', 't']) rfl (plain_blanks gap.toRun
      (plain_loc loc (plain_blanks sep.toRun (plain_insn insn (plain_expect expect hrest)))))
  | letLine gap name before after loc =>
    exact .append (p := ['l', 'e', 't']) rfl (plain_blanks gap.toRun
      ((plain_run name.toRun (by decide)).append (plain_blanks before
        (.append (p := ['=']) rfl (plain_blanks after (plain_loc loc hrest))))))

end Machgate.PatchLines
