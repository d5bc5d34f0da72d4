import Machgate.PatchTokens

namespace Machgate.PatchReader

open CText PatchText PatchGrammar PatchTokens List Option

/-- What may stand behind an instruction: blanks, and then nothing or the `;` of an `expect`. -/
def Ends (rest : List Char) : Prop :=
  Delimited rest ∧ (skipWs rest = [] ∨ ∃ q, skipWs rest = ';' :: q)

section

/-- What may stand behind a location. -/
structure Follows (loc : Loc) (rest : List Char) : Prop where
  delimited : Delimited rest
  no_find : ¬ ['f', 'i', 'n', 'd', ' '] <+: skipWs rest
  no_within : ¬ ['w', 'i', 't', 'h', 'i', 'n', ' '] <+: skipWs rest
  no_pattern : loc.Open → ∀ c ∈ (skipWs rest).head?, isPatternChar c = false

variable {p rest : List Char}

theorem parseWithin_none (h : ¬ ['w', 'i', 't', 'h', 'i', 'n', ' '] <+: p) :
    parseWithin p = some (0#64, p) := by
  rw [parseWithin, if_neg (by rwa [ isPrefixOf_iff_prefix])]

theorem exists_spaced {gap : Gap} (h : Gap.Spaced gap) :
    ∃ tail : Blanks, gap.chars = ' ' :: tail.chars := by
  obtain ⟨c, cs, hgap⟩ := exists_cons_of_ne_nil gap.ne
  rw [Gap.Spaced, hgap] at h
  cases h
  exact ⟨⟨cs, fun c hc => gap.all c (by simp [hgap, hc])⟩, hgap⟩

theorem parseWithin_write {w : Within} (hspaced : Gap.Spaced w.after) (hrest : Delimited rest) :
    parseWithin (skipWs (w.write rest)) = some (w.bound.value, rest) := by
  obtain ⟨tail, hafter⟩ := exists_spaced hspaced
  have hskip : skipWs (w.write rest) =
      ['w', 'i', 't', 'h', 'i', 'n', ' '] ++ (tail.chars ++ w.bound.write rest) := by
    rw [Within.write, skipWs_run w.before.toRun, hafter]
    exact skipWs_cons rfl _
  rw [hskip, parseWithin, if_pos ( isPrefixOf_iff_prefix.mpr (prefix_append _ _))]
  refine parseHexU64_hex w.bound le_rfl ?_ hrest
  rw [skipWs_skipWs]
  exact (skipWs_run tail _).trans (skipWs_hex w.bound rest)

theorem parseSym_sym {name : Token isNameChar} {offset : Option (Bool × Hex 64)}
    (hlen : name.chars.length ≤ 255) (hrest : Follows (.sym name offset) rest) :
    parseSym (name.chars ++ writeOffset offset rest) =
      some (.sym name.chars (offset.elim 0#64 signed), rest) := by
  have hname := parseName_run name.ne (fun c hc => isSymChar_of_isNameChar (name.all c hc)) hlen
    (stops_offset offset (by decide) rfl (fun _ _ _ => by decide) hrest.delimited)
  have hfind := hrest.no_find
  rw [← isPrefixOf_iff_prefix] at hfind
  simp only [parseSym, hname, bind_some,
    parseOffset_write offset (fun _ _ _ => rfl) hrest.delimited, hfind, if_false, Bool.false_eq_true]

theorem parseSym_symFind {name : Token isNameChar} {find : Find} {patterns : List Pattern}
    {save q : List Char} {bound : BitVec 64} (hlen : name.chars.length ≤ 255)
    (hspaced : Gap.Spaced find.after)
    (hpatterns : parsePatterns locMaxPatterns (find.pattern.chars ++
      writeMore find.more (find.within.elim rest fun w => w.write rest)) = some (patterns, save))
    (hwithin : parseWithin save = some (bound, q)) :
    parseSym (name.chars ++ find.write rest) =
      some (.symFind name.chars 0#64 patterns bound, q) := by
  obtain ⟨tail, hafter⟩ := exists_spaced hspaced
  have hdelimited : Delimited (find.write rest) := delimited_gap find.before _
  have hname := parseName_run name.ne (fun c hc => isSymChar_of_isNameChar (name.all c hc)) hlen
    (hdelimited.stops (by decide))
  have hoffset : parseOffset true (find.write rest) = some (0#64, find.write rest) :=
    parseOffset_write none (fun _ _ _ => rfl) hdelimited
  have hskip : skipWs (find.write rest) = ['f', 'i', 'n', 'd', ' '] ++ (tail.chars ++
      (find.pattern.chars ++ writeMore find.more (find.within.elim rest fun w => w.write rest))) := by
    rw [Find.write, skipWs_run find.before.toRun, hafter]
    exact skipWs_cons rfl _
  have hprefix : ['f', 'i', 'n', 'd', ' '].isPrefixOf (skipWs (find.write rest)) :=
    isPrefixOf_iff_prefix.mpr (hskip ▸ prefix_append _ _)
  have hstart : skipWs ((skipWs (find.write rest)).drop 5) =
      find.pattern.chars ++ writeMore find.more (find.within.elim rest fun w => w.write rest) := by
    rw [hskip]
    exact (skipWs_run tail _).trans (skipWs_pattern find.pattern _)
  simp only [parseSym, hname, bind_some, hoffset, hprefix, if_true, hstart, hpatterns,
    hwithin, map_some]

theorem exists_parseSym_symFind {name : Token isNameChar} {find : Find}
    (hread : (Loc.symFind name find).Readable) (hrest : Follows (.symFind name find) rest) :
    ∃ e q, parseSym (name.chars ++ find.write rest) = some (e, q) ∧
      placeOf e = (Loc.symFind name find).place ∧ skipWs q = skipWs rest := by
  obtain ⟨hlen, hspaced, hmore, hwithin⟩ := hread
  cases hbound : find.within with
  | none =>
    obtain ⟨patterns, hpatterns, hwords⟩ := parsePatterns_write hrest.delimited
      (hrest.no_pattern hbound) find.pattern find.more locMaxPatterns hmore
    refine ⟨_, _, parseSym_symFind hlen hspaced (by rw [hbound]; exact hpatterns)
      (parseWithin_none hrest.no_within), ?_, skipWs_skipWs rest⟩
    rw [placeOf, hwords, if_pos rfl, Loc.place, hbound]
    rfl
  | some w =>
    obtain ⟨hwspaced, hne⟩ := hwithin w hbound
    have hdelimited : Delimited (w.write rest) := delimited_gap w.before _
    have hstop : ∀ c ∈ (skipWs (w.write rest)).head?, isPatternChar c = false := by
      rw [Within.write, skipWs_run w.before.toRun]
      rintro c ⟨⟩
      rfl
    obtain ⟨patterns, hpatterns, hwords⟩ := parsePatterns_write hdelimited hstop find.pattern
      find.more locMaxPatterns hmore
    refine ⟨_, _, parseSym_symFind hlen hspaced (by rw [hbound]; exact hpatterns)
      (parseWithin_write hwspaced hrest.delimited), ?_, rfl⟩
    rw [placeOf, hwords, if_neg hne, Loc.place, hbound]
    rfl

theorem exists_parseLocExpr_label {name : Token isLabelNameChar} {offset : Option (Hex 64)}
    (hread : (Loc.label name offset).Readable) (hrest : Delimited rest)
    (hp : skipWs p = (Loc.label name offset).write rest) :
    ∃ e q, parseLocExpr p = some (e, q) ∧ placeOf e = (Loc.label name offset).place ∧
      skipWs q = skipWs rest := by
  obtain ⟨hlen, hsym, hmark⟩ := hread
  have hstops : ∀ c ∈ (writeOffset (offset.map fun o => (true, o)) rest).head?,
      isLabelChar c = false := stops_offset _ (by decide) rfl (by simp) hrest
  have hoffset : parseOffset false (writeOffset (offset.map fun o => (true, o)) rest) = _ :=
    parseOffset_write _ (by simp) hrest
  have hname := parseName_run name.ne
    (fun c hc => isLabelChar_of_isLabelNameChar (name.all c hc)) hlen hstops
  have hnosym : ¬ ['s', 'y', 'm', ':'].isPrefixOf
      (name.chars ++ writeOffset (offset.map fun o => (true, o)) rest) := by
    rw [ isPrefixOf_iff_prefix]
    exact fun h => hsym (prefix_run (by decide) hstops h)
  have hnomark : ¬ startsHexPrefix
      (name.chars ++ writeOffset (offset.map fun o => (true, o)) rest) := by
    rw [startsHexPrefix_iff] at hmark ⊢
    rintro ⟨q, h | h⟩
    · obtain ⟨t, ht⟩ : ['0', 'x'] <+: name.chars := prefix_run (by decide) hstops ⟨q, h.symm⟩
      exact hmark ⟨t, .inl ht.symm⟩
    · obtain ⟨t, ht⟩ : ['0', 'X'] <+: name.chars := prefix_run (by decide) hstops ⟨q, h.symm⟩
      exact hmark ⟨t, .inr ht.symm⟩
  refine ⟨.label name.chars (offset.elim 0#64 Hex.value), rest, ?_, rfl, rfl⟩
  rw [parseLocExpr, hp, Loc.write]
  simp only [hnosym, hnomark, if_false, Bool.false_eq_true, hname, bind_some, hoffset, map_some]
  cases offset with
  | none | some o => rfl

/-- A location is read as the one it denotes, up to what stands behind it. -/
theorem exists_parseLocExpr {loc : Loc} (hread : loc.Readable) (hrest : Follows loc rest)
    (hp : skipWs p = loc.write rest) :
    ∃ e q, parseLocExpr p = some (e, q) ∧ placeOf e = loc.place ∧ skipWs q = skipWs rest := by
  cases loc with
  | sym name offset =>
    refine ⟨.sym name.chars (offset.elim 0#64 signed), rest, ?_, rfl, rfl⟩
    rw [parseLocExpr, hp]
    exact parseSym_sym hread hrest
  | symFind name find =>
    obtain ⟨e, q, hsym, hplace, hq⟩ := exists_parseSym_symFind hread hrest
    refine ⟨e, q, ?_, hplace, hq⟩
    rw [parseLocExpr, hp]
    exact hsym
  | label name offset => exact exists_parseLocExpr_label hread hrest.delimited hp
  | addr address =>
    refine ⟨.abs address.value, rest, ?_, rfl, rfl⟩
    have hhex := parseHexU64_hex address le_rfl (skipWs_hex address rest) hrest.delimited
    obtain ⟨hmark, hnosym⟩ := starts_of_mark address hread rest
    rw [parseLocExpr, hp, Loc.write]
    simp only [hnosym, hmark, if_false, if_true, Bool.false_eq_true, hhex, map_some]
    rfl

end

variable {p rest : List Char}

theorem Ends.follows (h : Ends rest) (loc : Loc) : Follows loc rest := by
  obtain ⟨hdelimited, hnil | ⟨q, hsemi⟩⟩ := h
  · exact ⟨hdelimited, by simp [hnil], by simp [hnil], by simp [hnil]⟩
  · refine ⟨hdelimited, by simp [hsemi], by simp [hsemi], fun _ c hc => ?_⟩
    rw [hsemi] at hc
    cases hc
    rfl

theorem hex_second {w : Nat} {h : Hex w} {d c : Char} {q : List Char}
    (hwrite : h.write rest = d :: c :: q) :
    (c = 'x' ∨ c = 'X' ∨ isHexDigit c) ∨ h.mark = [] ∧ h.digits.chars = [d] ∧ rest = c :: q := by
  rcases h.mark_mem with hmark | hmark | hmark
  · rw [Hex.write, hmark, nil_append] at hwrite
    obtain ⟨e, es, hdigits⟩ := exists_cons_of_ne_nil h.digits.ne
    rw [hdigits, cons_append] at hwrite
    obtain ⟨rfl, htail⟩ := cons.inj hwrite
    cases es with
    | nil => exact .inr ⟨hmark, hdigits, htail⟩
    | cons f es =>
      obtain ⟨rfl, -⟩ := cons.inj htail
      exact .inl (.inr (.inr (h.digits.all f (by simp [hdigits]))))
  · rw [Hex.write, hmark] at hwrite
    exact .inl (.inl (cons.inj (cons.inj hwrite).2).1.symm)
  · rw [Hex.write, hmark] at hwrite
    exact .inl (.inr (.inl (cons.inj (cons.inj hwrite).2).1.symm))

theorem skipWs_loc (loc : Loc) (rest : List Char) : skipWs (loc.write rest) = loc.write rest := by
  cases loc with
  | sym name offset | symFind name find => exact skipWs_cons rfl _
  | label name offset => exact skipWs_token name (by decide) _
  | addr address => exact skipWs_hex address rest

theorem skipWs_insn (insn : Insn) (rest : List Char) :
    skipWs (insn.write rest) = insn.write rest := by
  cases insn with
  | raw word => exact skipWs_hex word rest
  | nop | ret | b gap target | bl gap target => exact skipWs_cons rfl _

theorem endsKeyword_of_delimited (hrest : Delimited rest) : endsKeyword rest := by
  cases rest with
  | nil => rfl
  | cons c rest =>
    have hc := hrest.stops (p := fun c => !endsKeyword [c]) (by decide) c rfl
    rwa [Bool.not_eq_eq_eq_not, Bool.not_false] at hc

/-- A number is read as an instruction word unless it is a `b` with a space behind it. -/
theorem parseInsnExpr_raw {word : Hex 32} (hread : (Insn.raw word).Readable rest)
    (hrest : Delimited rest) (hp : skipWs p = word.write rest) :
    parseInsnExpr p = some (.raw word.value, rest) := by
  have hnop : ¬ ['n', 'o', 'p'].isPrefixOf (word.write rest) := by
    rw [ isPrefixOf_iff_prefix]
    exact not_prefix_hex word rfl rest
  have hret : ¬ ['r', 'e', 't'].isPrefixOf (word.write rest) := by
    rw [ isPrefixOf_iff_prefix]
    exact not_prefix_hex word rfl rest
  have hbl : ¬ ['b', 'l', ' '].isPrefixOf (word.write rest) := by
    rw [ isPrefixOf_iff_prefix]
    rintro ⟨t, ht⟩
    rcases hex_second ht.symm with hc | ⟨-, -, hnext⟩
    · exact absurd hc (by decide)
    · rw [hnext] at hrest
      exact not_delimited rfl (by decide) hrest
  have hb : ¬ ['b', ' '].isPrefixOf (word.write rest) := by
    rw [ isPrefixOf_iff_prefix]
    rintro ⟨t, ht⟩
    rcases hex_second ht.symm with hc | ⟨hmark, hdigits, hnext⟩
    · exact absurd hc (by decide)
    · exact hread hmark hdigits (by rw [hnext]; rfl)
  obtain ⟨hfits, hvalue⟩ := word_value word
  have hhex := parseHexU64_hex word (by decide) (skipWs_hex word rest) hrest
  simp only [parseInsnExpr, hp, hnop, hret, hbl, hb, false_and, if_false, Bool.false_eq_true, hhex,
    bind_some, hfits, hvalue]

theorem exists_target {gap : Gap} {target : Loc} (hspaced : Gap.Spaced gap) (hread : target.Readable)
    (hrest : Ends rest) :
    ∃ (tail : Blanks) (e : LocExpr) (q : List Char), gap.chars = ' ' :: tail.chars ∧
      parseLocExpr (tail.chars ++ target.write rest) = some (e, q) ∧
      placeOf e = target.place ∧ skipWs q = skipWs rest := by
  obtain ⟨tail, hgap⟩ := exists_spaced hspaced
  obtain ⟨e, q, hloc, hplace, hq⟩ := exists_parseLocExpr hread (hrest.follows target)
    ((skipWs_run tail _).trans (skipWs_loc target rest))
  exact ⟨tail, e, q, hgap, hloc, hplace, hq⟩

/-- An instruction is read as the one it denotes, up to what stands behind it. -/
theorem exists_parseInsnExpr {insn : Insn} (hread : insn.Readable rest) (hrest : Ends rest)
    (hp : skipWs p = insn.write rest) :
    ∃ e q, parseInsnExpr p = some (e, q) ∧ actionOf e = insn.action ∧ skipWs q = skipWs rest := by
  cases insn with
  | raw word => exact ⟨_, _, parseInsnExpr_raw hread hrest.1 hp, rfl, rfl⟩
  | nop =>
    refine ⟨.raw encNop, rest, ?_, rfl, rfl⟩
    rw [parseInsnExpr, hp]
    exact if_pos ⟨rfl, endsKeyword_of_delimited hrest.1⟩
  | ret =>
    refine ⟨.raw encRet, rest, ?_, rfl, rfl⟩
    rw [parseInsnExpr, hp, Insn.write, if_neg (by simp)]
    exact if_pos ⟨rfl, endsKeyword_of_delimited hrest.1⟩
  | b gap target =>
    obtain ⟨tail, e, q, hgap, hloc, hplace, hq⟩ := exists_target hread.1 hread.2 hrest
    refine ⟨.b e, q, ?_, congrArg Action.b hplace, hq⟩
    rw [parseInsnExpr, hp, Insn.write, hgap]
    exact congrArg (Option.map _) hloc
  | bl gap target =>
    obtain ⟨tail, e, q, hgap, hloc, hplace, hq⟩ := exists_target hread.1 hread.2 hrest
    refine ⟨.bl e, q, ?_, congrArg Action.bl hplace, hq⟩
    rw [parseInsnExpr, hp, Insn.write, hgap]
    exact congrArg (Option.map _) hloc

end Machgate.PatchReader
