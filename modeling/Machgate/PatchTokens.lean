import Mathlib.Data.List.DropRight
import Machgate.PatchGrammar

namespace Machgate.PatchTokens

open CText PatchText PatchGrammar List Nat
open BitVec hiding or_assoc reverse_append

def Delimited (rest : List Char) : Prop := ∀ c ∈ rest.head?, isWs c ∨ c = ';'

section

variable {c : Char} {rest : List Char}

theorem isWs_iff : isWs c ↔ c = ' ' ∨ c = '\t' ∨ c = '\n' ∨ c = '\r' := by
  simp [isWs, or_assoc]

theorem isWs_of_isBlank (h : isBlank c) : isWs c := by
  simp only [isBlank, Bool.or_eq_true, decide_eq_true_eq] at h
  exact isWs_iff.mpr (by tauto)

theorem not_isWs {p : Char → Bool} (hp : [' ', '\t', '\n', '\r'].all fun c => !p c) (hc : p c) :
    isWs c = false := by
  by_contra hws
  rw [Bool.not_eq_false, isWs_iff] at hws
  have hmem : c ∈ [' ', '\t', '\n', '\r'] := by simpa using hws
  simpa [hc] using all_eq_true.mp hp c hmem

theorem Delimited.stops (h : Delimited rest) {p : Char → Bool}
    (hp : [' ', '\t', '\n', '\r', ';'].all fun c => !p c) : ∀ c ∈ rest.head?, p c = false := by
  intro c hc
  have hmem : c ∈ [' ', '\t', '\n', '\r', ';'] := by
    rcases h c hc with hws | rfl
    · have := isWs_iff.mp hws
      simp only [mem_cons]
      tauto
    · decide
  simpa using all_eq_true.mp hp c hmem

theorem not_delimited (hws : isWs c = false) (hsemi : c ≠ ';') : ¬ Delimited (c :: rest) := by
  intro h
  rcases h c rfl with hc | hc
  · rw [hws] at hc
    cases hc
  · exact hsemi hc

theorem delimited_gap (gap : Gap) (rest : List Char) : Delimited (gap.chars ++ rest) := by
  intro c hc
  rw [head?_append_of_ne_nil _ gap.ne] at hc
  exact .inl (isWs_of_isBlank (gap.all c (mem_of_mem_head? hc)))

theorem skipWs_blanks {body : List Char} (hbody : ∀ c ∈ body, isWs c) (rest : List Char) :
    skipWs (body ++ rest) = skipWs rest :=
  dropWhile_append_of_pos hbody

theorem skipWs_run (run : Blanks) (rest : List Char) : skipWs (run.chars ++ rest) = skipWs rest :=
  skipWs_blanks (fun c hc => isWs_of_isBlank (run.all c hc)) rest

theorem skipWs_cons (hc : isWs c = false) (rest : List Char) : skipWs (c :: rest) = c :: rest :=
  dropWhile_cons_of_neg (by simp [hc])

theorem skipWs_token {accepts : Char → Bool} (token : Token accepts)
    (haccepts : [' ', '\t', '\n', '\r'].all fun c => !accepts c) (rest : List Char) :
    skipWs (token.chars ++ rest) = token.chars ++ rest := by
  obtain ⟨c, cs, hchars⟩ := exists_cons_of_ne_nil token.ne
  rw [hchars]
  exact skipWs_cons (not_isWs haccepts (token.all c (by simp [hchars]))) _

theorem skipWs_skipWs (p : List Char) : skipWs (skipWs p) = skipWs p :=
  dropWhile_idempotent isWs p

end

section

variable {w : Nat} (h : Hex w) {p rest : List Char}

theorem exists_hex_cons (rest : List Char) : ∃ c q, h.write rest = c :: q ∧ isHexDigit c := by
  obtain ⟨d, ds, hdigits⟩ := exists_cons_of_ne_nil h.digits.ne
  rcases h.mark_mem with hmark | hmark | hmark
  · refine ⟨d, ds ++ rest, ?_, h.digits.all d (by simp [hdigits])⟩
    simp [Hex.write, hmark, hdigits]
  · exact ⟨'0', 'x' :: (h.digits.chars ++ rest), by simp [Hex.write, hmark], rfl⟩
  · exact ⟨'0', 'X' :: (h.digits.chars ++ rest), by simp [Hex.write, hmark], rfl⟩

/-- A word that does not start with a digit is not in front of a number. -/
theorem not_prefix_hex {c : Char} {word : List Char} (hc : isHexDigit c = false) (rest : List Char) :
    ¬ c :: word <+: h.write rest := by
  obtain ⟨d, q, hwrite, hd⟩ := exists_hex_cons h rest
  rintro ⟨t, ht⟩
  rw [hwrite] at ht
  rw [← (cons.inj ht).1, hc] at hd
  cases hd

theorem skipWs_hex (rest : List Char) : skipWs (h.write rest) = h.write rest := by
  obtain ⟨c, q, hwrite, hc⟩ := exists_hex_cons h rest
  rw [hwrite]
  exact skipWs_cons (not_isWs (by decide) hc) q

theorem Delimited.no_mark (hrest : Delimited rest) : ∀ c ∈ rest.head?, c ≠ 'x' ∧ c ≠ 'X' := by
  intro c hc
  have hx := hrest.stops (p := fun c => c = 'x' || c = 'X') (by decide) c hc
  simpa using hx

theorem skip_mark (hrest : Delimited rest) :
    (if startsHexPrefix (h.write rest) then (h.write rest).drop 2 else h.write rest) =
      h.digits.chars ++ rest := by
  rcases h.mark_mem with hmark | hmark | hmark
  · have hplain := not_startsHexPrefix_run h.digits.ne h.digits.all hrest.no_mark
    rw [Hex.write, hmark, nil_append, if_neg hplain]
  · rw [Hex.write, hmark]
    rfl
  · rw [Hex.write, hmark]
    rfl

theorem parseHexU64_hex (hw : w ≤ 64) (hp : skipWs p = h.write rest) (hrest : Delimited rest) :
    parseHexU64 p = some (BitVec.ofNat 64 (hexValue h.digits.chars), rest) := by
  have hlt : hexValue h.digits.chars < 2 ^ 64 :=
    h.value_lt.trans_le (Nat.pow_le_pow_right (by decide) hw)
  have hhead : (h.digits.chars ++ rest).head?.any isHexDigit := by
    obtain ⟨d, ds, hdigits⟩ := exists_cons_of_ne_nil h.digits.ne
    rw [hdigits]
    exact h.digits.all d (by simp [hdigits])
  simp only [parseHexU64, hp, skip_mark h hrest, hhead, if_true]
  rw [strtoull_run h.digits.ne h.digits.all hrest.no_mark (hrest.stops (by decide)),
    Nat.min_eq_left (by omega)]

theorem starts_of_mark (hmark : h.mark ≠ []) (rest : List Char) :
    startsHexPrefix (h.write rest) ∧ ¬ ['s', 'y', 'm', ':'].isPrefixOf (h.write rest) := by
  rcases h.mark_mem with hnone | hlower | hupper
  · exact absurd hnone hmark
  · rw [Hex.write, hlower]
    exact ⟨rfl, by simp⟩
  · rw [Hex.write, hupper]
    exact ⟨rfl, by simp⟩

end

/-- The value of a 32-bit word is read as a 64-bit number and cut. -/
theorem word_value (h : Hex 32) :
    ¬ 0xFFFFFFFF#64 < BitVec.ofNat 64 (hexValue h.digits.chars) ∧
      (BitVec.ofNat 64 (hexValue h.digits.chars)).setWidth 32 = h.value := by
  have hlt := h.value_lt
  have hval : (BitVec.ofNat 64 (hexValue h.digits.chars)).toNat = hexValue h.digits.chars := by
    rw [toNat_ofNat]
    omega
  constructor
  · rw [lt_def, hval]
    exact Nat.not_lt.mpr (le_of_lt_succ hlt)
  · apply eq_of_toNat_eq
    rw [toNat_setWidth, hval, Hex.value, toNat_ofNat]

section

variable {rest : List Char} {minus : Bool} (offset : Option (Bool × Hex 64))

theorem parseOffset_write (hminus : ∀ o ∈ offset, o.1 = false → minus) (hrest : Delimited rest) :
    parseOffset minus (writeOffset offset rest) = some (offset.elim 0#64 signed, rest) := by
  rcases offset with - | ⟨sign, h⟩
  · change parseOffset minus rest = some (0#64, rest)
    unfold parseOffset
    split
    · exact absurd hrest (not_delimited rfl (by decide))
    · exact absurd hrest (not_delimited rfl (by decide))
    · rfl
  · have hhex := parseHexU64_hex h le_rfl (skipWs_hex h rest) hrest
    cases sign with
    | true => exact hhex
    | false =>
      change (if minus then (parseHexU64 (h.write rest)).map fun r => (-r.1, r.2) else _) = _
      rw [if_pos (hminus _ rfl rfl), hhex]
      rfl

/-- A class that holds neither blanks nor signs ends in front of an offset. -/
theorem stops_offset {p : Char → Bool} (hp : [' ', '\t', '\n', '\r', ';'].all fun c => !p c)
    (hplus : p '+' = false) (hminus : ∀ o ∈ offset, o.1 = false → p '-' = false)
    (hrest : Delimited rest) : ∀ c ∈ (writeOffset offset rest).head?, p c = false := by
  rcases offset with - | ⟨sign, h⟩
  · exact hrest.stops hp
  · rintro c hc
    cases sign with
    | true =>
      cases hc
      exact hplus
    | false =>
      cases hc
      exact hminus _ rfl rfl

theorem parseName_run {accepts : Char → Bool} {name : List Char} (hne : name ≠ [])
    (hname : ∀ c ∈ name, accepts c) (hlen : name.length ≤ 255)
    (hrest : ∀ c ∈ rest.head?, accepts c = false) :
    parseName accepts (name ++ rest) = some (name, rest) := by
  obtain ⟨htake, hdrop⟩ := scan_run hname hrest
  simp only [parseName, htake, hdrop, hne, false_or, Nat.not_lt.mpr hlen, if_false]

theorem isSymChar_of_isNameChar {c : Char} (h : isNameChar c) : isSymChar c := by
  simp only [isNameChar, Bool.and_eq_true] at h
  exact h.1.1

theorem isLabelChar_of_isLabelNameChar {c : Char} (h : isLabelNameChar c) : isLabelChar c := by
  simp only [isLabelNameChar, Bool.and_eq_true] at h
  exact h.1.1.1

end

/-- The nibbles of mask and value that a character of a pattern stands for. -/
def nibbleOf (c : Char) : Word × Word :=
  if c = '?' then (0#32, 0#32) else (0xF#32, BitVec.ofNat 32 (hexDigit c))

def joinWords (nibbles : List Word) : Word := nibbles.foldl (fun m n => m <<< 4 ||| n) 0#32

theorem joinNibbles_eq (nibbles : List (Word × Word)) :
    joinNibbles nibbles =
      ⟨joinWords (nibbles.map Prod.fst), joinWords (nibbles.map Prod.snd)⟩ := by
  induction nibbles using reverseRecOn with
  | nil => rfl
  | append_singleton nibbles n ih =>
    rw [joinNibbles] at ih
    simp [joinNibbles, joinWords, foldl_append, ih]

theorem mapM_patternNibble {chars : List Char} (hchars : ∀ c ∈ chars, isPatternChar c) :
    chars.mapM patternNibble = some (chars.map nibbleOf) := by
  induction chars with
  | nil => rfl
  | cons c chars ih =>
    have hc : patternNibble c = some (nibbleOf c) := by
      have hc := hchars c mem_cons_self
      simp only [isPatternChar, Bool.or_eq_true, decide_eq_true_eq] at hc
      rw [patternNibble, nibbleOf]
      split
      · rfl
      · next hany => rw [if_pos (hc.resolve_right hany)]
    rw [mapM_cons, hc, ih fun d hd => hchars d (mem_cons_of_mem c hd)]
    rfl

/-- Each nibble stands in its place: the last one in the lowest four bits. -/
theorem getLsbD_joinWords (nibbles : List Word) (hlt : ∀ n ∈ nibbles, n.toNat < 16) (i : Nat)
    (hi : i < 32) :
    (joinWords nibbles).getLsbD i = (nibbles.reverse[i / 4]?).any fun n => n.getLsbD (i % 4) := by
  induction nibbles using reverseRecOn generalizing i with
  | nil => simp [joinWords]
  | append_singleton nibbles n ih =>
    have hn : n.toNat < 2 ^ 4 := hlt n (by simp)
    have ih := ih fun m hm => hlt m (by simp [hm])
    have hjoin : joinWords (nibbles ++ [n]) = joinWords nibbles <<< 4 ||| n := by simp [joinWords]
    rw [hjoin, reverse_append, reverse_singleton, singleton_append, getLsbD_or, getLsbD_shiftLeft]
    rcases Nat.lt_or_ge i 4 with hlow | hhigh
    · rw [div_eq_of_lt hlow, mod_eq_of_lt hlow]
      simp [hlow]
    · have hnone : n.getLsbD i = false :=
        testBit_lt_two_pow (hn.trans_le (Nat.pow_le_pow_right (by decide) hhigh))
      rw [hnone, ih (i - 4) (by omega), show i / 4 = (i - 4) / 4 + 1 by omega,
        show (i - 4) % 4 = i % 4 by omega]
      simp [hi, hhigh]

/-- A nibble of a word passes mask and value just if it is the digit or under a `?`. -/
theorem nibble_passes (c : Char) (x : BitVec 4) :
    (∀ j < 4, (x.getLsbD j && (nibbleOf c).1.getLsbD j) = (nibbleOf c).2.getLsbD j) ↔
      c = '?' ∨ x = BitVec.ofNat 4 (hexDigit c) := by
  rw [nibbleOf]
  split
  · next hany => simp [hany]
  · next hany =>
    rw [eq_of_getLsbD_eq_iff]
    simp only [hany, false_or]
    refine forall₂_congr fun j hj => ?_
    have hmask : (0xF#32).getLsbD j = true := by
      revert j
      decide
    rw [hmask, Bool.and_true, getLsbD_ofNat, getLsbD_ofNat]
    simp [hj, Nat.lt_of_lt_of_le hj (by decide : 4 ≤ 32)]

theorem nibbleOf_lt {c : Char} (hc : isPatternChar c) :
    (nibbleOf c).1.toNat < 16 ∧ (nibbleOf c).2.toNat < 16 := by
  simp only [isPatternChar, Bool.or_eq_true, decide_eq_true_eq] at hc
  rw [nibbleOf]
  split
  · decide
  · next hany =>
    have hdigit := hexDigit_lt (hc.resolve_right hany)
    refine ⟨Nat.lt_of_sub_eq_succ rfl, ?_⟩
    rw [toNat_ofNat]
    omega

variable {pattern : PatternText} {i : Nat} {c : Char}

theorem PatternText.index_lt (hc : pattern.chars[i]? = some c) : i < 8 :=
  pattern.length_eq ▸ (List.getElem?_eq_some_iff.mp hc).1

theorem getLsbD_nibbleOf {f : Word × Word → Word}
    (hf : ∀ c, isPatternChar c → (f (nibbleOf c)).toNat < 16) (hc : pattern.chars[i]? = some c)
    {j : Nat} (hj : j < 4) :
    (joinWords ((pattern.chars.map nibbleOf).map f)).getLsbD (4 * (7 - i) + j) =
      (f (nibbleOf c)).getLsbD j := by
  have hi := PatternText.index_lt hc
  have hlt : ∀ n ∈ (pattern.chars.map nibbleOf).map f, n.toNat < 16 := by
    simp only [map_map, mem_map, forall_exists_index, and_imp]
    rintro n d hd rfl
    exact hf d (pattern.all d hd)
  rw [getLsbD_joinWords _ hlt _ (by omega), ← map_reverse, ← map_reverse,
    getElem?_map, getElem?_map, getElem?_reverse (by rw [pattern.length_eq]; omega),
    pattern.length_eq, show 8 - 1 - (4 * (7 - i) + j) / 4 = i by omega, hc,
    show (4 * (7 - i) + j) % 4 = j by omega]
  rfl

theorem wordsOf_joinNibbles (pattern : PatternText) :
    wordsOf (joinNibbles (pattern.chars.map nibbleOf)) = pattern.Fits := by
  funext w
  rw [joinNibbles_eq, wordsOf, eq_of_getLsbD_eq_iff, PatternText.Fits]
  apply propext
  constructor
  · intro h i c hc
    have hi := PatternText.index_lt hc
    refine (nibble_passes c _).mp fun j hj => ?_
    have hij := h (4 * (7 - i) + j) (by omega)
    rw [getLsbD_and, getLsbD_nibbleOf (fun c hc => (nibbleOf_lt hc).1) hc hj,
      getLsbD_nibbleOf (fun c hc => (nibbleOf_lt hc).2) hc hj] at hij
    simpa [getLsbD_extractLsb', hj] using hij
  · intro h i hi
    have hk : 7 - i / 4 < pattern.chars.length := by rw [pattern.length_eq]; omega
    obtain ⟨c, hc⟩ : ∃ c, pattern.chars[7 - i / 4]? = some c := ⟨_, getElem?_eq_getElem hk⟩
    have hj : i % 4 < 4 := mod_lt i (by decide)
    have hpass := (nibble_passes c _).mpr (h _ c hc) (i % 4) hj
    rw [show i = 4 * (7 - (7 - i / 4)) + i % 4 by omega, getLsbD_and,
      getLsbD_nibbleOf (fun c hc => (nibbleOf_lt hc).1) hc hj,
      getLsbD_nibbleOf (fun c hc => (nibbleOf_lt hc).2) hc hj, ← hpass]
    simp [hj]

theorem parsePattern_write {rest : List Char} (hrest : Delimited rest) :
    parsePattern (pattern.chars ++ rest) = some (joinNibbles (pattern.chars.map nibbleOf)) := by
  have hends : endsPattern rest := by
    cases rest with
    | nil => rfl
    | cons c rest =>
      have hc := hrest.stops (p := fun c => !endsPattern [c]) (by decide) c rfl
      rwa [Bool.not_eq_eq_eq_not, Bool.not_false] at hc
  have htake : (pattern.chars ++ rest).take 8 = pattern.chars := by
    rw [← pattern.length_eq, take_left]
  have hdrop : (pattern.chars ++ rest).drop 8 = rest := by rw [← pattern.length_eq, drop_left]
  rw [parsePattern, htake, hdrop, mapM_patternNibble pattern.all, Option.bind_some,
    if_pos ⟨by rw [length_map, pattern.length_eq], hends⟩]

theorem exists_pattern_cons (pattern : PatternText) :
    ∃ c cs, pattern.chars = c :: cs ∧ isPatternChar c := by
  obtain ⟨c, cs, hchars⟩ := exists_cons_of_ne_nil (ne_nil_of_length_eq_add_one pattern.length_eq)
  exact ⟨c, cs, hchars, pattern.all c (by simp [hchars])⟩

theorem skipWs_pattern (pattern : PatternText) (rest : List Char) :
    skipWs (pattern.chars ++ rest) = pattern.chars ++ rest := by
  obtain ⟨c, cs, hchars, hc⟩ := exists_pattern_cons pattern
  rw [hchars]
  exact skipWs_cons (not_isWs (by decide) hc) _

/-- The patterns are read to the last one; what follows must not look like another. -/
theorem parsePatterns_write {rest : List Char} (hrest : Delimited rest)
    (hstop : ∀ c ∈ (skipWs rest).head?, isPatternChar c = false) (pattern : PatternText)
    (more : List (Gap × PatternText)) (room : Nat) (hroom : more.length < room) :
    ∃ patterns, parsePatterns room (pattern.chars ++ writeMore more rest) =
        some (patterns, skipWs rest) ∧
      patterns.map wordsOf = pattern.Fits :: more.map fun m => m.2.Fits := by
  induction more generalizing pattern room with
  | nil =>
    obtain ⟨room, rfl⟩ := exists_eq_succ_of_ne_zero (Nat.ne_of_gt hroom)
    refine ⟨[joinNibbles (pattern.chars.map nibbleOf)], ?_, ?_⟩
    · have hnone : ¬ (skipWs rest).head?.any fun c => isHexDigit c || c = '?' := by
        cases hhead : (skipWs rest).head? with
        | none => simp
        | some c => simpa [isPatternChar] using hstop c hhead
      rw [writeMore, parsePatterns, parsePattern_write hrest, Option.bind_some,
        ← pattern.length_eq, drop_left, if_neg hnone]
    · rw [map_singleton, wordsOf_joinNibbles]
      rfl
  | cons m more ih =>
    obtain ⟨gap, next⟩ := m
    obtain ⟨room, rfl⟩ := exists_eq_succ_of_ne_zero (Nat.ne_of_gt (zero_lt_of_lt hroom))
    obtain ⟨patterns, hread, hwords⟩ := ih next room (lt_of_succ_lt_succ hroom)
    refine ⟨joinNibbles (pattern.chars.map nibbleOf) :: patterns, ?_, ?_⟩
    · have hskip : skipWs (gap.chars ++ (next.chars ++ writeMore more rest)) =
          next.chars ++ writeMore more rest :=
        (skipWs_run gap.toRun _).trans (skipWs_pattern next _)
      have hmore : (next.chars ++ writeMore more rest).head?.any fun c => isHexDigit c || c = '?' := by
        obtain ⟨d, ds, hchars, hd⟩ := exists_pattern_cons next
        rw [hchars]
        exact hd
      rw [writeMore, parsePatterns, parsePattern_write (delimited_gap gap _), Option.bind_some,
        ← pattern.length_eq, drop_left, hskip, if_pos hmore, hread]
      rfl
    · rw [map_cons, hwords, wordsOf_joinNibbles]
      rfl

end Machgate.PatchTokens
