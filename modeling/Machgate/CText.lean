import Mathlib.Data.BitVec
import Mathlib.Data.List.TakeWhile

namespace Machgate.CText

open List

def isSpace (c : Char) : Bool :=
  c = ' ' || c = '\t' || c = '\n' || c = '\x0b' || c = '\x0c' || c = '\r'

def isHexDigit (c : Char) : Bool :=
  ('0' ≤ c && c ≤ '9') || ('a' ≤ c && c ≤ 'f') || ('A' ≤ c && c ≤ 'F')

def hexDigit (c : Char) : Nat :=
  if '0' ≤ c && c ≤ '9' then c.toNat - 48
  else if 'a' ≤ c && c ≤ 'f' then c.toNat - 87
  else c.toNat - 55

def hexValue (digits : List Char) : Nat := digits.foldl (fun v c => 16 * v + hexDigit c) 0

def startsHexPrefix : List Char → Bool
  | '0' :: 'x' :: _ => true
  | '0' :: 'X' :: _ => true
  | _ => false

theorem hexDigit_lt {c : Char} (hc : isHexDigit c) : hexDigit c < 16 := by
  simp only [isHexDigit, Bool.or_eq_true, Bool.and_eq_true, decide_eq_true_eq, Char.le_def,
    UInt32.le_iff_toNat_le] at hc
  rw [hexDigit]
  simp only [Bool.and_eq_true, decide_eq_true_eq, Char.le_def, UInt32.le_iff_toNat_le, Char.toNat]
  have h9 : '9'.val.toNat = 57 := rfl
  have hf : 'f'.val.toNat = 102 := rfl
  have hF : 'F'.val.toNat = 70 := rfl
  split
  · omega
  · split <;> omega

/-- `strtoull` to the base 16 at a digit: it takes another `0x` in front of a digit, and a number
that is too large gives the largest one. -/
def strtoull (p : List Char) : BitVec 64 × List Char :=
  let p := if startsHexPrefix p ∧ ((p.drop 2).head?.any isHexDigit) then p.drop 2 else p
  (BitVec.ofNat 64 (min (hexValue (p.takeWhile isHexDigit)) (2 ^ 64 - 1)), p.dropWhile isHexDigit)

def cString (bytes : List Char) : List Char := bytes.takeWhile (· ≠ '\x00')

/-- What successive calls of `fgets` read: up to a newline, or `size` characters.  `room` is what is
left of the buffer, and `got` what it holds. -/
def fgetsFrom (size : Nat) : Nat → List Char → List Char → List (List Char)
  | _, [], [] => []
  | _, got, [] => [got]
  | room, got, c :: file =>
    if c = '\n' ∨ room ≤ 1 then (got ++ [c]) :: fgetsFrom size size [] file
    else fgetsFrom size (room - 1) (got ++ [c]) file

def fgets (size : Nat) (file : List Char) : List (List Char) := fgetsFrom size size [] file

section

variable {p : Char → Bool} {body rest : List Char}

theorem scan_run (hbody : ∀ c ∈ body, p c) (hrest : ∀ c ∈ rest.head?, p c = false) :
    (body ++ rest).takeWhile p = body ∧ (body ++ rest).dropWhile p = rest := by
  induction body with
  | nil =>
    cases rest with
    | nil => exact ⟨rfl, rfl⟩
    | cons c rest => simp [hrest c rfl]
  | cons c body ih =>
    obtain ⟨htake, hdrop⟩ := ih fun d hd => hbody d (mem_cons_of_mem c hd)
    have hc := hbody c mem_cons_self
    rw [cons_append, takeWhile_cons_of_pos hc, dropWhile_cons_of_pos hc, htake, hdrop]
    exact ⟨rfl, rfl⟩

/-- A word of accepted characters in front of the text stands in front of the run. -/
theorem prefix_run {word : List Char} (hword : word.all p)
    (hrest : ∀ c ∈ rest.head?, p c = false) (h : word <+: body ++ rest) : word <+: body := by
  rcases prefix_or_prefix_of_prefix h (prefix_append body rest) with hle | ⟨q, rfl⟩
  · exact hle
  · obtain ⟨tail, htail⟩ := (prefix_append_right_inj body).mp h
    cases q with
    | nil => simp
    | cons c q =>
      have hc := hrest c (by rw [← htail]; rfl)
      rw [all_eq_true.mp hword c (by simp)] at hc
      cases hc

theorem startsHexPrefix_iff {p : List Char} :
    startsHexPrefix p ↔ ∃ q, p = '0' :: 'x' :: q ∨ p = '0' :: 'X' :: q := by
  rw [startsHexPrefix.eq_def]
  split
  · simp
  · simp
  · next hlower hupper =>
    simp only [Bool.false_eq_true, false_iff, not_exists, not_or]
    exact fun q => ⟨fun h => hlower q h, fun h => hupper q h⟩

theorem not_startsHexPrefix_run (hne : body ≠ []) (hbody : ∀ c ∈ body, isHexDigit c)
    (hrest : ∀ c ∈ rest.head?, c ≠ 'x' ∧ c ≠ 'X') : ¬ startsHexPrefix (body ++ rest) := by
  rw [startsHexPrefix_iff]
  obtain ⟨d, body, rfl⟩ := exists_cons_of_ne_nil hne
  cases body with
  | nil =>
    rintro ⟨q, h | h⟩
    · exact (hrest 'x' (congrArg head? (cons.inj h).2)).1 rfl
    · exact (hrest 'X' (congrArg head? (cons.inj h).2)).2 rfl
  | cons e body =>
    have he := hbody e (by simp)
    rintro ⟨q, h | h⟩
    all_goals
      rw [(cons.inj (cons.inj h).2).1] at he
      exact absurd he (by decide)

/-- A number ends in front of a character that is neither a digit nor an `x`. -/
theorem strtoull_run (hne : body ≠ []) (hbody : ∀ c ∈ body, isHexDigit c)
    (hrest : ∀ c ∈ rest.head?, c ≠ 'x' ∧ c ≠ 'X') (hstop : ∀ c ∈ rest.head?, isHexDigit c = false) :
    strtoull (body ++ rest) = (BitVec.ofNat 64 (min (hexValue body) (2 ^ 64 - 1)), rest) := by
  have hplain := not_startsHexPrefix_run hne hbody hrest
  simp only [strtoull, hplain, Bool.false_eq_true, false_and, if_false, scan_run hbody hstop]

end

variable (size : Nat)

theorem fgetsFrom_line (line rest : List Char) (room : Nat) (got : List Char) :
    fgetsFrom size room got (line ++ '\n' :: rest) =
      fgetsFrom size room got (line ++ ['\n']) ++ fgets size rest := by
  induction line generalizing room got with
  | nil => simp [fgetsFrom, fgets]
  | cons c line ih =>
    rw [cons_append, cons_append, fgetsFrom, fgetsFrom]
    split
    · rw [ih, cons_append]
    · exact ih (room - 1) (got ++ [c])

theorem exists_fgetsFrom (tail : List Char) (hne : tail ≠ []) (room : Nat) (got : List Char) :
    ∃ front bufs, fgetsFrom size room got tail = (got ++ front) :: bufs ∧ front <+: tail := by
  induction tail generalizing room got with
  | nil => exact absurd rfl hne
  | cons c tail ih =>
    rw [fgetsFrom]
    split
    · exact ⟨[c], _, rfl, tail, rfl⟩
    · cases tail with
      | nil => exact ⟨[c], [], by simp [fgetsFrom.eq_def], [], rfl⟩
      | cons d tail =>
        obtain ⟨front, bufs, hread, hfront⟩ := ih (cons_ne_nil d tail) (room - 1) (got ++ [c])
        refine ⟨c :: front, bufs, ?_, (prefix_cons_inj c).mpr hfront⟩
        rw [hread, append_assoc, singleton_append]

theorem exists_fgetsFrom_append (body tail : List Char) (hne : tail ≠ []) (hbody : '\n' ∉ body)
    (room : Nat) (hroom : body.length ≤ room) (got : List Char) :
    ∃ front bufs, fgetsFrom size room got (body ++ tail) = (got ++ (body ++ front)) :: bufs ∧
      front <+: tail := by
  induction body generalizing room got with
  | nil => exact exists_fgetsFrom size tail hne room got
  | cons c body ih =>
    obtain ⟨hc, hbody⟩ := not_or.mp (mt mem_cons.mpr hbody)
    rw [length_cons] at hroom
    rw [cons_append, fgetsFrom]
    split
    · next hfull =>
      have hnil : body = [] := by
        rcases hfull with rfl | hfull
        · exact absurd rfl hc
        · exact eq_nil_of_length_eq_zero (by omega)
      exact ⟨[], _, by rw [hnil]; rfl, nil_prefix⟩
    · obtain ⟨front, bufs, hread, hfront⟩ := ih hbody (room - 1) (by omega) (got ++ [c])
      refine ⟨front, bufs, ?_, hfront⟩
      rw [hread, append_assoc, singleton_append, cons_append]

end Machgate.CText
