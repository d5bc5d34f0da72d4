import Mathlib.Data.BitVec

namespace Machgate.RecordBuffer

open List Prod Nat

abbrev Octet := BitVec 8

def leBytes : Nat → Nat → List Octet
  | 0, _ => []
  | n + 1, v => BitVec.ofNat 8 v :: leBytes n (v / 256)

def ofLeBytes : List Octet → Nat
  | [] => 0
  | b :: bs => b.toNat + 256 * ofLeBytes bs

def field (bytes : List Octet) (offset n : Nat) : Nat :=
  ofLeBytes ((bytes.drop offset).take n)

/-- The number of bytes in front of the first zero byte, `max` at most. -/
def strnlen (bytes : List Octet) (max : Nat) : Nat :=
  ((bytes.take max).takeWhile fun b => b ≠ 0#8).length

@[simp]
theorem length_leBytes (n v : Nat) : (leBytes n v).length = n := by
  induction n generalizing v with
  | zero => rfl
  | succ n ih => rw [leBytes, length_cons, ih]

theorem ofLeBytes_leBytes (n v : Nat) : ofLeBytes (leBytes n v) = v % 256 ^ n := by
  induction n generalizing v with
  | zero => rw [leBytes, ofLeBytes, Nat.pow_zero, mod_one]
  | succ n ih =>
    rw [leBytes, ofLeBytes, ih, BitVec.toNat_ofNat]
    change v % 256 + 256 * _ = _
    rw [Nat.pow_succ', mod_mul]

def fields (fs : List (Nat × Nat)) : List Octet :=
  fs.flatMap fun f => leBytes f.1 f.2

theorem length_fields (fs : List (Nat × Nat)) : (fields fs).length = (fs.map fst).sum := by
  induction fs with
  | nil => rfl
  | cons f fs ih =>
    rw [fields, flatMap_cons, length_append, length_leBytes, map_cons, sum_cons, ← ih, fields]

theorem field_fields (before after : List (Nat × Nat)) (n v : Nat) (rest : List Octet) :
    field (fields (before ++ (n, v) :: after) ++ rest) (before.map fst).sum n =
      v % 256 ^ n := by
  have hsplit : fields (before ++ (n, v) :: after) ++ rest =
      fields before ++ (leBytes n v ++ (fields after ++ rest)) := by
    simp only [fields, flatMap_append, flatMap_cons, append_assoc]
  rw [field, hsplit, ← length_fields, drop_left, take_left' (length_leBytes n v), ofLeBytes_leBytes]

theorem drop_fields (fs : List (Nat × Nat)) (rest : List Octet) :
    (fields fs ++ rest).drop (fs.map fst).sum = rest := by
  rw [← length_fields, drop_left]

theorem ofLeBytes_lt (bytes : List Octet) : ofLeBytes bytes < 256 ^ bytes.length := by
  induction bytes with
  | nil => exact Nat.zero_lt_one
  | cons b bytes ih =>
    rw [ofLeBytes, length_cons, Nat.pow_succ']
    omega

theorem field_lt (bytes : List Octet) (offset n : Nat) : field bytes offset n < 256 ^ n :=
  (ofLeBytes_lt _).trans_le (Nat.pow_le_pow_right (by decide) (length_take_le ..))

theorem strnlen_append {name : List Octet} (hname : 0#8 ∉ name) {max : Nat}
    (hmax : name.length < max) (rest : List Octet) :
    strnlen (name ++ 0#8 :: rest) max = name.length := by
  obtain ⟨k, rfl⟩ : ∃ k, max = name.length + (k + 1) := ⟨max - name.length - 1, by omega⟩
  have hall : ∀ b ∈ name, decide (b ≠ 0#8) = true := by
    intro b hb
    exact decide_eq_true fun h => hname (h ▸ hb)
  rw [strnlen, take_length_add_append, takeWhile_append_of_pos hall, take_succ_cons,
    takeWhile_cons_of_neg (by simp), append_nil]

section

variable {α : Type} (encode : α → List Octet)

def pack (as : List α) : List Octet :=
  as.flatMap encode

@[simp]
theorem pack_nil : pack encode [] = [] :=
  rfl

theorem pack_cons (a : α) (as : List α) : pack encode (a :: as) = encode a ++ pack encode as :=
  flatMap_cons

theorem length_pack (as : List α) :
    (pack encode as).length = (as.map fun a => (encode a).length).sum :=
  length_flatMap

theorem eq_nil_of_length_pack {encode : α → List Octet} (hpos : ∀ a, 0 < (encode a).length)
    {as : List α} (h : (pack encode as).length = 0) : as = [] := by
  cases as with
  | nil => rfl
  | cons a as =>
    have hhead := hpos a
    rw [pack_cons, length_append] at h
    omega

end

section

variable {α : Type} (size : α → Nat)

/-- The longest prefix whose sizes add up to `room` at most. -/
def fitting (room : Nat) : List α → List α
  | [] => []
  | a :: as => if size a ≤ room then a :: fitting (room - size a) as else []

theorem fitting_isPrefix (room : Nat) (as : List α) : fitting size room as <+: as := by
  induction as generalizing room with
  | nil => exact prefix_refl []
  | cons a as ih =>
    rw [fitting]
    split
    · exact cons_prefix_cons.mpr ⟨rfl, ih _⟩
    · exact nil_prefix

theorem sum_fitting_le (room : Nat) (as : List α) :
    ((fitting size room as).map size).sum ≤ room := by
  induction as generalizing room with
  | nil => exact Nat.zero_le room
  | cons a as ih =>
    rw [fitting]
    split
    · have hrest := ih (room - size a)
      rw [map_cons, sum_cons]
      omega
    · exact Nat.zero_le room

theorem fitting_eq_iff (room : Nat) (as : List α) :
    fitting size room as = as ↔ (as.map size).sum ≤ room := by
  induction as generalizing room with
  | nil => exact iff_of_true rfl (Nat.zero_le room)
  | cons a as ih =>
    rw [fitting, map_cons, sum_cons]
    split
    · have hrest := ih (room - size a)
      rw [cons.injEq, and_iff_right rfl, hrest]
      omega
    · refine iff_of_false (cons_ne_nil a as).symm ?_
      omega

theorem map_append_eq_iff {γ : Type} {f : α → γ} {xs ys zs : List α} {es : List γ}
    (hpre : xs <+: ys) (hlength : es.length ≤ zs.length) :
    xs.map f ++ es = (ys ++ zs).map f ↔ xs = ys ∧ es = zs.map f := by
  rw [map_append]
  constructor
  · intro h
    have hle := hpre.length_le
    have hsum := congrArg length h
    rw [length_append, length_append, length_map, length_map, length_map] at hsum
    obtain rfl := hpre.eq_of_length (by omega)
    exact ⟨rfl, append_cancel_left h⟩
  · rintro ⟨rfl, rfl⟩
    rfl

end

/-- Records that store their own size, with the part of a record that a reader
takes from a buffer. -/
structure RecordFormat (α γ : Type) where
  encode : α → List Octet
  size : List Octet → Nat
  view : List Octet → γ
  entry : α → γ
  length_pos : ∀ a, 0 < (encode a).length
  size_append : ∀ a rest, size (encode a ++ rest) = (encode a).length
  view_append : ∀ a rest, view (encode a ++ rest) = entry a

namespace RecordFormat

variable {α γ : Type} (F : RecordFormat α γ)

/-- The reader steps from record to record by the sizes it finds. -/
def walk (bytes : List Octet) : List γ :=
  if bytes = [] ∨ F.size bytes = 0 then []
  else F.view bytes :: walk (bytes.drop (F.size bytes))
termination_by bytes.length
decreasing_by
  rename_i h
  rw [not_or] at h
  have hpos := List.length_pos_iff.mpr h.1
  rw [List.length_drop]
  omega

theorem walk_pack (as : List α) : F.walk (pack F.encode as) = as.map F.entry := by
  induction as with
  | nil =>
    rw [walk]
    exact if_pos (Or.inl rfl)
  | cons a as ih =>
    have hpos := F.length_pos a
    have hsize : F.size (pack F.encode (a :: as)) = (F.encode a).length := by
      rw [pack_cons, F.size_append]
    have hne : pack F.encode (a :: as) ≠ [] := by
      rw [pack_cons]
      exact append_ne_nil_of_left_ne_nil (length_pos_iff.mp hpos) _
    rw [walk, if_neg (not_or.mpr ⟨hne, by omega⟩), hsize, pack_cons, F.view_append,
      drop_left, ih, map_cons]

end RecordFormat

end Machgate.RecordBuffer
