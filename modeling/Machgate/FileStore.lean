import Machgate.RecordBuffer

namespace Machgate.FileStore

open RecordBuffer List Function

/-- A file after bytes were written at an offset; a gap in front of them reads as zeros. -/
def overlay (content : List Octet) (offset : Nat) (chunk : List Octet) : List Octet :=
  content.take offset ++ List.replicate (offset - content.length) 0 ++ chunk ++
    content.drop (offset + chunk.length)

theorem overlay_end (content chunk : List Octet) :
    overlay content content.length chunk = content ++ chunk := by
  rw [overlay, Nat.sub_self, drop_of_length_le (Nat.le_add_right _ _)]
  simp

theorem overlay_front {front chunk : List Octet} (h : chunk.length = front.length)
    (rest : List Octet) : overlay (front ++ rest) 0 chunk = chunk ++ rest := by
  rw [overlay, Nat.zero_add, h, drop_left, Nat.zero_sub]
  rfl

/-- Files under inode numbers, and a directory that names some of them.  An open file stays
reachable by its number whatever happens to its name. -/
structure Store (Name : Type) where
  inodes : List (List Octet)
  names : Name → Option Nat

namespace Store

variable {Name : Type} (s : Store Name)

def empty : Store Name := ⟨[], fun _ => none⟩

def content (ino : Nat) : List Octet := s.inodes.getD ino []

def write (ino offset : Nat) (chunk : List Octet) : Store Name :=
  { s with inodes := s.inodes.set ino (overlay (s.content ino) offset chunk) }

def Has (name : Name) (ino : Nat) : Prop := s.names name = some ino ∧ ino < s.inodes.length

theorem content_write {ino : Nat} (h : ino < s.inodes.length) (offset : Nat) (chunk : List Octet) :
    (s.write ino offset chunk).content ino = overlay (s.content ino) offset chunk := by
  rw [content, write, getD_eq_getElem?_getD, getElem?_set_self h, Option.getD_some]

theorem content_write_of_ne {ino other : Nat} (h : other ≠ ino) (offset : Nat)
    (chunk : List Octet) : (s.write ino offset chunk).content other = s.content other := by
  rw [content, write, getD_eq_getElem?_getD, getElem?_set_ne h.symm]
  rfl

theorem Has.write {s : Store Name} {name : Name} {ino : Nat} (h : s.Has name ino) (offset : Nat)
    (chunk : List Octet) : (s.write ino offset chunk).Has name ino :=
  ⟨h.1, by rw [Store.write, length_set]; exact h.2⟩

variable [DecidableEq Name]

/-- `open` with `O_CREAT | O_TRUNC`. -/
def openTruncate (name : Name) : Store Name × Nat :=
  match s.names name with
  | some ino => ({ s with inodes := s.inodes.set ino [] }, ino)
  | none =>
    ({ inodes := s.inodes ++ [[]]
       names := Function.update s.names name (some s.inodes.length) }, s.inodes.length)

def unlink (name : Name) : Store Name := { s with names := Function.update s.names name none }

def rename (old new : Name) : Option (Store Name) :=
  (s.names old).map fun ino =>
    { s with names := Function.update (Function.update s.names new (some ino)) old none }

theorem names_openTruncate {name other : Name} (hne : other ≠ name) :
    (s.openTruncate name).1.names other = s.names other := by
  cases h : s.names name with
  | none => simp [openTruncate, h, hne]
  | some ino => simp [openTruncate, h]

theorem openTruncate_of_none {name : Name} (h : s.names name = none) :
    (s.openTruncate name).1.Has name (s.openTruncate name).2 ∧
      (s.openTruncate name).1.content (s.openTruncate name).2 = [] ∧
      ∀ other, other ≠ name → (s.openTruncate name).1.names other = s.names other := by
  rw [openTruncate, h]
  refine ⟨⟨update_self .., ?_⟩, ?_, fun other hne => update_of_ne hne _ _⟩
  · rw [length_append]
    exact Nat.lt_succ_self _
  · rw [content, getD_eq_getElem?_getD, getElem?_append_right (Nat.le_refl _), Nat.sub_self]
    rfl

end Store

end Machgate.FileStore
