import Machgate.RecordBuffer

namespace Machgate.DirectoryRecords

open RecordBuffer List Nat

structure Entry where
  ino : Nat
  type : Octet
  name : List Octet
deriving DecidableEq

/-- A record as the kernel writes it: the name is a path component, and the
padding behind it is of the kernel's choice up to the next multiple of eight. -/
structure LinuxDirent where
  ino : BitVec 64
  off : BitVec 64
  type : Octet
  name : List Octet
  padding : List Octet
  name_nonzero : 0#8 ∉ name
  name_length : name.length < 4096
  padding_length : 20 + name.length + padding.length = (20 + name.length + 7) / 8 * 8

namespace LinuxDirent

variable (d : LinuxDirent)

def entry : Entry :=
  { ino := d.ino.toNat, type := d.type, name := d.name }

def reclen : Nat :=
  20 + d.name.length + d.padding.length

def header : List (Nat × Nat) :=
  [(8, d.ino.toNat), (8, d.off.toNat), (2, d.reclen), (1, d.type.toNat)]

def bytes : List Octet :=
  fields d.header ++ (d.name ++ 0#8 :: d.padding)

end LinuxDirent

/-- The mask `~7u` has 32 bits. -/
def align8 (value : Nat) : Nat :=
  (value + 7) / 8 * 8 % 2 ^ 32

def alignDarwinDirent64 (size : Nat) : Nat :=
  (size + 7) / 8 * 8

def darwinHeader (ino off reclen namlen type : Nat) : List (Nat × Nat) :=
  [(8, ino), (8, off), (2, reclen), (2, namlen), (1, type)]

/-- A Darwin record of `reclen` bytes: zeroed, filled in, and the name copied
with its terminator. -/
def darwinRecord (ino off reclen type : Nat) (name : List Octet) : List Octet :=
  fields (darwinHeader ino off reclen name.length type) ++
    (name ++ List.replicate (reclen - 21 - name.length) 0#8)

namespace LinuxDirent

variable (d : LinuxDirent)

def darwinReclen : Nat :=
  alignDarwinDirent64 (21 + d.name.length + 1)

def darwinBytes : List Octet :=
  darwinRecord d.ino.toNat d.off.toNat d.darwinReclen d.type.toNat d.name

theorem length_bytes : d.bytes.length = d.reclen := by
  rw [bytes, length_append, length_fields, length_append, length_cons, reclen]
  change 19 + _ = _
  omega

theorem reclen_lt : d.reclen < 8192 := by
  have hname := d.name_length
  have hpadding := d.padding_length
  unfold reclen
  omega

theorem darwinReclen_lt : d.darwinReclen < 8192 := by
  have hname := d.name_length
  unfold darwinReclen alignDarwinDirent64
  omega

theorem length_darwinBytes : d.darwinBytes.length = d.darwinReclen := by
  rw [darwinBytes, darwinRecord, length_append, length_fields, length_append, length_replicate]
  change 21 + _ = _
  unfold darwinReclen alignDarwinDirent64
  omega

theorem reclen_le_darwinReclen : d.reclen ≤ d.darwinReclen := by
  have hpadding := d.padding_length
  unfold reclen darwinReclen alignDarwinDirent64
  omega

theorem twentyFour_le_darwinReclen : 24 ≤ d.darwinReclen := by
  unfold darwinReclen alignDarwinDirent64
  omega

theorem align8_eq : align8 (21 + d.name.length + 1) = d.darwinReclen := by
  have hlt := d.darwinReclen_lt
  unfold darwinReclen alignDarwinDirent64 at *
  rw [align8, mod_eq_of_lt (by omega)]

variable (rest : List Octet)

theorem bytes_append :
    d.bytes ++ rest = fields d.header ++ (d.name ++ 0#8 :: (d.padding ++ rest)) := by
  rw [bytes, append_assoc, append_assoc, cons_append]

theorem field_ino : field (d.bytes ++ rest) 0 8 = d.ino.toNat := by
  rw [bytes_append]
  exact (field_fields [] _ 8 _ _).trans (mod_eq_of_lt d.ino.isLt)

theorem field_off : field (d.bytes ++ rest) 8 8 = d.off.toNat := by
  rw [bytes_append]
  exact (field_fields [_] _ 8 _ _).trans (mod_eq_of_lt d.off.isLt)

theorem field_reclen : field (d.bytes ++ rest) 16 2 = d.reclen := by
  have hlt := d.reclen_lt
  rw [bytes_append]
  exact (field_fields [_, _] _ 2 _ _).trans (mod_eq_of_lt (by omega))

theorem field_type : field (d.bytes ++ rest) 18 1 = d.type.toNat := by
  rw [bytes_append]
  exact (field_fields [_, _, _] [] 1 _ _).trans (mod_eq_of_lt d.type.isLt)

theorem drop_name : (d.bytes ++ rest).drop 19 = d.name ++ 0#8 :: (d.padding ++ rest) := by
  rw [bytes_append]
  exact drop_fields d.header _

theorem strnlen_name {max : Nat} (hmax : d.name.length < max) :
    strnlen ((d.bytes ++ rest).drop 19) max = d.name.length := by
  rw [drop_name, strnlen_append d.name_nonzero hmax]

end LinuxDirent

theorem eq_nil_of_length_bytes {ds : List LinuxDirent}
    (h : (pack LinuxDirent.bytes ds).length = 0) : ds = [] := by
  refine eq_nil_of_length_pack (fun d => ?_) h
  rw [d.length_bytes, LinuxDirent.reclen]
  omega

def darwinFormat : RecordFormat LinuxDirent Entry where
  encode := LinuxDirent.darwinBytes
  size bytes := field bytes 16 2
  view bytes :=
    { ino := field bytes 0 8
      type := BitVec.ofNat 8 (field bytes 20 1)
      name := (bytes.drop 21).take (field bytes 18 2) }
  entry := LinuxDirent.entry
  length_pos d := by
    have hle := d.twentyFour_le_darwinReclen
    rw [d.length_darwinBytes]
    omega
  size_append d rest := by
    have hlt := d.darwinReclen_lt
    rw [d.length_darwinBytes, LinuxDirent.darwinBytes, darwinRecord, List.append_assoc]
    exact (field_fields [_, _] _ 2 _ _).trans (Nat.mod_eq_of_lt (by omega))
  view_append d rest := by
    have hname := d.name_length
    rw [LinuxDirent.darwinBytes, darwinRecord, List.append_assoc, List.append_assoc]
    let header := darwinHeader d.ino.toNat d.off.toNat d.darwinReclen d.name.length d.type.toNat
    generalize List.replicate _ 0#8 ++ rest = tail
    have hino : field (fields header ++ (d.name ++ tail)) 0 8 = d.ino.toNat :=
      (field_fields [] _ 8 _ _).trans (Nat.mod_eq_of_lt d.ino.isLt)
    have hnamlen : field (fields header ++ (d.name ++ tail)) 18 2 = d.name.length :=
      (field_fields [_, _, _] _ 2 _ _).trans (Nat.mod_eq_of_lt (by omega))
    have htype : field (fields header ++ (d.name ++ tail)) 20 1 = d.type.toNat :=
      (field_fields [_, _, _, _] [] 1 _ _).trans (Nat.mod_eq_of_lt d.type.isLt)
    have hdrop : (fields header ++ (d.name ++ tail)).drop 21 = d.name ++ tail :=
      drop_fields header _
    rw [hino, hnamlen, htype, hdrop, List.take_left, BitVec.ofNat_toNat, BitVec.setWidth_eq]
    rfl

end Machgate.DirectoryRecords
