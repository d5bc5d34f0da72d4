import Machgate.DirectoryRecords

namespace Machgate.DirectoryConversion

open DirectoryRecords RecordBuffer List BitVec

/-- What a conversion loop leaves: the bytes written, the last `d_off` and the
error it stopped with. -/
structure Converted where
  out : List Octet
  last : BitVec 64
  err : Option Nat

/-- `d_reclen - offsetof(d_name)` as a `size_t`. -/
def nameAvailable (reclen : Nat) : Nat :=
  (reclen + 2 ^ 64 - 19) % 2 ^ 64

/-- The Darwin record for the Linux record at the head of a buffer. -/
def convert (entry : List Octet) (nameLength reclen : Nat) : List Octet :=
  darwinRecord (field entry 0 8) (field entry 8 8) reclen (field entry 18 1)
    ((entry.drop 19).take nameLength)

/-- The loop of `handle_getdirentries`. -/
def getdirentriesLoop (count : Nat) (linux : List Octet) (offset : Nat) (out : List Octet)
    (last : BitVec 64) : Converted :=
  if offset < linux.length then
    let entry := linux.drop offset
    let reclen := field entry 16 2
    if reclen = 0 ∨ linux.length < offset + reclen then ⟨out, last, some 5⟩
    else
      let nameLength := strnlen (entry.drop 19) (nameAvailable reclen)
      if nameAvailable reclen ≤ nameLength then ⟨out, last, some 5⟩
      else
        let darwinReclen := align8 (21 + nameLength + 1)
        if 65535 < darwinReclen ∨ count < out.length + darwinReclen then ⟨out, last, none⟩
        else
          getdirentriesLoop count linux (offset + reclen)
            (out ++ convert entry nameLength darwinReclen) (BitVec.ofNat 64 (field entry 8 8))
  else ⟨out, last, none⟩
termination_by linux.length - offset
decreasing_by
  rename_i hlt hbad _ _
  have hreclen : field (linux.drop offset) 16 2 ≠ 0 := (not_or.mp hbad).1
  omega

/-- The loop of `handle_getdirentries64`, with `append_darwin_dirent64`. -/
def getdirentries64Loop (size : Nat) (linux : List Octet) (offset : Nat) (out : List Octet)
    (last : BitVec 64) : Converted :=
  if offset < linux.length then
    let entry := linux.drop offset
    let reclen := field entry 16 2
    let nameLen := strnlen (entry.drop 19) (nameAvailable reclen)
    let recordLen := alignDarwinDirent64 (21 + nameLen + 1)
    if size < out.length + recordLen then ⟨out, last, some 22⟩
    else
      getdirentries64Loop size linux (offset + reclen) (out ++ convert entry nameLen recordLen)
        (BitVec.ofNat 64 (field entry 8 8))
  else ⟨out, last, none⟩
termination_by size + 1 - out.length
decreasing_by
  rename_i hfits
  rw [List.length_append, convert, darwinRecord, List.length_append, length_fields]
  change size + 1 - (out.length + (21 + _)) < size + 1 - out.length
  omega

def darwinTotal (ds : List LinuxDirent) : Nat :=
  (ds.map LinuxDirent.darwinReclen).sum

theorem darwinTotal_cons (d : LinuxDirent) (ds : List LinuxDirent) :
    darwinTotal (d :: ds) = d.darwinReclen + darwinTotal ds := by
  rw [darwinTotal, map_cons, sum_cons, darwinTotal]

theorem length_pack_darwinBytes (ds : List LinuxDirent) :
    (pack LinuxDirent.darwinBytes ds).length = darwinTotal ds := by
  rw [length_pack, darwinTotal]
  simp only [LinuxDirent.length_darwinBytes]

def lastOff (last : BitVec 64) (ds : List LinuxDirent) : BitVec 64 :=
  ds.foldl (fun _ d => d.off) last

theorem nameAvailable_reclen (d : LinuxDirent) :
    nameAvailable d.reclen = d.reclen - 19 ∧ d.name.length < d.reclen - 19 := by
  have hlt := d.reclen_lt
  unfold nameAvailable LinuxDirent.reclen at *
  omega

theorem convert_bytes (d : LinuxDirent) (rest : List Octet) :
    convert (d.bytes ++ rest) d.name.length d.darwinReclen = d.darwinBytes := by
  rw [convert, d.field_ino, d.field_off, d.field_type, d.drop_name, take_left,
    LinuxDirent.darwinBytes]

variable {linux : List Octet} {ds : List LinuxDirent} {offset : Nat}

theorem drop_cons {d : LinuxDirent}
    (hdrop : linux.drop offset = pack LinuxDirent.bytes (d :: ds))
    (hlength : offset + (pack LinuxDirent.bytes (d :: ds)).length = linux.length) :
    offset + d.reclen ≤ linux.length ∧
      linux.drop offset = d.bytes ++ pack LinuxDirent.bytes ds ∧
      linux.drop (offset + d.reclen) = pack LinuxDirent.bytes ds ∧
      offset + d.reclen + (pack LinuxDirent.bytes ds).length = linux.length := by
  rw [pack_cons] at hdrop hlength
  rw [length_append, d.length_bytes] at hlength
  refine ⟨by omega, hdrop, ?_, by omega⟩
  rw [← drop_drop, hdrop, ← d.length_bytes, drop_left]

section

variable {d : LinuxDirent}
  (hdrop : linux.drop offset = pack LinuxDirent.bytes (d :: ds))
  (hlength : offset + (pack LinuxDirent.bytes (d :: ds)).length = linux.length)

include hdrop hlength

theorem getdirentriesLoop_cons (count : Nat) (out : List Octet) (last : BitVec 64) :
    getdirentriesLoop count linux offset out last =
      if count < out.length + d.darwinReclen then ⟨out, last, none⟩
      else getdirentriesLoop count linux (offset + d.reclen) (out ++ d.darwinBytes) d.off := by
  obtain ⟨hend, hhead, -, -⟩ := drop_cons hdrop hlength
  obtain ⟨havailable, hname⟩ := nameAvailable_reclen d
  have hlt := d.darwinReclen_lt
  rw [getdirentriesLoop, if_pos (by omega)]
  simp only [hhead, d.field_reclen, havailable, d.strnlen_name _ hname, d.align8_eq,
    convert_bytes, d.field_off, ofNat_toNat, setWidth_eq]
  rw [if_neg (by omega), if_neg (by omega)]
  by_cases hfull : count < out.length + d.darwinReclen
  · rw [if_pos (Or.inr hfull), if_pos hfull]
  · rw [if_neg (by omega), if_neg hfull]

theorem getdirentries64Loop_cons (size : Nat) (out : List Octet) (last : BitVec 64) :
    getdirentries64Loop size linux offset out last =
      if size < out.length + d.darwinReclen then ⟨out, last, some 22⟩
      else getdirentries64Loop size linux (offset + d.reclen) (out ++ d.darwinBytes) d.off := by
  obtain ⟨hend, hhead, -, -⟩ := drop_cons hdrop hlength
  obtain ⟨havailable, hname⟩ := nameAvailable_reclen d
  rw [getdirentries64Loop, if_pos (by omega)]
  simp only [hhead, d.field_reclen, havailable, d.strnlen_name _ hname]
  change (if size < out.length + d.darwinReclen then _ else
    getdirentries64Loop _ _ _ (out ++ convert _ _ d.darwinReclen) _) = _
  rw [convert_bytes, d.field_off, ofNat_toNat, setWidth_eq]

end

variable {out : List Octet} {last : BitVec 64}
  (hdrop : linux.drop offset = pack LinuxDirent.bytes ds)
  (hlength : offset + (pack LinuxDirent.bytes ds).length = linux.length)

include hdrop hlength

/-- `handle_getdirentries` converts the longest prefix of a batch that fits. -/
theorem getdirentriesLoop_eq {count : Nat} (hout : out.length ≤ count) :
    getdirentriesLoop count linux offset out last =
      { out := out ++ pack LinuxDirent.darwinBytes
          (fitting LinuxDirent.darwinReclen (count - out.length) ds)
        last := lastOff last (fitting LinuxDirent.darwinReclen (count - out.length) ds)
        err := none } := by
  induction ds generalizing offset out last with
  | nil =>
    rw [pack_nil, length_nil, Nat.add_zero] at hlength
    unfold getdirentriesLoop
    rw [if_neg (by omega), fitting, pack_nil, append_nil]
    rfl
  | cons d ds ih =>
    obtain ⟨-, -, hnext, hrest⟩ := drop_cons hdrop hlength
    rw [getdirentriesLoop_cons hdrop hlength, fitting]
    by_cases hfits : d.darwinReclen ≤ count - out.length
    · have hlen : (out ++ d.darwinBytes).length = out.length + d.darwinReclen := by
        rw [length_append, d.length_darwinBytes]
      rw [if_neg (by omega), ih hnext hrest (by omega), if_pos hfits, hlen, Nat.sub_add_eq,
        pack_cons, List.append_assoc]
      rfl
    · rw [if_pos (by omega), if_neg hfits, pack_nil, append_nil]
      rfl

theorem getdirentries64Loop_of_le {size : Nat} (hout : out.length ≤ size)
    (htotal : darwinTotal ds ≤ size - out.length) :
    getdirentries64Loop size linux offset out last =
      { out := out ++ pack LinuxDirent.darwinBytes ds
        last := lastOff last ds
        err := none } := by
  induction ds generalizing offset out last with
  | nil =>
    rw [pack_nil, length_nil, Nat.add_zero] at hlength
    unfold getdirentries64Loop
    rw [if_neg (by omega), pack_nil, append_nil]
    rfl
  | cons d ds ih =>
    obtain ⟨-, -, hnext, hrest⟩ := drop_cons hdrop hlength
    have hlen : (out ++ d.darwinBytes).length = out.length + d.darwinReclen := by
      rw [length_append, d.length_darwinBytes]
    rw [darwinTotal_cons] at htotal
    rw [getdirentries64Loop_cons hdrop hlength, if_neg (by omega),
      ih hnext hrest (by omega) (by omega), pack_cons, List.append_assoc]
    rfl

theorem getdirentries64Loop_of_lt {size : Nat} (hout : out.length ≤ size)
    (htotal : size - out.length < darwinTotal ds) :
    (getdirentries64Loop size linux offset out last).err = some 22 := by
  induction ds generalizing offset out last with
  | nil => exact absurd htotal (Nat.not_lt_zero _)
  | cons d ds ih =>
    obtain ⟨-, -, hnext, hrest⟩ := drop_cons hdrop hlength
    have hlen : (out ++ d.darwinBytes).length = out.length + d.darwinReclen := by
      rw [length_append, d.length_darwinBytes]
    rw [darwinTotal_cons] at htotal
    rw [getdirentries64Loop_cons hdrop hlength]
    split
    · rfl
    · exact ih hnext hrest (by omega) (by omega)

end Machgate.DirectoryConversion
