import Machgate.RecordBuffer

namespace Machgate.FatSlices

open RecordBuffer List Option

def fatMagic : BitVec 32 := 0xcafebabe
def fatCigam : BitVec 32 := 0xbebafeca

def cpuArchAbi64 : BitVec 32 := 0x01000000
def cpuTypeAny : BitVec 32 := 0xffffffff
def cpuTypeArm : BitVec 32 := 12
def cpuTypeArm64 : BitVec 32 := cpuTypeArm ||| cpuArchAbi64

structure FatArch where
  cputype : BitVec 32
  cpusubtype : BitVec 32
  offset : BitVec 32
  size : BitVec 32
  align : BitVec 32
  deriving DecidableEq

def sizeofFatHeader : Nat := 8
def sizeofFatArch : Nat := 20

def bswap32 (v : BitVec 32) : BitVec 32 :=
  (v <<< 24) ||| ((v &&& 0xff00) <<< 8) ||| ((v >>> 8) &&& 0xff00) ||| (v >>> 24)

def word (bytes : List Octet) (offset : Nat) : BitVec 32 := BitVec.ofNat 32 (field bytes offset 4)

def swapped (swap : Bool) (v : BitVec 32) : BitVec 32 := if swap then bswap32 v else v

def readArch (swap : Bool) (bytes : List Octet) : Option (FatArch × List Octet) :=
  if bytes.length < sizeofFatArch then none
  else
    some ({ cputype := swapped swap (word bytes 0)
            cpusubtype := swapped swap (word bytes 4)
            offset := swapped swap (word bytes 8)
            size := swapped swap (word bytes 12)
            align := swapped swap (word bytes 16) }, bytes.drop sizeofFatArch)

def cannotReadHeader : String := "Cannot read fat file header.\n"
def cannotReadArch : String := "Cannot read fat_arch header.\n"
def noArm64 : String := "No arm64 architecture found in fat binary.\n"
def only64Bit : String := "32-bit slices not supported on aarch64.\n"

/-- The loop of `load_fat`; a failed read ends the process. -/
def loadFatLoop (forcedArch : BitVec 32) (swap : Bool) :
    Nat → List Octet → FatArch → Except String FatArch
  | 0, _, bestArch => .ok bestArch
  | narch + 1, bytes, bestArch =>
    match readArch swap bytes with
    | none => .error cannotReadArch
    | some (arch, rest) =>
      loadFatLoop forcedArch swap narch rest
        (if forcedArch = 0 then (if arch.cputype = cpuTypeArm64 then arch else bestArch)
         else (if arch.cputype = forcedArch then arch else bestArch))

/-- The slice that `load64` is given; an offset of 32 bits can always be sought to. -/
def loadFat (forcedArch : BitVec 32) (file : List Octet) : Except String FatArch :=
  if file.length < sizeofFatHeader then .error cannotReadHeader
  else
    let swap : Bool := word file 0 = fatCigam
    match loadFatLoop forcedArch swap (swapped swap (word file 4)).toNat
        (file.drop sizeofFatHeader) ⟨cpuTypeAny, 0, 0, 0, 0⟩ with
    | .error message => .error message
    | .ok bestArch =>
      if bestArch.cputype = cpuTypeAny then .error noArm64
      else if bestArch.cputype &&& cpuArchAbi64 ≠ 0 then .ok bestArch
      else .error only64Bit

def findArm64Loop (swap : Bool) : Nat → List Octet → Option (BitVec 32 × BitVec 32)
  | 0, _ => none
  | narch + 1, bytes =>
    match readArch swap bytes with
    | none => none
    | some (arch, rest) =>
      if arch.cputype = cpuTypeArm64 then some (arch.offset, arch.size)
      else findArm64Loop swap narch rest

/-- Offset and size of the slice.  The read of the entry count is not checked, so that the count is
`unread` in a file that ends before it. -/
def findArm64Slice (unread : BitVec 32) (file : List Octet) : Option (BitVec 32 × BitVec 32) :=
  if file.length < 4 then none
  else if word file 0 = fatMagic ∨ word file 0 = fatCigam then
    let swap : Bool := word file 0 = fatCigam
    let narch := if file.length < sizeofFatHeader then unread else word file 4
    findArm64Loop swap (swapped swap narch).toNat (file.drop sizeofFatHeader)
  else some (0, BitVec.ofNat 32 file.length)

/-- A file that both loaders take for a universal one. -/
structure FatFile where
  bytes : List Octet
  length_le : 4 ≤ bytes.length
  magic : word bytes 0 = fatMagic ∨ word bytes 0 = fatCigam

def readArchs (swap : Bool) : Nat → List Octet → List FatArch
  | 0, _ => []
  | narch + 1, bytes =>
    match readArch swap bytes with
    | none => []
    | some (arch, rest) => arch :: readArchs swap narch rest

namespace FatFile

variable (file : FatFile)

def swap : Bool := word file.bytes 0 = fatCigam

def narch : Nat :=
  if file.bytes.length < sizeofFatHeader then 0 else (swapped file.swap (word file.bytes 4)).toNat

def archs : List FatArch := readArchs file.swap file.narch (file.bytes.drop sizeofFatHeader)

def arm64Archs : List FatArch := file.archs.filter fun arch => arch.cputype = cpuTypeArm64

end FatFile

/-- Both loaders take the slice at the same place, an arm64 one, or both refuse the file. -/
def SelectSame (unread : BitVec 32) (file : FatFile) : Prop :=
  match loadFat 0 file.bytes, findArm64Slice unread file.bytes with
  | .ok arch, some (offset, size) =>
    arch.cputype = cpuTypeArm64 ∧ arch.offset = offset ∧ arch.size = size
  | .error _, none => True
  | _, _ => False

/-- The entry that is left over when a later one of the type takes the place of an earlier one. -/
def lastArm64 (best : FatArch) (archs : List FatArch) : FatArch :=
  archs.foldl (fun best arch => if arch.cputype = cpuTypeArm64 then arch else best) best

theorem loadFatLoop_eq (swap : Bool) (narch : Nat) (bytes : List Octet) (best : FatArch) :
    loadFatLoop 0 swap narch bytes best =
      if (readArchs swap narch bytes).length = narch then
        .ok (lastArm64 best (readArchs swap narch bytes))
      else .error cannotReadArch := by
  induction narch generalizing bytes best with
  | zero => rfl
  | succ narch ih =>
    rw [loadFatLoop, readArchs]
    cases readArch swap bytes with
    | none => rfl
    | some next =>
      simp only [if_true, ih, length_cons, Nat.add_right_cancel_iff, lastArm64, foldl_cons]

theorem findArm64Loop_eq (swap : Bool) (narch : Nat) (bytes : List Octet) :
    findArm64Loop swap narch bytes =
      ((readArchs swap narch bytes).find? fun arch => arch.cputype = cpuTypeArm64).map
        fun arch => (arch.offset, arch.size) := by
  induction narch generalizing bytes with
  | zero => rfl
  | succ narch ih =>
    rw [findArm64Loop, readArchs]
    cases readArch swap bytes with
    | none => rfl
    | some next =>
      by_cases harch : next.1.cputype = cpuTypeArm64
      · simp [harch]
      · simp [harch, ih]

theorem lastArm64_eq (best : FatArch) (archs : List FatArch) :
    lastArm64 best archs =
      (archs.filter fun arch => arch.cputype = cpuTypeArm64).getLast?.getD best := by
  induction archs generalizing best with
  | nil => rfl
  | cons arch archs ih =>
    rw [lastArm64, foldl_cons, ← lastArm64, ih]
    by_cases harch : arch.cputype = cpuTypeArm64
    · rw [if_pos harch, filter_cons_of_pos (by simpa using harch), getLast?_cons]
      rfl
    · rw [if_neg harch, filter_cons_of_neg (by simpa using harch)]

section

variable (unread : BitVec 32) (file : FatFile)

theorem readArchs_nil (swap : Bool) (narch : Nat) : readArchs swap narch [] = [] := by
  cases narch <;> rfl

theorem findArm64Slice_eq :
    findArm64Slice unread file.bytes =
      file.arm64Archs.head?.map fun arch => (arch.offset, arch.size) := by
  have hlength := file.length_le
  rw [findArm64Slice, if_neg (by omega), if_pos file.magic, findArm64Loop_eq, FatFile.arm64Archs,
    head?_filter]
  by_cases hshort : file.bytes.length < sizeofFatHeader
  · have hempty : file.bytes.drop sizeofFatHeader = [] := drop_eq_nil_of_le (Nat.le_of_lt hshort)
    rw [FatFile.archs, hempty, readArchs_nil, readArchs_nil]
  · rw [FatFile.archs, FatFile.narch, if_neg hshort, if_neg hshort]
    rfl

theorem cputype_of_mem_arm64Archs {file : FatFile} {arch : FatArch} (h : arch ∈ file.arm64Archs) :
    arch.cputype = cpuTypeArm64 := by
  simpa using (mem_filter.mp h).2

theorem loadFat_none (h : file.arm64Archs = []) : ∃ message, loadFat 0 file.bytes = .error message := by
  rw [loadFat]
  split
  · exact ⟨_, rfl⟩
  · rename_i hlength
    have harchs : file.archs = readArchs file.swap (swapped file.swap (word file.bytes 4)).toNat
        (file.bytes.drop sizeofFatHeader) := by
      rw [FatFile.archs, FatFile.narch, if_neg hlength]
    rw [FatFile.arm64Archs, harchs] at h
    simp only [loadFatLoop_eq, lastArm64_eq]
    rw [show (decide (word file.bytes 0 = fatCigam) : Bool) = file.swap from rfl, h]
    split
    · exact ⟨_, rfl⟩
    · rename_i hloop
      split at hloop
      · cases hloop
        exact ⟨_, rfl⟩
      · cases hloop

theorem loadFat_some {last : FatArch} (h : file.arm64Archs.getLast? = some last) :
    loadFat 0 file.bytes =
      if file.archs.length = file.narch then .ok last else .error cannotReadArch := by
  have htype := cputype_of_mem_arm64Archs (mem_of_getLast? h)
  by_cases hlength : file.bytes.length < sizeofFatHeader
  · rw [FatFile.arm64Archs, FatFile.archs, FatFile.narch, if_pos hlength] at h
    cases h
  · have hnarch : file.narch = (swapped file.swap (word file.bytes 4)).toNat := by
      rw [FatFile.narch, if_neg hlength]
    rw [loadFat, if_neg hlength]
    simp only [loadFatLoop_eq, lastArm64_eq]
    rw [show (decide (word file.bytes 0 = fatCigam) : Bool) = file.swap from rfl, ← hnarch,
      ← FatFile.archs, ← FatFile.arm64Archs, h]
    split
    · rename_i hloop
      split at hloop
      · cases hloop
      · cases hloop
        rename_i hcount
        rw [if_neg hcount]
    · rename_i hloop
      split at hloop
      · rename_i hcount
        cases hloop
        rw [getD_some, htype, if_neg (by decide), if_pos (by decide), if_pos hcount]
      · cases hloop

end

/-- No entry for arm64, or a table that the file holds as a whole and whose first and last entry for
arm64 name the same slice. -/
def OneSlice (file : FatFile) : Prop :=
  file.arm64Archs = [] ∨
    file.archs.length = file.narch ∧
      ∃ first last, file.arm64Archs.head? = some first ∧ file.arm64Archs.getLast? = some last ∧
        first.offset = last.offset ∧ first.size = last.size

theorem selectSame_iff (unread : BitVec 32) (file : FatFile) :
    SelectSame unread file ↔ OneSlice file := by
  rw [SelectSame, findArm64Slice_eq]
  by_cases hnone : file.arm64Archs = []
  · obtain ⟨message, hload⟩ := loadFat_none file hnone
    rw [hload, hnone]
    exact iff_of_true trivial (Or.inl hnone)
  · obtain ⟨first, hfirst⟩ := ne_none_iff_exists'.mp (mt head?_eq_none_iff.mp hnone)
    obtain ⟨last, hlast⟩ := ne_none_iff_exists'.mp (mt getLast?_eq_none_iff.mp hnone)
    have htype := cputype_of_mem_arm64Archs (mem_of_getLast? hlast)
    rw [loadFat_some file hlast, hfirst, map_some]
    by_cases hcount : file.archs.length = file.narch
    · rw [if_pos hcount]
      constructor
      · rintro ⟨-, hoffset, hsize⟩
        exact Or.inr ⟨hcount, first, last, hfirst, hlast, hoffset.symm, hsize.symm⟩
      · rintro (h | ⟨-, first', last', hfirst', hlast', hoffset, hsize⟩)
        · exact absurd h hnone
        · rw [hfirst] at hfirst'
          rw [hlast] at hlast'
          cases hfirst'
          cases hlast'
          exact ⟨htype, hoffset.symm, hsize.symm⟩
    · rw [if_neg hcount]
      refine iff_of_false id ?_
      rintro (h | ⟨h, -⟩)
      · exact hnone h
      · exact hcount h

def encode (archs : List FatArch) : List Octet :=
  fields (([fatMagic, BitVec.ofNat 32 archs.length] ++ archs.flatMap fun arch =>
    [arch.cputype, arch.cpusubtype, arch.offset, arch.size, arch.align]).map
      fun v => (4, (bswap32 v).toNat))

def plainSlice : FatArch := ⟨cpuTypeArm64, 0, 0x4000, 0x8000, 14⟩
def arm64eSlice : FatArch := ⟨cpuTypeArm64, 2, 0xc000, 0x9000, 14⟩

/-- With a slice for arm64 and one for arm64e an executable is loaded from the second and a library
from the first. -/
theorem slices_differ :
    loadFat 0 (encode [plainSlice, arm64eSlice]) = .ok arm64eSlice ∧
      findArm64Slice 0 (encode [plainSlice, arm64eSlice]) =
        some (plainSlice.offset, plainSlice.size) := by
  decide +kernel

end Machgate.FatSlices
