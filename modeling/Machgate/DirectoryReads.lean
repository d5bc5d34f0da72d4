import Machgate.DirectoryConversion
import Machgate.SyscallErrno

namespace Machgate.DirectoryReads

open DirectoryConversion DirectoryRecords RecordBuffer SyscallErrno List Option Nat

/-- The kernel on a directory that does not change: how many of the records from
a position on it returns to a call with a given byte count.  They fit in the
count, and there is one at least if one fits. -/
structure Kernel (listing : List LinuxDirent) where
  batch : Nat → Nat → Nat
  within : ∀ pos count, pos ≤ listing.length → pos + batch pos count ≤ listing.length
  room : ∀ pos count,
    (pack LinuxDirent.bytes ((listing.drop pos).take (batch pos count))).length ≤ count
  progress : ∀ pos count d, listing[pos]? = some d → d.reclen ≤ count → 0 < batch pos count

section

variable {listing : List LinuxDirent} (k : Kernel listing)

def Kernel.records (pos count : Nat) : List LinuxDirent :=
  (listing.drop pos).take (k.batch pos count)

/-- `EINVAL` says that not even one record fits. -/
def Kernel.getdents64 (pos count : Nat) : Except Nat (List Octet × Nat) :=
  if k.records pos count = [] ∧ pos < listing.length then .error 22
  else
    .ok (pack LinuxDirent.bytes (k.records pos count), pos + (k.records pos count).length)

/-- A call of the guest, and whether `malloc` succeeds in it. -/
structure DirCall where
  state : GateState
  mallocOk : Bool

/-- The state that is returned to the guest, the bytes written to its buffer and
the position written through its last argument. -/
structure DirReply where
  state : GateState
  buffer : List Octet
  position : Option (BitVec 64)

def failed (c : DirCall) (err : Nat) (buffer : List Octet) : DirReply :=
  { state := setFailure c.state err, buffer, position := none }

def succeeded (c : DirCall) (r : Converted) : DirReply :=
  { state := setSuccess c.state (BitVec.ofNat 64 r.out.length)
    buffer := r.out
    position := if c.state.x 3 = 0#64 then none else some r.last }

def getdirentriesReply (c : DirCall) (count : Nat) (linux : List Octet) : DirReply :=
  if linux.length = 0 then
    { state := setSuccess c.state 0#64, buffer := [], position := none }
  else
    let r := getdirentriesLoop count linux 0 [] 0#64
    match r.err with
    | some err => failed c err r.out
    | none => if r.out.length = 0 then failed c 22 r.out else succeeded c r

def handleGetdirentries (pos : Nat) (c : DirCall) : DirReply × Nat :=
  let count := ((c.state.x 2).setWidth 32).toNat
  if count < 23 then (failed c 22 [], pos)
  else if c.mallocOk = false then (failed c 12 [], pos)
  else
    match k.getdents64 pos count with
    | .error errno => (failed c (Table.range100.failure errno) [], pos)
    | .ok (linux, pos') => (getdirentriesReply c count linux, pos')

def getdirentries64Reply (c : DirCall) (size : Nat) (linux : List Octet) : DirReply :=
  let r := getdirentries64Loop size linux 0 [] 0#64
  match r.err with
  | some err => failed c err r.out
  | none => succeeded c r

def handleGetdirentries64 (pos : Nat) (c : DirCall) : DirReply × Nat :=
  let size := (c.state.x 2).toNat
  if c.state.x 1 = 0#64 ∧ size ≠ 0 then (failed c 14 [], pos)
  else
    match k.getdents64 pos (min size 8192) with
    | .error errno => (failed c (Table.range200.failure errno) [], pos)
    | .ok (linux, pos') => (getdirentries64Reply c size linux, pos')

inductive Handler
  | getdirentries | getdirentries64
deriving DecidableEq

namespace Handler

def handle : Handler → Nat → DirCall → DirReply × Nat
  | getdirentries => handleGetdirentries k
  | getdirentries64 => handleGetdirentries64 k

def size : Handler → DirCall → Nat
  | getdirentries, c => ((c.state.x 2).setWidth 32).toNat
  | getdirentries64, c => (c.state.x 2).toNat

/-- The byte count of the kernel call, if the handler gets as far. -/
def fetchSize : Handler → DirCall → Option Nat
  | getdirentries, c =>
    let count := size getdirentries c
    if 23 ≤ count ∧ c.mallocOk = true then some count else none
  | getdirentries64, c =>
    let size := size getdirentries64 c
    if c.state.x 1 = 0#64 ∧ size ≠ 0 then none else some (min size 8192)

def fetched (h : Handler) (pos : Nat) (c : DirCall) : List LinuxDirent :=
  (h.fetchSize c).elim [] (k.records pos)

end Handler

def DirReply.entries (r : DirReply) : List Entry :=
  if delivered r.state = none then darwinFormat.walk (r.buffer.take (r.state.x 0).toNat) else []

def Handler.converted : Handler → Nat → List LinuxDirent → List LinuxDirent
  | getdirentries, room, ds => fitting LinuxDirent.darwinReclen room ds
  | getdirentries64, room, ds => if darwinTotal ds ≤ room then ds else []

theorem Handler.converted_isPrefix (h : Handler) (room : Nat) (ds : List LinuxDirent) :
    h.converted room ds <+: ds := by
  cases h with
  | getdirentries => exact fitting_isPrefix _ room ds
  | getdirentries64 =>
    rw [converted]
    split
    · exact prefix_refl ds
    · exact nil_prefix

theorem Handler.converted_eq_iff (h : Handler) (room : Nat) (ds : List LinuxDirent) :
    h.converted room ds = ds ↔ darwinTotal ds ≤ room := by
  cases h with
  | getdirentries => exact fitting_eq_iff _ room ds
  | getdirentries64 =>
    rw [converted]
    split
    · rename_i hfits
      exact iff_of_true rfl hfits
    · rename_i hfits
      refine iff_of_false ?_ hfits
      rintro rfl
      exact hfits (Nat.zero_le room)

section

variable (c : DirCall)

theorem entries_failed (err : Nat) (buffer : List Octet) : (failed c err buffer).entries = [] := by
  rw [DirReply.entries, failed, delivered_setFailure, if_neg (some_ne_none _)]

theorem entries_success {r : DirReply} {ds : List LinuxDirent} {room : Nat}
    (hroom : room < 2 ^ 64) (hds : darwinTotal ds ≤ room)
    (hstate : r.state = setSuccess c.state (BitVec.ofNat 64 (darwinTotal ds)))
    (hbuffer : r.buffer = pack LinuxDirent.darwinBytes ds) :
    r.entries = ds.map LinuxDirent.entry := by
  have hlength : r.buffer.length = darwinTotal ds := by rw [hbuffer, length_pack_darwinBytes]
  have hx : (r.state.x 0).toNat = r.buffer.length := by
    rw [hstate, hlength]
    exact (BitVec.toNat_ofNat _ _).trans (mod_eq_of_lt (by omega))
  rw [DirReply.entries, hx, hstate, delivered_setSuccess, if_pos rfl, take_length, hbuffer]
  exact darwinFormat.walk_pack ds

theorem entries_succeeded {r : Converted} {ds : List LinuxDirent} {room : Nat}
    (hroom : room < 2 ^ 64) (hds : darwinTotal ds ≤ room)
    (hout : r.out = pack LinuxDirent.darwinBytes ds) :
    (succeeded c r).entries = ds.map LinuxDirent.entry := by
  refine entries_success c hroom hds ?_ hout
  rw [← length_pack_darwinBytes, ← hout]
  rfl

theorem entries_getdirentriesReply {count : Nat} (hcount : count < 2 ^ 64)
    (ds : List LinuxDirent) :
    (getdirentriesReply c count (pack LinuxDirent.bytes ds)).entries =
      (Handler.getdirentries.converted count ds).map LinuxDirent.entry := by
  have hloop : getdirentriesLoop count (pack LinuxDirent.bytes ds) 0 [] 0#64 = _ :=
    getdirentriesLoop_eq rfl (Nat.zero_add _) (Nat.zero_le count)
  have hfits := sum_fitting_le LinuxDirent.darwinReclen count ds
  rw [getdirentriesReply, hloop]
  dsimp only [nil_append, length_nil, sub_zero]
  split
  · rename_i hempty
    obtain rfl := eq_nil_of_length_bytes hempty
    exact entries_success c hcount (Nat.zero_le count) rfl rfl
  · split
    · rename_i hzero
      have hnil : fitting LinuxDirent.darwinReclen count ds = [] :=
        eq_nil_of_length_pack darwinFormat.length_pos hzero
      rw [entries_failed, Handler.converted, hnil, map_nil]
    · exact entries_succeeded c hcount hfits rfl

theorem entries_getdirentries64Reply {size : Nat} (hsize : size < 2 ^ 64)
    (ds : List LinuxDirent) :
    (getdirentries64Reply c size (pack LinuxDirent.bytes ds)).entries =
      (Handler.getdirentries64.converted size ds).map LinuxDirent.entry := by
  rw [getdirentries64Reply, Handler.converted]
  by_cases hfits : darwinTotal ds ≤ size
  · have hloop : getdirentries64Loop size (pack LinuxDirent.bytes ds) 0 [] 0#64 = _ :=
      getdirentries64Loop_of_le rfl (Nat.zero_add _) (Nat.zero_le size) hfits
    rw [hloop, if_pos hfits]
    exact entries_succeeded c hsize hfits rfl
  · have herr : (getdirentries64Loop size (pack LinuxDirent.bytes ds) 0 [] 0#64).err = some 22 :=
      getdirentries64Loop_of_lt rfl (Nat.zero_add _) (Nat.zero_le size) (Nat.lt_of_not_le hfits)
    rw [herr, if_neg hfits]
    exact entries_failed c _ _

end

theorem Kernel.getdents64_cases (pos count : Nat) :
    (k.records pos count = [] ∧ k.getdents64 pos count = .error 22) ∨
      k.getdents64 pos count = .ok (pack LinuxDirent.bytes (k.records pos count),
        pos + (k.records pos count).length) := by
  rw [getdents64]
  split
  · rename_i h
    exact Or.inl ⟨h.1, rfl⟩
  · exact Or.inr rfl

theorem Handler.fetched_of_none {h : Handler} {c : DirCall} (hfetch : h.fetchSize c = none)
    (pos : Nat) : h.fetched k pos c = [] := by
  rw [fetched, hfetch]
  rfl

theorem Handler.fetched_of_some {h : Handler} {c : DirCall} {n : Nat}
    (hfetch : h.fetchSize c = some n) (pos : Nat) : h.fetched k pos c = k.records pos n := by
  rw [fetched, hfetch]
  rfl

structure Handled (h : Handler) (pos : Nat) (c : DirCall) (r : DirReply × Nat) : Prop where
  next : r.2 = pos + (h.fetched k pos c).length
  entries : r.1.entries =
    (h.converted (h.size c) (h.fetched k pos c)).map LinuxDirent.entry

theorem handled_of_nil {h : Handler} {pos : Nat} {c : DirCall} {r : DirReply}
    (hfetched : h.fetched k pos c = []) (hentries : r.entries = []) :
    Handled k h pos c (r, pos) := by
  have hconverted : h.converted (h.size c) [] = [] := prefix_nil.mp (h.converted_isPrefix _ [])
  refine ⟨?_, ?_⟩
  · rw [hfetched]
    rfl
  · rw [hfetched, hconverted]
    exact hentries

theorem handled_getdirentries (pos : Nat) (c : DirCall) :
    Handled k .getdirentries pos c (handleGetdirentries k pos c) := by
  unfold handleGetdirentries
  generalize hcount : ((c.state.x 2).setWidth 32).toNat = count
  have hsize : Handler.getdirentries.size c = count := hcount
  by_cases hsmall : count < 23
  · have hnone : Handler.getdirentries.fetchSize c = none := by
      refine if_neg ?_
      omega
    rw [if_pos hsmall]
    exact handled_of_nil k (Handler.fetched_of_none k hnone pos) (entries_failed c _ _)
  rw [if_neg hsmall]
  by_cases hmalloc : c.mallocOk = false
  · have hnone : Handler.getdirentries.fetchSize c = none := by
      refine if_neg ?_
      rw [hmalloc]
      exact fun h => Bool.false_ne_true h.2
    rw [if_pos hmalloc]
    exact handled_of_nil k (Handler.fetched_of_none k hnone pos) (entries_failed c _ _)
  rw [if_neg hmalloc]
  have hsome : Handler.getdirentries.fetchSize c = some count := by
    rw [← hsize]
    exact if_pos ⟨by omega, by simpa using hmalloc⟩
  have hfetched := Handler.fetched_of_some k hsome pos
  rcases k.getdents64_cases pos count with ⟨hnil, herror⟩ | hok
  · rw [herror]
    exact handled_of_nil k (hfetched.trans hnil) (entries_failed c _ _)
  rw [hok]
  refine ⟨by rw [hfetched], ?_⟩
  rw [hfetched, hsize]
  exact entries_getdirentriesReply c (by omega) _

theorem handled_getdirentries64 (pos : Nat) (c : DirCall) :
    Handled k .getdirentries64 pos c (handleGetdirentries64 k pos c) := by
  unfold handleGetdirentries64
  by_cases hnull : c.state.x 1 = 0#64 ∧ (c.state.x 2).toNat ≠ 0
  · have hnone : Handler.getdirentries64.fetchSize c = none := if_pos hnull
    rw [if_pos hnull]
    exact handled_of_nil k (Handler.fetched_of_none k hnone pos) (entries_failed c _ _)
  rw [if_neg hnull]
  have hsome : Handler.getdirentries64.fetchSize c = some (min (c.state.x 2).toNat 8192) :=
    if_neg hnull
  have hfetched := Handler.fetched_of_some k hsome pos
  rcases k.getdents64_cases pos (min (c.state.x 2).toNat 8192) with ⟨hnil, herror⟩ | hok
  · rw [herror]
    exact handled_of_nil k (hfetched.trans hnil) (entries_failed c _ _)
  rw [hok]
  refine ⟨by rw [hfetched], ?_⟩
  rw [hfetched]
  exact entries_getdirentries64Reply c (c.state.x 2).isLt _

theorem handled_handle (h : Handler) (pos : Nat) (c : DirCall) :
    Handled k h pos c (h.handle k pos c) := by
  cases h with
  | getdirentries => exact handled_getdirentries k pos c
  | getdirentries64 => exact handled_getdirentries64 k pos c

/-- The calls of a guest from a position on: where they leave the directory and
the entries they have delivered. -/
def readDir (h : Handler) : Nat → List DirCall → Nat × List Entry
  | pos, [] => (pos, [])
  | pos, c :: cs =>
    let r := h.handle k pos c
    let rest := readDir h r.2 cs
    (rest.1, r.1.entries ++ rest.2)

/-- Every batch that the calls take from the kernel fits in the guest's buffer
once it is converted. -/
def AllFit (h : Handler) : Nat → List DirCall → Prop
  | _, [] => True
  | pos, c :: cs =>
    darwinTotal (h.fetched k pos c) ≤ h.size c ∧
      AllFit h (pos + (h.fetched k pos c).length) cs

instance decidableAllFit (h : Handler) :
    (pos : Nat) → (cs : List DirCall) → Decidable (AllFit k h pos cs)
  | _, [] => inferInstanceAs (Decidable True)
  | pos, c :: cs =>
    have := decidableAllFit h (pos + (h.fetched k pos c).length) cs
    inferInstanceAs (Decidable (_ ∧ _))

theorem Handler.fetched_isPrefix (h : Handler) (pos : Nat) (c : DirCall) :
    h.fetched k pos c <+: listing.drop pos := by
  rw [fetched]
  cases h.fetchSize c with
  | none => exact nil_prefix
  | some n => exact take_prefix _ _

structure Reads (h : Handler) (pos : Nat) (cs : List DirCall) (taken rest : List LinuxDirent) :
    Prop where
  split : listing.drop pos = taken ++ rest
  reached : (readDir k h pos cs).1 = pos + taken.length
  length_le : (readDir k h pos cs).2.length ≤ taken.length
  entries_iff : (readDir k h pos cs).2 = taken.map LinuxDirent.entry ↔ AllFit k h pos cs

theorem readDir_reads (h : Handler) (pos : Nat) (cs : List DirCall) :
    ∃ taken rest, Reads k h pos cs taken rest := by
  induction cs generalizing pos with
  | nil => exact ⟨[], listing.drop pos, rfl, rfl, le_refl 0, iff_of_true rfl trivial⟩
  | cons c cs ih =>
    obtain ⟨hnext, hentries⟩ := handled_handle k h pos c
    obtain ⟨tail, htail⟩ := h.fetched_isPrefix k pos c
    obtain ⟨taken, rest, hsplit, hreached, hlength, hiff⟩ := ih (pos + (h.fetched k pos c).length)
    have hrest : listing.drop (pos + (h.fetched k pos c).length) = tail := by
      rw [← drop_drop, ← htail, drop_left]
    have hle := (h.converted_isPrefix (h.size c) (h.fetched k pos c)).length_le
    refine ⟨h.fetched k pos c ++ taken, rest, ?_, ?_, ?_, ?_⟩
    · rw [← htail, ← hrest, hsplit, append_assoc]
    · rw [readDir, hnext, hreached, length_append, add_assoc]
    · rw [readDir, hnext, hentries, length_append, length_append, length_map]
      omega
    · rw [readDir, hnext, hentries, AllFit, ← h.converted_eq_iff, ← hiff]
      exact map_append_eq_iff (h.converted_isPrefix _ _) hlength

section

/-- The guest passes a buffer with room for any one entry of the directory. -/
def Handler.Roomy (h : Handler) (listing : List LinuxDirent) (c : DirCall) : Prop :=
  c.state.x 1 ≠ 0#64 ∧ 24 ≤ h.size c ∧ ∀ d ∈ listing, d.darwinReclen ≤ h.size c

instance (h : Handler) (listing : List LinuxDirent) (c : DirCall) :
    Decidable (h.Roomy listing c) :=
  inferInstanceAs (Decidable (_ ∧ _))

def Handler.asksKernel (h : Handler) (c : DirCall) : Bool :=
  (h.fetchSize c).isSome

variable {h : Handler} {c : DirCall}

theorem Handler.Roomy.reclen_le (hroomy : h.Roomy listing c) {n : Nat}
    (hfetch : h.fetchSize c = some n) {d : LinuxDirent} (hd : d ∈ listing) : d.reclen ≤ n := by
  have hsize := hroomy.2.2 d hd
  have hle := d.reclen_le_darwinReclen
  have hlt := d.reclen_lt
  cases h with
  | getdirentries =>
    obtain ⟨-, hn⟩ := ite_none_right_eq_some.mp hfetch
    obtain rfl := some.inj hn
    exact Nat.le_trans hle hsize
  | getdirentries64 =>
    obtain ⟨-, hn⟩ := ite_none_left_eq_some.mp hfetch
    obtain rfl := some.inj hn
    exact Nat.le_min.mpr ⟨Nat.le_trans hle hsize, Nat.le_of_lt hlt⟩

theorem fetched_length_pos (hroomy : h.Roomy listing c) (hasks : h.asksKernel c = true)
    {pos : Nat} (hpos : pos < listing.length) : 0 < (h.fetched k pos c).length := by
  obtain ⟨n, hn⟩ := isSome_iff_exists.mp hasks
  have hbatch := k.progress pos n (listing.get ⟨pos, hpos⟩) (getElem?_eq_getElem hpos)
    (hroomy.reclen_le hn (List.get_mem listing _))
  rw [Handler.fetched_of_some k hn, Kernel.records, length_take, length_drop]
  omega

/-- As many calls as there are entries reach the end of the directory. -/
theorem readDir_reaches_end {cs : List DirCall} (hroomy : ∀ c ∈ cs, h.Roomy listing c) {pos : Nat}
    (hpos : pos ≤ listing.length) (henough : listing.length ≤ pos + cs.countP h.asksKernel) :
    (readDir k h pos cs).1 = listing.length := by
  induction cs generalizing pos with
  | nil =>
    exact le_antisymm hpos henough
  | cons c cs ih =>
    have hnext := (handled_handle k h pos c).next
    have hle := (h.fetched_isPrefix k pos c).length_le
    rw [length_drop] at hle
    refine ih (fun c' hc' => hroomy c' (mem_cons_of_mem c hc')) (by omega) ?_
    rcases lt_or_ge pos listing.length with hlt | hend
    · cases hasks : h.asksKernel c with
      | true =>
        have hstep := fetched_length_pos k (hroomy c mem_cons_self) hasks hlt
        rw [countP_cons_of_pos hasks] at henough
        omega
      | false =>
        rw [countP_cons_of_neg (by rw [hasks]; exact Bool.false_ne_true)] at henough
        omega
    · omega

end

theorem readDir_eq_iff {h : Handler} {cs : List DirCall}
    (hend : (readDir k h 0 cs).1 = listing.length) :
    (readDir k h 0 cs).2 = listing.map LinuxDirent.entry ↔ AllFit k h 0 cs := by
  obtain ⟨taken, rest, hsplit, hreached, -, hiff⟩ := readDir_reads k h 0 cs
  rw [drop_zero] at hsplit
  have hlength := congrArg length hsplit
  rw [length_append] at hlength
  obtain rfl : rest = [] := eq_nil_of_length_eq_zero (by omega)
  rw [append_nil] at hsplit
  subst hsplit
  exact hiff

/-- Reading a directory to its end with buffers that have room for one entry
delivers the listing exactly when no batch outgrows the buffer: the batch is
fetched with the guest's byte count, and what does not fit after the conversion
is gone. -/
theorem readDir_complete_iff (h : Handler) (cs : List DirCall)
    (hroomy : ∀ c ∈ cs, h.Roomy listing c) (henough : listing.length ≤ cs.countP h.asksKernel) :
    (readDir k h 0 cs).2 = listing.map LinuxDirent.entry ↔ AllFit k h 0 cs :=
  readDir_eq_iff k (readDir_reaches_end k hroomy (Nat.zero_le _) (by omega))

end

def greedy (listing : List LinuxDirent) : Kernel listing where
  batch pos count := (fitting LinuxDirent.reclen count (listing.drop pos)).length
  within pos count hpos := by
    have hle := (fitting_isPrefix LinuxDirent.reclen count (listing.drop pos)).length_le
    rw [List.length_drop] at hle
    omega
  room pos count := by
    rw [← List.prefix_iff_eq_take.mp (fitting_isPrefix LinuxDirent.reclen count _), length_pack]
    simp only [LinuxDirent.length_bytes]
    exact sum_fitting_le LinuxDirent.reclen count _
  progress pos count d hd hle := by
    rw [List.drop_eq_getElem?_toList_append, hd]
    simp [fitting, hle]

def dirent (ino : BitVec 64) (name padding : List Octet) (hname : 0#8 ∉ name)
    (hlength : name.length < 4096)
    (hpadding : 20 + name.length + padding.length = (20 + name.length + 7) / 8 * 8) :
    LinuxDirent :=
  { ino, off := ino, type := 8#8, name, padding
    name_nonzero := hname, name_length := hlength, padding_length := hpadding }

def abcListing : List LinuxDirent :=
  [dirent 1#64 [0x2E#8] [0#8, 0#8, 0#8] (by decide) (by decide) (by decide),
    dirent 2#64 [0x2E#8, 0x2E#8] [0#8, 0#8] (by decide) (by decide) (by decide),
    dirent 3#64 [0x61#8, 0x62#8, 0x63#8] [0#8] (by decide) (by decide) (by decide)]

def threeCalls (size : BitVec 64) : List DirCall :=
  let state : GateState :=
    { x := fun i => if i = 1 then 0x1000#64 else if i = 2 then size else 0#64
      x30 := 0#64
      nzcv := 0#64
      pc := 0#64 }
  List.replicate 3 { state, mallocOk := true }

theorem readDir_abc_complete :
    (readDir (greedy abcListing) .getdirentries 0 (threeCalls 80#64)).2 =
      abcListing.map LinuxDirent.entry :=
  (readDir_complete_iff (greedy abcListing) .getdirentries (threeCalls 80#64) (by decide)
    (by decide)).mpr (by decide)

/-- The run reaches the end of the directory with room for every entry, and
does not deliver the listing. -/
def LosesEntries (h : Handler) (listing : List LinuxDirent) (cs : List DirCall) : Prop :=
  (∀ c ∈ cs, h.Roomy listing c) ∧
    (readDir (greedy listing) h 0 cs).1 = listing.length ∧
    (readDir (greedy listing) h 0 cs).2 ≠ listing.map LinuxDirent.entry

-- The kernel returns all three records in 72 bytes; the Darwin record of `abc`
-- ends at byte 80.
theorem losesEntries_abc (h : Handler) : LosesEntries h abcListing (threeCalls 72#64) := by
  have hroomy : ∀ c ∈ threeCalls 72#64, h.Roomy abcListing c := by cases h <;> decide
  have hend : (readDir (greedy abcListing) h 0 (threeCalls 72#64)).1 = abcListing.length :=
    readDir_reaches_end _ hroomy (Nat.zero_le _) (by cases h <;> decide)
  refine ⟨hroomy, hend, ?_⟩
  rw [Ne, readDir_eq_iff _ hend]
  cases h <;> decide

theorem readDir_abc_incomplete :
    LosesEntries .getdirentries abcListing (threeCalls 72#64) ∧
      LosesEntries .getdirentries64 abcListing (threeCalls 72#64) :=
  ⟨losesEntries_abc .getdirentries, losesEntries_abc .getdirentries64⟩

end Machgate.DirectoryReads
