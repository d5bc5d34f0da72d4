import Mathlib.Data.BitVec

namespace Machgate.SyscallErrno

open Option BitVec List

structure GateState where
  x : Fin 19 → BitVec 64
  x30 : BitVec 64
  nzcv : BitVec 64
  pc : BitVec 64

-- Named, so that the register numbers mean the same term in every module.
instance neZeroRegisters : NeZero 19 := ⟨by decide⟩

def syscallGateCarry : BitVec 64 := 0x20000000#64

def setSuccess (state : GateState) (result : BitVec 64) : GateState :=
  { state with
    x := Function.update state.x 0 result
    nzcv := state.nzcv &&& ~~~syscallGateCarry }

def setFailure (state : GateState) (err : Nat) : GateState :=
  { state with
    x := Function.update state.x 0 (BitVec.ofNat 64 err)
    nzcv := state.nzcv ||| syscallGateCarry }

/-- The error number that the guest finds on return, if the call failed. -/
def delivered (state : GateState) : Option (BitVec 64) :=
  if state.nzcv &&& syscallGateCarry = 0#64 then none else some (state.x 0)

theorem delivered_setFailure (state : GateState) (err : Nat) :
    delivered (setFailure state err) = some (BitVec.ofNat 64 err) := by
  have hcarry : (state.nzcv ||| syscallGateCarry) &&& syscallGateCarry ≠ 0#64 := by
    intro h
    have hbit := congrArg (fun v => getLsbD v 29) h
    simp [syscallGateCarry] at hbit
  exact if_neg hcarry

theorem delivered_setSuccess (state : GateState) (result : BitVec 64) :
    delivered (setSuccess state result) = none := by
  have hcarry : (state.nzcv &&& ~~~syscallGateCarry) &&& syscallGateCarry = 0#64 := by
    rw [BitVec.and_assoc, BitVec.and_comm (~~~_), BitVec.and_not_self]
    exact and_zero
  exact if_pos hcarry

inductive LinuxErrno
  | eperm | enoent | esrch | eintr | eio | enxio | e2big | enoexec | ebadf | echild | eagain
  | enomem | eacces | efault | enotblk | ebusy | eexist | exdev | enodev | enotdir | eisdir
  | einval | enfile | emfile | enotty | etxtbsy | efbig | enospc | espipe | erofs | emlink
  | epipe | edom | erange | edeadlk | enametoolong | enolck | enosys | enotempty | eloop
  | enomsg | eidrm | enostr | enodata | etime | enosr | eremote | enolink | eproto | emultihop
  | ebadmsg | eoverflow | eilseq | eusers | enotsock | edestaddrreq | emsgsize | eprototype
  | enoprotoopt | eprotonosupport | esocktnosupport | enotsup | epfnosupport | eafnosupport
  | eaddrinuse | eaddrnotavail | enetdown | enetunreach | enetreset | econnaborted
  | econnreset | enobufs | eisconn | enotconn | eshutdown | etoomanyrefs | etimedout
  | econnrefused | ehostdown | ehostunreach | ealready | einprogress | estale | edquot
  | ecanceled | eownerdead | enotrecoverable
deriving DecidableEq

/-- The numbers of `asm-generic/errno.h`, where `EOPNOTSUPP` is `ENOTSUP`. -/
def LinuxErrno.number : LinuxErrno → Nat
  | eperm => 1 | enoent => 2 | esrch => 3 | eintr => 4 | eio => 5 | enxio => 6 | e2big => 7
  | enoexec => 8 | ebadf => 9 | echild => 10 | eagain => 11 | enomem => 12 | eacces => 13
  | efault => 14 | enotblk => 15 | ebusy => 16 | eexist => 17 | exdev => 18 | enodev => 19
  | enotdir => 20 | eisdir => 21 | einval => 22 | enfile => 23 | emfile => 24 | enotty => 25
  | etxtbsy => 26 | efbig => 27 | enospc => 28 | espipe => 29 | erofs => 30 | emlink => 31
  | epipe => 32 | edom => 33 | erange => 34 | edeadlk => 35 | enametoolong => 36
  | enolck => 37 | enosys => 38 | enotempty => 39 | eloop => 40 | enomsg => 42 | eidrm => 43
  | enostr => 60 | enodata => 61 | etime => 62 | enosr => 63 | eremote => 66 | enolink => 67
  | eproto => 71 | emultihop => 72 | ebadmsg => 74 | eoverflow => 75 | eilseq => 84
  | eusers => 87 | enotsock => 88 | edestaddrreq => 89 | emsgsize => 90 | eprototype => 91
  | enoprotoopt => 92 | eprotonosupport => 93 | esocktnosupport => 94 | enotsup => 95
  | epfnosupport => 96 | eafnosupport => 97 | eaddrinuse => 98 | eaddrnotavail => 99
  | enetdown => 100 | enetunreach => 101 | enetreset => 102 | econnaborted => 103
  | econnreset => 104 | enobufs => 105 | eisconn => 106 | enotconn => 107 | eshutdown => 108
  | etoomanyrefs => 109 | etimedout => 110 | econnrefused => 111 | ehostdown => 112
  | ehostunreach => 113 | ealready => 114 | einprogress => 115 | estale => 116 | edquot => 122
  | ecanceled => 125 | eownerdead => 130 | enotrecoverable => 131

def switch (cases : List (LinuxErrno × Nat)) (other : Nat → Nat) (err : Nat) : Nat :=
  match cases.find? fun c => c.1.number == err with
  | some c => c.2
  | none => other err

theorem switch_cases (cases : List (LinuxErrno × Nat)) (other : Nat → Nat) (err : Nat) :
    (∃ c ∈ cases, c.1.number = err ∧ switch cases other err = c.2) ∨
      switch cases other err = other err := by
  unfold switch
  split
  · rename_i c hfind
    exact Or.inl ⟨c, mem_of_find?_eq_some hfind, by simpa using find?_some hfind, rfl⟩
  · exact Or.inr rfl

open LinuxErrno

/-- The table of `syscall_range_000_099.c`. -/
def darwinErrnoFromLinux000 (linuxErrno : Nat) : Nat :=
  if linuxErrno = 0 then 5
  else
    switch [(eagain, 35), (edeadlk, 11), (enosys, 78), (enotsup, 45), (eafnosupport, 47),
      (enametoolong, 63)] id linuxErrno

/-- The cases that the tables from 100 on have in common. -/
def commonCases : List (LinuxErrno × Nat) :=
  [(eperm, 1), (enoent, 2), (esrch, 3), (eintr, 4), (eio, 5), (enxio, 6), (e2big, 7),
    (enoexec, 8), (ebadf, 9), (echild, 10), (edeadlk, 11), (enomem, 12), (eacces, 13),
    (efault, 14), (ebusy, 16), (eexist, 17), (exdev, 18), (enodev, 19), (enotdir, 20),
    (eisdir, 21), (einval, 22), (enfile, 23), (emfile, 24), (enotty, 25), (efbig, 27),
    (enospc, 28), (espipe, 29), (erofs, 30), (emlink, 31), (epipe, 32), (edom, 33),
    (erange, 34), (eagain, 35), (einprogress, 36), (ealready, 37), (enotsock, 38),
    (edestaddrreq, 39), (emsgsize, 40), (eprototype, 41), (enoprotoopt, 42),
    (eprotonosupport, 43), (enotsup, 45), (eafnosupport, 47), (eaddrinuse, 48),
    (eaddrnotavail, 49), (enetdown, 50), (enetunreach, 51), (enetreset, 52),
    (econnaborted, 53), (econnreset, 54), (enobufs, 55), (eisconn, 56), (enotconn, 57),
    (eshutdown, 58), (etimedout, 60), (econnrefused, 61), (eloop, 62), (enametoolong, 63),
    (ehostunreach, 65), (enotempty, 66), (edquot, 69), (estale, 70), (enolck, 77),
    (enosys, 78)]

def cases100 : List (LinuxErrno × Nat) :=
  commonCases ++ [(eoverflow, 84), (ecanceled, 89), (eilseq, 92)]

def darwinErrnoFromLinux100 (err : Nat) : Nat :=
  if err = 0 then 0 else switch cases100 (fun _ => 22) err

def cases200 : List (LinuxErrno × Nat) :=
  cases100 ++ [(etxtbsy, 26), (esocktnosupport, 44), (epfnosupport, 46),
    (etoomanyrefs, 59), (ehostdown, 64), (eremote, 71), (eidrm, 90), (enomsg, 91),
    (ebadmsg, 94), (emultihop, 95), (enodata, 96), (enolink, 97), (enosr, 98),
    (enostr, 99), (eproto, 100), (etime, 101), (enotrecoverable, 104), (eownerdead, 105)]

def errnoToDarwin (err : Nat) : Nat :=
  switch cases200 id err

def cases400 : List (LinuxErrno × Nat) :=
  commonCases ++ [(enotblk, 15), (etxtbsy, 26), (esocktnosupport, 44), (epfnosupport, 46),
    (etoomanyrefs, 59), (ehostdown, 64), (eusers, 68), (eremote, 71)]

def linuxErrnoToDarwin (err : Nat) : Nat :=
  switch cases400 (fun _ => 5) err

/-- `execve_errno_from_linux` of `execve_reexec.c`, which is part of two calls. -/
def execveErrnoFromLinux (linuxErrno : Nat) : Nat :=
  if linuxErrno = 0 then 5 else switch [(enotsup, 45)] id linuxErrno

inductive Table
  | gate | execve | range000 | range100 | range200 | range400
deriving DecidableEq

/-- The argument of `set_failure` for the `errno` that a kernel call left. -/
def Table.failure (t : Table) (errno : Nat) : Nat :=
  let orEio := if errno ≠ 0 then errno else eio.number
  match t with
  | gate => orEio
  | execve => execveErrnoFromLinux errno
  | range000 => darwinErrnoFromLinux000 errno
  | range100 => darwinErrnoFromLinux100 orEio
  | range200 => errnoToDarwin orEio
  | range400 => linuxErrnoToDarwin orEio

def finishSyscallResult (t : Table) (state : GateState) (result : BitVec 64) (errno : Nat) :
    GateState :=
  if result.toInt < 0 then setFailure state (t.failure errno) else setSuccess state result

/-- The system calls of each dispatcher that fail if a kernel call of theirs does.
Those of the gate are repeated in the range files, where they are never reached;
the last four of 200–399 are handed on by the file above. -/
def Table.relays : Table → List Nat
  | gate => [3, 4, 5, 6, 73, 74, 189, 197, 199]
  | execve => [59, 380]
  | range000 =>
    [2, 3, 4, 5, 6, 7, 9, 10, 12, 13, 14, 15, 16, 18, 20, 23, 24, 25, 27, 28, 29, 30, 31,
      32, 33, 34, 35, 37, 39, 41, 42, 43, 46, 47, 48, 51, 52, 53, 54, 57, 58, 60, 65, 73, 74,
      75, 78, 79, 80, 81, 82, 83, 86, 89, 90, 92, 93, 95, 96, 97, 98]
  | range100 =>
    [100, 101, 102, 103, 104, 105, 106, 116, 117, 118, 120, 121, 123, 124, 126, 127, 128,
      131, 132, 133, 134, 135, 136, 137, 138, 139, 140, 147, 151, 153, 154, 157, 158, 159,
      165, 167, 181, 182, 183, 187, 188, 189, 190, 191, 192, 194, 195, 196, 197, 199]
  | range200 =>
    [200, 201, 203, 204, 205, 216, 217, 218, 220, 221, 222, 223, 225, 226, 227, 228, 229,
      230, 234, 235, 236, 237, 238, 239, 240, 241, 242, 244, 245, 251, 252, 253, 254, 255,
      256, 258, 259, 260, 261, 262, 263, 264, 265, 266, 267, 271, 272, 273, 277, 278, 279, 280,
      281, 282, 283, 291, 292, 297, 298, 301, 302, 303, 304, 305, 306, 307, 308, 310,
      312, 313, 314, 318, 319, 320, 324, 325, 328, 329, 330, 334, 336, 337, 338, 339,
      340, 341, 342, 343, 344, 345, 346, 347, 348, 349, 362, 363, 364, 369, 372, 374, 375,
      388, 394, 395, 396, 397, 398, 399, 418, 419, 420, 423]
  | range400 =>
    [401, 402, 403, 404, 405, 406, 407, 408, 409, 411, 412, 413, 414, 415, 417, 422, 424,
      427, 430, 431, 441, 442, 443, 444, 447, 448, 450, 461, 462, 463, 464, 465, 466, 467,
      468, 469, 470, 471, 472, 473, 474, 475, 476, 479, 480, 481, 484, 485, 486, 487, 488,
      500, 501, 517, 520, 522, 524, 527, 528, 530, 534, 537, 540, 541, 542, 543,
      549, 551, 553, 554, 555]

def route (number : BitVec 64) : Option Table :=
  [Table.gate, .execve, .range000, .range100, .range200, .range400].find? fun t =>
    number.toNat ∈ t.relays

/-- A call of the guest, and what its handler knows when the kernel call fails:
whether the address of `munmap` is in the table of `guest_vm_track.c`, and whether
`exchangedata` has come to its `renameat2`. -/
structure Call where
  state : GateState
  tracked : Bool
  renames : Bool

/-- The guest error with which a handler replaces the `errno` of its kernel call.
`munmap` changes the number before the gate passes it on. -/
def Call.replacement (c : Call) (errno : Nat) : Option Nat :=
  match (c.state.x 16).toNat with
  | 73 => if errno = eintr.number ∧ (c.tracked ∨ c.state.x 1 = 4096#64) then some 22 else none
  | 223 => if c.renames ∧ errno ∈ [enosys, einval, enotsup].map number then some 45 else none
  -- `posix_spawn` is not supported, also if there is such a file.
  | 244 => if errno = efault.number then none else some 45
  | _ => none

def Call.failure (c : Call) (t : Table) (errno : Nat) : Nat :=
  (c.replacement errno).getD (t.failure errno)

/-- A call whose kernel call returned `result` and left `errno`; an interrupted
`getentropy` asks again. -/
def syscallGateDispatch (c : Call) (result : BitVec 64) (errno : Nat) : Option GateState :=
  (route (c.state.x 16)).bind fun t =>
    if result.toInt < 0 then
      if c.state.x 16 = 500#64 ∧ errno = eintr.number then none
      else some (setFailure c.state (c.failure t errno))
    else if c.state.x 16 = 205#64 then some (setFailure c.state 17)
    else if c.state.x 16 = 244#64 then some (setFailure c.state 45)
    else some (setSuccess c.state result)

/-- The kernel reports its errors as results from -4095 on. -/
def KernelErrno := { errno : Nat // 0 < errno ∧ errno < 4096 }

/-- Two failing calls that leave the same `errno` deliver the same number. -/
def DeliversSame (errno : KernelErrno) (c d : Call) : Prop :=
  ∀ result s u, BitVec.toInt result < 0 → syscallGateDispatch c result errno.val = some s →
    syscallGateDispatch d result errno.val = some u → delivered s = delivered u

theorem dispatch_of_failed (c : Call) {result : BitVec 64} (hresult : result.toInt < 0)
    (errno : Nat) :
    syscallGateDispatch c result errno = syscallGateDispatch c (-1#64) errno := by
  have hfails : BitVec.toInt (-1#64) < 0 := by decide
  simp only [syscallGateDispatch, if_pos hresult, if_pos hfails]

theorem delivered_dispatch {c : Call} {s : GateState} {errno : Nat}
    (h : syscallGateDispatch c (-1#64) errno = some s) :
    ∃ t, route (c.state.x 16) = some t ∧
      delivered s = some (BitVec.ofNat 64 (c.failure t errno)) := by
  have hfails : BitVec.toInt (-1#64) < 0 := by decide
  obtain ⟨t, hroute, h⟩ := Option.bind_eq_some_iff.mp h
  rw [if_pos hfails] at h
  split at h
  · cases h
  · cases h
    exact ⟨t, hroute, delivered_setFailure _ _⟩

def call (number : BitVec 64) : Call :=
  { state :=
      { x := fun i => if i = 16 then number else 0#64
        x30 := 0#64
        nzcv := 0#64
        pc := 0#64 }
    tracked := false
    renames := false }

/-- A call that agrees with one that leaves the `errno` to its table. -/
theorem failure_of_deliversSame {errno : KernelErrno} {c : Call} {s : GateState} {t : Table}
    {m : BitVec 64} (h : DeliversSame errno c (call m))
    (hc : syscallGateDispatch c (-1#64) errno.val = some s) (hm : route m = some t)
    (hm' : m = 3#64 ∨ m = 120#64 ∨ m = 396#64) :
    delivered s = some (BitVec.ofNat 64 (t.failure errno.val)) := by
  have hfails : BitVec.toInt (-1#64) < 0 := by decide
  refine (h (-1#64) s _ hfails hc (Option.bind_eq_some_iff.mpr ⟨t, hm, ?_⟩)).trans
    (delivered_setFailure (call m).state _)
  rcases hm' with rfl | rfl | rfl <;> exact (if_pos hfails).trans (if_neg (by simp [call]))

theorem darwinErrnoFromLinux100_ne {err : Nat} (herr : 34 < err) :
    darwinErrnoFromLinux100 err ≠ err ∧ darwinErrnoFromLinux100 err < 2 ^ 64 := by
  have hmoves : ∀ c ∈ cases100, 34 < c.1.number → c.2 ≠ c.1.number ∧ c.2 < 2 ^ 64 := by decide
  rw [darwinErrnoFromLinux100, if_neg (by omega)]
  rcases switch_cases cases100 (fun _ => 22) err with ⟨c, hc, hnumber, hvalue⟩ | hother
  · rw [hvalue, ← hnumber]
    exact hmoves c hc (hnumber ▸ herr)
  · omega

theorem failure_eq_of_common :
    ∀ errno < 35, errno ≠ 11 → errno ≠ 15 → errno ≠ 26 → ∀ t : Table,
      t.failure errno = Table.gate.failure errno := by
  intro errno herr h11 h15 h26 t
  revert errno
  cases t <;> decide

theorem replacement_ne {c : Call} {errno r : Nat} (h : c.replacement errno = some r)
    (herr : errno ≤ 34) : r ≠ errno ∧ r < 2 ^ 64 := by
  rw [Call.replacement] at h
  split at h
  · split at h
    · next heintr =>
      cases h
      rw [heintr.1]
      decide
    · cases h
  · split at h <;> cases h
    omega
  · split at h <;> cases h
    omega
  · cases h

/-- A call that reports the error delivers the same number as all those that do not
replace it exactly if it does not replace it itself, and the error is one of those
below 35 other than `EAGAIN`, `ENOTBLK` and `ETXTBSY`. -/
theorem deliversSame_iff (errno : KernelErrno) (c : Call) :
    (∀ d : Call, d.replacement errno.val = none → DeliversSame errno c d) ↔
      ((syscallGateDispatch c (-1#64) errno.val).isSome →
        (errno.val ≤ 34 ∧ errno.val ≠ 11 ∧ errno.val ≠ 15 ∧ errno.val ≠ 26) ∧
          c.replacement errno.val = none) := by
  have hlt : errno.val < 2 ^ 64 := Nat.lt_trans errno.property.2 (by decide)
  have hraw : Table.gate.failure errno.val = errno.val := if_pos (Nat.ne_of_gt errno.property.1)
  have hinj : ∀ {n}, n < 2 ^ 64 → BitVec.ofNat 64 errno.val = BitVec.ofNat 64 n →
      n = errno.val := by
    intro n hn heq
    have hnat := congrArg BitVec.toNat heq
    rwa [toNat_ofNat, toNat_ofNat, Nat.mod_eq_of_lt hn, Nat.mod_eq_of_lt hlt, eq_comm] at hnat
  constructor
  · intro h hreports
    obtain ⟨s, hs⟩ := Option.isSome_iff_exists.mp hreports
    have hread := failure_of_deliversSame (h (call 3#64) rfl) hs
      (show route 3#64 = some .gate by decide) (by decide)
    have hgate : ∀ {m u}, route m = some u → m = 120#64 ∨ m = 396#64 →
        (call m).replacement errno.val = none →
        BitVec.ofNat 64 (Table.gate.failure errno.val) =
          BitVec.ofNat 64 (u.failure errno.val) := by
      intro m u hm hm' hnone
      exact some.inj (hread.symm.trans
        (failure_of_deliversSame (h (call m) hnone) hs hm (Or.inr hm')))
    have hnocancel := hgate (show route 396#64 = some .range200 by decide) (by decide) rfl
    have hreadv := hgate (show route 120#64 = some .range100 by decide) (by decide) rfl
    have hle : errno.val ≤ 34 := by
      by_contra hhigh
      obtain ⟨hmoved, hlt'⟩ := darwinErrnoFromLinux100_ne (Nat.lt_of_not_le hhigh)
      have hne : errno.val ≠ 0 := by omega
      simp only [Table.failure, ne_eq, hne, not_false_eq_true, if_true] at hreadv
      exact hmoved (hinj hlt' hreadv)
    refine ⟨⟨hle, ?_, ?_, ?_⟩, ?_⟩
    · intro h11
      rw [h11] at hnocancel
      exact absurd hnocancel (by decide)
    · intro h15
      rw [h15] at hreadv
      exact absurd hreadv (by decide)
    · intro h26
      rw [h26] at hreadv
      exact absurd hreadv (by decide)
    · by_contra hsome
      obtain ⟨r, hr⟩ := Option.ne_none_iff_exists'.mp hsome
      obtain ⟨hne, hr'⟩ := replacement_ne hr hle
      obtain ⟨t, -, ht⟩ := delivered_dispatch hs
      rw [ht, Call.failure, hr, hraw] at hread
      exact hne (hinj hr' (some.inj hread).symm)
  · intro h d hd result s u hresult hs hu
    rw [dispatch_of_failed _ hresult] at hs hu
    obtain ⟨⟨hle, h11, h15, h26⟩, hc⟩ := h (hs ▸ rfl)
    obtain ⟨t, -, ht⟩ := delivered_dispatch hs
    obtain ⟨v, -, hv⟩ := delivered_dispatch hu
    have hcommon := failure_eq_of_common errno.val (by omega) h11 h15 h26
    rw [ht, hv, Call.failure, Call.failure, hc, hd, getD_none, getD_none, hcommon t, hcommon v]

/-- `read` fails with the raw `EAGAIN`, which the guest takes for `EDEADLK`;
`read_nocancel` translates it. -/
theorem read_eagain_not_deliversSame :
    ¬ DeliversSame ⟨11, by decide⟩ (call 3#64) (call 396#64) := by
  intro h
  have hsame := failure_of_deliversSame (t := .range200) h rfl (by decide) (by decide)
  exact absurd hsame (by decide)

end Machgate.SyscallErrno
