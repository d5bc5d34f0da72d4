import Machgate.SocketNames

namespace Machgate.SocketReports

open RecordBuffer SocketNames SyscallErrno List Option Function

/-- A name as the guest would read it from a buffer without limits. -/
def darwinName (reply : Reply) : Option (List Octet) :=
  if ssFamily reply.name = afUnix then
    let pathLen := reply.nameLen.toNat - 2
    some (BitVec.ofNat 8 (pathLen + 2) :: darwinAfUnix :: slice reply.name 2 pathLen)
  else if ssFamily reply.name = afInet then
    some (16#8 :: darwinAfInet :: slice reply.name 2 6 ++ List.replicate 8 0#8)
  else if ssFamily reply.name = afInet6 then
    some (28#8 :: darwinAfInet6 :: slice reply.name 2 26)
  else none

/-- The name has a translation, which fits the guest's buffer and the byte for its length. -/
def Fits (reply : Reply) (capacity : BitVec 32) : Prop :=
  ∃ full ∈ darwinName reply, full.length ≤ capacity.toNat ∧ full.length ≤ 255

def Shows (buffer : Option (List Octet)) (reply : Reply) (capacity : BitVec 32) : Prop :=
  ∀ full ∈ darwinName reply,
    ∃ bytes ∈ buffer, bytes.take full.length = full.take capacity.toNat

def Reports (state : GateState) (result : BitVec 64) : Prop :=
  delivered state = none ∧ state.x 0 = result

def Succeeded (reply : Reply) : Prop := 0 ≤ reply.result.toInt

section

variable {reply : Reply} {capacity : BitVec 32}

theorem length_slice (addr : Storage) (offset len : Nat) : (slice addr offset len).length = len := by
  rw [slice, length_map, length_range]

theorem fill_replicate {capacity n : Nat} {bytes : List Octet} (h : bytes.length + n ≤ capacity) :
    fill capacity (bytes ++ replicate n 0#8) = fill capacity bytes := by
  rw [fill, fill, append_assoc, replicate_append_replicate, length_append, length_replicate]
  congr 2
  omega

theorem take_fill {capacity : Nat} {full : List Octet} (h : full.length ≤ capacity) :
    (fill capacity full).take full.length = full.take capacity := by
  rw [fill, take_left, take_of_length_le h]

theorem toDarwin_fits (h : Fits reply capacity) :
    ∃ full, darwinName reply = some full ∧ full.length ≤ capacity.toNat ∧
      linuxSockaddrToDarwin reply.name reply.nameLen.toNat capacity.toNat =
        (fill capacity.toNat full, .ok full.length) := by
  obtain ⟨full, hfull, hcapacity, hbyte⟩ := h
  refine ⟨full, hfull, hcapacity, ?_⟩
  rw [linuxSockaddrToDarwin]
  unfold darwinName at hfull
  split at hfull
  · next hunix =>
    obtain rfl := some.inj hfull
    simp only [length_cons, length_slice] at hcapacity hbyte ⊢
    rw [if_pos hunix, if_neg (by omega)]
  · next hunix =>
    rw [if_neg hunix]
    split at hfull
    · next hinet =>
      obtain rfl := some.inj hfull
      simp only [cons_append, length_cons, length_append, length_slice,
        length_replicate] at hcapacity ⊢
      rw [if_pos hinet, if_neg (by omega), ← cons_append, ← cons_append,
        fill_replicate (by simp only [length_cons, length_slice]; omega)]
    · next hinet =>
      rw [if_neg hinet]
      split at hfull
      · next hinet6 =>
        obtain rfl := some.inj hfull
        simp only [length_cons, length_slice] at hcapacity ⊢
        rw [if_pos hinet6, if_neg (by omega)]
      · cases hfull

theorem toDarwin_not_fits (h : ¬ Fits reply capacity) :
    ∃ raw errno, linuxSockaddrToDarwin reply.name reply.nameLen.toNat capacity.toNat =
      (raw, .error errno) := by
  rw [linuxSockaddrToDarwin]
  split
  · next hunix =>
    refine ⟨_, _, if_pos ?_⟩
    by_contra hfits
    refine h ⟨_, if_pos hunix, ?_⟩
    simp only [length_cons, length_slice]
    omega
  · next hunix =>
    split
    · next hinet =>
      refine ⟨_, _, if_pos ?_⟩
      by_contra hfits
      refine h ⟨_, (if_neg hunix).trans (if_pos hinet), ?_⟩
      simp only [cons_append, length_cons, length_append, length_slice, length_replicate]
      omega
    · next hinet =>
      split
      · next hinet6 =>
        refine ⟨_, _, if_pos ?_⟩
        by_contra hfits
        refine h ⟨_, (if_neg hunix).trans ((if_neg hinet).trans (if_pos hinet6)), ?_⟩
        simp only [length_cons, length_slice]
        omega
      · exact ⟨_, _, rfl⟩

end

variable {state : GateState} {reply : Reply}

theorem reports_setSuccess (state : GateState) (result : BitVec 64) :
    Reports (setSuccess state result) result := by
  refine ⟨delivered_setSuccess state result, ?_⟩
  change update state.x 0 result 0 = result
  rw [update_self]

theorem not_reports_setFailure (state : GateState) (err : Nat) (result : BitVec 64) :
    ¬ Reports (setFailure state err) result := by
  rintro ⟨hdelivered, -⟩
  rw [delivered_setFailure] at hdelivered
  cases hdelivered

theorem shows_fill {full : List Octet} {capacity : BitVec 32} (hfull : darwinName reply = some full)
    (hlength : full.length ≤ capacity.toNat) :
    Shows (some (fill capacity.toNat full)) reply capacity := by
  intro full' hfull'
  obtain rfl : full = full' := some.inj (hfull.symm.trans hfull')
  exact ⟨_, rfl, take_fill hlength⟩

theorem named_iff (t : Table) (name : Name) (h : Succeeded reply) :
    (Reports (socketNameResult t state name reply).1 reply.result ∧
        (name.addr ≠ none → ∀ capacity ∈ name.len,
          Shows (socketNameResult t state name reply).2.addr reply capacity)) ↔
      (name.addr ≠ none → ∀ capacity ∈ name.len, Fits reply capacity) := by
  obtain ⟨addr, len⟩ := name
  rw [socketNameResult, if_neg (Int.not_lt.mpr h)]
  cases addr with
  | none =>
    exact iff_of_true ⟨reports_setSuccess state reply.result, fun hnull => absurd rfl hnull⟩
      fun hnull => absurd rfl hnull
  | some buffer =>
    cases len with
    | none =>
      exact iff_of_true ⟨reports_setSuccess state reply.result, fun _ _ hlen => nomatch hlen⟩
        fun _ _ hlen => nomatch hlen
    | some capacity =>
      by_cases hfits : Fits reply capacity
      · obtain ⟨full, hfull, hlength, hdarwin⟩ := toDarwin_fits hfits
        simp only [finishName, hdarwin]
        refine iff_of_true ⟨reports_setSuccess state reply.result, ?_⟩ ?_
        · rintro - capacity' ⟨⟩
          exact shows_fill hfull hlength
        · rintro - capacity' ⟨⟩
          exact hfits
      · obtain ⟨raw, errno, hdarwin⟩ := toDarwin_not_fits hfits
        simp only [finishName, hdarwin]
        refine iff_of_false ?_ ?_
        · rintro ⟨hreports, -⟩
          exact not_reports_setFailure _ _ _ hreports
        · intro hall
          exact hfits (hall (some_ne_none buffer) capacity rfl)

theorem message_iff (t : Table) {msg : DarwinMsghdr} (h : Succeeded reply) (hcontrol : ¬ msg.control) :
    (Reports (recvmsg t state (some msg) reply).1 reply.result ∧
        (msg.msgName ≠ none → ∃ after ∈ (recvmsg t state (some msg) reply).2,
          Shows after.msgName reply msg.msgNamelen)) ↔
      (msg.msgName ≠ none → Fits reply msg.msgNamelen) := by
  simp only [recvmsg, if_neg hcontrol, if_neg (Int.not_lt.mpr h)]
  cases hname : msg.msgName with
  | none =>
    exact iff_of_true ⟨reports_setSuccess state reply.result, fun hnull => absurd rfl hnull⟩
      fun hnull => absurd rfl hnull
  | some buffer =>
    by_cases hfits : Fits reply msg.msgNamelen
    · obtain ⟨full, hfull, hlength, hdarwin⟩ := toDarwin_fits hfits
      simp only [hdarwin]
      refine iff_of_true ⟨reports_setSuccess state reply.result, fun _ => ?_⟩ fun _ => hfits
      exact ⟨_, rfl, shows_fill hfull hlength⟩
    · obtain ⟨raw, errno, hdarwin⟩ := toDarwin_not_fits hfits
      simp only [hdarwin]
      refine iff_of_false ?_ fun hall => hfits (hall (some_ne_none buffer))
      rintro ⟨hreports, -⟩
      exact not_reports_setFailure _ _ _ hreports

end Machgate.SocketReports
