import Machgate.SocketTranslation

namespace Machgate.SocketReports

open RecordBuffer SocketNames SyscallErrno Option Nat BitVec

inductive NameCall
  | accept | getpeername | getsockname | recvfrom | acceptNocancel | recvfromNocancel

def NameCall.handle : NameCall → GateState → Name → Reply → GateState × Name
  | accept => handleAccept
  | getpeername => handleGetpeername
  | getsockname => handleGetsockname
  | recvfrom => handleRecvfrom
  | acceptNocancel => dispatchAccept
  | recvfromNocancel => dispatchRecvfrom

inductive MessageCall
  | recvmsg | recvmsgNocancel

def MessageCall.handle : MessageCall → GateState → Option DarwinMsghdr → Reply →
    GateState × Option DarwinMsghdr
  | recvmsg => handleRecvmsg
  | recvmsgNocancel => dispatchRecvmsg

inductive SocketCall
  | named (call : NameCall) (name : Name)
  | message (call : MessageCall) (msg : Option DarwinMsghdr)
  | messages (msgs : Option (List DarwinMsghdrX)) (count : BitVec 32)

/-- Whatever the kernel has handed over is reported, with the names cut to the buffers. -/
def SeesSuccess (state : GateState) (replies : Nat → Reply) : SocketCall → Prop
  | .named call name => Succeeded (replies 0) →
      Reports (call.handle state name (replies 0)).1 (replies 0).result ∧
        (name.addr ≠ none → ∀ capacity ∈ name.len,
          Shows (call.handle state name (replies 0)).2.addr (replies 0) capacity)
  | .message call msg => Succeeded (replies 0) → ∀ m ∈ msg, ¬ m.control →
      Reports (call.handle state msg (replies 0)).1 (replies 0).result ∧
        (m.msgName ≠ none →
          ∃ after ∈ (call.handle state msg (replies 0)).2,
            Shows after.msgName (replies 0) m.msgNamelen)
  | .messages msgs count =>
    0 < (dispatchRecvmsgX state msgs count replies).taken →
      Reports (dispatchRecvmsgX state msgs count replies).state
          (BitVec.ofNat 64 (dispatchRecvmsgX state msgs count replies).taken) ∧
        ∀ i < (dispatchRecvmsgX state msgs count replies).taken,
          ∀ m ∈ ((msgs.getD []).take count.toNat)[i]?, m.msgName ≠ none →
            ∃ after ∈ (dispatchRecvmsgX state msgs count replies).msgs[i]?,
              Shows after.msgName (replies i) m.msgNamelen

/-- The kernel hands over the messages in front of `i` and `i` itself. -/
def HandedOver (msgs : List DarwinMsghdrX) (replies : Nat → Reply) (i : Nat) : Prop :=
  ∀ j ≤ i, Succeeded (replies j) ∧ ∀ m ∈ msgs[j]?, ¬ m.control

def NamesFit (replies : Nat → Reply) : SocketCall → Prop
  | .named _ name => Succeeded (replies 0) → name.addr ≠ none → ∀ capacity ∈ name.len,
      Fits (replies 0) capacity
  | .message _ msg => Succeeded (replies 0) → ∀ m ∈ msg, ¬ m.control → m.msgName ≠ none →
      Fits (replies 0) m.msgNamelen
  | .messages msgs count => ∀ i, HandedOver ((msgs.getD []).take count.toNat) replies i →
      ∀ m ∈ ((msgs.getD []).take count.toNat)[i]?, m.msgName ≠ none →
        Fits (replies i) m.msgNamelen

section

variable {state : GateState} {replies : Nat → Reply} {received : Nat} {msg : DarwinMsghdrX}
  {msgs rest : List DarwinMsghdrX}

theorem handedOver_cons {i : Nat} :
    HandedOver (msg :: rest) replies (i + 1) ↔
      (Succeeded (replies 0) ∧ ¬ msg.control) ∧ HandedOver rest (fun j => replies (j + 1)) i := by
  constructor
  · intro h
    refine ⟨⟨(h 0 (Nat.zero_le _)).1, (h 0 (Nat.zero_le _)).2 msg rfl⟩, ?_⟩
    intro j hj
    exact h (j + 1) (succ_le_succ hj)
  · rintro ⟨⟨hreply, hmsg⟩, h⟩ j hj
    rcases j with _ | j
    · refine ⟨hreply, ?_⟩
      rintro m ⟨⟩
      exact hmsg
    · exact h j (le_of_succ_le_succ hj)

theorem recvLoop_cons (hcontrol : ¬ msg.control) (hreply : Succeeded (replies received)) :
    (msg.msgName ≠ none ∧ ¬ Fits (replies received) msg.msgNamelen ∧
        (∃ err, (recvLoop state replies received (msg :: rest)).state =
          stopped state received (setFailure state err)) ∧
        (recvLoop state replies received (msg :: rest)).taken = received + 1) ∨
      (msg.msgName ≠ none → Fits (replies received) msg.msgNamelen) ∧
        ∃ after : DarwinMsghdrX, recvLoop state replies received (msg :: rest) =
              (recvLoop state replies (received + 1) rest).push after ∧
            (msg.msgName ≠ none → Shows after.msgName (replies received) msg.msgNamelen) := by
  simp only [recvLoop, if_neg hcontrol, if_neg (Int.not_lt.mpr hreply)]
  cases hname : msg.msgName with
  | none => exact Or.inr ⟨fun hnull => absurd rfl hnull, _, rfl, fun hnull => absurd rfl hnull⟩
  | some buffer =>
    by_cases hfits : Fits (replies received) msg.msgNamelen
    · obtain ⟨full, hfull, hlength, hdarwin⟩ := toDarwin_fits hfits
      simp only [hdarwin]
      exact Or.inr ⟨fun _ => hfits, _, rfl, fun _ => shows_fill hfull hlength⟩
    · obtain ⟨raw, errno, hdarwin⟩ := toDarwin_not_fits hfits
      simp only [hdarwin]
      exact Or.inl ⟨some_ne_none buffer, hfits, ⟨_, rfl⟩, trivial⟩

theorem recvLoop_stop (h : ¬ (Succeeded (replies received) ∧ ¬ msg.control)) :
    (recvLoop state replies received (msg :: rest)).taken = received ∧
      ∃ failed, (recvLoop state replies received (msg :: rest)).state =
        stopped state received failed := by
  by_cases hcontrol : msg.control
  · simp only [recvLoop, if_pos hcontrol]
    exact ⟨trivial, _, rfl⟩
  · have hfailed : (replies received).result.toInt < 0 := by
      rw [← Int.not_le]
      exact fun hreply => h ⟨hreply, hcontrol⟩
    simp only [recvLoop, if_neg hcontrol, if_pos hfailed]
    exact ⟨trivial, _, rfl⟩

theorem reports_stopped (hpos : 0 < received) (failed : GateState) :
    Reports (stopped state received failed) (BitVec.ofNat 64 received) := by
  rw [stopped, if_pos (Nat.ne_of_gt hpos)]
  exact reports_setSuccess state _

theorem not_reports_stopped (err : Nat) :
    ¬ Reports (stopped state received (setFailure state err)) (BitVec.ofNat 64 (received + 1)) := by
  rw [stopped]
  split
  · rintro ⟨-, hresult⟩
    rw [(reports_setSuccess state (BitVec.ofNat 64 received)).2] at hresult
    have hnat := congrArg BitVec.toNat hresult
    rw [toNat_ofNat, toNat_ofNat] at hnat
    omega
  · exact not_reports_setFailure state err _

theorem recvLoop_fits
    (h : ∀ i, HandedOver msgs (fun j => replies (received + j)) i → ∀ m ∈ msgs[i]?,
      m.msgName ≠ none → Fits (replies (received + i)) m.msgNamelen) :
    (0 < (recvLoop state replies received msgs).taken →
        Reports (recvLoop state replies received msgs).state
          (BitVec.ofNat 64 (recvLoop state replies received msgs).taken)) ∧
      ∀ i, received + i < (recvLoop state replies received msgs).taken →
        ∀ m ∈ msgs[i]?, m.msgName ≠ none →
          ∃ after ∈ (recvLoop state replies received msgs).msgs[i]?,
            Shows after.msgName (replies (received + i)) m.msgNamelen := by
  induction msgs generalizing received with
  | nil => exact ⟨fun _ => reports_setSuccess state _, fun i _ m hm => nomatch hm⟩
  | cons msg rest ih =>
    by_cases hover : Succeeded (replies received) ∧ ¬ msg.control
    · obtain ⟨hreply, hcontrol⟩ := hover
      have hfirst : msg.msgName ≠ none → Fits (replies received) msg.msgNamelen := by
        refine h 0 ?_ msg rfl
        intro j hj
        obtain rfl : j = 0 := le_zero.mp hj
        refine ⟨hreply, ?_⟩
        rintro m ⟨⟩
        exact hcontrol
      have hrest : ∀ i, HandedOver rest (fun j => replies (received + 1 + j)) i →
          ∀ m ∈ rest[i]?, m.msgName ≠ none →
            Fits (replies (received + 1 + i)) m.msgNamelen := by
        intro i hi m hm hname
        have hcons := h (i + 1) (handedOver_cons.mpr ⟨⟨hreply, hcontrol⟩, ?_⟩) m hm hname
        · rwa [Nat.add_right_comm, Nat.add_assoc]
        · simpa only [Nat.add_right_comm, Nat.add_assoc, Nat.add_comm 1] using hi
      obtain ⟨hreports, hshows⟩ := ih hrest
      rcases recvLoop_cons hcontrol hreply with ⟨hname, hfits, -⟩ | ⟨-, after, hloop, hafter⟩
      · exact absurd (hfirst hname) hfits
      · rw [hloop]
        refine ⟨hreports, ?_⟩
        intro i hi m hm hname
        rcases i with _ | i
        · obtain rfl : msg = m := some.inj hm
          exact ⟨after, rfl, hafter hname⟩
        · have hi' : received + 1 + i < (recvLoop state replies (received + 1) rest).taken := by
            rw [Nat.add_assoc, Nat.add_comm 1]
            exact hi
          obtain ⟨after', hget, hshown⟩ := hshows i hi' m hm hname
          rw [Nat.add_assoc, Nat.add_comm 1] at hshown
          exact ⟨after', hget, hshown⟩
    · obtain ⟨htaken, failed, hstate⟩ := @recvLoop_stop state replies received msg rest hover
      rw [htaken, hstate]
      refine ⟨fun hpos => reports_stopped hpos failed, ?_⟩
      intro i hi
      omega

theorem recvLoop_not_fits {i : Nat} (hi : HandedOver msgs (fun j => replies (received + j)) i)
    {m : DarwinMsghdrX} (hm : m ∈ msgs[i]?) (hname : m.msgName ≠ none)
    (hfits : ¬ Fits (replies (received + i)) m.msgNamelen) :
    0 < (recvLoop state replies received msgs).taken ∧
      ¬ Reports (recvLoop state replies received msgs).state
        (BitVec.ofNat 64 (recvLoop state replies received msgs).taken) := by
  induction msgs generalizing received i with
  | nil => cases hm
  | cons msg rest ih =>
    have hreply : Succeeded (replies received) := (hi 0 (Nat.zero_le i)).1
    have hcontrol : ¬ msg.control := (hi 0 (Nat.zero_le i)).2 msg rfl
    rcases recvLoop_cons hcontrol hreply with
      ⟨-, -, ⟨err, hstate⟩, htaken⟩ | ⟨hfirst, after, hloop, -⟩
    · rw [hstate, htaken]
      exact ⟨succ_pos received, not_reports_stopped err⟩
    · rcases i with _ | i
      · obtain rfl : msg = m := some.inj hm
        exact absurd (hfirst hname) hfits
      · rw [hloop]
        rw [← Nat.add_assoc, Nat.add_right_comm] at hfits
        refine ih ?_ hm hfits
        simpa only [Nat.add_right_comm, Nat.add_assoc, Nat.add_comm 1] using
          (handedOver_cons.mp hi).2

end

theorem NameCall.handle_eq (call : NameCall) : ∃ t, call.handle = socketNameResult t := by
  cases call with
  | acceptNocancel | recvfromNocancel => exact ⟨.range400, rfl⟩
  | accept | getpeername | getsockname | recvfrom => exact ⟨.range000, rfl⟩

theorem MessageCall.handle_eq (call : MessageCall) : ∃ t, call.handle = SocketNames.recvmsg t := by
  cases call with
  | recvmsg => exact ⟨.range000, rfl⟩
  | recvmsgNocancel => exact ⟨.range400, rfl⟩

theorem sees_success_iff (state : GateState) (replies : Nat → Reply) (call : SocketCall) :
    SeesSuccess state replies call ↔ NamesFit replies call := by
  cases call with
  | named call name =>
    obtain ⟨t, ht⟩ := call.handle_eq
    rw [SeesSuccess, NamesFit, ht]
    exact imp_congr_right fun h => named_iff t name h
  | message call msg =>
    obtain ⟨t, ht⟩ := call.handle_eq
    rw [SeesSuccess, NamesFit, ht]
    refine imp_congr_right fun h => forall_congr' fun m => ?_
    constructor
    · rintro hall rfl hcontrol
      exact (message_iff t h hcontrol).mp (hall rfl hcontrol)
    · rintro hall rfl hcontrol
      exact (message_iff t h hcontrol).mpr (hall rfl hcontrol)
  | messages msgs count =>
    rw [SeesSuccess, NamesFit]
    cases msgs with
    | none =>
      refine iff_of_true ?_ ?_
      · intro htaken
        rw [dispatchRecvmsgX] at htaken
        split at htaken
        all_goals exact absurd htaken (Nat.lt_irrefl 0)
      · intro i _ m hm
        rw [getD_none, List.take_nil] at hm
        cases hm
    | some msgs =>
      simp only [getD_some]
      constructor
      · intro hsees i hi m hm hname
        by_contra hfits
        rw [← Nat.zero_add i] at hfits
        have hover : HandedOver (msgs.take count.toNat) (fun j => replies (0 + j)) i := by
          simpa only [Nat.zero_add] using hi
        obtain ⟨htaken, hreports⟩ := @recvLoop_not_fits state replies 0 _ i hover m hm hname hfits
        exact hreports (hsees htaken).1
      · intro hfit
        have hall : ∀ i, HandedOver (msgs.take count.toNat) (fun j => replies (0 + j)) i →
            ∀ m ∈ (msgs.take count.toNat)[i]?, m.msgName ≠ none →
              Fits (replies (0 + i)) m.msgNamelen := by
          simpa only [Nat.zero_add] using hfit
        obtain ⟨hreports, hshows⟩ := @recvLoop_fits state replies 0 _ hall
        simp only [Nat.zero_add] at hshows
        exact fun htaken => ⟨hreports htaken, hshows⟩

def gateState : GateState := ⟨fun _ => 0, 0, 0, 0⟩

/-- A kernel call that returned `result` and a name of this family, with zeros behind it. -/
def answer (result : BitVec 64) (family : Octet) (nameLen : BitVec 32) : Reply :=
  ⟨result, 0, fun i => if i = 0 then family else 0, nameLen, 0⟩

def message (namelen : BitVec 32) : DarwinMsghdrX := ⟨⟨some [], namelen, 0, 0, 0⟩, 0⟩

/-- Descriptor 5 is accepted from an IPv4 peer and the guest left room for 8 bytes; 100 bytes came
over a connection, for which the kernel fills in no name; the second of two messages has a name that
does not fit. -/
theorem names_lost :
    delivered (handleAccept gateState ⟨some [], some 8⟩ (answer 5 2 16)).1 = some 22 ∧
      delivered (handleRecvfrom gateState ⟨some [], some 16⟩ (answer 100 0 0)).1 = some 47 ∧
      (dispatchRecvmsgX gateState (some [message 16, message 8]) 2 fun _ => answer 100 2 16).taken =
        2 ∧
      (dispatchRecvmsgX gateState (some [message 16, message 8]) 2
        fun _ => answer 100 2 16).state.x 0 = 1 := by
  decide +kernel

end Machgate.SocketReports
