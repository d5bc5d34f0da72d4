import Machgate.GuestSignals

namespace Machgate.WaitStatus

open GuestSignals

/-- Signal `s + 1` of the 64 that Linux has. -/
abbrev LinuxSignal := Fin 64

inductive LinuxEvent
  | exited (code : Fin 256)
  | killed (signal : LinuxSignal) (core : Bool)
  | stopped (signal : LinuxSignal)
  | continued

def linuxStatus : LinuxEvent → BitVec 32
  | .exited code => BitVec.ofNat 32 code <<< 8
  | .killed signal core => BitVec.ofNat 32 (signal.val + 1) ||| if core then 0x80 else 0
  | .stopped signal => BitVec.ofNat 32 (signal.val + 1) <<< 8 ||| 0x7f
  | .continued => 0xffff

def wTermsig (status : BitVec 32) : BitVec 32 := status &&& 0x7f
def wStopsig (status : BitVec 32) : BitVec 32 := (status &&& 0xff00) >>> 8

/-- `((signed char)((status & 0x7f) + 1) >> 1) > 0`. -/
def wIfSignaled (status : BitVec 32) : Prop :=
  0 < (((wTermsig status + 1).setWidth 8).sshiftRight 1).toInt

def wIfStopped (status : BitVec 32) : Prop := status &&& 0xff = 0x7f

instance (status : BitVec 32) : Decidable (wIfSignaled status) :=
  inferInstanceAs (Decidable (_ < _))

instance (status : BitVec 32) : Decidable (wIfStopped status) := inferInstanceAs (Decidable (_ = _))

def linuxWaitStatusToDarwin (path : Path) (status : BitVec 32) : BitVec 32 :=
  if wIfSignaled status then
    let darwin := BitVec.ofNat 32 (linuxSignalToDarwin path (wTermsig status).toNat)
    (status &&& ~~~0x7f#32) ||| (darwin &&& 0x7f)
  else if wIfStopped status then
    let darwin := BitVec.ofNat 32 (linuxSignalToDarwin path (wStopsig status).toNat)
    (status &&& ~~~0xff00#32) ||| (darwin &&& 0xff) <<< 8
  else status

/-- The word a wait with a status pointer stores, from what the kernel returns and stores. -/
def wait4Status (path : Path) (result : Int) (status : BitVec 32) : Option (BitVec 32) :=
  if 0 < result then some (linuxWaitStatusToDarwin path status) else none

inductive DarwinEvent
  | exited (code : Nat)
  | killed (signal : Nat) (core : Bool)
  | stopped (signal : Nat)
  | continued
deriving DecidableEq

/-- Darwin's macros: with 0177 in the low bits a word whose signal is `SIGCONT` is a continued
child's, and any other one a stopped child's. -/
def decodeDarwin (status : BitVec 32) : DarwinEvent :=
  let low := status &&& 0x7f
  if low = 0 then .exited ((status >>> 8) &&& 0xff).toNat
  else if low = 0x7f then
    if status >>> 8 = 0x13 then .continued else .stopped (status >>> 8).toNat
  else .killed low.toNat (status &&& 0x80 ≠ 0)

/-- Darwin's number of a Linux signal, for the signals that it has. -/
def darwinNumber (signal : LinuxSignal) : Option Nat :=
  (signalPairs.map Prod.swap).lookup (signal.val + 1)

def darwinEvent : LinuxEvent → Option DarwinEvent
  | .exited code => some (.exited code)
  | .killed signal core => (darwinNumber signal).map (.killed · core)
  | .stopped signal => (darwinNumber signal).map .stopped
  | .continued => some .continued

/-- Both paths store one word, and it says on Darwin what happened. -/
def Reported (e : LinuxEvent) : Prop :=
  ∃ word, (∀ path pid, 0 < pid → wait4Status path pid (linuxStatus e) = some word) ∧
    darwinEvent e = some (decodeDarwin word)

/-- The events with a Darwin counterpart that the translation reaches. -/
def Translated : LinuxEvent → Prop
  | .exited _ => True
  | .killed signal _ => (darwinNumber signal).isSome
  | .stopped signal => (darwinNumber signal).isSome ∧ darwinNumber signal ≠ some 19
  | .continued => False

theorem reported_iff_words (e : LinuxEvent) :
    Reported e ↔ linuxWaitStatusToDarwin .gate (linuxStatus e) =
        linuxWaitStatusToDarwin .shim (linuxStatus e) ∧
      darwinEvent e = some (decodeDarwin (linuxWaitStatusToDarwin .gate (linuxStatus e))) := by
  constructor
  · rintro ⟨word, hword, hevent⟩
    have hgate := Option.some.inj (hword .gate 1 (by decide))
    have hshim := Option.some.inj (hword .shim 1 (by decide))
    rw [hgate, hshim]
    exact ⟨rfl, hevent⟩
  · rintro ⟨hsame, hevent⟩
    refine ⟨_, fun path pid hpid => ?_, hevent⟩
    rw [wait4Status, if_pos hpid]
    cases path
    · rfl
    · rw [hsame]

theorem reported_iff (e : LinuxEvent) : Reported e ↔ Translated e := by
  rw [reported_iff_words]
  cases e with
  | exited code =>
    revert code
    simp only [Translated]
    decide +kernel
  | killed signal core =>
    revert signal core
    simp only [Translated]
    decide +kernel
  | stopped signal =>
    revert signal
    simp only [Translated]
    decide +kernel
  | continued =>
    simp only [Translated]
    decide +kernel

/-- A real-time signal that kills is a normal exit in the gate and no Darwin signal in the shim, and
a continued child is stopped. -/
theorem events_misreported :
    (wait4Status .gate 1 (linuxStatus (.killed 33 false))).map decodeDarwin = some (.exited 0) ∧
      (wait4Status .shim 1 (linuxStatus (.killed 33 false))).map decodeDarwin =
        some (.killed 34 false) ∧
      ∀ path, (wait4Status path 1 (linuxStatus .continued)).map decodeDarwin =
        some (.stopped 0xff) := by
  refine ⟨by decide, by decide, fun path => ?_⟩
  cases path <;> decide

end Machgate.WaitStatus
