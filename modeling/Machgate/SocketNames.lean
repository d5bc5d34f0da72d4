import Machgate.RecordBuffer
import Machgate.SyscallErrno

namespace Machgate.SocketNames

open RecordBuffer SyscallErrno

def afUnix : Nat := 1
def afInet : Nat := 2
def afInet6 : Nat := 10

def darwinAfUnix : Octet := 1#8
def darwinAfInet : Octet := 2#8
def darwinAfInet6 : Octet := 30#8

def darwinEfault : Nat := 14
def darwinEnosys : Nat := 78

/-- The stack from `linux_name` on; what the kernel does not fill keeps its old contents. -/
abbrev Storage := Nat → Octet

def ssFamily (addr : Storage) : Nat := (addr 0).toNat + 256 * (addr 1).toNat

def slice (addr : Storage) (offset len : Nat) : List Octet :=
  (List.range len).map fun i => addr (offset + i)

def fill (capacity : Nat) (bytes : List Octet) : List Octet :=
  bytes ++ List.replicate (capacity - bytes.length) 0#8

/-- The guest's buffer afterwards, and the new length or `errno`. -/
def linuxSockaddrToDarwin (linuxAddr : Storage) (linuxLen capacity : Nat) :
    List Octet × Except LinuxErrno Nat :=
  if ssFamily linuxAddr = afUnix then
    let pathLen := linuxLen - 2
    if capacity < pathLen + 2 ∨ 255 < pathLen + 2 then (fill capacity [], .error .einval)
    else
      (fill capacity (BitVec.ofNat 8 (pathLen + 2) :: darwinAfUnix :: slice linuxAddr 2 pathLen),
        .ok (pathLen + 2))
  else if ssFamily linuxAddr = afInet then
    if capacity < 16 then (fill capacity [], .error .einval)
    else (fill capacity (16#8 :: darwinAfInet :: slice linuxAddr 2 6), .ok 16)
  else if ssFamily linuxAddr = afInet6 then
    if capacity < 28 then (fill capacity [], .error .einval)
    else (fill capacity (28#8 :: darwinAfInet6 :: slice linuxAddr 2 26), .ok 28)
  else (fill capacity [], .error .eafnosupport)

/-- What a kernel call answered: its result and `errno`, the name with its length, and the flags of
a message. -/
structure Reply where
  result : BitVec 64
  errno : Nat
  name : Storage
  nameLen : BitVec 32
  msgFlags : BitVec 32

/-- The two pointers for a name; a null pointer is `none`. -/
structure Name where
  addr : Option (List Octet)
  len : Option (BitVec 32)

def finishName (t : Table) (state : GateState) (name : Name) (reply : Reply) : GateState × Name :=
  match name.addr, name.len with
  | some _, some capacity =>
    match linuxSockaddrToDarwin reply.name reply.nameLen.toNat capacity.toNat with
    | (raw, .error errno) =>
      (setFailure state (t.failure errno.number), { name with addr := some raw })
    | (raw, .ok len) =>
      (setSuccess state reply.result, ⟨some raw, some (BitVec.ofNat 32 len)⟩)
  | _, _ => (setSuccess state reply.result, name)

def socketNameResult (t : Table) (state : GateState) (name : Name) (reply : Reply) :
    GateState × Name :=
  if reply.result.toInt < 0 then (finishSyscallResult t state reply.result reply.errno, name)
  else finishName t state name reply

def handleAccept := socketNameResult .range000
def handleGetpeername := socketNameResult .range000
def handleGetsockname := socketNameResult .range000
def handleRecvfrom := socketNameResult .range000
def dispatchAccept := socketNameResult .range400
def dispatchRecvfrom := socketNameResult .range400

structure DarwinMsghdr where
  msgName : Option (List Octet)
  msgNamelen : BitVec 32
  msgControl : BitVec 64
  msgControllen : BitVec 32
  msgFlags : BitVec 32

def DarwinMsghdr.control (msg : DarwinMsghdr) : Prop := msg.msgControl ≠ 0#64 ∨ msg.msgControllen ≠ 0#32

instance decidableControl (msg : DarwinMsghdr) : Decidable msg.control :=
  inferInstanceAs (Decidable (_ ∨ _))

def recvmsg (t : Table) (state : GateState) (msg : Option DarwinMsghdr) (reply : Reply) :
    GateState × Option DarwinMsghdr :=
  match msg with
  | none => (setFailure state darwinEfault, none)
  | some msg =>
    if msg.control then (setFailure state darwinEnosys, some msg)
    else if reply.result.toInt < 0 then
      (finishSyscallResult t state reply.result reply.errno, some msg)
    else
      let msg := { msg with msgFlags := reply.msgFlags }
      match msg.msgName with
      | none => (setSuccess state reply.result, some msg)
      | some _ =>
        match linuxSockaddrToDarwin reply.name reply.nameLen.toNat msg.msgNamelen.toNat with
        | (raw, .error errno) =>
          (setFailure state (t.failure errno.number), some { msg with msgName := some raw })
        | (raw, .ok len) =>
          (setSuccess state reply.result,
            some { msg with msgName := some raw, msgNamelen := BitVec.ofNat 32 len })

def handleRecvmsg := recvmsg .range000
def dispatchRecvmsg := recvmsg .range400

structure DarwinMsghdrX extends DarwinMsghdr where
  msgDatalen : BitVec 64

/-- The loop over the messages, with the number of those that the kernel has handed over. -/
structure Received where
  state : GateState
  msgs : List DarwinMsghdrX
  taken : Nat

/-- What the guest gets when the loop is left: the number so far, or an error if there is none. -/
def stopped (state : GateState) (received : Nat) (failed : GateState) : GateState :=
  if received ≠ 0 then setSuccess state (BitVec.ofNat 64 received) else failed

def Received.push (msg : DarwinMsghdrX) (rest : Received) : Received :=
  { rest with msgs := msg :: rest.msgs }

def recvLoop (state : GateState) (replies : Nat → Reply) : Nat → List DarwinMsghdrX → Received
  | received, [] => ⟨setSuccess state (BitVec.ofNat 64 received), [], received⟩
  | received, msg :: rest =>
    let reply := replies received
    if msg.control then
      ⟨stopped state received (setFailure state darwinEnosys), msg :: rest, received⟩
    else if reply.result.toInt < 0 then
      ⟨stopped state received (finishSyscallResult .range400 state reply.result reply.errno),
        msg :: rest, received⟩
    else
      let msg := { msg with msgFlags := reply.msgFlags, msgDatalen := reply.result }
      match msg.msgName with
      | none => (recvLoop state replies (received + 1) rest).push msg
      | some _ =>
        match linuxSockaddrToDarwin reply.name reply.nameLen.toNat msg.msgNamelen.toNat with
        | (raw, .error errno) =>
          ⟨stopped state received (setFailure state (Table.range400.failure errno.number)),
            { msg with msgName := some raw } :: rest, received + 1⟩
        | (raw, .ok len) =>
          (recvLoop state replies (received + 1) rest).push
            { msg with msgName := some raw, msgNamelen := BitVec.ofNat 32 len }

/-- The `count` messages of the guest; a null pointer is `none`. -/
def dispatchRecvmsgX (state : GateState) (msgs : Option (List DarwinMsghdrX)) (count : BitVec 32)
    (replies : Nat → Reply) : Received :=
  match msgs with
  | none =>
    if count = 0#32 then ⟨setSuccess state 0#64, [], 0⟩
    else ⟨setFailure state darwinEfault, [], 0⟩
  | some msgs => recvLoop state replies 0 (msgs.take count.toNat)

end Machgate.SocketNames
