import Mathlib.Data.BitVec
import Machgate.Interleaving
import Machgate.RingWindow

namespace Machgate.FreeQuarantine

open Interleaving RingWindow

def machgateFreeQuarantineSlots : Nat := 262144
def machgateFreeQuarantineMaxChunk : BitVec 64 := (16#32 <<< 20).setWidth 64

/-- `8u << 30`, an expression of type `unsigned int`. -/
def machgateFreeQuarantineDefaultBudget : BitVec 64 := (8#32 <<< 30).setWidth 64

def ptrdiffMax : BitVec 64 := 0x7fffffffffffffff

/-- The budget in bytes; `parsed` is what `strtol` makes of `MACHGATE_FREE_QUARANTINE_MB`, 0 if the
variable is not set. -/
def machgateFreeQuarantineBudget (parsed : BitVec 64) : BitVec 64 :=
  let configured := if 0 < parsed.toInt then parsed <<< 20 else 0
  if configured = 0 then machgateFreeQuarantineDefaultBudget else configured

abbrev Pointer := BitVec 64

structure Chunk where
  ptr : Pointer
  bytes : BitVec 64
  deriving DecidableEq

/-- The static data; a slot with a null pointer is `none`. -/
structure Ring where
  slots : Nat → Option Chunk
  head : Nat
  tail : Nat
  pendingBytes : BitVec 64

def emptyRing : Ring := ⟨fun _ => none, 0, 0, 0⟩

def slotBytes (slot : Option Chunk) : BitVec 64 := (slot.map Chunk.bytes).getD 0

/-- One turn of the loop, with the pointer that goes to `real_free`. -/
def releaseHead (r : Ring) : Ring :=
  { r with
    slots := Function.update r.slots r.head none
    head := (r.head + 1) % machgateFreeQuarantineSlots
    pendingBytes := r.pendingBytes - slotBytes (r.slots r.head) }

/-- `none` if the loop is not through after so many turns. -/
def shimFreeReleaseOldestLocked (budget : BitVec 64) : Nat → Ring → Option (Ring × List Pointer)
  | 0, r => if r.pendingBytes > budget then none else some (r, [])
  | turns + 1, r =>
    if r.pendingBytes > budget then
      (shimFreeReleaseOldestLocked budget turns (releaseHead r)).map fun (next, released) =>
        (next, ((r.slots r.head).map Chunk.ptr).toList ++ released)
    else some (r, [])

/-- The chunk in the slot at the tail, which is in the way if the ring is full, is released. -/
def store (r : Ring) (chunk : Chunk) : Ring :=
  { r with
    slots := Function.update r.slots r.tail (some chunk)
    tail := (r.tail + 1) % machgateFreeQuarantineSlots
    pendingBytes := r.pendingBytes - slotBytes (r.slots r.tail) + chunk.bytes }

def shimFreeQuarantinePush (parsed : BitVec 64) (r : Ring) (chunk : Chunk) :
    Option (Ring × List Pointer) :=
  if chunk.ptr = 0 ∨ chunk.bytes = 0 then some (r, [])
  else if machgateFreeQuarantineBudget parsed = 0 then some (r, [chunk.ptr])
  else
    let slotSize := if chunk.bytes > ptrdiffMax then ptrdiffMax else chunk.bytes
    (shimFreeReleaseOldestLocked (machgateFreeQuarantineBudget parsed) machgateFreeQuarantineSlots
      (store r ⟨chunk.ptr, slotSize⟩)).map fun (next, released) =>
        (next, ((r.slots r.tail).map Chunk.ptr).toList ++ released)

/-- A call of `free` and what the rest of the shim and the host say about the pointer: its record in
the ledger, whether it lies in `bootstrap_buf`, its entry in the registry of mappings and its usable
size. -/
structure Request where
  ptr : Pointer
  known : Option (BitVec 64)
  bootstrap : Bool
  mapped : Bool
  usable : BitVec 64
  deriving DecidableEq

def quarantineSize (request : Request) : BitVec 64 :=
  let size := request.known.getD 0
  let size := if size > machgateFreeQuarantineMaxChunk then 0 else size
  if size = 0 then (if request.bootstrap then 0 else request.usable) else size

/-- What becomes of a pointer; `direct` is the host's `free` at once. -/
inductive Route
  | ignored
  | unmapped
  | direct
  | quarantined (chunk : Chunk)
  deriving DecidableEq

def route (request : Request) : Route :=
  if request.ptr = 0 then .ignored
  else if request.bootstrap then .ignored
  else if request.mapped then .unmapped
  else if quarantineSize request = 0 ∨ quarantineSize request > machgateFreeQuarantineMaxChunk then
    .direct
  else .quarantined ⟨request.ptr, quarantineSize request⟩

/-- A free of a chunk that is quarantined: the pointers that go to the host's `free` during the call
and the counter behind it. -/
structure Entry where
  chunk : Chunk
  released : List Pointer
  pendingBytes : BitVec 64
  deriving DecidableEq

structure State where
  ring : Ring
  trace : List Entry

def initial : State := ⟨emptyRing, []⟩

def shimFreeImplAt (parsed : BitVec 64) (s : State) (request : Request) : Option State :=
  match route request with
  | .quarantined chunk =>
    (shimFreeQuarantinePush parsed s.ring chunk).map fun (ring, released) =>
      ⟨ring, s.trace ++ [⟨chunk, released, ring.pendingBytes⟩]⟩
  | .ignored | .unmapped | .direct => some s

/-- The budget that the documentation gives: so many MiB if configured, 8 GiB otherwise. -/
def promisedBudget (parsed : BitVec 64) : Nat :=
  if 0 < parsed.toInt then parsed.toNat * 2 ^ 20 else 8 * 2 ^ 30

def total (held : List Chunk) : Nat := (held.map fun chunk => chunk.bytes.toNat).sum

/-- A free with these chunks held before and after it.  The oldest ones go, each because of the
budget or because the ring was full, and never the chunk that is freed. -/
structure Justified (budget : Nat) (held : List Chunk) (e : Entry) (gone left : List Chunk) :
    Prop where
  split : held ++ [e.chunk] = gone ++ left
  released : e.released = gone.map Chunk.ptr
  reason : ∀ i, i < gone.length →
    i = 0 ∧ held.length = machgateFreeQuarantineSlots ∨ budget < total ((held ++ [e.chunk]).drop i)
  kept : left ≠ []
  pending : e.pendingBytes.toNat = total left

/-- The frees of a trace in order, with what they leave held. -/
inductive Orderly (budget : Nat) : List Entry → List Chunk → Prop
  | nil : Orderly budget [] []
  | free {trace : List Entry} {held gone left : List Chunk} {e : Entry} :
      Orderly budget trace held → Justified budget held e gone left →
        Orderly budget (trace ++ [e]) left

/-- The chunks that were freed are those that were released, in this order, and those still held. -/
theorem Orderly.once {budget : Nat} {trace : List Entry} {held : List Chunk}
    (h : Orderly budget trace held) :
    trace.map (fun e => e.chunk.ptr) = trace.flatMap Entry.released ++ held.map Chunk.ptr := by
  induction h with
  | nil => rfl
  | free _ hjustified ih =>
    have hsplit := congrArg (List.map Chunk.ptr) hjustified.split
    rw [List.map_append, List.map_append] at hsplit
    simp [ih, hjustified.released, ← hsplit]

end Machgate.FreeQuarantine
