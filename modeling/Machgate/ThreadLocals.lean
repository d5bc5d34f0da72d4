import Mathlib.Data.BitVec
import Machgate.Interleaving

namespace Machgate.ThreadLocals

open Interleaving

abbrev Byte := BitVec 8
abbrev Key := BitVec 32
abbrev Thread := Nat

def darwinTsdFirstKey : Nat := 128
def darwinTsdLastKey : Nat := 511
def tlvBlockPrefix : Nat := 16

/-- `__thread_data` and the size of `__thread_bss`, and where the variables are in them. -/
structure Program (V : Type) where
  image : List Byte
  bssSize : Nat
  offset : V → Nat
  size : V → Nat
  inside : ∀ v, offset v + size v ≤ image.length + bssSize
  bounded : image.length + bssSize + 4096 + 2 * tlvBlockPrefix < 2 ^ 64

namespace Program

variable {V : Type} (p : Program V)

def needed (v : V) : Nat :=
  let needed := p.image.length + p.bssSize
  let needed := if needed < p.offset v + 16 then p.offset v + 16 else needed
  if needed < 4096 then 4096 else needed

def initialByte (i : Nat) : Byte := p.image.getD i 0

def initialBytes (v : V) : List Byte := (List.range (p.size v)).map fun i => p.initialByte (p.offset v + i)

theorem inside_needed (v : V) : p.offset v + p.size v ≤ p.needed v := by
  have hinside := p.inside v
  simp only [needed]
  split <;> split <;> omega

end Program

/-- What `tlv_allocate_block` has got from `calloc`. -/
structure Storage where
  start : Nat
  capacity : Nat
  deriving DecidableEq

namespace Storage

variable (x y : Storage)

def block : Nat := x.start + tlvBlockPrefix

def limit : Nat := x.block + x.capacity

def Apart : Prop := x.limit ≤ y.start ∨ y.limit ≤ x.start

instance : Decidable (x.Apart y) := inferInstanceAs (Decidable (_ ∨ _))

end Storage

/-- The address that a call returned, `none` for null, and what the variable then held. -/
structure Access (V : Type) where
  thread : Thread
  var : V
  address : Option Nat
  bytes : List Byte
  deriving DecidableEq

/-- `key` has the descriptors' keys, `none` for 0; the tables of the keys are indexed by the keys
themselves.  `exiting` has the threads that have begun to run the destructors of their keys. -/
structure State (V : Type) where
  nextDarwinTsdKey : Key
  key : V → Option Key
  tlvDestructor : Key → Bool
  values : Thread → Key → Option Nat
  storages : List Storage
  memory : Nat → Byte
  exiting : Thread → Bool
  log : List (Access V)

def initial {V : Type} (memory : Nat → Byte) : State V where
  nextDarwinTsdKey := BitVec.ofNat 32 darwinTsdFirstKey
  key := fun _ => none
  tlvDestructor := fun _ => false
  values := fun _ _ => none
  storages := []
  memory := memory
  exiting := fun _ => false
  log := []

def darwinTsdKey (key : Key) : Bool := darwinTsdFirstKey ≤ key.toNat && key.toNat ≤ darwinTsdLastKey

namespace State

variable {V : Type} (s : State V) (t : Thread)

def setValue (key : Key) (value : Option Nat) : State V :=
  { s with values := Function.update s.values t (Function.update (s.values t) key value) }

/-- `none` stands for `EAGAIN`: nothing is stored through the pointer then. -/
def shimTsdAllocateKey (tlv : Bool) : State V × Option Key :=
  let value := s.nextDarwinTsdKey
  let s := { s with nextDarwinTsdKey := value + 1 }
  if value.toNat > darwinTsdLastKey then (s, none)
  else ({ s with tlvDestructor := Function.update s.tlvDestructor value tlv }.setValue t value none, some value)

def shimTsdSet (key : Key) (value : Nat) : State V :=
  if darwinTsdKey key then s.setValue t key (some value) else s

def shimTsdGet (key : Key) : Option Nat := if darwinTsdKey key then s.values t key else none

def capacityOf (block : Nat) : Nat :=
  ((s.storages.find? fun x => x.block = block).map Storage.capacity).getD 0

def free (block : Nat) : State V := { s with storages := s.storages.filter fun x => x.block ≠ block }

def returns (p : Program V) (v : V) (address : Option Nat) : State V :=
  { s with
    log := s.log ++ [⟨t, v, address,
      ((address.map fun a => (List.range (p.size v)).map fun i => s.memory (a + i)).getD [])⟩] }

end State

variable {V : Type} [DecidableEq V] (p : Program V)

/-- `calloc` hands out memory that nobody has; it is zeroed, and the image is copied to it. -/
def tlvAllocateBlock (s : State V) (x : Storage) : Option (State V) :=
  if ∀ y ∈ s.storages, x.Apart y then
    some { s with
      storages := x :: s.storages
      memory := fun a => if x.block ≤ a ∧ a < x.limit then p.initialByte (a - x.block) else s.memory a }
  else none

/-- The part of `_tlv_bootstrap_impl` under the mutex; `garbage` is what the local variable `key`
holds. -/
def tlvKey (s : State V) (t : Thread) (v : V) (garbage : Key) : State V :=
  match s.key v with
  | some _ => s
  | none =>
    let allocated := s.shimTsdAllocateKey t true
    { allocated.1 with key := Function.update allocated.1.key v (some (allocated.2.getD garbage)) }

def copied (s : State V) (target source count : Nat) : State V :=
  { s with
    memory := fun a =>
      if target ≤ a ∧ a < target + count then s.memory (source + (a - target)) else s.memory a }

/-- The rest of `_tlv_bootstrap_impl`, with what `calloc` returns if it is called; the key has been
set. -/
def tlvBootstrapImpl (s : State V) (t : Thread) (v : V) (start : Option Nat) : Option (State V) :=
  (s.key v).bind fun key =>
    match s.shimTsdGet t key, start with
    | none, none => some (s.returns t p v none)
    | none, some start =>
      let x : Storage := ⟨start, p.needed v⟩
      (tlvAllocateBlock p s x).map fun s =>
        (s.shimTsdSet t key x.block).returns t p v (some (x.block + p.offset v))
    | some block, start =>
      if s.capacityOf block < p.needed v then
        match start with
        | none => some (s.returns t p v none)
        | some start =>
          let x : Storage := ⟨start, p.needed v⟩
          (tlvAllocateBlock p s x).map fun grown =>
            (((copied grown x.block block (s.capacityOf block)).free block).shimTsdSet t key
              x.block).returns t p v (some (x.block + p.offset v))
      else some (s.returns t p v (some (block + p.offset v)))

/-- What the loop of `shim_run_thread_tsd_destructors` does with a key. -/
def destroy (s : State V) (t : Thread) (key : Key) : State V :=
  let s := { s with exiting := Function.update s.exiting t true }
  match s.values t key with
  | none => s
  | some block =>
    let s := s.setValue t key none
    if s.tlvDestructor key then s.free block else s

inductive Move (V : Type)
  /-- `pthread_key_create` by the guest. -/
  | createKey (t : Thread)
  | tlvKey (t : Thread) (v : V) (garbage : Key)
  | bootstrap (t : Thread) (v : V) (start : Option Nat)
  /-- The guest writes to memory. -/
  | store (address : Nat) (byte : Byte)
  | destroy (t : Thread) (key : Key)

def step (s : State V) : Move V → Option (State V)
  | .createKey t => some (s.shimTsdAllocateKey t false).1
  | .tlvKey t v garbage => some (tlvKey s t v garbage)
  | .bootstrap t v start => tlvBootstrapImpl p s t v start
  | .store address byte => some { s with memory := Function.update s.memory address byte }
  | .destroy t key => some (destroy s t key)

/-- What a thread gets at its first access to a variable. -/
def Fresh (before : List (Access V)) (a : Access V) : Prop :=
  (∀ b ∈ before, b.thread = a.thread → b.var ≠ a.var) → a.bytes = p.initialBytes a.var

/-- The accesses of a run, the storage of threads that are not at their end. -/
structure Correct (s : State V) : Prop where
  given : ∀ a ∈ s.log, a.address ≠ none
  stable : ∀ a ∈ s.log, ∀ b ∈ s.log, a.thread = b.thread → a.var = b.var →
    a.address = b.address
  disjoint : ∀ a ∈ s.log, ∀ b ∈ s.log, s.exiting a.thread = false → s.exiting b.thread = false →
    (a.thread ≠ b.thread ∨ a.var ≠ b.var) → ∀ x ∈ a.address, ∀ y ∈ b.address,
      x + p.size a.var ≤ y ∨ y + p.size b.var ≤ x
  fresh : Lawful (Fresh p) s.log

/-- There are keys left for the variables and memory for the blocks, and no thread uses a variable
once it runs the destructors of its keys. -/
def Provided (s : State V) : Move V → Prop
  | .createKey _ => s.nextDarwinTsdKey.toNat + 1 < 2 ^ 32
  | .tlvKey _ v _ => s.key v = none → s.nextDarwinTsdKey.toNat ≤ darwinTsdLastKey
  | .bootstrap t v start =>
    s.exiting t = false ∧ ((s.key v).bind (s.shimTsdGet t) = none → start ≠ none)
  | .store _ _ => True
  | .destroy _ _ => True

instance (s : State V) : DecidablePred (Provided s)
  | .createKey _ => inferInstanceAs (Decidable (_ < _))
  | .tlvKey _ v _ => inferInstanceAs (Decidable (s.key v = none → _ ≤ _))
  | .bootstrap _ _ _ => inferInstanceAs (Decidable (_ ∧ (_ → ¬ _)))
  | .store _ _ => isTrue trivial
  | .destroy _ _ => isTrue trivial

end Machgate.ThreadLocals
