import Machgate.AllocationKnowledge
import Machgate.MallocZones

namespace Machgate.AllocationThreads

open AllocationTable AllocationWalks AllocationGrowth AllocationLedger Function Option List
open MallocZones (World Zone AllocationFunction ZoneTable hasEntry effectiveMallocZone)

abbrev Thread := Nat

inductive Owner
  /-- The host or a zone, which may hand it out. -/
  | allocator
  | guest (info : Info)
  /-- A call that has received it or has taken its record. -/
  | call
  | quarantine
  /-- Nobody any more: `bootstrap_buf` is not used again. -/
  | retired

/-- Memory that was received, with what is to be recorded of it. -/
structure Block where
  ptr : Ptr
  size : Size
  zone : Zone
  nonnull : ptr ≠ 0

def Block.info (b : Block) : Info := ⟨b.size, b.zone, 0⟩

inductive Phase
  | idle
  /-- The allocation function of a zone, of the host for the null zone. -/
  | allocating (zone : Zone) (size : BitVec 64)
  /-- `take_allocation_record` in `shim_free_impl_at`. -/
  | taking (ptr : Ptr)
  | releasing (ptr : Ptr)
  | resizing (ptr : Ptr) (size : BitVec 64)
  /-- A block of `bootstrap_buf` has been replaced by one that is not recorded yet. -/
  | copying (old : Ptr) (block : Block)
  /-- The lookup of the zone in `malloc_zone_free`, or in `malloc_zone_free_definite_size`. -/
  | zoneFreeing (definite : Bool) (zone : Zone) (ptr : Ptr)
  | zoneReleasing (pointers : List Ptr)
  /-- The lookup of the zone in `malloc_zone_realloc`. -/
  | zoneResizing (zone : Zone) (ptr : Ptr) (size : BitVec 64)
  | zoneMoving (zone : Zone) (ptr : Ptr) (size : BitVec 64)
  /-- The bookkeeping at the end of a call. -/
  | updating (forgets : List Ptr) (block : Option Block)

namespace Phase

def update : List Ptr → Option Block → Phase
  | [], none => .idle
  | forgets, block => .updating forgets block

def freeing (ptr : Ptr) : Phase := if ptr = 0 then .idle else .taking ptr

/-- The addresses that were given back and are still to be forgotten. -/
def forgets : Phase → List Ptr
  | .updating forgets _ => forgets
  | _ => []

def records : Phase → Option Block
  | .copying _ block => some block
  | .updating [] block => block
  | _ => none

@[simp] theorem forgets_update (forgets : List Ptr) (block : Option Block) :
    (update forgets block).forgets = forgets := by
  cases forgets <;> cases block <;> rfl

@[simp] theorem forgets_freeing (ptr : Ptr) : (freeing ptr).forgets = [] := by
  rw [freeing]
  split <;> rfl

theorem forgets_of_records {phase : Phase} {b : Block} (h : b ∈ phase.records) :
    phase.forgets = [] := by
  match phase with
  | .copying _ _ => rfl
  | .updating [] _ => rfl
  | .updating (_ :: _) _ => simp [records] at h
  | .idle | .allocating _ _ | .taking _ | .releasing _ | .resizing _ _ | .zoneFreeing _ _ _
  | .zoneReleasing _ | .zoneResizing _ _ _ | .zoneMoving _ _ _ => rfl

end Phase

structure State where
  ledger : Ledger
  owner : Ptr → Owner
  phase : Thread → Phase

def initial : State := ⟨emptyLedger, fun _ => .allocator, fun _ => .idle⟩

namespace State

variable (s : State)

def goto (t : Thread) (phase : Phase) : State := { s with phase := Function.update s.phase t phase }

def give (ptr : Ptr) (owner : Owner) : State := { s with owner := Function.update s.owner ptr owner }

def giveBack (pointers : List Ptr) : State :=
  { s with owner := fun ptr => if ptr ∈ pointers then .allocator else s.owner ptr }

/-- A pointer that the guest may pass: a null one, or one that it has. -/
def has (ptr : Ptr) : Bool :=
  ptr = 0 ||
    match s.owner ptr with
    | .guest _ => true
    | _ => false

def available (ptr : Ptr) : Bool :=
  match s.owner ptr with
  | .allocator => true
  | _ => false

def forget (ptr : Ptr) : State := { s with ledger := forgetAllocation s.ledger ptr }

/-- The block is recorded; only the event of the trace stands between this and the return. -/
def record (kernel : Kernel) (b : Block) : State :=
  { s with
    ledger := recordAllocationWithZone kernel s.ledger b.ptr b.size b.zone
    owner := Function.update s.owner b.ptr (.guest b.info) }

end State

/-- `answer` is what the function `size` of the zone returns, 0 without one. -/
def zoneRecordedSize (answer fallbackSize : BitVec 64) : Size :=
  if h : answer ≠ 0 then ⟨answer, h⟩ else recordedAllocationSize fallbackSize

def sizeFor (zone : Zone) (answer size : BitVec 64) : Size :=
  if zone = 0 then recordedAllocationSize size else zoneRecordedSize answer size

inductive Call
  | malloc (size : BitVec 64)
  | calloc (nmemb size : BitVec 64)
  | zoneAllocate (function : AllocationFunction) (zone : Zone) (size : BitVec 64)
  | free (ptr : Ptr)
  | realloc (ptr : Ptr) (size : BitVec 64)
  | zoneFree (zone : Zone) (ptr : Ptr)
  | zoneFreeDefiniteSize (zone : Zone) (ptr : Ptr)
  | zoneRealloc (zone : Zone) (ptr : Ptr) (size : BitVec 64)
  | zoneBatchFree (zone : Zone) (pointers : List Ptr)

/-- What is decided outside during a step: the memory that the kernel grants the ledger, the pointer
that is handed out (null on failure), the size that the zone tells of it, and whether a block that is
freed goes to the quarantine. -/
structure Outcome where
  kernel : Kernel
  result : Ptr
  answer : BitVec 64
  kept : Bool

variable (w : World)

/-- A batch for a zone without `batch_free` is a sequence of calls of `malloc_zone_free`. -/
def entered : Call → Option Phase
  | .malloc size => some (.allocating 0 size)
  | .calloc nmemb size => some (.allocating 0 (nmemb * size))
  | .zoneAllocate function zone size =>
    some (.allocating (if hasEntry w zone fun table => table.allocates function then zone else 0) size)
  | .free ptr => some (.freeing ptr)
  | .realloc ptr size => some (.resizing ptr size)
  | .zoneFree zone ptr => some (.zoneFreeing false zone ptr)
  | .zoneFreeDefiniteSize zone ptr => some (.zoneFreeing true zone ptr)
  | .zoneRealloc zone ptr size => some (.zoneResizing zone ptr size)
  | .zoneBatchFree zone pointers =>
    if hasEntry w zone ZoneTable.batchFree then some (.zoneReleasing pointers) else none

def reallocated (s : State) (t : Thread) (zone : Zone) (ptr : Ptr) (size : BitVec 64) (o : Outcome) :
    Option State :=
  if !s.has ptr then none
  else if h : o.result = 0 then
    if size = 0 then some ((s.giveBack [ptr]).goto t (.update [ptr] none)) else some (s.goto t .idle)
  else if o.result = ptr ∨ s.available o.result then
    let block : Block := ⟨o.result, sizeFor zone o.answer size, zone, h⟩
    some (((s.giveBack [ptr]).give o.result .call).goto t (.update [ptr] (some block)))
  else none

/-- A block of `bootstrap_buf` is replaced by one from `malloc`, and is not given back. -/
def replaced (s : State) (t : Thread) (ptr : Ptr) (size : BitVec 64) (o : Outcome) : Option State :=
  if !s.has ptr then none
  else if h : o.result = 0 then
    if size = 0 then some ((s.give ptr .retired).goto t (.update [ptr] none)) else some (s.goto t .idle)
  else if s.available o.result then
    let block : Block := ⟨o.result, recordedAllocationSize size, 0, h⟩
    some ((s.give o.result .call).goto t (.copying ptr block))
  else none

def zoneLookedUp (ledger : Ledger) (definite : Bool) (zone : Zone) (ptr : Ptr) : Phase :=
  let effective := effectiveMallocZone w ledger zone ptr
  if definite then
    if hasEntry w effective ZoneTable.freeDefiniteSize then .zoneReleasing [ptr]
    else .zoneFreeing false effective ptr
  else if hasEntry w effective ZoneTable.free then .zoneReleasing [ptr]
  else .freeing ptr

def proceed (s : State) (t : Thread) (o : Outcome) : Option State :=
  match s.phase t with
  | .idle => none
  | .allocating zone size =>
    if h : o.result = 0 then some (s.goto t .idle)
    else if s.available o.result then
      let block : Block := ⟨o.result, sizeFor zone o.answer size, zone, h⟩
      some ((s.give o.result .call).goto t (.update [] (some block)))
    else none
  | .taking ptr =>
    if !s.has ptr then none
    else
      let taken := { s with ledger := (takeAllocationRecord s.ledger ptr).1 }
      if w.inBootstrap ptr then some ((taken.give ptr .retired).goto t .idle)
      else some ((taken.give ptr .call).goto t (.releasing ptr))
  | .releasing ptr => some ((s.give ptr (if o.kept then .quarantine else .allocator)).goto t .idle)
  | .resizing ptr size =>
    if ptr ≠ 0 ∧ w.inBootstrap ptr then replaced s t ptr size o else reallocated s t 0 ptr size o
  | .copying old block =>
    some (((s.record o.kernel block).give old .retired).goto t (.update [old] none))
  | .zoneFreeing definite zone ptr => some (s.goto t (zoneLookedUp w s.ledger definite zone ptr))
  | .zoneReleasing pointers =>
    if pointers.all s.has then some ((s.giveBack pointers).goto t (.update pointers none)) else none
  | .zoneResizing zone ptr size =>
    let effective := effectiveMallocZone w s.ledger zone ptr
    if hasEntry w effective ZoneTable.realloc then some (s.goto t (.zoneMoving effective ptr size))
    else some (s.goto t (.resizing ptr size))
  | .zoneMoving zone ptr size => reallocated s t zone ptr size o
  | .updating (ptr :: forgets) block => some ((s.forget ptr).goto t (.update forgets block))
  | .updating [] (some block) => some ((s.record o.kernel block).goto t .idle)
  | .updating [] none => some (s.goto t .idle)

inductive Move
  | call (t : Thread) (c : Call)
  | proceed (t : Thread) (o : Outcome)
  /-- The quarantine lets go of a block. -/
  | evict (ptr : Ptr)

def step (s : State) : Move → Option State
  | .call t c =>
    match s.phase t with
    | .idle => (entered w c).map (s.goto t)
    | _ => none
  | .proceed t o => proceed w s t o
  | .evict ptr =>
    match s.owner ptr with
    | .quarantine => some (s.give ptr .allocator)
    | _ => none

/-- What the guest has is in the ledger, with its size and zone. -/
def LiveRecorded (s : State) : Prop :=
  ∀ ptr info, s.owner ptr = .guest info → lookupAllocation s.ledger ptr = some info

/-- A block is recorded while no other thread has yet to forget its address, and there is room for
the record. -/
def Careful (s : State) : Move → Prop
  | .proceed t o => ∀ b ∈ (s.phase t).records,
      Served o.kernel (s.ledger (shardOf b.ptr)) ∧ ∀ t', t' ≠ t → b.ptr ∉ (s.phase t').forgets
  | _ => True

variable {w} {s s' : State} {m : Allocations} {t : Thread} {ptr : Ptr} {o : Outcome}

/-- The ledger holds `m`, which has all that the guest has; none of it is still to be forgotten. -/
structure Recorded (s : State) (m : Allocations) : Prop where
  valid : ValidLedger s.ledger m
  live : ∀ ptr info, s.owner ptr = .guest info → m ptr = some info
  pending : ∀ t, ∀ ptr ∈ (s.phase t).forgets, ∀ info, s.owner ptr ≠ .guest info

theorem Recorded.liveRecorded (h : Recorded s m) : LiveRecorded s := by
  intro ptr info howner
  have hlookup := h.valid.faithful.lookups ptr
  rw [h.live ptr info howner] at hlookup
  exact (filter_eq_some_iff.mp hlookup).1

theorem recorded_initial : Recorded initial fun _ => none where
  valid := valid_emptyLedger
  live := fun _ _ howner => nomatch howner
  pending := fun _ _ hptr => nomatch hptr

namespace Recorded

variable (h : Recorded s m)

include h

theorem goto {phase : Phase} (hphase : ∀ ptr ∈ phase.forgets, ∀ info, s.owner ptr ≠ .guest info) :
    Recorded (s.goto t phase) m where
  valid := h.valid
  live := h.live
  pending := by
    intro t'
    rcases eq_or_ne t' t with rfl | hne
    · simpa [State.goto] using hphase
    · simpa [State.goto, update_of_ne hne] using h.pending t'

theorem quiet {phase : Phase} (hphase : phase.forgets = []) : Recorded (s.goto t phase) m :=
  h.goto (by simp [hphase])

theorem owners {owner : Ptr → Owner}
    (howner : ∀ ptr info, owner ptr = .guest info → s.owner ptr = .guest info) :
    Recorded { s with owner := owner } m where
  valid := h.valid
  live := fun ptr info hguest => h.live ptr info (howner ptr info hguest)
  pending := fun t ptr hptr info hguest => h.pending t ptr hptr info (howner ptr info hguest)

theorem give {owner : Owner} (howner : ∀ info, owner ≠ .guest info) : Recorded (s.give ptr owner) m := by
  apply h.owners
  intro ptr' info hguest
  rw [update_apply] at hguest
  split at hguest
  · exact absurd hguest (howner info)
  · exact hguest

theorem giveBack {pointers : List Ptr} : Recorded (s.giveBack pointers) m := by
  apply h.owners
  intro ptr' info hguest
  split at hguest
  · cases hguest
  · exact hguest

theorem forget (hptr : ∀ info, s.owner ptr ≠ .guest info) :
    Recorded (s.forget ptr) (update m ptr none) where
  valid := h.valid.forget
  live := by
    intro ptr' info hguest
    have hne : ptr' ≠ ptr := by
      rintro rfl
      exact hptr info hguest
    rw [update_of_ne hne]
    exact h.live ptr' info hguest
  pending := h.pending

theorem record {kernel : Kernel} {b : Block} (hserved : Served kernel (s.ledger (shardOf b.ptr)))
    (hforgets : ∀ t, b.ptr ∉ (s.phase t).forgets) :
    Recorded (s.record kernel b) (update m b.ptr (some b.info)) where
  valid := by
    have hstep := @ValidLedger.step _ _ kernel (.record b.ptr b.size b.zone) h.valid hserved
    rwa [Allocations.step, if_neg b.nonnull] at hstep
  live := by
    intro ptr info hguest
    simp only [State.record, update_apply] at hguest ⊢
    split at hguest
    · next heq => rw [if_pos heq, Owner.guest.inj hguest]
    · next hne => rw [if_neg hne, h.live ptr info hguest]
  pending := by
    intro t ptr hptr info hguest
    have hne : ptr ≠ b.ptr := by
      rintro rfl
      exact hforgets t hptr
    simp only [State.record, update_of_ne hne] at hguest
    exact h.pending t ptr hptr info hguest

theorem take {owner : Owner} (howner : ∀ info, owner ≠ .guest info) :
    Recorded ({ s with ledger := (takeAllocationRecord s.ledger ptr).1 }.give ptr owner)
      (update m ptr none) := by
  rw [fst_takeAllocationRecord]
  refine (h.give howner).forget fun info => ?_
  simpa [State.give] using howner info

theorem reallocated {zone : Zone} {size : BitVec 64}
    (hstep : AllocationThreads.reallocated s t zone ptr size o = some s') : Recorded s' m := by
  have hback : ∀ ptr' ∈ [ptr], ∀ info, (s.giveBack [ptr]).owner ptr' ≠ .guest info := by
    simp [State.giveBack]
  rw [AllocationThreads.reallocated] at hstep
  split at hstep
  · cases hstep
  · split at hstep
    · split at hstep
      · cases hstep
        exact h.giveBack.goto (by simpa using hback)
      · cases hstep
        exact h.quiet rfl
    · split at hstep
      · cases hstep
        refine (h.giveBack.give fun info => Owner.noConfusion).goto ?_
        intro ptr' hptr' info hguest
        simp only [State.give, update_apply] at hguest
        split at hguest
        · cases hguest
        · exact hback ptr' hptr' info hguest
      · cases hstep

theorem replaced {size : BitVec 64} (hstep : AllocationThreads.replaced s t ptr size o = some s') :
    Recorded s' m := by
  rw [AllocationThreads.replaced] at hstep
  split at hstep
  · cases hstep
  · split at hstep
    · split at hstep
      · cases hstep
        exact (h.give fun info => Owner.noConfusion).goto (by simp [State.give])
      · cases hstep
        exact h.quiet rfl
    · split at hstep
      · cases hstep
        exact (h.give fun info => Owner.noConfusion).quiet rfl
      · cases hstep

end Recorded

theorem forgets_zoneLookedUp (ledger : Ledger) (definite : Bool) (zone : Zone) (ptr : Ptr) :
    (zoneLookedUp w ledger definite zone ptr).forgets = [] := by
  simp only [zoneLookedUp]
  split
  · split <;> rfl
  · split
    · rfl
    · simp

theorem forgets_entered {c : Call} {phase : Phase} (h : entered w c = some phase) :
    phase.forgets = [] := by
  cases c with
  | free ptr =>
    cases h
    exact Phase.forgets_freeing ptr
  | zoneBatchFree zone pointers =>
    rw [entered] at h
    split at h
    · cases h
      rfl
    · cases h
  | _ =>
    cases h
    rfl

theorem recorded_proceed (h : Recorded s m) (hcareful : Careful s (.proceed t o))
    (hstep : proceed w s t o = some s') : ∃ m', Recorded s' m' := by
  -- The thread itself has nothing to forget when it records a block.
  have hblock : ∀ b ∈ (s.phase t).records,
      Served o.kernel (s.ledger (shardOf b.ptr)) ∧ ∀ t', b.ptr ∉ (s.phase t').forgets := by
    intro b hb
    refine ⟨(hcareful b hb).1, fun t' => ?_⟩
    rcases eq_or_ne t' t with rfl | hne
    · simp [Phase.forgets_of_records hb]
    · exact (hcareful b hb).2 t' hne
  cases hphase : s.phase t with
  | idle => simp [proceed, hphase] at hstep
  | allocating zone size =>
    simp only [proceed, hphase] at hstep
    split at hstep
    · cases hstep
      exact ⟨m, h.quiet rfl⟩
    · split at hstep
      · cases hstep
        exact ⟨m, (h.give fun info => Owner.noConfusion).quiet rfl⟩
      · cases hstep
  | taking ptr =>
    simp only [proceed, hphase] at hstep
    split at hstep
    · cases hstep
    · split at hstep
      all_goals
        cases hstep
        exact ⟨_, (h.take fun info => Owner.noConfusion).quiet rfl⟩
  | releasing ptr =>
    simp only [proceed, hphase] at hstep
    cases hstep
    refine ⟨m, (h.give fun info => ?_).quiet rfl⟩
    split <;> exact Owner.noConfusion
  | resizing ptr size =>
    simp only [proceed, hphase] at hstep
    split at hstep
    · exact ⟨m, h.replaced hstep⟩
    · exact ⟨m, h.reallocated hstep⟩
  | copying old block =>
    simp only [proceed, hphase] at hstep
    cases hstep
    have hrecord := h.record (hblock block (by simp [hphase, Phase.records])).1
      (hblock block (by simp [hphase, Phase.records])).2
    exact ⟨_, (hrecord.give fun info => Owner.noConfusion).goto (by simp [State.give])⟩
  | zoneFreeing definite zone ptr =>
    simp only [proceed, hphase] at hstep
    cases hstep
    exact ⟨m, h.quiet (forgets_zoneLookedUp s.ledger definite zone ptr)⟩
  | zoneReleasing pointers =>
    simp only [proceed, hphase] at hstep
    split at hstep
    · cases hstep
      refine ⟨m, h.giveBack.goto fun ptr hptr info => ?_⟩
      simp only [Phase.forgets_update] at hptr
      simp [State.giveBack, hptr]
    · cases hstep
  | zoneResizing zone ptr size =>
    simp only [proceed, hphase] at hstep
    split at hstep
    all_goals
      cases hstep
      exact ⟨m, h.quiet rfl⟩
  | zoneMoving zone ptr size =>
    simp only [proceed, hphase] at hstep
    exact ⟨m, h.reallocated hstep⟩
  | updating forgets block =>
    match forgets, block with
    | ptr :: forgets, block =>
      simp only [proceed, hphase] at hstep
      cases hstep
      have hpending := h.pending t
      simp only [hphase, Phase.forgets, forall_mem_cons] at hpending
      exact ⟨_, (h.forget hpending.1).goto (by simpa [State.forget] using hpending.2)⟩
    | [], some block =>
      simp only [proceed, hphase] at hstep
      cases hstep
      have hrecord := h.record (hblock block (by simp [hphase, Phase.records])).1
        (hblock block (by simp [hphase, Phase.records])).2
      exact ⟨_, hrecord.quiet rfl⟩
    | [], none =>
      simp only [proceed, hphase] at hstep
      cases hstep
      exact ⟨m, h.quiet rfl⟩

theorem recorded_step (s : State) (move : Move) (s' : State) (h : ∃ m, Recorded s m)
    (hcareful : Careful s move) (hstep : step w s move = some s') : ∃ m, Recorded s' m := by
  rcases h with ⟨m, h⟩
  cases move with
  | call t c =>
    simp only [step] at hstep
    split at hstep
    · rcases map_eq_some_iff.mp hstep with ⟨phase, hentered, rfl⟩
      exact ⟨m, h.quiet (forgets_entered hentered)⟩
    · cases hstep
  | proceed t o => exact recorded_proceed h hcareful hstep
  | evict ptr =>
    simp only [step] at hstep
    split at hstep
    · cases hstep
      exact ⟨m, h.give fun info => Owner.noConfusion⟩
    · cases hstep

/-- In every interleaving of calls in which blocks are recorded with care. -/
theorem live_recorded {schedule : List Move} (hcareful : Interleaving.Along (step w) Careful initial schedule)
    (hrun : Interleaving.run (step w) initial schedule = some s) : LiveRecorded s := by
  rcases Interleaving.invariant_along recorded_step ⟨_, recorded_initial⟩ hcareful hrun with ⟨m, h⟩
  exact h.liveRecorded

def plain : World := ⟨0x100, fun _ => ⟨fun _ => false, false, false, false, false⟩, fun _ => false⟩

def handsOut (ptr : Ptr) : Outcome := ⟨grantsAll, ptr, 0, false⟩

def mallocs (t : Thread) (size : BitVec 64) (ptr : Ptr) : List Move :=
  [.call t (.malloc size), .proceed t (handsOut ptr), .proceed t (handsOut 0)]

/-- A block moves, and its old address is handed out and recorded before it is forgotten. -/
def movesAndReuses : List Move :=
  mallocs 0 24 0x10 ++ [.call 0 (.realloc 0x10 48), .proceed 0 (handsOut 0x20)] ++ mallocs 1 24 0x10 ++
    [.proceed 0 (handsOut 0)]

theorem size_of_forgotten {steps : List (Kernel × Op)} {info : Info}
    (h : lookupAllocation (forgetAllocation (run (emptyLedger, fun _ => none) steps).1 ptr) ptr =
      some info) : info.size = 0 := by
  have hbounded := @Bounded.forget _ _ ptr (bounded_empty.run steps)
  have hkept := hbounded.isSome_lookup.mp (isSome_of_eq_some h)
  rw [hbounded.lookup_freed (update_self _ _ _) hkept] at h
  rw [← some.inj h]

theorem record_lost :
    ∃ s, Interleaving.run (step plain) initial movesAndReuses = some s ∧
      s.owner 0x10 = .guest ⟨24, 0, 0⟩ ∧
        (∀ info, lookupAllocation s.ledger 0x10 = some info → info.size = 0) ∧ ¬ LiveRecorded s := by
  have hsize : ∀ info, lookupAllocation (forgetAllocation (run (emptyLedger, fun _ => none)
      [(grantsAll, .record 0x10 (recordedAllocationSize 24) 0),
        (grantsAll, .record 0x10 (recordedAllocationSize 24) 0)]).1 0x10) 0x10 = some info →
      info.size = 0 := fun info => size_of_forgotten
  refine ⟨_, rfl, rfl, hsize, fun h => ?_⟩
  exact absurd (hsize _ (h 0x10 ⟨24, 0, 0⟩ rfl)) (by decide)

/-- In the meantime another thread is handed an address that is not awaited. -/
def movesApart : List Move :=
  mallocs 0 24 0x10 ++ [.call 0 (.realloc 0x10 48), .proceed 0 (handsOut 0x20)] ++ mallocs 1 24 0x30 ++
    [.proceed 0 (handsOut 0), .proceed 0 (handsOut 0)]

theorem recordAllocationWithZone_of_ne {kernel : Kernel} {ledger : Ledger} {size : Size} {zone : Zone}
    {i : Fin machgateAllocationShardCount} (hne : i ≠ shardOf ptr) :
    recordAllocationWithZone kernel ledger ptr size zone i = ledger i := by
  rw [recordAllocationWithZone]
  split
  · rfl
  · exact update_of_ne hne _ _

theorem forgetAllocation_of_ne {ledger : Ledger} {i : Fin machgateAllocationShardCount}
    (hne : i ≠ shardOf ptr) : forgetAllocation ledger ptr i = ledger i := by
  rw [forgetAllocation]
  split
  · rfl
  · cases lookupSlot ledger ptr with
    | none => rfl
    | some slot => exact update_of_ne hne _ _

theorem careful_of_none (h : (s.phase t).records = none) : Careful s (.proceed t o) := by
  intro b hb
  rw [h] at hb
  cases hb

theorem movesApart_careful : Interleaving.Along (step plain) Careful initial movesApart := by
  -- The three blocks are in different shards.
  have hempty : Served grantsAll emptyShard := Or.inr ⟨by decide, rfl⟩
  have hsecond : ∀ size, Served grantsAll
      (recordAllocationWithZone grantsAll emptyLedger 0x10 size 0 (shardOf 0x30)) := by
    intro size
    exact hempty
  have hthird : ∀ size size', Served grantsAll
      (forgetAllocation (recordAllocationWithZone grantsAll
        (recordAllocationWithZone grantsAll emptyLedger 0x10 size 0) 0x30 size' 0) 0x10
          (shardOf 0x20)) := by
    intro size size'
    rw [forgetAllocation_of_ne (by decide), recordAllocationWithZone_of_ne (by decide),
      recordAllocationWithZone_of_ne (by decide)]
    exact hempty
  refine .cons rfl trivial (.cons rfl (careful_of_none rfl) (.cons rfl ?_ ?_))
  · rintro _ ⟨⟩
    refine ⟨hempty, fun t' ht' => ?_⟩
    match t' with
    | 0 => exact absurd rfl ht'
    | t' + 1 => exact not_mem_nil
  refine .cons rfl trivial (.cons rfl (careful_of_none rfl) ?_)
  refine .cons rfl trivial (.cons rfl (careful_of_none rfl) (.cons rfl ?_ ?_))
  · rintro _ ⟨⟩
    refine ⟨hsecond (recordedAllocationSize 24), fun t' ht' => ?_⟩
    match t' with
    | 0 =>
      have hother : (0x30 : Ptr) ∉ [(0x10 : Ptr)] := by decide
      exact hother
    | 1 => exact absurd rfl ht'
    | t' + 2 => exact not_mem_nil
  refine .cons rfl (careful_of_none rfl) (.cons rfl ?_ trivial)
  rintro _ ⟨⟩
  refine ⟨hthird (recordedAllocationSize 24) (recordedAllocationSize 24), fun t' ht' => ?_⟩
  match t' with
  | 0 => exact absurd rfl ht'
  | 1 => exact not_mem_nil
  | t' + 2 => exact not_mem_nil

theorem movesApart_liveRecorded :
    ∃ s, Interleaving.run (step plain) initial movesApart = some s ∧ LiveRecorded s := by
  have hruns : ∃ s, Interleaving.run (step plain) initial movesApart = some s := ⟨_, rfl⟩
  rcases hruns with ⟨s, hrun⟩
  exact ⟨s, hrun, live_recorded movesApart_careful hrun⟩

end Machgate.AllocationThreads
