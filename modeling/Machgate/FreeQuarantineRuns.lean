import Machgate.FreeQuarantine

namespace Machgate.FreeQuarantine

open Interleaving RingWindow List Option Nat
open BitVec hiding cons_append not_or shiftLeft_eq

/-- The budget is configured and its bytes fit a word. -/
def Configured (parsed : BitVec 64) : Prop := 0 < parsed.toInt ∧ parsed.toNat < 2 ^ 44

instance (parsed : BitVec 64) : Decidable (Configured parsed) :=
  inferInstanceAs (Decidable (_ ∧ _))

def Route.chunk : Route → Option Chunk
  | .quarantined chunk => some chunk
  | .ignored | .unmapped | .direct => none

/-- A chunk is not larger than the budget, and one that comes to a full ring does not exceed it. -/
@[mk_iff]
structure Calm (parsed : BitVec 64) (s : State) (request : Request) : Prop where
  small : ∀ chunk ∈ (route request).chunk, chunk.bytes.toNat ≤ promisedBudget parsed
  full : ∀ chunk ∈ (route request).chunk, ∀ old ∈ s.ring.slots s.ring.tail,
    s.ring.pendingBytes.toNat - old.bytes.toNat + chunk.bytes.toNat ≤ promisedBudget parsed

section

variable {parsed : BitVec 64}

theorem budget_configured (h : Configured parsed) :
    (machgateFreeQuarantineBudget parsed).toNat = promisedBudget parsed ∧
      machgateFreeQuarantineBudget parsed ≠ 0 := by
  have hpos : 0 < parsed.toNat := by
    rcases Nat.eq_zero_or_pos parsed.toNat with hzero | hpos
    · have := h.1
      rw [eq_of_toNat_eq (y := 0#64) hzero] at this
      exact absurd this (by decide)
    · exact hpos
  have hshift : (parsed <<< 20).toNat = parsed.toNat * 2 ^ 20 := by
    rw [toNat_shiftLeft, shiftLeft_eq, mod_eq_of_lt]
    have := h.2
    omega
  have hne : parsed <<< 20 ≠ 0 := by
    intro heq
    rw [heq] at hshift
    simp at hshift
    omega
  rw [machgateFreeQuarantineBudget, promisedBudget, if_pos h.1, if_pos h.1]
  simp only [hne, if_false]
  exact ⟨hshift, hne⟩

end

section

variable {held gone left : List Chunk} {chunk : Chunk}

theorem total_cons (chunk : Chunk) (held : List Chunk) :
    total (chunk :: held) = chunk.bytes.toNat + total held := by
  simp [total]

theorem total_append (held left : List Chunk) : total (held ++ left) = total held + total left := by
  simp [total]

def Small (held : List Chunk) : Prop := ∀ chunk ∈ held, chunk.bytes.toNat ≤ 2 ^ 24

theorem total_le (h : Small held) : total held ≤ held.length * 2 ^ 24 := by
  induction held with
  | nil => exact Nat.zero_le _
  | cons chunk held ih =>
    have hfirst := h chunk mem_cons_self
    have hrest := ih fun c hc => h c (mem_cons_of_mem chunk hc)
    rw [total_cons, length_cons]
    omega

end

section

variable {budget : BitVec 64} {r : Ring} {start turns : Nat} {held : List Chunk}

structure Holds (r : Ring) (start : Nat) (held : List Chunk) : Prop where
  window : Window machgateFreeQuarantineSlots r.slots start held
  tail : r.tail = (start + held.length) % machgateFreeQuarantineSlots
  pending : r.pendingBytes.toNat = total held
  small : Small held

theorem Holds.releaseHead {chunk : Chunk} (h : Holds r start (chunk :: held)) (hhead : r.head = start) :
    Holds (FreeQuarantine.releaseHead r) ((start + 1) % machgateFreeQuarantineSlots) held where
  window := by
    rw [FreeQuarantine.releaseHead, hhead]
    exact h.window.pop
  tail := by
    rw [mod_add_mod, Nat.add_assoc, Nat.add_comm 1]
    exact h.tail
  pending := by
    have hslot : r.slots r.head = some chunk := by
      rw [hhead]
      exact h.window.slot_start
    have hpending := h.pending
    rw [total_cons] at hpending
    simp only [FreeQuarantine.releaseHead, hslot, slotBytes, map_some, getD_some]
    rw [toNat_sub_of_le]
    · omega
    · rw [le_def]
      omega
  small := fun c hc => h.small c (mem_cons_of_mem chunk hc)

theorem Holds.tail_full {old : Chunk} (h : Holds r start (old :: held))
    (hfull : held.length + 1 = machgateFreeQuarantineSlots) : r.tail = start := by
  rw [h.tail, length_cons, hfull, add_mod_right, mod_eq_of_lt h.window.start_lt]

theorem release_within (h : ¬ r.pendingBytes > budget) (turns : Nat) :
    shimFreeReleaseOldestLocked budget turns r = some (r, []) := by
  cases turns with
  | zero | succ turns => rw [shimFreeReleaseOldestLocked, if_neg h]

/-- The loop releases the oldest chunks as long as the rest exceeds the budget. -/
theorem Holds.release (h : Holds r start held) (hhead : r.head = start) (hturns : held.length ≤ turns) :
    ∃ gone left next, held = gone ++ left ∧
      shimFreeReleaseOldestLocked budget turns r = some (next, gone.map Chunk.ptr) ∧
      (∃ start', Holds next start' left ∧ next.head = start') ∧
      ∀ i, i < gone.length → budget.toNat < total (held.drop i) := by
  induction held generalizing r start turns with
  | nil =>
    refine ⟨[], [], r, rfl, ?_, ⟨start, h, hhead⟩, fun i hi => nomatch hi⟩
    have hle : ¬ r.pendingBytes > budget := by
      rw [gt_iff_lt, lt_def, h.pending]
      exact Nat.not_lt_zero _
    exact release_within hle turns
  | cons chunk held ih =>
    rcases Classical.em (r.pendingBytes > budget) with hover | hwithin
    · rcases turns with _ | turns
      · cases hturns
      · rcases ih (h.releaseHead hhead) (congrArg (fun i => (i + 1) % machgateFreeQuarantineSlots) hhead)
          (le_of_succ_le_succ hturns) with ⟨gone, left, next, hsplit, hloop, hnext, hreason⟩
        refine ⟨chunk :: gone, left, next, by rw [hsplit, cons_append], ?_, hnext, ?_⟩
        · rw [shimFreeReleaseOldestLocked, if_pos hover, hloop, hhead, h.window.slot_start]
          rfl
        · intro i hi
          rcases i with _ | i
          · rw [drop_zero, ← h.pending]
            exact hover
          · exact hreason i (lt_of_succ_lt_succ hi)
    · refine ⟨[], chunk :: held, r, rfl, ?_, ⟨start, h, hhead⟩, fun i hi => nomatch hi⟩
      exact release_within hwithin turns

end

section

variable {parsed : BitVec 64} {r : Ring} {start : Nat} {held : List Chunk} {chunk : Chunk}

theorem total_lt (h : Holds r start held) : total held ≤ 2 ^ 42 := by
  have hle := total_le h.small
  have hlength := h.window.length_le
  rw [machgateFreeQuarantineSlots] at hlength
  omega

theorem Holds.store (h : Holds r start held) (hroom : held.length < machgateFreeQuarantineSlots)
    (hchunk : chunk.bytes.toNat ≤ 2 ^ 24) : Holds (FreeQuarantine.store r chunk) start (held ++ [chunk]) where
  window := by
    rw [FreeQuarantine.store, h.tail]
    exact h.window.push hroom
  tail := by
    rw [FreeQuarantine.store, h.tail, mod_add_mod, length_append, length_singleton, Nat.add_assoc]
  pending := by
    have hfree : r.slots r.tail = none := by
      rw [h.tail]
      exact h.window.slot_next hroom
    have hbound := total_lt h
    have hpending := h.pending
    simp only [FreeQuarantine.store, hfree, slotBytes, map_none, getD_none]
    rw [sub_zero, toNat_add_of_lt, total_append, hpending]
    · simp [total]
    · omega
  small := by
    intro c hc
    rcases mem_append.mp hc with hc | hc
    · exact h.small c hc
    · rw [mem_singleton.mp hc]
      exact hchunk

theorem Holds.overwrite {old : Chunk} (h : Holds r start (old :: held))
    (hfull : held.length + 1 = machgateFreeQuarantineSlots) (hchunk : chunk.bytes.toNat ≤ 2 ^ 24) :
    Holds (FreeQuarantine.store r chunk) ((start + 1) % machgateFreeQuarantineSlots)
      (held ++ [chunk]) where
  window := by
    rw [FreeQuarantine.store, h.tail_full hfull]
    exact h.window.overwrite hfull
  tail := by
    rw [FreeQuarantine.store, h.tail_full hfull, length_append, length_singleton, hfull,
      add_mod_right, mod_mod]
  pending := by
    have hslot : r.slots r.tail = some old := by
      rw [h.tail_full hfull]
      exact h.window.slot_start
    have hbound := total_lt h
    have hpending := h.pending
    rw [total_cons] at hbound hpending
    simp only [FreeQuarantine.store, hslot, slotBytes, map_some, getD_some]
    have hsub : (r.pendingBytes - old.bytes).toNat = total held := by
      rw [toNat_sub_of_le]
      · omega
      · rw [le_def]
        omega
    rw [toNat_add_of_lt, total_append, hsub]
    · simp [total]
    · omega
  small := by
    intro c hc
    rcases mem_append.mp hc with hc | hc
    · exact h.small c (mem_cons_of_mem old hc)
    · rw [mem_singleton.mp hc]
      exact hchunk

/-- The call releases chunks for a reason and leaves the ring as it should be. -/
structure Pushed (budget : Nat) (held : List Chunk) (chunk : Chunk) (gone left : List Chunk) (next : Ring) :
    Prop where
  split : held ++ [chunk] = gone ++ left
  reason : ∀ i, i < gone.length →
    i = 0 ∧ held.length = machgateFreeQuarantineSlots ∨ budget < total ((held ++ [chunk]).drop i)
  kept : left ≠ []
  holds : ∃ start, Holds next start left ∧ (left.length < machgateFreeQuarantineSlots → next.head = start)

theorem pushed_room (h : Holds r start held) (hhead : r.head = start)
    (hroom : held.length < machgateFreeQuarantineSlots) (hchunk : chunk.bytes.toNat ≤ 2 ^ 24)
    {budget : BitVec 64} (hbudget : chunk.bytes.toNat ≤ budget.toNat) :
    ∃ gone left next,
      shimFreeReleaseOldestLocked budget machgateFreeQuarantineSlots (store r chunk) =
        some (next, gone.map Chunk.ptr) ∧ Pushed budget.toNat held chunk gone left next := by
  have hlength : (held ++ [chunk]).length ≤ machgateFreeQuarantineSlots := by
    rw [length_append, length_singleton]
    exact hroom
  rcases @Holds.release budget _ _ _ _ (h.store hroom hchunk) hhead hlength with
    ⟨gone, left, next, hsplit, hloop, ⟨start', hnext, hhead'⟩, hreason⟩
  refine ⟨gone, left, next, hloop, hsplit, fun i hi => Or.inr (hreason i hi), ?_, start', hnext,
    fun _ => hhead'⟩
  rintro rfl
  -- The chunk itself would have been over the budget.
  rw [append_nil] at hsplit
  have := hreason held.length (by rw [← hsplit]; simp)
  rw [drop_left, total_cons] at this
  simp [total] at this
  omega

theorem pushed_full {old : Chunk} (h : Holds r start (old :: held))
    (hfull : held.length + 1 = machgateFreeQuarantineSlots) (hchunk : chunk.bytes.toNat ≤ 2 ^ 24)
    {budget : BitVec 64} (hbudget : total held + chunk.bytes.toNat ≤ budget.toNat) :
    shimFreeReleaseOldestLocked budget machgateFreeQuarantineSlots (store r chunk) =
      some (store r chunk, []) ∧
      Pushed budget.toNat (old :: held) chunk [old] (held ++ [chunk]) (store r chunk) := by
  have hnext := h.overwrite hfull hchunk
  refine ⟨release_within ?_ _, rfl, ?_, by simp, _, hnext, ?_⟩
  · rw [gt_iff_lt, lt_def, hnext.pending, total_append, not_lt]
    simpa [total] using hbudget
  · intro i hi
    exact Or.inl ⟨lt_one_iff.mp hi, hfull⟩
  · intro hlt
    rw [length_append, length_singleton, hfull] at hlt
    exact absurd hlt (lt_irrefl _)

end

section

variable {parsed : BitVec 64} {s : State} {request : Request}

def Inv (parsed : BitVec 64) (s : State) : Prop :=
  ∃ held start, Orderly (promisedBudget parsed) s.trace held ∧ Holds s.ring start held ∧
    (held.length < machgateFreeQuarantineSlots → s.ring.head = start)

theorem inv_initial : Inv parsed initial := by
  refine ⟨[], 0, .nil, ⟨?_, rfl, rfl, fun c hc => nomatch hc⟩, fun _ => rfl⟩
  exact window_empty (by decide)

theorem route_quarantined {chunk : Chunk} (h : route request = .quarantined chunk) :
    chunk.ptr ≠ 0 ∧ chunk.bytes ≠ 0 ∧ chunk.bytes.toNat ≤ 2 ^ 24 := by
  rw [route] at h
  split at h
  · cases h
  · next hptr =>
    split at h
    · cases h
    · split at h
      · cases h
      · split at h
        · cases h
        · next hsize =>
          cases h
          rw [not_or, gt_iff_lt, lt_def, not_lt] at hsize
          exact ⟨hptr, hsize⟩

theorem push_eq {chunk : Chunk} {r : Ring} (h : Configured parsed) (hptr : chunk.ptr ≠ 0)
    (hbytes : chunk.bytes ≠ 0) (hsmall : chunk.bytes.toNat ≤ 2 ^ 24) :
    shimFreeQuarantinePush parsed r chunk =
      (shimFreeReleaseOldestLocked (machgateFreeQuarantineBudget parsed) machgateFreeQuarantineSlots
        (store r chunk)).map fun (next, released) =>
          (next, ((r.slots r.tail).map Chunk.ptr).toList ++ released) := by
  have hmax : ¬ chunk.bytes > ptrdiffMax := by
    rw [gt_iff_lt, lt_def, ptrdiffMax]
    simp
    omega
  rw [shimFreeQuarantinePush, if_neg (not_or.mpr ⟨hptr, hbytes⟩), if_neg (budget_configured h).2]
  simp only [hmax, if_false]

theorem Inv.step (hconfigured : Configured parsed) (h : Inv parsed s) (hcalm : Calm parsed s request) :
    ∃ s', shimFreeImplAt parsed s request = some s' ∧ Inv parsed s' := by
  rcases h with ⟨held, start, horderly, hholds, hhead⟩
  rw [shimFreeImplAt]
  split
  · next chunk hroute =>
    rcases route_quarantined hroute with ⟨hptr, hbytes, hsmall⟩
    have hchunk : chunk ∈ (route request).chunk := by rw [hroute]; rfl
    rcases budget_configured hconfigured with ⟨hbudget, -⟩
    rw [push_eq hconfigured hptr hbytes hsmall]
    rcases Nat.lt_or_eq_of_le hholds.window.length_le with hroom | hfull
    · have hfree : s.ring.slots s.ring.tail = none := by
        rw [hholds.tail]
        exact hholds.window.slot_next hroom
      rcases pushed_room hholds (hhead hroom) hroom hsmall
        (hbudget.symm ▸ hcalm.small chunk hchunk) with ⟨gone, left, next, hloop, hpushed⟩
      rcases hpushed.holds with ⟨start', hnext, hhead'⟩
      rw [hbudget] at hpushed
      refine ⟨_, by rw [hloop, hfree]; rfl, left, start', ?_, hnext, hhead'⟩
      exact .free horderly ⟨hpushed.split, rfl, hpushed.reason, hpushed.kept, hnext.pending⟩
    · rcases held with _ | ⟨old, rest⟩
      · cases hfull
      · have hslot : s.ring.slots s.ring.tail = some old := by
          rw [hholds.tail_full hfull]
          exact hholds.window.slot_start
        have hwithin := hcalm.full chunk hchunk old hslot
        rw [hholds.pending, total_cons, Nat.add_sub_cancel_left, ← hbudget] at hwithin
        rcases pushed_full hholds hfull hsmall hwithin with ⟨hloop, hpushed⟩
        rcases hpushed.holds with ⟨start', hnext, hhead'⟩
        rw [hbudget] at hpushed
        refine ⟨⟨store s.ring chunk, s.trace ++ [⟨chunk, [old.ptr], (store s.ring chunk).pendingBytes⟩]⟩,
          by rw [hloop, hslot]; rfl, rest ++ [chunk], start', ?_, hnext, hhead'⟩
        exact .free horderly ⟨hpushed.split, rfl, hpushed.reason, hpushed.kept, hnext.pending⟩
  all_goals exact ⟨s, rfl, held, start, horderly, hholds, hhead⟩

end

theorem quarantine_orderly {parsed : BitVec 64} {requests : List Request}
    (hconfigured : Configured parsed)
    (hcalm : Along (shimFreeImplAt parsed) (Calm parsed) initial requests) :
    ∃ s held, run (shimFreeImplAt parsed) initial requests = some s ∧
      Orderly (promisedBudget parsed) s.trace held := by
  rcases exists_run_along (fun _ _ h hcalm => h.step hconfigured hcalm) inv_initial hcalm with
    ⟨s, hrun, held, start, horderly, -⟩
  exact ⟨s, held, hrun, horderly⟩

def chunkAt (ptr size : BitVec 64) : Request := ⟨ptr, some size, false, false, size⟩

def traceOf (parsed : BitVec 64) (requests : List Request) : Option (List Entry) :=
  (run (shimFreeImplAt parsed) initial requests).map State.trace

theorem Orderly.kept {budget : Nat} {trace : List Entry} {held : List Chunk}
    (h : Orderly budget trace held) (hne : trace ≠ []) : held ≠ [] := by
  cases h with
  | nil => exact absurd rfl hne
  | free _ hjustified => exact hjustified.kept

/-- Nothing is configured: the first chunk that is freed goes to the host at once. -/
theorem unconfigured_not_orderly :
    ∃ s, run (shimFreeImplAt 0) initial [chunkAt 0x1000 64] = some s ∧
      ∀ held, ¬ Orderly (promisedBudget 0) s.trace held := by
  have htrace : traceOf 0 [chunkAt 0x1000 64] = some [⟨⟨0x1000, 64⟩, [0x1000], 0⟩] := by
    decide +kernel
  rcases map_eq_some_iff.mp htrace with ⟨s, hrun, heq⟩
  refine ⟨s, hrun, fun held h => ?_⟩
  rw [heq] at h
  have honce := h.once
  apply h.kept (by simp)
  simpa using honce

instance (parsed : BitVec 64) (s : State) (request : Request) : Decidable (Calm parsed s request) :=
  decidable_of_iff _ (calm_iff parsed s request).symm

/-- Two chunks, together more than a budget of one MiB. -/
def twoChunks : List Request := [chunkAt 0x1000 0xa0000, chunkAt 0x200000 0xa0000]

theorem twoChunks_orderly :
    Configured 1 ∧ Along (shimFreeImplAt 1) (Calm 1) initial twoChunks ∧
      ∃ s held, run (shimFreeImplAt 1) initial twoChunks = some s ∧
        Orderly (promisedBudget 1) s.trace held := by
  have hconfigured : Configured 1 := by decide
  have hcalm : Along (shimFreeImplAt 1) (Calm 1) initial twoChunks := by decide +kernel
  exact ⟨hconfigured, hcalm, quarantine_orderly hconfigured hcalm⟩

end Machgate.FreeQuarantine
