import Machgate.MallocZones

namespace Machgate.MallocZones

open AllocationTable AllocationWalks AllocationLedger Interleaving Option List

variable {w : World} {s s' : State} {ptr : Ptr} {zone z : Zone}

structure Inv (w : World) (s : State) : Prop where
  block : ∀ ptr, ∀ z ∈ s.owner ptr, ptr ≠ 0 ∧ isDefaultMallocZone w z = false ∧ w.inBootstrap ptr = false

theorem inv_initial : Inv w initial := ⟨fun _ _ hz => nomatch hz⟩

theorem Inv.of_owner (h : Inv w s) (howner : s'.owner = s.owner) : Inv w s' := ⟨howner ▸ h.block⟩

theorem Inv.setOwner {owner : Option Zone} (h : Inv w s)
    (howner : ∀ z ∈ owner, ptr ≠ 0 ∧ isDefaultMallocZone w z = false ∧ w.inBootstrap ptr = false) :
    Inv w (s.setOwner ptr owner) := by
  constructor
  intro ptr' z hz
  rw [State.owner_setOwner, Function.update_apply] at hz
  split at hz
  · next heq => exact heq ▸ howner z hz
  · exact h.block ptr' z hz

theorem Inv.release (h : Inv w s) : Inv w (s.setOwner ptr none) := h.setOwner fun _ hz => nomatch hz

theorem Inv.zero (h : Inv w s) : s.owner 0 = none := by
  rw [eq_none_iff_forall_not_mem]
  exact fun z hz => (h.block 0 z hz).1 rfl

theorem Inv.bootstrap (h : Inv w s) (hboot : w.inBootstrap ptr) : s.owner ptr = none := by
  rw [eq_none_iff_forall_not_mem]
  exact fun z hz => absurd hboot (by simp [(h.block ptr z hz).2.2])

section

variable {log : List Delivery}

theorem respected_concat (d : Delivery) :
    Respected (log ++ [d]) ↔ Respected log ∧ ∀ z ∈ d.owner, d.target = .zone z := by
  simp [Respected, or_imp, forall_and]

/-- A block that is handed to the host, or unmapped, is not one of a custom zone. -/
theorem respected_elsewhere {target : Target} (htarget : ∀ z, target ≠ .zone z) :
    Respected (s.deliver target ptr).log ↔ Respected s.log ∧ s.owner ptr = none := by
  refine (respected_concat _).trans (and_congr_right fun _ => ?_)
  rw [eq_none_iff_forall_not_mem]
  exact forall₂_congr fun z _ => iff_false_intro (htarget z)

theorem respected_zone :
    Respected (s.deliver (.zone zone) ptr).log ↔ Respected s.log ∧ ∀ z ∈ s.owner ptr, zone = z := by
  refine (respected_concat _).trans (and_congr_right fun _ => ?_)
  simp

end

section

variable {mapped : Bool} {o : Outcome}

/-- A step keeps the invariant, and respects the zones just when the condition holds. -/
def Keeps (w : World) (s s' : State) (condition : Prop) : Prop :=
  Inv w s' ∧ (Respected s'.log ↔ Respected s.log ∧ condition)

theorem keeps_free (h : Inv w s) :
    Keeps w s (shimFreeImplAt w s ptr mapped) (s.owner ptr = none) := by
  rw [shimFreeImplAt]
  split
  · next hptr =>
    subst hptr
    exact ⟨h, (and_iff_left h.zero).symm⟩
  · dsimp only
    split
    · next hboot => exact ⟨h.of_owner rfl, (and_iff_left (h.bootstrap hboot)).symm⟩
    · constructor
      · apply Inv.release
        exact h.of_owner rfl
      · apply respected_elsewhere (s := { s with ledger := (takeAllocationRecord s.ledger ptr).1 })
        intro z
        split <;> simp

theorem log_afterRealloc (s : State) (ptr : Ptr) (o : Outcome) (zone : Zone) (owner : Option Zone) :
    (afterRealloc s ptr o zone owner).log = s.log := by
  rw [afterRealloc]
  split <;> split <;> rfl

theorem Inv.afterRealloc {owner : Option Zone} (h : Inv w s) (hresult : w.inBootstrap o.result = false)
    (howner : ∀ z ∈ owner, isDefaultMallocZone w z = false) :
    Inv w (MallocZones.afterRealloc s ptr o zone owner) := by
  have hforgot : Inv w (if o.result ≠ 0 ∨ o.nothing then (s.forget ptr).setOwner ptr none else s) := by
    split
    · exact Inv.release (h.of_owner rfl)
    · exact h
  rw [MallocZones.afterRealloc]
  generalize (if o.result ≠ 0 ∨ o.nothing then (s.forget ptr).setOwner ptr none else s) = t at hforgot ⊢
  split
  · next hne =>
    have hrecorded : Inv w (t.record o.kernel o.result o.size zone) := hforgot.of_owner rfl
    exact hrecorded.setOwner fun z hz => ⟨hne, howner z hz, hresult⟩
  · exact hforgot

theorem keeps_realloc (h : Inv w s) (hresult : w.inBootstrap o.result = false) :
    Keeps w s (shimReallocImplAt w s ptr o) (s.owner ptr = none) := by
  rw [shimReallocImplAt]
  split
  · next hboot =>
    have hnone := h.bootstrap hboot.2
    split
    · exact ⟨h, (and_iff_left hnone).symm⟩
    · dsimp only
      split
      all_goals exact ⟨h.of_owner rfl, (and_iff_left hnone).symm⟩
  · split
    · next hptr =>
      subst hptr
      refine ⟨h.afterRealloc hresult (fun z hz => nomatch hz), ?_⟩
      rw [log_afterRealloc]
      exact (and_iff_left h.zero).symm
    · have hdelivered : Inv w (s.deliver .host ptr) := h.of_owner rfl
      refine ⟨hdelivered.afterRealloc hresult (fun z hz => nomatch hz), ?_⟩
      rw [log_afterRealloc]
      exact respected_elsewhere (by simp)

theorem named_iff (hz : isDefaultMallocZone w z = false) :
    Named w s zone ptr z ↔ effectiveMallocZone w s.ledger zone ptr = z := by
  have hne : z ≠ 0 := by
    rintro rfl
    cases hz
  rw [Named, effectiveMallocZone]
  cases hdefault : isDefaultMallocZone w zone with
  | false => simp
  | true =>
    have hzone : zone ≠ z := by
      rintro rfl
      cases hdefault.symm.trans hz
    simp only [hzone, false_or, true_and, Bool.not_true, Bool.false_eq_true, if_false]
    split
    · rfl
    · next hrecorded =>
      rw [not_not] at hrecorded
      rw [hrecorded]
      exact iff_of_false (Ne.symm hne) hzone

theorem hasEntry_custom {entry : ZoneTable → Bool} (hz : isDefaultMallocZone w z = false) :
    hasEntry w z entry = entry (w.tables z) := by
  rw [hasEntry, hz, Bool.not_false, Bool.true_and]

theorem keeps_iff {entry : ZoneTable → Bool} (h : Inv w s)
    (hzone : hasEntry w (effectiveMallocZone w s.ledger zone ptr) entry →
      Keeps w s s' (∀ z ∈ s.owner ptr, effectiveMallocZone w s.ledger zone ptr = z))
    (helse : ¬ hasEntry w (effectiveMallocZone w s.ledger zone ptr) entry →
      Keeps w s s' (s.owner ptr = none)) :
    Keeps w s s' (∀ z ∈ s.owner ptr, Named w s zone ptr z ∧ entry (w.tables z)) := by
  have hcondition : (∀ z ∈ s.owner ptr, Named w s zone ptr z ∧ entry (w.tables z)) ↔
      ∀ z ∈ s.owner ptr, effectiveMallocZone w s.ledger zone ptr = z ∧
        hasEntry w (effectiveMallocZone w s.ledger zone ptr) entry := by
    refine forall₂_congr fun z hz => ?_
    have hcustom := (h.block ptr z hz).2.1
    rw [named_iff hcustom]
    refine and_congr_right fun heq => ?_
    rw [heq, hasEntry_custom hcustom]
  rw [hcondition]
  rcases Classical.em (hasEntry w (effectiveMallocZone w s.ledger zone ptr) entry) with hentry | hentry
  · simpa [hentry] using hzone hentry
  · have := helse hentry
    simpa [hentry, eq_none_iff_forall_not_mem] using this

theorem keeps_handed (h : Inv w s) :
    Keeps w s (((s.deliver (.zone zone) ptr).forget ptr).setOwner ptr none)
      (∀ z ∈ s.owner ptr, zone = z) := by
  refine ⟨?_, respected_zone⟩
  apply Inv.release
  exact h.of_owner rfl

theorem keeps_zoneFree (h : Inv w s) :
    Keeps w s (mallocZoneFree w s zone ptr mapped) (RoutedFree w s zone ptr) := by
  rw [mallocZoneFree]
  apply keeps_iff h
  · intro hentry
    simp only [hentry, if_true]
    exact keeps_handed h
  · intro hentry
    simp only [hentry]
    exact keeps_free h

theorem keeps_zoneRealloc (h : Inv w s) (hresult : w.inBootstrap o.result = false) :
    Keeps w s (mallocZoneRealloc w s zone ptr o)
      (∀ z ∈ s.owner ptr, Named w s zone ptr z ∧ (w.tables z).realloc) := by
  rw [mallocZoneRealloc]
  apply keeps_iff h
  · intro hentry
    simp only [hentry, if_true]
    have hdelivered :
        Inv w (s.deliver (.zone (effectiveMallocZone w s.ledger zone ptr)) ptr) := h.of_owner rfl
    refine ⟨hdelivered.afterRealloc hresult ?_, ?_⟩
    · intro z hz
      rw [← some.inj hz]
      rw [hasEntry, Bool.and_eq_true, Bool.not_eq_true'] at hentry
      exact hentry.1
    · rw [log_afterRealloc]
      exact respected_zone
  · intro hentry
    simp only [hentry]
    exact keeps_realloc h hresult

theorem effective_effective (ledger : Ledger) :
    effectiveMallocZone w ledger (effectiveMallocZone w ledger zone ptr) ptr =
      effectiveMallocZone w ledger zone ptr := by
  rcases Bool.eq_false_or_eq_true (isDefaultMallocZone w zone) with hdefault | hdefault
  · rcases eq_or_ne (allocationRecordedZone ledger ptr) 0 with hrecorded | hrecorded
    · have : effectiveMallocZone w ledger zone ptr = zone := by
        simp [effectiveMallocZone, hdefault, hrecorded]
      rw [this, this]
    · have : effectiveMallocZone w ledger zone ptr = allocationRecordedZone ledger ptr := by
        simp only [effectiveMallocZone, hdefault, hrecorded, ne_eq, not_false_eq_true, if_true,
          Bool.not_true, Bool.false_eq_true, if_false]
      rw [this, effectiveMallocZone]
      simp
  · have : effectiveMallocZone w ledger zone ptr = zone := by simp [effectiveMallocZone, hdefault]
    rw [this, this]

theorem keeps_freeDefiniteSize (h : Inv w s) :
    Keeps w s (mallocZoneFreeDefiniteSize w s zone ptr mapped)
      (∀ z ∈ s.owner ptr, Named w s zone ptr z ∧
        ((w.tables z).freeDefiniteSize ∨ (w.tables z).free)) := by
  have hor := @keeps_iff w s (mallocZoneFreeDefiniteSize w s zone ptr mapped) ptr zone
    (fun table => table.freeDefiniteSize || table.free) h
  simp only [Bool.or_eq_true] at hor
  apply hor
  · intro hentry
    rw [mallocZoneFreeDefiniteSize]
    split
    · exact keeps_handed h
    · next hnone =>
      have hfree : hasEntry w (effectiveMallocZone w s.ledger zone ptr) ZoneTable.free := by
        simp only [hasEntry, Bool.and_eq_true, Bool.or_eq_true, Bool.not_eq_true'] at hentry hnone ⊢
        exact ⟨hentry.1, hentry.2.resolve_left fun hsized => hnone ⟨hentry.1, hsized⟩⟩
      rw [mallocZoneFree]
      simp only [effective_effective, hfree, if_true]
      exact keeps_handed h
  · intro hentry
    have hnone : ¬ hasEntry w (effectiveMallocZone w s.ledger zone ptr) ZoneTable.freeDefiniteSize ∧
        ¬ hasEntry w (effectiveMallocZone w s.ledger zone ptr) ZoneTable.free := by
      simp only [hasEntry, Bool.and_eq_true, Bool.or_eq_true] at hentry ⊢
      exact ⟨fun hsized => hentry ⟨hsized.1, Or.inl hsized.2⟩, fun hfree => hentry ⟨hfree.1, Or.inr hfree.2⟩⟩
    rw [mallocZoneFreeDefiniteSize]
    rw [if_neg hnone.1, mallocZoneFree]
    simp only [effective_effective, hnone.2]
    exact keeps_free h

theorem keeps_frees (h : Inv w s) (pointers : List (Ptr × Bool)) :
    Keeps w s (pointers.foldl (fun s p => mallocZoneFree w s zone p.1 p.2) s)
      (RoutedFrees w zone s pointers) := by
  induction pointers generalizing s with
  | nil => exact ⟨h, (and_iff_left trivial).symm⟩
  | cons p rest ih =>
    rcases @keeps_zoneFree w s p.1 zone p.2 h with ⟨hinv, hiff⟩
    rcases ih hinv with ⟨hinv', hiff'⟩
    refine ⟨hinv', hiff'.trans ?_⟩
    rw [hiff, RoutedFrees, and_assoc]

theorem keeps_batch (h : Inv w s) (pointers : List (Ptr × Bool)) :
    Keeps w s (pointers.foldl (fun s p => s.deliver (.zone zone) p.1) s)
      (∀ p ∈ pointers, ∀ z ∈ s.owner p.1, zone = z) := by
  induction pointers generalizing s with
  | nil => exact ⟨h, by simp⟩
  | cons p rest ih =>
    have hdelivered : Inv w (s.deliver (.zone zone) p.1) := h.of_owner rfl
    rcases ih hdelivered with ⟨hinv, hiff⟩
    refine ⟨hinv, hiff.trans ?_⟩
    rw [respected_zone, State.owner_deliver, forall_mem_cons, and_assoc]

theorem forgotten (h : Inv w s) (pointers : List (Ptr × Bool)) :
    Inv w (pointers.foldl (fun s p => (s.forget p.1).setOwner p.1 none) s) ∧
      (pointers.foldl (fun s p => (s.forget p.1).setOwner p.1 none) s).log = s.log := by
  induction pointers generalizing s with
  | nil => exact ⟨h, rfl⟩
  | cons p rest ih =>
    have hforgot : Inv w (s.forget p.1) := h.of_owner rfl
    exact ih (@Inv.release w (s.forget p.1) p.1 hforgot)

theorem keeps_batchFree (h : Inv w s) (pointers : List (Ptr × Bool)) :
    Keeps w s (mallocZoneBatchFree w s zone pointers) (Routed w s (.batchFree zone pointers)) := by
  rw [mallocZoneBatchFree, Routed]
  split
  · rcases @keeps_batch w s zone h pointers with ⟨hinv, hiff⟩
    rcases forgotten hinv pointers with ⟨hinv', hlog⟩
    exact ⟨hinv', by rw [hlog, hiff]⟩
  · exact keeps_frees h pointers

theorem keeps_allocate {function : AllocationFunction} (h : Inv w s)
    (hresult : w.inBootstrap o.result = false) :
    Keeps w s (mallocZoneAllocate w s function zone o) True := by
  rw [mallocZoneAllocate]
  split
  · exact ⟨h, (and_true _).symm.to_iff⟩
  · next hne =>
    split
    · next hentry =>
      have hrecorded : Inv w (s.record o.kernel o.result o.size zone) := h.of_owner rfl
      refine ⟨hrecorded.setOwner fun z hz => ⟨hne, ?_, hresult⟩, (and_true _).symm.to_iff⟩
      rw [← some.inj hz]
      rw [hasEntry, Bool.and_eq_true, Bool.not_eq_true'] at hentry
      exact hentry.1
    · have hrecorded : Inv w (s.record o.kernel o.result o.size 0) := h.of_owner rfl
      exact ⟨hrecorded.release, (and_true _).symm.to_iff⟩

end

theorem keeps_step {move : Move} (h : Inv w s) (hstep : step w s move = some s') :
    Keeps w s s' (Routed w s move) := by
  cases move with
  | allocate function zone o =>
    obtain ⟨hresult, hnext⟩ := ite_none_left_eq_some.mp hstep
    cases hnext
    exact keeps_allocate h (Bool.eq_false_iff.mpr hresult)
  | free ptr mapped =>
    cases hstep
    exact keeps_free h
  | realloc ptr o =>
    obtain ⟨hresult, hnext⟩ := ite_none_left_eq_some.mp hstep
    cases hnext
    exact keeps_realloc h (Bool.eq_false_iff.mpr hresult)
  | zoneFree zone ptr mapped =>
    cases hstep
    exact keeps_zoneFree h
  | zoneRealloc zone ptr o =>
    obtain ⟨hresult, hnext⟩ := ite_none_left_eq_some.mp hstep
    cases hnext
    exact keeps_zoneRealloc h (Bool.eq_false_iff.mpr hresult)
  | batchFree zone pointers =>
    cases hstep
    exact keeps_batchFree h pointers
  | freeDefiniteSize zone ptr mapped =>
    cases hstep
    exact keeps_freeDefiniteSize h

theorem zones_respected_iff {moves : List Move} (hrun : run (step w) initial moves = some s) :
    Respected s.log ↔ Along (step w) (Routed w) initial moves := by
  have hkeeps : ∀ s move s', Inv w s → step w s move = some s' →
      Inv w s' ∧ (Respected s'.log ↔ Respected s.log ∧ Routed w s move) :=
    fun _ _ _ h hstep => keeps_step h hstep
  rw [iff_along (P := fun s => Respected s.log) hkeeps inv_initial hrun]
  simp [initial, Respected]

def oneZone : World where
  defaultMallocZone := 0x1000
  tables := fun _ => ⟨fun _ => true, true, true, true, true⟩
  inBootstrap := fun _ => false

def allocated : Move :=
  .allocate .malloc 0x2000 ⟨grantsAll, 0x8000, false, recordedAllocationSize 24⟩

/-- `free` hands a block of the zone to the host. -/
theorem free_not_respected :
    ∃ s, run (step oneZone) initial [allocated, .free 0x8000 false] = some s ∧ ¬ Respected s.log := by
  refine ⟨_, rfl, fun h => ?_⟩
  have := h ⟨0x8000, some 0x2000, .host⟩ mem_cons_self 0x2000 rfl
  cases this

theorem zoneFree_respected :
    ∃ s, run (step oneZone) initial [allocated, .zoneFree 0x2000 0x8000 false] = some s ∧
      Respected s.log := by
  have hrouted : Along (step oneZone) (Routed oneZone) initial
      [allocated, .zoneFree 0x2000 0x8000 false] := by
    refine ⟨trivial, fun s hs => ⟨?_, fun _ _ => trivial⟩⟩
    cases hs
    intro z hz
    cases hz
    exact ⟨Or.inl rfl, rfl⟩
  have hruns : ∃ s, run (step oneZone) initial [allocated, .zoneFree 0x2000 0x8000 false] = some s :=
    ⟨_, rfl⟩
  rcases hruns with ⟨s, hrun⟩
  exact ⟨s, hrun, (zones_respected_iff hrun).mpr hrouted⟩

end Machgate.MallocZones
