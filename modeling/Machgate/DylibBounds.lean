import Machgate.FixupPass

namespace Machgate.DylibBounds

open ByteMemory SymbolNames DylibTable SlotPool ResolverState ImportResolver ResolverFrames
open Option List
open ChainedFixups FixupPass ResolverState.State

structure PassFrame (s t : State) : Prop where
  main : t.main = s.main
  dylibs : t.dylibs = s.dylibs
  active : t.deferred.active = s.deferred.active
  resolved : t.deferred.resolved = s.deferred.resolved
  saved : t.deferred.saved = s.deferred.saved

theorem PassFrame.refl (s : State) : PassFrame s s := ⟨rfl, rfl, rfl, rfl, rfl⟩

theorem PassFrame.trans {s t u : State} (h : PassFrame s t) (h' : PassFrame t u) : PassFrame s u :=
  ⟨h'.main.trans h.main, h'.dylibs.trans h.dylibs, h'.active.trans h.active,
    h'.resolved.trans h.resolved, h'.saved.trans h.saved⟩

theorem passFrame_of_frame {s t : State} (h : Frame s t) : PassFrame s t :=
  ⟨h.main, h.dylibs, by rw [h.deferred], by rw [h.deferred], by rw [h.deferred]⟩

/-- The recorded binds name libraries the table has an entry for. -/
def Recorded (s : State) : Prop :=
  ∀ b ∈ s.deferred.binds, ∃ de, s.dylibs.entryAt? b.libOrdinal = some de

theorem Recorded.of_frame {s t : State} (h : Recorded s) (hframe : Frame s t) : Recorded t := by
  intro b hb
  rw [hframe.deferred] at hb
  rw [hframe.dylibs]
  exact h b hb

theorem record_binds (d : Deferred) (b : DeferredBind) :
    (record d b).binds =
      if d.binds.length < maxDeferredBinds then d.binds ++ [b] else d.binds := by
  rw [record]
  split <;> rfl

theorem mem_record {d : Deferred} {b b' : DeferredBind} (h : b' ∈ (record d b).binds) :
    b' ∈ d.binds ∨ b' = b := by
  rw [record_binds] at h
  split at h
  · simpa using h
  · exact .inl h

/-- A fixup that reads the library table behind its 64 entries. -/
def ReadsBeyond (image : MachoImage) (count : Nat) : Fixup → Prop
  | .chained c => fixupPtrBind c.raw ≠ 0 ∧
      ∃ imp, image.imports.import? (fixupBindOrdinal c.raw) = some imp ∧
        luaHook imp.1.symName = none ∧ maxDylibs < imp.1.libOrdinal ∧ imp.1.libOrdinal ≤ count
  | .bind b =>
    (bindSlot image.parsed.segments image.main.image.slide b).isSome ∧
      maxDylibs < b.imp.libOrdinal ∧ b.imp.libOrdinal ≤ count

section

variable {base : Pool → Addr} {image : MachoImage} {m m' : Machine} {c : ChainedSlot}
  {b : BindRequest} {slot : Addr}

theorem inRange_and_lt_iff {t : Dylibs} {libOrdinal : Int} :
    t.InRange libOrdinal ∧ maxDylibs < libOrdinal ↔
      maxDylibs < libOrdinal ∧ libOrdinal ≤ t.ndylibs := by
  rw [Dylibs.InRange, maxDylibs]
  omega

theorem fixChained_eq_none_iff :
    fixChained base image m c = none ↔ ReadsBeyond image m.rs.dylibs.ndylibs (.chained c) := by
  rw [fixChained, map_eq_none_iff, slotValue, ReadsBeyond]
  by_cases hbind : fixupPtrBind c.raw ≠ 0
  · rw [if_pos hbind, and_iff_right hbind]
    rw [resolveImport_importResolver, map_eq_none_iff, resolveImport]
    rcases image.imports.import? (fixupBindOrdinal c.raw) with _ | imp
    · simp
    · simp only [some.injEq, exists_eq_left', resolveChained_eq_none_iff, inRange_and_lt_iff]
  · simp only [hbind, if_false, false_and, reduceCtorEq]

theorem frame_fixChained (h : fixChained base image m c = some m') : Frame m.rs m'.rs := by
  obtain ⟨s, hs, rfl⟩ := map_eq_some_iff.mp h
  rw [slotValue] at hs
  split at hs
  · rw [resolveImport_importResolver] at hs
    obtain ⟨r, hcall, rfl⟩ := map_eq_some_iff.mp hs
    exact frame_resolveImport c.world _ hcall
  · obtain rfl := some.inj hs
    exact Frame.refl m.rs

theorem passFrame_bindDeferred : PassFrame m.rs (bindDeferred base m slot b).rs := by
  have hrecord : ∀ d, PassFrame m.rs { m.rs with deferred := record m.rs.deferred d } := by
    intro d
    rw [record]
    split <;> exact ⟨rfl, rfl, rfl, rfl, rfl⟩
  exact (hrecord _).trans (passFrame_of_frame
    ((avoids_allocReturn0Stub b.world _ (q := .weak) (by decide)).toFrame.countStubbed))

theorem binds_bindDeferred :
    (bindDeferred base m slot b).rs.deferred.binds =
      (record m.rs.deferred (deferredBind slot b)).binds :=
  congrArg Deferred.binds (avoids_allocReturn0Stub b.world _ (q := .weak) (by decide)).deferred

theorem frame_bindNow (h : bindNow base m slot b = some m') : Frame m.rs m'.rs := by
  obtain ⟨r, hr, rfl⟩ := map_eq_some_iff.mp h
  exact (avoids_resolveBindByName b.world b.imp b.addend hr).toFrame

theorem doBindOne_eq_none_iff (hmain : m.rs.main = image.main) :
    doBindOne base image.parsed.segments m b = none ↔
      ReadsBeyond image m.rs.dylibs.ndylibs (.bind b) := by
  have hnow : ∀ slot, (m.rs.dylibs.InRange b.imp.libOrdinal →
      (m.rs.dylibs.entryAt? b.imp.libOrdinal).isSome) → bindNow base m slot b ≠ none := by
    intro slot h hnone
    exact resolveBindByName_ne_none h (map_eq_none_iff.mp hnone)
  rw [doBindOne, ReadsBeyond, hmain]
  rcases bindSlot image.parsed.segments image.main.image.slide b with _ | slot
  · simp
  · simp only [isSome_some, true_and, ← inRange_and_lt_iff]
    by_cases hrange : m.rs.dylibs.InRange b.imp.libOrdinal
    · rw [if_pos hrange, and_iff_right hrange, ← Dylibs.entryAt?_eq_none_iff hrange]
      rcases hentry : m.rs.dylibs.entryAt? b.imp.libOrdinal with _ | de
      · simp
      · simp only [bind_some, reduceCtorEq, iff_false]
        split
        · simp
        · exact hnow slot fun _ => by simp [hentry]
    · simp only [hrange, false_and, iff_false]
      exact hnow slot fun h => absurd h hrange

/-- A bind has no slot, is recorded for a deferred library of the table, or is resolved. -/
theorem doBindOne_cases {segments : List Addr} (h : doBindOne base segments m b = some m') :
    (bindSlot segments m.rs.main.image.slide b = none ∧ m' = m) ∨
      ∃ slot, bindSlot segments m.rs.main.image.slide b = some slot ∧
        ((∃ de, m.rs.dylibs.InRange b.imp.libOrdinal ∧
            m.rs.dylibs.entryAt? b.imp.libOrdinal = some de ∧ de.action = .deferred ∧
            m' = bindDeferred base m slot b) ∨
          ((∀ de, m.rs.dylibs.InRange b.imp.libOrdinal →
              m.rs.dylibs.entryAt? b.imp.libOrdinal = some de → de.action ≠ .deferred) ∧
            bindNow base m slot b = some m')) := by
  rw [doBindOne] at h
  rcases hslot : bindSlot segments m.rs.main.image.slide b with _ | slot
  · rw [hslot] at h
    exact .inl ⟨rfl, (some.inj h).symm⟩
  · rw [hslot] at h
    refine .inr ⟨slot, rfl, ?_⟩
    simp only at h
    split at h
    · obtain ⟨de, hde, h⟩ := bind_eq_some_iff.mp h
      split at h
      · exact .inl ⟨de, ‹_›, hde, ‹_›, (some.inj h).symm⟩
      · refine .inr ⟨fun de' _ hde' => ?_, h⟩
        obtain rfl : de = de' := some.inj (hde.symm.trans hde')
        assumption
    · exact .inr ⟨fun _ hrange => absurd hrange ‹_›, h⟩

variable {segments : List Addr} {f : Fixup}

variable (base) in
theorem applyFixup_eq_none_iff (hmain : m.rs.main = image.main) :
    applyFixup base image image.parsed.segments m f = none ↔
      ReadsBeyond image m.rs.dylibs.ndylibs f := by
  cases f with
  | chained c => exact fixChained_eq_none_iff
  | bind b => exact doBindOne_eq_none_iff hmain

theorem passFrame_applyFixup (h : applyFixup base image segments m f = some m') :
    PassFrame m.rs m'.rs := by
  cases f with
  | chained c => exact passFrame_of_frame (frame_fixChained h)
  | bind b =>
    rcases doBindOne_cases h with ⟨-, rfl⟩ | ⟨slot, -, ⟨de, -, -, -, rfl⟩ | ⟨-, hnow⟩⟩
    · exact PassFrame.refl _
    · exact passFrame_bindDeferred
    · exact passFrame_of_frame (frame_bindNow hnow)

theorem recorded_applyFixup (h : applyFixup base image segments m f = some m')
    (hrecorded : Recorded m.rs) : Recorded m'.rs := by
  cases f with
  | chained c => exact hrecorded.of_frame (frame_fixChained h)
  | bind b =>
    rcases doBindOne_cases h with ⟨-, rfl⟩ | ⟨slot, -, ⟨de, -, hde, -, rfl⟩ | ⟨-, hnow⟩⟩
    · exact hrecorded
    · intro d hd
      rw [passFrame_bindDeferred.dylibs]
      rw [binds_bindDeferred] at hd
      rcases mem_record hd with hold | rfl
      · exact hrecorded d hold
      · exact ⟨de, hde⟩
    · exact hrecorded.of_frame (frame_bindNow hnow)

end

section

variable {base : Pool → Addr} {image : MachoImage} {m m' : Machine} {fixups : List Fixup}

theorem runFixups_keeps {segments : List Addr} (h : runFixups base image segments m fixups = some m')
    (hrecorded : Recorded m.rs) : PassFrame m.rs m'.rs ∧ Recorded m'.rs := by
  induction fixups generalizing m with
  | nil =>
    obtain rfl := some.inj h
    exact ⟨PassFrame.refl _, hrecorded⟩
  | cons f rest ih =>
    obtain ⟨next, hstep, hrest⟩ := bind_eq_some_iff.mp h
    obtain ⟨hframe, hlast⟩ := ih hrest (recorded_applyFixup hstep hrecorded)
    exact ⟨(passFrame_applyFixup hstep).trans hframe, hlast⟩

variable (base image m fixups) in
theorem runFixups_eq_none_iff (hmain : m.rs.main = image.main) :
    runFixups base image image.parsed.segments m fixups = none ↔
      ∃ f ∈ fixups, ReadsBeyond image m.rs.dylibs.ndylibs f := by
  induction fixups generalizing m with
  | nil => simp [runFixups]
  | cons f rest ih =>
    rw [runFixups, bind_eq_none_iff, exists_mem_cons_iff]
    rcases hstep : applyFixup base image image.parsed.segments m f with _ | next
    · simp only [reduceCtorEq, false_imp_iff, implies_true, true_iff]
      exact .inl ((applyFixup_eq_none_iff base hmain).mp hstep)
    · have hframe := passFrame_applyFixup hstep
      have hnot : ¬ ReadsBeyond image m.rs.dylibs.ndylibs f := by
        rw [← applyFixup_eq_none_iff base hmain, hstep]
        simp
      simp only [some.injEq, forall_eq', hnot, false_or]
      rw [ih next (hframe.main.trans hmain), hframe.dylibs]

variable (base m) in
theorem completeOne_isSome (w : World) {dylibs : Dylibs} {main : MainImage} {b : DeferredBind}
    (h : ∃ de, dylibs.entryAt? b.libOrdinal = some de) :
    ∃ next, completeOne base w dylibs main m b = some next := by
  obtain ⟨de, hde⟩ := h
  rw [completeOne, hde]
  exact ⟨_, rfl⟩

variable (base m) in
theorem completeAll_isSome (w : World) {dylibs : Dylibs} (main : MainImage)
    {binds : List DeferredBind} (h : ∀ b ∈ binds, ∃ de, dylibs.entryAt? b.libOrdinal = some de) :
    ∃ next, completeAll base w dylibs main m binds = some next := by
  induction binds generalizing m with
  | nil => exact ⟨m, rfl⟩
  | cons b rest ih =>
    obtain ⟨next, hnext⟩ := completeOne_isSome base m w (h b mem_cons_self)
    rw [completeAll, hnext]
    exact ih next fun b' hb' => h b' (mem_cons_of_mem _ hb')

end

/-- A resolution, and the completion if the program comes to it. -/
def resolveAndComplete (base : Pool → Addr) (h : Host) (mappings : List DylibMapping)
    (image : MachoImage) (mem : Memory) (completion : Option (Host × World)) : Option Machine :=
  (resolveFixups base h mappings image mem).bind fun m =>
    match completion with
    | none => some m
    | some (h', w) => resolverCompleteDeferred base h' w m

theorem ndylibs_dylibs (image : MachoImage) (h : Host) (mappings : List DylibMapping) :
    (image.dylibs h mappings).ndylibs = image.cmds.countP LoadCommand.isDylib := by
  rw [MachoImage.dylibs, MachoImage.parsed]
  split
  all_goals exact ndylibs_parseLoadCommands image.cmds

/-- The state the completion meets: it was saved with the library table of the image. -/
theorem resolveFixups_cases {base : Pool → Addr} {h : Host} {mappings : List DylibMapping}
    {image : MachoImage} {mem : Memory} {m : Machine}
    (hrun : resolveFixups base h mappings image mem = some m) :
    m.rs.deferred.resolved = false ∧
      m.rs.deferred.saved =
        (if defers (image.dylibs h mappings) then some (image.dylibs h mappings, image.main)
          else none) ∧
      ∀ b ∈ m.rs.deferred.binds, ∃ de, (image.dylibs h mappings).entryAt? b.libOrdinal = some de := by
  obtain ⟨pass, hpass, rfl⟩ := map_eq_some_iff.mp hrun
  obtain ⟨hframe, hrecorded⟩ := runFixups_keeps hpass (by intro b hb; exact absurd hb (by simp [initialState]))
  have hactive : pass.rs.deferred.active = defers (image.dylibs h mappings) := hframe.active
  have hresolved : pass.rs.deferred.resolved = false := hframe.resolved
  have hsaved : pass.rs.deferred.saved = none := hframe.saved
  have hdylibs : pass.rs.dylibs = image.dylibs h mappings := hframe.dylibs
  have hmain : pass.rs.main = image.main := hframe.main
  rw [Recorded, hdylibs] at hrecorded
  rw [saveDeferred, hresolved, hactive]
  cases hdefers : defers (image.dylibs h mappings) with
  | false => exact ⟨hresolved, hsaved, hrecorded⟩
  | true =>
    refine ⟨hresolved, ?_, hrecorded⟩
    simp only [hdylibs, hmain]
    rfl

theorem entry_opened {t : Dylibs} {binds : List DeferredBind} (h : Host)
    (hrecorded : ∀ b ∈ binds, ∃ de, t.entryAt? b.libOrdinal = some de) :
    ∀ b ∈ binds, ∃ de, (t.mapEntries (openDeferred h)).entryAt? b.libOrdinal = some de := by
  intro b hb
  obtain ⟨de, hde⟩ := hrecorded b hb
  exact ⟨openDeferred h de, by rw [Dylibs.entryAt?_mapEntries, hde, map_some]⟩

theorem completeDeferred_ne_none_iff {base : Pool → Addr} {h h' : Host} {w : World}
    {mappings : List DylibMapping} {image : MachoImage} {mem : Memory} {m : Machine}
    (hrun : resolveFixups base h mappings image mem = some m) :
    resolverCompleteDeferred base h' w m ≠ none ↔
      (defers (image.dylibs h mappings) → (image.dylibs h mappings).ndylibs ≤ maxDylibs) := by
  obtain ⟨hresolved, hsaved, hrecorded⟩ := resolveFixups_cases hrun
  rw [resolverCompleteDeferred, hresolved, hsaved]
  cases defers (image.dylibs h mappings) with
  | false => simp
  | true =>
    simp only [Bool.false_eq_true, if_false, if_true, true_imp_iff, openAllDeferred]
    split
    · obtain ⟨last, hlast⟩ := completeAll_isSome base (markResolved m) w image.main
        (entry_opened h' hrecorded)
      simp [*]
    · simp [*]

/-- Whatever the image and the libraries do, the resolver stays inside the library table exactly
if no bind that gets as far as the table names a library behind the 64th one, and no completion runs
for an image that counts more than 64 and defers one. -/
theorem table_reads_inside_iff (base : Pool → Addr) (h : Host) (mappings : List DylibMapping)
    (image : MachoImage) (mem : Memory) (completion : Option (Host × World)) :
    resolveAndComplete base h mappings image mem completion ≠ none ↔
      (∀ f ∈ image.fixups, ¬ ReadsBeyond image (image.cmds.countP LoadCommand.isDylib) f) ∧
        (completion.isSome → defers (image.dylibs h mappings) →
          image.cmds.countP LoadCommand.isDylib ≤ maxDylibs) := by
  have hpass := runFixups_eq_none_iff base image
    ⟨initialState image.main (image.dylibs h mappings), mem⟩ image.fixups rfl
  rw [← ndylibs_dylibs image h mappings, resolveAndComplete]
  rcases hrun : resolveFixups base h mappings image mem with _ | m
  · obtain ⟨f, hf, hreads⟩ := hpass.mp (map_eq_none_iff.mp hrun)
    simp only [bind_none, ne_eq, not_true, false_iff, not_and]
    intro hnone
    exact absurd hreads (hnone f hf)
  · have hinside : ∀ f ∈ image.fixups, ¬ ReadsBeyond image (image.dylibs h mappings).ndylibs f := by
      intro f hf hreads
      obtain ⟨pass, hsome, -⟩ := map_eq_some_iff.mp hrun
      rw [hpass.mpr ⟨f, hf, hreads⟩] at hsome
      exact absurd hsome (by simp)
    rw [bind_some, and_iff_right hinside]
    rcases completion with _ | ⟨h', w⟩
    · simp
    · simp only [isSome_some, true_imp_iff]
      exact completeDeferred_ne_none_iff hrun

def noHost : Host where
  dlopen := fun _ => 0
  dylibLoader := fun _ => none
  fileIsMacho := fun _ => false
  argv0 := none

/-- An image of 65 libraries with one bind from the last of them. -/
def manyDylibs : MachoImage where
  cmds := List.replicate 65 (.loadDylib (text "d")) ++ [.segment64 0x4000, .dyldInfoOnly]
  main := skippedState.main
  mhAddr := 0
  pointerFormat := .ptr64
  imports := { array := .unsupported, symbols := [] }
  slots := []
  binds := [⟨emptyWorld, 0, 0, ⟨65, false, text "_f"⟩, 0⟩]

theorem manyDylibs_reads_beyond :
    resolveAndComplete (fun _ => 0) noHost [] manyDylibs (fun _ => 0) none = none := by
  have hslot : (bindSlot manyDylibs.parsed.segments manyDylibs.main.image.slide
      ⟨emptyWorld, 0, 0, ⟨65, false, text "_f"⟩, 0⟩).isSome := by decide +kernel
  have hpass : runFixups (fun _ => 0) manyDylibs manyDylibs.parsed.segments
      ⟨initialState manyDylibs.main (manyDylibs.dylibs noHost []), fun _ => 0⟩
      manyDylibs.fixups = none := by
    apply (runFixups_eq_none_iff _ manyDylibs _ manyDylibs.fixups rfl).mpr
    refine ⟨.bind ⟨emptyWorld, 0, 0, ⟨65, false, text "_f"⟩, 0⟩, mem_singleton.mpr rfl, hslot, ?_⟩
    decide
  rw [resolveAndComplete, resolveFixups, hpass]
  rfl

end Machgate.DylibBounds
