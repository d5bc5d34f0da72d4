import Machgate.DylibBounds

namespace Machgate.DeferredPass

open ByteMemory SymbolIndex SymbolNames DylibTable SlotPool ResolverState ImportResolver Option List
open ResolverFrames ChainedFixups FixupPass DylibBounds ResolverState.State

def slot? (image : MachoImage) : Fixup → Option Addr
  | .chained c => some c.loc
  | .bind b => bindSlot image.parsed.segments image.main.image.slide b

def target? (image : MachoImage) : Fixup → Option (Addr × Import × BitVec 64)
  | .chained c =>
    if fixupPtrBind c.raw ≠ 0 then
      (image.imports.import? (fixupBindOrdinal c.raw)).map fun imp =>
        (c.loc, imp.1, fixupBindAddend c.raw + imp.2)
    else none
  | .bind b =>
    (bindSlot image.parsed.segments image.main.image.slide b).map fun slot =>
      (slot, b.imp, b.addend)

def worldOf : Fixup → World
  | .chained c => c.world
  | .bind b => b.world

/-- What a step asks to be recorded: only `do_bind_one` looks for deferred libraries. -/
def recordable (image : MachoImage) (dylibs : Dylibs) : Fixup → Option DeferredBind
  | .chained _ => none
  | .bind b =>
    (bindSlot image.parsed.segments image.main.image.slide b).bind fun slot =>
      if dylibs.InRange b.imp.libOrdinal ∧
          (dylibs.entryAt? b.imp.libOrdinal).map DylibEntry.action = some .deferred then
        some (deferredBind slot b)
      else none

section

variable {base : Pool → Addr} {image : MachoImage} {m m' : Machine} {f : Fixup}

theorem mem_applyFixup (h : applyFixup base image image.parsed.segments m f = some m')
    (hmain : m.rs.main = image.main) {byte : Addr}
    (hout : ∀ slot, slot? image f = some slot → ¬ InRange slot 8 byte) :
    m'.mem byte = m.mem byte := by
  cases f with
  | chained c =>
    obtain ⟨s, -, rfl⟩ := map_eq_some_iff.mp h
    exact writeMem_of_not_inRange (hout c.loc rfl)
  | bind b =>
    rcases doBindOne_cases h with ⟨-, rfl⟩ | ⟨slot, hslot, hcase⟩
    · rfl
    · rw [hmain] at hslot
      rcases hcase with ⟨de, -, -, -, rfl⟩ | ⟨-, hnow⟩
      · exact writeMem_of_not_inRange (hout slot hslot)
      · obtain ⟨r, -, rfl⟩ := map_eq_some_iff.mp hnow
        exact writeMem_of_not_inRange (hout slot hslot)

theorem recordable_eq_none {b : BindRequest} {dylibs : Dylibs}
    (h : ∀ de, dylibs.InRange b.imp.libOrdinal → dylibs.entryAt? b.imp.libOrdinal = some de →
      de.action ≠ .deferred) : recordable image dylibs (.bind b) = none := by
  rw [recordable, bind_eq_none_iff]
  intro slot _
  rw [if_neg]
  rintro ⟨hrange, haction⟩
  obtain ⟨de, hde, hdeferred⟩ := map_eq_some_iff.mp haction
  exact h de hrange hde hdeferred

theorem binds_applyFixup (h : applyFixup base image image.parsed.segments m f = some m')
    (hmain : m.rs.main = image.main) :
    m'.rs.deferred.binds =
      (m.rs.deferred.binds ++ (recordable image m.rs.dylibs f).toList).take maxDeferredBinds := by
  have hfull : m.rs.deferred.binds.take maxDeferredBinds = m.rs.deferred.binds :=
    take_of_length_le m.rs.deferred.length_le
  cases f with
  | chained c => rw [(frame_fixChained h).deferred, recordable, toList_none, append_nil, hfull]
  | bind b =>
    rcases doBindOne_cases h with ⟨hslot, rfl⟩ | ⟨slot, hslot, hcase⟩
    · rw [recordable, ← hmain, hslot, bind_none, toList_none, append_nil, hfull]
    · rcases hcase with ⟨de, hrange, hde, haction, rfl⟩ | ⟨hother, hnow⟩
      · have hrecordable : recordable image m.rs.dylibs (.bind b) = some (deferredBind slot b) := by
          rw [recordable, ← hmain, hslot, bind_some, hde, map_some, haction, if_pos ⟨hrange, rfl⟩]
        rw [hrecordable, binds_bindDeferred, record_binds, toList_some]
        split
        · exact (take_of_length_le (by rw [length_append]; exact ‹_›)).symm
        · rename_i hroom
          rw [take_append_of_le_length (Nat.le_of_not_lt hroom), hfull]
      · rw [recordable_eq_none hother, (frame_bindNow hnow).deferred, toList_none,
          append_nil, hfull]

end

theorem take_append_take {α : Type} (l r : List α) (n : Nat) :
    (l.take n ++ r).take n = (l ++ r).take n := by
  rcases Nat.le_total l.length n with hle | hle
  · rw [take_of_length_le hle]
  · rw [take_append_of_le_length (by rw [length_take]; omega),
      take_append_of_le_length hle, take_take, Nat.min_self]

variable {base : Pool → Addr} {image : MachoImage} {m m' : Machine} {fixups : List Fixup}

theorem runFixups_append (segments : List Addr) (m : Machine) (xs ys : List Fixup) :
    runFixups base image segments m (xs ++ ys) =
      (runFixups base image segments m xs).bind fun next =>
        runFixups base image segments next ys := by
  induction xs generalizing m with
  | nil => rfl
  | cons f rest ih =>
    rw [cons_append, runFixups, runFixups, bind_assoc]
    exact congrArg _ (funext fun next => ih next)

theorem mem_runFixups (h : runFixups base image image.parsed.segments m fixups = some m')
    (hmain : m.rs.main = image.main) {byte : Addr}
    (hout : ∀ f ∈ fixups, ∀ slot, slot? image f = some slot → ¬ InRange slot 8 byte) :
    m'.mem byte = m.mem byte := by
  induction fixups generalizing m with
  | nil =>
    obtain rfl := some.inj h
    rfl
  | cons f rest ih =>
    obtain ⟨next, hstep, hrest⟩ := bind_eq_some_iff.mp h
    rw [ih hrest ((passFrame_applyFixup hstep).main.trans hmain)
      fun g hg => hout g (mem_cons_of_mem _ hg)]
    exact mem_applyFixup hstep hmain (hout f mem_cons_self)

/-- The pass records the first 512 binds of deferred libraries, in order. -/
theorem binds_runFixups (h : runFixups base image image.parsed.segments m fixups = some m')
    (hmain : m.rs.main = image.main) :
    m'.rs.deferred.binds =
      (m.rs.deferred.binds ++ fixups.filterMap (recordable image m.rs.dylibs)).take
        maxDeferredBinds := by
  induction fixups generalizing m with
  | nil =>
    obtain rfl := some.inj h
    rw [filterMap_nil, append_nil, take_of_length_le m.rs.deferred.length_le]
  | cons f rest ih =>
    obtain ⟨next, hstep, hrest⟩ := bind_eq_some_iff.mp h
    have hframe := passFrame_applyFixup hstep
    rw [ih hrest (hframe.main.trans hmain), binds_applyFixup hstep hmain, hframe.dylibs,
      take_append_take, append_assoc]
    cases hr : recordable image m.rs.dylibs f with
    | none => rw [filterMap_cons_none hr, toList_none, nil_append]
    | some d => rw [filterMap_cons_some hr, toList_some, singleton_append]

end Machgate.DeferredPass
