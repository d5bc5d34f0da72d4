import Machgate.DeferredCompletion
import Machgate.DeferredPass

namespace Machgate.DeferredBinds

open ByteMemory SymbolIndex SymbolNames DylibTable SlotPool ResolverState ImportResolver
open Option List Bool
open ResolverFrames ChainedFixups FixupPass DylibBounds DeferredPass DeferredCompletion
open ResolverState.State

/-- One step of the pass binds a symbol of a library that is opened only by the completion, and no
other step writes its slot. -/
structure BindsDeferred (h : Host) (mappings : List DylibMapping) (image : MachoImage)
    (before : List Fixup) (f : Fixup) (after : List Fixup) (slot : Addr) (imp : Import)
    (addend : BitVec 64) (de : DylibEntry) : Prop where
  fixups : image.fixups = before ++ f :: after
  target : target? image f = some (slot, imp, addend)
  inRange : (image.dylibs h mappings).InRange imp.libOrdinal
  entry : (image.dylibs h mappings).entryAt? imp.libOrdinal = some de
  deferred : de.action = .deferred
  apart : ∀ g ∈ before ++ after, ∀ other, slot? image g = some other → Apart other 8 slot 8

def completeUpTo (base : Pool → Addr) (h : Host) (mappings : List DylibMapping)
    (image : MachoImage) (mem : Memory) (h' : Host) (w' : World) (i : Nat) : Option Machine :=
  (resolveFixups base h mappings image mem).bind fun m =>
    (openAllDeferred h' (image.dylibs h mappings)).bind fun opened =>
      completeAll base w' opened image.main (markResolved m) (m.rs.deferred.binds.take i)

section

variable {base : Pool → Addr} {h h' : Host} {w' : World} {mappings : List DylibMapping}
  {image : MachoImage} {mem : Memory} {m : Machine} {before after : List Fixup} {f : Fixup}
  {slot : Addr} {imp : Import} {addend : BitVec 64} {de : DylibEntry}

theorem defers_of_entry {t : Dylibs} {libOrdinal : Int} (hentry : t.entryAt? libOrdinal = some de)
    (haction : de.action = .deferred) : defers t = true := by
  rw [defers, List.any_eq_true]
  exact ⟨de, mem_of_getElem? hentry, by simpa using haction⟩

theorem slot_of_recordable {dylibs : Dylibs} {d : DeferredBind}
    (hd : recordable image dylibs f = some d) : slot? image f = some d.gotSlot := by
  cases f with
  | chained c => exact absurd hd (by simp [recordable])
  | bind b =>
    obtain ⟨slot, hslot, hif⟩ := bind_eq_some_iff.mp hd
    split at hif
    · obtain rfl := some.inj hif
      exact hslot
    · exact absurd hif (by simp)

theorem BindsDeferred.not_inRange (hb : BindsDeferred h mappings image before f after slot imp addend de)
    {d : DeferredBind}
    (hd : d ∈ (before ++ after).filterMap (recordable image (image.dylibs h mappings)))
    {byte : Addr} (hbyte : InRange slot 8 byte) : ¬ InRange d.gotSlot 8 byte := by
  obtain ⟨g, hg, hrec⟩ := mem_filterMap.mp hd
  exact fun hother => hb.apart g hg _ (slot_of_recordable hrec) byte hother hbyte

theorem binds_resolveFixups (hrun : resolveFixups base h mappings image mem = some m) :
    m.rs.deferred.binds =
      (image.fixups.filterMap (recordable image (image.dylibs h mappings))).take
        maxDeferredBinds := by
  obtain ⟨pass, hpass, rfl⟩ := map_eq_some_iff.mp hrun
  have hbinds := binds_runFixups hpass rfl
  rw [saveDeferred]
  split
  · exact hbinds
  · exact hbinds

theorem mem_saveDeferred (m : Machine) : (saveDeferred m).mem = m.mem := by
  rw [saveDeferred]
  split
  · rfl
  · rfl

theorem BindsDeferred.readMem_resolveFixups
    (hb : BindsDeferred h mappings image before f after slot imp addend de)
    (hrun : resolveFixups base h mappings image mem = some m) :
    ∃ pre post, applyFixup base image image.parsed.segments pre f = some post ∧
      pre.rs.main = image.main ∧ pre.rs.dylibs = image.dylibs h mappings ∧
      readMem m.mem slot 8 = readMem post.mem slot 8 := by
  obtain ⟨pass, hpass, rfl⟩ := map_eq_some_iff.mp hrun
  rw [hb.fixups, runFixups_append] at hpass
  obtain ⟨pre, hpre, hrest⟩ := bind_eq_some_iff.mp hpass
  obtain ⟨post, hpost, hafter⟩ := bind_eq_some_iff.mp hrest
  have hframe := (runFixups_keeps hpre (by intro b hb; exact absurd hb (by simp [initialState]))).1
  refine ⟨pre, post, hpost, hframe.main, hframe.dylibs, ?_⟩
  rw [mem_saveDeferred]
  apply readMem_congr (by decide)
  intro byte hbyte
  refine mem_runFixups hafter ((passFrame_applyFixup hpost).main.trans hframe.main) ?_
  exact fun g hg other hother hin => hb.apart g (mem_append_right _ hg) other hother byte hin hbyte

theorem resolveAndComplete_of_defers (hdefers : defers (image.dylibs h mappings) = true) :
    resolveAndComplete base h mappings image mem (some (h', w')) =
      (resolveFixups base h mappings image mem).bind fun m =>
        (openAllDeferred h' (image.dylibs h mappings)).bind fun opened =>
          completeAll base w' opened image.main (markResolved m) m.rs.deferred.binds := by
  rw [resolveAndComplete]
  rcases hrun : resolveFixups base h mappings image mem with _ | m
  · rfl
  · obtain ⟨hresolved, hsaved, -⟩ := resolveFixups_cases hrun
    rw [hdefers, if_pos rfl] at hsaved
    simp only [bind_some, resolverCompleteDeferred, hresolved, hsaved, false_eq_true, if_false]

section

variable (hb : BindsDeferred h mappings image before f after slot imp addend de)

include hb

theorem BindsDeferred.defers : defers (image.dylibs h mappings) = true :=
  defers_of_entry hb.entry hb.deferred

theorem BindsDeferred.recordable_bind {b : BindRequest} (hf : f = .bind b) :
    b.imp = imp ∧ b.addend = addend ∧
      bindSlot image.parsed.segments image.main.image.slide b = some slot ∧
      recordable image (image.dylibs h mappings) f = some (deferredBind slot b) := by
  subst hf
  obtain ⟨place, hslot, heq⟩ := map_eq_some_iff.mp hb.target
  obtain ⟨rfl, rfl, rfl⟩ : place = slot ∧ b.imp = imp ∧ b.addend = addend := by simpa using heq
  refine ⟨rfl, rfl, hslot, ?_⟩
  rw [recordable, hslot, bind_some, hb.entry, map_some, hb.deferred, if_pos ⟨hb.inRange, rfl⟩]

theorem BindsDeferred.stub_ne {pre post : Machine} {pageSize : Nat} {addr : Addr}
    (hfresh : Fresh base (worldOf f) pageSize image.main addr (addr + addend))
    (hpost : applyFixup base image image.parsed.segments pre f = some post)
    (hmain : pre.rs.main = image.main) (hdylibs : pre.rs.dylibs = image.dylibs h mappings) :
    readMem post.mem slot 8 ≠ addr + addend := by
  have hrange := hb.inRange
  have hentry := hb.entry
  rw [← hdylibs] at hrange hentry
  cases f with
  | chained c =>
    have htarget := hb.target
    rw [target?] at htarget
    split at htarget
    · rename_i hbind
      obtain ⟨found, himp, heq⟩ := map_eq_some_iff.mp htarget
      obtain ⟨rfl, rfl, rfl⟩ : c.loc = slot ∧ found.1 = imp ∧
          fixupBindAddend c.raw + found.2 = addend := by simpa using heq
      obtain ⟨s, hs, rfl⟩ := map_eq_some_iff.mp hpost
      rw [readMem_writeMem _ _ _ (by decide)]
      rw [slotValue, if_pos hbind, importResolver] at hs ⊢
      simp only [bind_some, resolveImport, himp] at hs ⊢
      rcases hr : resolveChained c.world pre.rs found.1 (fixupBindAddend c.raw + found.2) with _ | r
      · rw [hr] at hs
        exact absurd hs (by simp)
      · exact hfresh.resolveChained_ne hrange hentry hb.deferred hr
    · exact absurd htarget (by simp)
  | bind b =>
    obtain ⟨rfl, rfl, hslot, -⟩ := hb.recordable_bind rfl
    rw [← hmain] at hslot
    rcases doBindOne_cases hpost with ⟨hnone, -⟩ | ⟨place, hplace, hcase⟩
    · exact absurd (hslot.symm.trans hnone) (by simp)
    · obtain rfl : slot = place := some.inj (hslot.symm.trans hplace)
      rcases hcase with ⟨de', -, -, -, rfl⟩ | ⟨hother, -⟩
      · rw [bindDeferred, store, readMem_writeMem _ _ _ (by decide)]
        exact hfresh.return0_ne b.world _
      · exact absurd hb.deferred (hother de hrange hentry)

end

variable (base mem) in
theorem resolveFixups_isSome (hcount : (image.dylibs h mappings).ndylibs ≤ maxDylibs) :
    ∃ m, resolveFixups base h mappings image mem = some m := by
  rcases hrun : resolveFixups base h mappings image mem with _ | m
  · obtain ⟨g, -, hreads⟩ := (runFixups_eq_none_iff base image _ image.fixups rfl).mp
      (map_eq_none_iff.mp hrun)
    have hcount' : ((image.dylibs h mappings).ndylibs : Int) ≤ maxDylibs := by exact_mod_cast hcount
    cases g with
    | chained c =>
      obtain ⟨-, imp, -, -, hlow, hhigh⟩ := hreads
      exact absurd (hhigh.trans hcount') (not_le.mpr hlow)
    | bind b =>
      obtain ⟨-, hlow, hhigh⟩ := hreads
      exact absurd (hhigh.trans hcount') (not_le.mpr hlow)
  · exact ⟨m, rfl⟩

theorem take_append_cons {α : Type} {xs : List α} (x : α) (ys : List α) {n : Nat}
    (hroom : xs.length < n) :
    ∃ rest, (∀ y ∈ rest, y ∈ ys) ∧ (xs ++ x :: ys).take n = xs ++ x :: rest := by
  obtain ⟨k, hk⟩ := Nat.exists_eq_add_of_lt hroom
  refine ⟨ys.take k, fun y hy => mem_of_mem_take hy, ?_⟩
  rw [hk, Nat.add_assoc, take_length_add_append, take_succ_cons]

section

variable (hb : BindsDeferred h mappings image before f after slot imp addend de)

include hb

/-- A bind that is recorded is completed, and no later bind takes that back. -/
theorem BindsDeferred.completed_of_recorded {b : BindRequest} {addr : Addr} (hf : f = .bind b)
    (hcount : (image.dylibs h mappings).ndylibs ≤ maxDylibs)
    (hroom : (before.filterMap (recordable image (image.dylibs h mappings))).length <
      maxDeferredBinds) (hopen : h'.dlopen de.soPath ≠ 0)
    (haddr : lookupMapped w' (openDeferred h' de) (lookupName imp.symName) = addr)
    (hfound : addr ≠ 0) :
    ∃ mid last, completeUpTo base h mappings image mem h' w'
        (before.filterMap (recordable image (image.dylibs h mappings))).length = some mid ∧
      resolveAndComplete base h mappings image mem (some (h', w')) = some last ∧
      readMem last.mem slot 8 =
        (completedAddress w' image.main mid.rs imp.symName addr addend).toAddr base := by
  obtain ⟨m, hrun⟩ := resolveFixups_isSome base mem hcount
  obtain ⟨rfl, rfl, -, hrecord⟩ := hb.recordable_bind hf
  obtain ⟨rest, hrest, htake⟩ := take_append_cons (deferredBind slot b)
    (after.filterMap (recordable image (image.dylibs h mappings))) hroom
  have hbinds := binds_resolveFixups hrun
  rw [hb.fixups, filterMap_append, filterMap_cons_some hrecord, htake] at hbinds
  have hopened : openAllDeferred h' (image.dylibs h mappings) =
      some ((image.dylibs h mappings).mapEntries (openDeferred h')) := if_pos hcount
  obtain ⟨last, hlast⟩ := completeAll_isSome base (markResolved m) w' image.main
    (entry_opened h' (resolveFixups_cases hrun).2.2)
  have hwhole := hlast
  rw [hbinds, completeAll_append] at hlast
  obtain ⟨mid, hmid, hlater⟩ := bind_eq_some_iff.mp hlast
  obtain ⟨next, hone, hafter⟩ := bind_eq_some_iff.mp hlater
  refine ⟨mid, last, ?_, ?_, ?_⟩
  · rw [completeUpTo, hrun, bind_some, hopened, bind_some, hbinds, take_left]
    exact hmid
  · rw [resolveAndComplete_of_defers hb.defers, hrun, bind_some, hopened, bind_some]
    exact hwhole
  · have hentry : ((image.dylibs h mappings).mapEntries (openDeferred h')).entryAt?
        (deferredBind slot b).libOrdinal = some (openDeferred h' de) := by
      rw [Dylibs.entryAt?_mapEntries, deferredBind, hb.entry, map_some]
    have hhandle : (openDeferred h' de).handle ≠ 0 := by
      rw [openDeferred, if_pos hb.deferred, if_neg hopen]
      exact hopen
    have hvalue := readMem_completeOne hone hentry hhandle haddr hfound
    refine Eq.trans ?_ hvalue
    apply readMem_congr (by decide)
    intro byte hbyte
    refine mem_completeAll hafter fun d hd => hb.not_inRange ?_ hbyte
    rw [filterMap_append]
    exact mem_append_right _ (hrest d hd)

theorem BindsDeferred.ne_of_unrecorded {pageSize : Nat} {addr : Addr} {last : Machine}
    (hfresh : Fresh base (worldOf f) pageSize image.main addr (addr + addend))
    (hother : ∀ d ∈ (image.fixups.filterMap (recordable image (image.dylibs h mappings))).take
        maxDeferredBinds,
      d ∈ (before ++ after).filterMap (recordable image (image.dylibs h mappings)))
    (hlast : resolveAndComplete base h mappings image mem (some (h', w')) = some last) :
    readMem last.mem slot 8 ≠ addr + addend := by
  rw [resolveAndComplete_of_defers hb.defers] at hlast
  obtain ⟨m, hrun, hlast⟩ := bind_eq_some_iff.mp hlast
  obtain ⟨opened, -, hlast⟩ := bind_eq_some_iff.mp hlast
  obtain ⟨pre, post, hpost, hmain, hdylibs, hread⟩ := hb.readMem_resolveFixups hrun
  rw [binds_resolveFixups hrun] at hlast
  have hkeep : readMem last.mem slot 8 = readMem m.mem slot 8 := by
    apply readMem_congr (by decide)
    intro byte hbyte
    exact mem_completeAll hlast fun d hd => hb.not_inRange (hother d hd) hbyte
  rw [hkeep, hread]
  exact hb.stub_ne hfresh hpost hmain hdylibs

end

/-- What the completion needs to bind the symbol to its library: the image was linked with
`LC_DYLD_INFO`, all its libraries and the binds of deferred libraries up to this one fit their
tables, and neither an operator of the image nor a constructor adapter takes the slot. -/
structure ReachesLibrary (base : Pool → Addr) (h : Host) (mappings : List DylibMapping)
    (image : MachoImage) (mem : Memory) (h' : Host) (w' : World) (before : List Fixup)
    (imp : Import) (addend : BitVec 64) (addr : Addr) : Prop where
  dyldInfo : image.parsed.hasChainedFixups = false
  count_le : image.cmds.countP LoadCommand.isDylib ≤ maxDylibs
  room : (before.filterMap (recordable image (image.dylibs h mappings))).length < maxDeferredBinds
  noOverride : resolveMainCxxOperatorOverride w' image.main imp.symName addr addend = 0
  noAdapter : ∀ mid, completeUpTo base h mappings image mem h' w'
      (before.filterMap (recordable image (image.dylibs h mappings))).length = some mid →
    ¬ WrapsCtor w' mid.rs imp.symName

theorem mem_fixups_bind (hf : f ∈ image.fixups) (hinfo : image.parsed.hasChainedFixups = false) :
    ∃ b, f = .bind b := by
  rw [MachoImage.fixups, hinfo] at hf
  simp only [false_eq_true, if_false] at hf
  split at hf
  · obtain ⟨b, -, rfl⟩ := mem_map.mp hf
    exact ⟨b, rfl⟩
  · exact absurd hf (by simp)

theorem mem_fixups_chained (hf : f ∈ image.fixups) (hchained : image.parsed.hasChainedFixups = true) :
    ∃ c, f = .chained c := by
  rw [MachoImage.fixups, if_pos hchained] at hf
  obtain ⟨c, -, rfl⟩ := mem_map.mp hf
  exact ⟨c, rfl⟩

end

def EndsWith (base : Pool → Addr) (h : Host) (mappings : List DylibMapping) (image : MachoImage)
    (mem : Memory) (h' : Host) (w' : World) (slot value : Addr) : Prop :=
  ∃ last, resolveAndComplete base h mappings image mem (some (h', w')) = some last ∧
    readMem last.mem slot 8 = value

theorem EndsWith.unique {base : Pool → Addr} {h : Host} {mappings : List DylibMapping}
    {image : MachoImage} {mem : Memory} {h' : Host} {w' : World} {slot value value' : Addr}
    (hends : EndsWith base h mappings image mem h' w' slot value)
    (hends' : EndsWith base h mappings image mem h' w' slot value') : value = value' := by
  obtain ⟨last, hlast, rfl⟩ := hends
  obtain ⟨last', hlast', rfl⟩ := hends'
  rw [some.inj (hlast.symm.trans hlast')]

/-- A bind to a library that the completion opens ends with the library's address for the symbol if
the completion reaches it; and, where nothing else lies at that address, only then. -/
theorem deferred_bind_reaches_library_iff (base : Pool → Addr) (h : Host)
    (mappings : List DylibMapping) (image : MachoImage) (mem : Memory) (h' : Host) (w' : World)
    (before after : List Fixup) (f : Fixup) (slot : Addr) (imp : Import) (addend : BitVec 64)
    (de : DylibEntry) (addr : Addr)
    (hb : BindsDeferred h mappings image before f after slot imp addend de)
    (hopen : h'.dlopen de.soPath ≠ 0)
    (haddr : lookupMapped w' (openDeferred h' de) (lookupName imp.symName) = addr)
    (hfound : addr ≠ 0) :
    (ReachesLibrary base h mappings image mem h' w' before imp addend addr →
        EndsWith base h mappings image mem h' w' slot (addr + addend)) ∧
      (Fresh base (worldOf f) w'.pageSize image.main addr (addr + addend) →
        EndsWith base h mappings image mem h' w' slot (addr + addend) →
          ReachesLibrary base h mappings image mem h' w' before imp addend addr) := by
  have hmem : f ∈ image.fixups := by
    rw [hb.fixups]
    exact mem_append_right _ mem_cons_self
  refine ⟨?_, ?_⟩
  · intro hreach
    obtain ⟨b, hf⟩ := mem_fixups_bind hmem hreach.dyldInfo
    have hcount := hreach.count_le
    rw [← ndylibs_dylibs image h mappings] at hcount
    obtain ⟨mid, last, hmid, hlast, hvalue⟩ :=
      hb.completed_of_recorded hf hcount hreach.room hopen haddr hfound
    rw [completedAddress_of_not_wraps hreach.noOverride (hreach.noAdapter mid hmid)] at hvalue
    exact ⟨last, hlast, hvalue⟩
  · rintro hfresh ⟨last, hlast, hread⟩
    have hcount : (image.dylibs h mappings).ndylibs ≤ maxDylibs := by
      obtain ⟨m, hrun, hcomplete⟩ := bind_eq_some_iff.mp hlast
      exact (completeDeferred_ne_none_iff hrun).mp (ne_none_iff_exists'.mpr ⟨last, hcomplete⟩)
        hb.defers
    have hinfo : image.parsed.hasChainedFixups = false := by
      rw [← not_eq_true]
      intro hchained
      obtain ⟨c, rfl⟩ := mem_fixups_chained hmem hchained
      refine hb.ne_of_unrecorded hfresh ?_ hlast hread
      rw [hb.fixups, filterMap_append, filterMap_cons_none rfl, ← filterMap_append]
      exact fun d hd => mem_of_mem_take hd
    obtain ⟨b, hf⟩ := mem_fixups_bind hmem hinfo
    have hroom : (before.filterMap (recordable image (image.dylibs h mappings))).length <
        maxDeferredBinds := by
      by_contra hfull
      refine hb.ne_of_unrecorded hfresh ?_ hlast hread
      rw [hb.fixups, filterMap_append, filterMap_append, take_append_of_le_length (not_lt.mp hfull)]
      exact fun d hd => mem_append_left _ (mem_of_mem_take hd)
    obtain ⟨mid, last', hmid, hlast', hvalue⟩ :=
      hb.completed_of_recorded hf hcount hroom hopen haddr hfound
    obtain rfl : last = last' := some.inj (hlast.symm.trans hlast')
    obtain ⟨hoverride, hwraps⟩ := hfresh.completedAddress_eq_iff.mp (hvalue.symm.trans hread)
    rw [ndylibs_dylibs] at hcount
    refine ⟨hinfo, hcount, hroom, hoverride, ?_⟩
    intro mid' hmid'
    obtain rfl : mid = mid' := some.inj (hmid.symm.trans hmid')
    exact hwraps

def glMappings : List DylibMapping := [⟨text "libGL", text "DEFERRED:libGL.so"⟩]

def glEntry : DylibEntry :=
  { newEntry (text "libGL.dylib") with action := .deferred, soPath := text "libGL.so" }

/-- The host and the world once there is a context: the library opens and has the symbol. -/
def glHost : Host := { noHost with dlopen := fun path => if path = text "libGL.so" then 0x1000 else 0 }

def glWorld : World :=
  { emptyWorld with
    dlsym := fun handle name => if handle = 0x1000 ∧ name = text "glClear" then 0x5000 else 0 }

def glBind : BindRequest := ⟨emptyWorld, 0, 0, ⟨1, false, text "_glClear"⟩, 0⟩

def glInfo : MachoImage where
  cmds := [.loadDylib (text "libGL.dylib"), .segment64 0x4000, .dyldInfoOnly]
  main := skippedState.main
  mhAddr := 0
  pointerFormat := .ptr64
  imports := { array := .unsupported, symbols := [] }
  slots := []
  binds := [glBind]

def glSlot : ChainedSlot := ⟨emptyWorld, 0x4000, 0x8000000000000000⟩

def glChained : MachoImage where
  cmds := [.loadDylib (text "libGL.dylib"), .segment64 0x4000, .dyldChainedFixups]
  main := skippedState.main
  mhAddr := 0
  pointerFormat := .ptr64
  imports := { array := .imports [⟨1, false, 0⟩], symbols := text "_glClear" }
  slots := [glSlot]
  binds := []

def glBase : Pool → Addr := fun _ => 0x7f0000000000

theorem glInfo_bindsDeferred :
    BindsDeferred noHost glMappings glInfo [] (.bind glBind) [] 0x4000 glBind.imp 0 glEntry where
  fixups := rfl
  target := rfl
  inRange := by decide
  entry := rfl
  deferred := rfl
  apart := by simp

theorem glChained_bindsDeferred :
    BindsDeferred noHost glMappings glChained [] (.chained glSlot) [] 0x4000 glBind.imp 0 glEntry where
  fixups := rfl
  target := rfl
  inRange := by decide
  entry := rfl
  deferred := rfl
  apart := by simp

theorem glInfo_reaches_library :
    EndsWith glBase noHost glMappings glInfo (fun _ => 0) glHost glWorld 0x4000 (0x5000 + 0) ∧
      ReachesLibrary glBase noHost glMappings glInfo (fun _ => 0) glHost glWorld [] glBind.imp 0
        0x5000 := by
  have hreach := deferred_bind_reaches_library_iff glBase noHost glMappings glInfo (fun _ => 0)
    glHost glWorld [] [] (.bind glBind) 0x4000 glBind.imp 0 glEntry 0x5000 glInfo_bindsDeferred
    (by decide +kernel) (by decide +kernel) (by decide)
  have hends := hreach.1
    { dyldInfo := rfl
      count_le := by decide
      room := by decide
      noOverride := by decide +kernel
      noAdapter := fun mid _ hwraps => absurd hwraps.1 (by decide +kernel) }
  refine ⟨hends, hreach.2 ?_ hends⟩
  exact
    { ne_null := by decide
      outside := fun p => by cases p <;> decide
      own := fun f => by change (1 : Addr) ≠ _ ∧ (1 : Addr) ≠ _; decide
      unloaded := fun name => by change (0 : Addr) ≠ _; decide
      image := fun name result hresult => by cases hresult }

/-- The slot of the chained image still holds the stub that returns 0. -/
theorem glChained_keeps_stub :
    BindsDeferred noHost glMappings glChained [] (.chained glSlot) [] 0x4000 glBind.imp 0 glEntry ∧
      glHost.dlopen glEntry.soPath ≠ 0 ∧
      lookupMapped glWorld (openDeferred glHost glEntry) (lookupName glBind.imp.symName) = 0x5000 ∧
      EndsWith glBase noHost glMappings glChained (fun _ => 0) glHost glWorld 0x4000
        (glBase .return0) ∧
      ¬ EndsWith glBase noHost glMappings glChained (fun _ => 0) glHost glWorld 0x4000 0x5000 := by
  have hends : EndsWith glBase noHost glMappings glChained (fun _ => 0) glHost glWorld 0x4000
      (glBase .return0) := ⟨_, rfl, by decide +kernel⟩
  refine ⟨glChained_bindsDeferred, by decide +kernel, by decide +kernel, hends, ?_⟩
  intro hlibrary
  exact absurd (hends.unique hlibrary) (by decide)

end Machgate.DeferredBinds
