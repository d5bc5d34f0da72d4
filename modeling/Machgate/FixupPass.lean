import Machgate.ChainedFixups
import Machgate.ResolverFrames

namespace Machgate.FixupPass

open ByteMemory SymbolNames DylibTable SlotPool ResolverState ImportResolver ResolverFrames
open ChainedFixups ResolverState.State

structure Machine where
  rs : State
  mem : Memory

/-- A slot `walk_chain` comes to, with the raw pointer it finds there and the world it meets. -/
structure ChainedSlot where
  world : World
  loc : Addr
  raw : BitVec 64

structure BindRequest where
  world : World
  segIndex : Nat
  segOffset : BitVec 64
  imp : Import
  addend : BitVec 64

inductive Fixup
  | chained (c : ChainedSlot)
  | bind (b : BindRequest)

/-- The image a resolution works on; `slots` and `binds` are what its two kinds of fixup data make
the passes do. -/
structure MachoImage where
  cmds : List LoadCommand
  main : MainImage
  mhAddr : BitVec 64
  pointerFormat : PointerFormat
  imports : ImportTable
  slots : List ChainedSlot
  binds : List BindRequest

def store (base : Pool → Addr) (mem : Memory) (slot : Addr) (a : Address) : Memory :=
  writeMem mem slot 8 (a.toAddr base)

/-- `resolve_import` for the walk; there is no state after a read outside the library table. -/
def importResolver (base : Pool → Addr) (image : MachoImage) (w : World) :
    Resolver (Option State) where
  slide := image.main.image.slide
  mhAddr := image.mhAddr
  resolveImport := fun rs ordinal addend _ =>
    match rs.bind fun s => resolveImport w s image.imports ordinal addend with
    | some r => (some r.1, r.2.toAddr base)
    | none => (none, 0)

theorem resolveImport_importResolver (base : Pool → Addr) (image : MachoImage) (w : World) (s : State)
    (ordinal : BitVec 32) (addend : BitVec 64) (slot : Addr) :
    ((importResolver base image w).resolveImport (some s) ordinal addend slot).1 =
      (resolveImport w s image.imports ordinal addend).map Prod.fst := by
  rw [importResolver]
  rcases h : resolveImport w s image.imports ordinal addend with _ | r
  · simp [h]
  · simp [h]

def fixChained (base : Pool → Addr) (image : MachoImage) (m : Machine) (c : ChainedSlot) :
    Option Machine :=
  let resolved := slotValue (importResolver base image c.world) image.pointerFormat (some m.rs) c.loc
    c.raw
  resolved.1.map fun s => { rs := s, mem := writeMem m.mem c.loc 8 resolved.2 }

def record (d : Deferred) (b : DeferredBind) : Deferred :=
  if h : d.binds.length < maxDeferredBinds then
    { d with
      binds := d.binds ++ [b]
      length_le := by rw [List.length_append]; exact h }
  else d

/-- The slot of a bind; a segment index out of range binds nothing. -/
def bindSlot (segments : List Addr) (slide : BitVec 64) (b : BindRequest) : Option Addr :=
  segments[b.segIndex]?.map fun vmaddr => vmaddr + slide + b.segOffset

def bindNow (base : Pool → Addr) (m : Machine) (slot : Addr) (b : BindRequest) : Option Machine :=
  (resolveBindByName b.world m.rs b.imp b.addend).map fun r =>
    { rs := r.1, mem := store base m.mem slot r.2 }

def deferredBind (slot : Addr) (b : BindRequest) : DeferredBind where
  gotSlot := slot
  symName := b.imp.symName
  libOrdinal := b.imp.libOrdinal
  weak := b.imp.weak
  addend := b.addend

/-- The bind of a deferred library: it is recorded while there is room, and stubbed. -/
def bindDeferred (base : Pool → Addr) (m : Machine) (slot : Addr) (b : BindRequest) : Machine :=
  let recorded := { m.rs with deferred := record m.rs.deferred (deferredBind slot b) }
  let stub := allocReturn0Stub b.world recorded
  { rs := stub.1.countStubbed, mem := store base m.mem slot stub.2 }

def doBindOne (base : Pool → Addr) (segments : List Addr) (m : Machine) (b : BindRequest) :
    Option Machine :=
  match bindSlot segments m.rs.main.image.slide b with
  | none => some m
  | some slot =>
    if m.rs.dylibs.InRange b.imp.libOrdinal then
      (m.rs.dylibs.entryAt? b.imp.libOrdinal).bind fun de =>
        if de.action = .deferred then some (bindDeferred base m slot b)
        else bindNow base m slot b
    else bindNow base m slot b

def applyFixup (base : Pool → Addr) (image : MachoImage) (segments : List Addr) (m : Machine) :
    Fixup → Option Machine
  | .chained c => fixChained base image m c
  | .bind b => doBindOne base segments m b

def runFixups (base : Pool → Addr) (image : MachoImage) (segments : List Addr) :
    Machine → List Fixup → Option Machine
  | m, [] => some m
  | m, f :: rest => (applyFixup base image segments m f).bind fun next =>
    runFixups base image segments next rest

def MachoImage.parsed (image : MachoImage) : ParsedCommands := parseLoadCommands image.cmds

/-- The pass that runs: chained fixups before the opcodes of `LC_DYLD_INFO`. -/
def MachoImage.fixups (image : MachoImage) : List Fixup :=
  if image.parsed.hasChainedFixups then image.slots.map .chained
  else if image.parsed.hasDyldInfo then image.binds.map .bind
  else []

/-- The library table the pass works with; an image without fixups opens no library. -/
def MachoImage.dylibs (image : MachoImage) (h : Host) (mappings : List DylibMapping) : Dylibs :=
  if image.parsed.hasChainedFixups || image.parsed.hasDyldInfo then
    openDylibs h mappings image.parsed.dylibs
  else image.parsed.dylibs

def initialState (main : MainImage) (dylibs : Dylibs) : State where
  main := main
  dylibs := dylibs
  pools := fun _ => none
  bindsResolved := 0
  bindsStubbed := 0
  bindsFailed := 0
  deferred :=
    { binds := [], active := defers dylibs, resolved := false, saved := none
      length_le := Nat.zero_le _ }
  realSDLGLCreateContext := .null
  realSDLGLSetAttribute := .null

def saveDeferred (m : Machine) : Machine :=
  if m.rs.deferred.active && !m.rs.deferred.resolved then
    { m with rs := { m.rs with
        deferred := { m.rs.deferred with saved := some (m.rs.dylibs, m.rs.main) } } }
  else m

def resolveFixups (base : Pool → Addr) (h : Host) (mappings : List DylibMapping)
    (image : MachoImage) (mem : Memory) : Option Machine :=
  (runFixups base image image.parsed.segments
    { rs := initialState image.main (image.dylibs h mappings), mem := mem } image.fixups).map
      saveDeferred

/-- Phase 1 of `resolver_complete_deferred` for one entry. -/
def openDeferred (h : Host) (de : DylibEntry) : DylibEntry :=
  if de.action = .deferred then
    let handle := h.dlopen de.soPath
    if handle = 0 then { de with handle := handle } else { de with handle := handle, action := .map }
  else de

/-- Phase 1 runs to the count, past the table if the count is larger. -/
def openAllDeferred (h : Host) (t : Dylibs) : Option Dylibs :=
  if t.ndylibs ≤ maxDylibs then some (t.mapEntries (openDeferred h)) else none

/-- The address phase 2 finds for a bind whose library is open. -/
def deferredTarget (w : World) (main : MainImage) (de : DylibEntry) (b : DeferredBind) :
    Option Addr :=
  let addr := lookupMapped w de (lookupName b.symName)
  let cxxOverride := resolveMainCxxOperatorOverride w main b.symName addr b.addend
  let operator := resolveCxxOperatorFallback w b.symName
  let default := w.dlsym rtldDefault (lookupName b.symName)
  if cxxOverride ≠ 0 then some cxxOverride
  else if addr ≠ 0 then some (addr + b.addend)
  else if operator ≠ 0 then some (operator + b.addend)
  else if default ≠ 0 then some (default + b.addend)
  else none

/-- Phase 2 for one bind; `none` is a read of the table at an ordinal that has no entry. -/
def completeOne (base : Pool → Addr) (w : World) (dylibs : Dylibs) (main : MainImage) (m : Machine)
    (b : DeferredBind) : Option Machine :=
  (dylibs.entryAt? b.libOrdinal).map fun de =>
    if de.handle = 0 then m
    else match deferredTarget w main de b with
      | none => m
      | some target =>
        let result := ctorAdapter w m.rs b.symName (.value target)
        { rs := result.1, mem := store base m.mem b.gotSlot result.2 }

def completeAll (base : Pool → Addr) (w : World) (dylibs : Dylibs) (main : MainImage) :
    Machine → List DeferredBind → Option Machine
  | m, [] => some m
  | m, b :: rest => (completeOne base w dylibs main m b).bind fun next =>
    completeAll base w dylibs main next rest

def markResolved (m : Machine) : Machine :=
  { m with rs := { m.rs with deferred := { m.rs.deferred with resolved := true } } }

/-- Before a resolution has saved its table, the completion finds no library and no handle. -/
def resolverCompleteDeferred (base : Pool → Addr) (h : Host) (w : World) (m : Machine) :
    Option Machine :=
  if m.rs.deferred.resolved then some m
  else match m.rs.deferred.saved with
    | none => some (markResolved m)
    | some (dylibs, main) => (openAllDeferred h dylibs).bind fun opened =>
      completeAll base w opened main (markResolved m) m.rs.deferred.binds

end Machgate.FixupPass
