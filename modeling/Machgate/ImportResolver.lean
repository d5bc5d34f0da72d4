import Machgate.ResolverState

namespace Machgate.ImportResolver

open ByteMemory RecordBuffer SymbolIndex SymbolNames DylibTable SlotPool ResolverState
open ResolverState.State

structure ChainedImport where
  libOrdinal : BitVec 8
  weakImport : Bool
  nameOffset : BitVec 23

structure ChainedImportAddend where
  libOrdinal : BitVec 8
  weakImport : Bool
  nameOffset : BitVec 23
  addend : BitVec 32

structure ChainedImportAddend64 where
  libOrdinal : BitVec 16
  weakImport : Bool
  nameOffset : BitVec 32
  addend : BitVec 64

inductive ImportArray
  | imports (entries : List ChainedImport)
  | importsAddend (entries : List ChainedImportAddend)
  | importsAddend64 (entries : List ChainedImportAddend64)
  | unsupported

structure ImportTable where
  array : ImportArray
  symbols : List Octet

structure Import where
  libOrdinal : Int
  weak : Bool
  symName : Name

def symbolAt (symbols : List Octet) (nameOffset : Nat) : Name := cString (symbols.drop nameOffset)

/-- The import of an ordinal and its addend; there is none out of range or in an unsupported
format. -/
def ImportTable.import? (t : ImportTable) (ordinal : BitVec 32) : Option (Import × BitVec 64) :=
  match t.array with
  | .imports entries => entries[ordinal.toNat]?.map fun imp =>
    ({ libOrdinal := imp.libOrdinal.toInt, weak := imp.weakImport
       symName := symbolAt t.symbols imp.nameOffset.toNat }, 0)
  | .importsAddend entries => entries[ordinal.toNat]?.map fun imp =>
    ({ libOrdinal := imp.libOrdinal.toInt, weak := imp.weakImport
       symName := symbolAt t.symbols imp.nameOffset.toNat }, imp.addend.signExtend 64)
  | .importsAddend64 entries => entries[ordinal.toNat]?.map fun imp =>
    ({ libOrdinal := imp.libOrdinal.toInt, weak := imp.weakImport
       symName := symbolAt t.symbols imp.nameOffset.toNat }, imp.addend)
  | .unsupported => none

def lookupMachoSymbol (main : MainImage) (name : Name) : Addr :=
  match lookupMachoSymbolResult main.image main.index name with
  | none => 0
  | some result => result.addr

def nPext : BitVec 8 := 0x10

def machoSymbolIsExternalDefinition (result : MachoSymbolResult) : Bool :=
  decide (result.type &&& nExt ≠ 0 ∧ result.type &&& nPext = 0)

/-- The sections are counted from 1 over all segments. -/
def machoSectionFlags (main : MainImage) (sectionOrdinal : BitVec 8) : BitVec 32 :=
  if sectionOrdinal = 0 then 0 else main.sectionFlags.getD (sectionOrdinal.toNat - 1) 0

def sectionType : BitVec 32 := 0xff
def sSymbolStubs : BitVec 32 := 0x8

def machoSymbolIsStubDefinition (main : MainImage) (result : MachoSymbolResult) : Bool :=
  decide (machoSectionFlags main result.sect &&& sectionType = sSymbolStubs)

def resolveMainCxxOperatorOverride (w : World) (main : MainImage) (symName : Name)
    (providerAddr : Addr) (addend : BitVec 64) : Addr :=
  if !isCxxOperatorSymbol symName then 0
  else if providerAddr ≠ 0 ∧ w.elfSymbolIsWeak providerAddr = false then 0
  else match lookupMachoSymbolResult main.image main.index symName with
    | none => 0
    | some result =>
      if !machoSymbolIsExternalDefinition result then 0
      else if machoSymbolIsStubDefinition main result then 0
      else result.addr + addend

def resolveCxxOperatorFallback (w : World) (symName : Name) : Addr :=
  match resolveCxxOperatorHook symName with
  | none => 0
  | some f => w.own f

/-- The first answer of a list of questions, 0 if all are 0. -/
def firstNonNull (answers : List Addr) : Addr :=
  (answers.find? fun a => a ≠ 0).getD 0

def tryManglingVariants (w : World) (handle : Addr) (name : Name) : Addr :=
  firstNonNull ((manglingVariants name).map (w.dlsym handle))

def lookupLibsystemSymbol (w : World) (s : State) (lookupName : Name) : Addr :=
  firstNonNull ((s.dylibs.entries.filter fun de =>
    de.action = .map ∧ de.handle ≠ 0 ∧ strstr de.name (text "libSystem")).map fun de =>
      w.dlsym de.handle lookupName)

def lookupFlatSymbol (w : World) (s : State) (lookupName : Name) : Addr :=
  let addr :=
    if isDarwinRuntimeSymbol lookupName || isDarwinAllocatorSymbol lookupName then
      lookupLibsystemSymbol w s lookupName
    else 0
  if addr = 0 then w.dlsym rtldDefault lookupName else addr

def resolveShimObjcClassSymbol (w : World) (symName : Name) : Addr :=
  let lookup := dropUnderscore symName
  let classObject := w.dlsym rtldDefault lookup
  if classObject ≠ 0 then classObject
  else if strncmpEq lookup (text "OBJC_CLASS_$_") 13 then
    w.dlsym rtldDefault (text "OBJC_CLASS_$_MachGateGenericObject")
  else 0

def resolveAsanDataSymbol (w : World) (s : State) (symName : Name) : State × Addr :=
  if symName = text "___asan_option_detect_stack_use_after_return" then
    (s, w.own .detectStackUseAfterReturn)
  else if symName = text "___asan_shadow_memory_dynamic_address" then
    if s.pools .asanShadow = none then
      if w.maps .asanShadow then (s.setPool .asanShadow (some 0), w.own .shadowBase) else (s, 0)
    else (s, w.own .shadowBase)
  else (s, 0)

def resolveNonGuiFrameworkData (w : World) (s : State) (de : DylibEntry) (symName : Name) :
    State × Addr :=
  if de.name = text "AppKit" ∧ symName = text "_NSPasteboardTypeString" then
    (s, w.own .nsPasteboardTypeString)
  else if de.name = text "AppKit" ∧ symName = text "_NSApp" then
    (s, w.own .nsapplicationSingleton)
  else if isShimObjcClassSymbol symName then (s, resolveShimObjcClassSymbol w symName)
  else if strstr de.name (text "libclang_rt.asan") then resolveAsanDataSymbol w s symName
  else (s, 0)

/-- `dlsym` in the mapped library, then under the other spellings of a C++ name. -/
def lookupMapped (w : World) (de : DylibEntry) (lookupName : Name) : Addr :=
  let addr := w.dlsym de.handle lookupName
  if addr = 0 ∧ strncmpEq lookupName (text "_ZN") 3 then tryManglingVariants w de.handle lookupName
  else addr

def lookupMacho (de : DylibEntry) (symName : Name) : Addr :=
  let addr := dylibLoaderLookup de.machoInfo symName
  if addr = 0 ∧ strstr symName (text "_ZN") then dylibLoaderLookup de.machoInfo (swapFirst symName)
  else addr

/-- Case `DYLIB_MAP`, the same in both resolvers; without an address the stub is next. -/
def bindMapped (w : World) (s : State) (de : DylibEntry) (imp : Import) (addend : BitVec 64) :
    State × Option Address :=
  let addr := lookupMapped w de (lookupName imp.symName)
  let cxxOverride := resolveMainCxxOperatorOverride w s.main imp.symName addr addend
  if addr ≠ 0 then
    if cxxOverride ≠ 0 then (s.countResolved, some (.value cxxOverride))
    else
      let ctor := ctorAdapter w s imp.symName (.value (addr + addend))
      let fixed := wrapFixedStackArgSymbol w ctor.1 (lookupName imp.symName) ctor.2 de.handle
      let thunk := variadicAdapter w fixed.1 (lookupName imp.symName) fixed.2
      let hooked := hookSDLGL w thunk.1 (lookupName imp.symName) thunk.2
      (hooked.1.countResolved, some hooked.2)
  else if cxxOverride ≠ 0 then (s.countResolved, some (.value cxxOverride))
  else if resolveCxxOperatorFallback w imp.symName ≠ 0 then
    (s.countResolved, some (.value (resolveCxxOperatorFallback w imp.symName + addend)))
  else if w.dlsym rtldDefault (lookupName imp.symName) ≠ 0 then
    (s.countResolved, some (.value (w.dlsym rtldDefault (lookupName imp.symName) + addend)))
  else (s.countUnresolved imp.weak, none)

/-- Case `DYLIB_MACHO`, the same in both resolvers. -/
def bindMacho (s : State) (de : DylibEntry) (imp : Import) (addend : BitVec 64) :
    State × Option Address :=
  let addr := lookupMacho de imp.symName
  if addr ≠ 0 then (s.countResolved, some (.value (addr + addend)))
  else (s.countUnresolved imp.weak, none)

def bindAction (w : World) (s : State) (de : DylibEntry) (imp : Import) (addend : BitVec 64) :
    State × Option Address :=
  match de.action with
  | .map => bindMapped w s de imp addend
  | .macho => bindMacho s de imp addend
  | .stub => (s.countStubbed, none)
  | .skip => (s.countUnresolved imp.weak, none)
  | .deferred => (s.countStubbed, none)

/-- The binds of an entry of the library table, the same in both resolvers. -/
def bindDylib (w : World) (s : State) (de : DylibEntry) (imp : Import) (addend : BitVec 64) :
    State × Option Address :=
  let nonGuiData := resolveNonGuiFrameworkData w s de imp.symName
  if nonGuiData.2 ≠ 0 then (nonGuiData.1.countResolved, some (.value (nonGuiData.2 + addend)))
  else bindAction w nonGuiData.1 de imp addend

/-- Ordinal -2, the same in both resolvers. -/
def bindFlat (w : World) (s : State) (imp : Import) (addend : BitVec 64) :
    State × Option Address :=
  let addr := lookupFlatSymbol w s (lookupName imp.symName)
  if addr ≠ 0 then
    let ctor := ctorAdapter w s imp.symName (.value (addr + addend))
    let fixed := wrapFixedStackArgSymbol w ctor.1 (lookupName imp.symName) ctor.2 0
    let thunk := variadicAdapter w fixed.1 (lookupName imp.symName) fixed.2
    (thunk.1.countResolved, some thunk.2)
  else (if imp.weak then s else s.countFailed, none)

/-- The label behind the cases: a bind without an address gets the stub. -/
def orStub (stub : State → State × Address) (r : State × Option Address) : State × Address :=
  match r.2 with
  | some a => (r.1, a)
  | none => stub r.1

/-- `alloc_stub_slot` of `resolve_import`. -/
def chainedStub (w : World) (symName : Name) (s : State) : State × Address :=
  let r := allocReturn0Stub w s
  if isLikelyDataSymbol symName then allocZeroDataStub w r.1 else r

/-- Ordinal -1 of `resolve_import`. -/
def chainedMain (s : State) (imp : Import) (addend : BitVec 64) : State × Option Address :=
  let addr := lookupMachoSymbol s.main imp.symName
  if addr ≠ 0 then (s.countResolved, some (.value (addr + addend)))
  else (s.countFailed, none)

/-- Ordinal -3 of `resolve_import`. -/
def chainedWeak (w : World) (s : State) (imp : Import) (addend : BitVec 64) :
    State × Option Address :=
  let machoAddr := lookupMachoSymbol s.main imp.symName
  let addr := w.dlsym rtldDefault (lookupName imp.symName)
  if machoAddr ≠ 0 then (s.countResolved, some (.value (machoAddr + addend)))
  else if addr ≠ 0 then
    let ctor := ctorAdapter w s imp.symName (.value (addr + addend))
    let fixed := wrapFixedStackArgSymbol w ctor.1 (lookupName imp.symName) ctor.2 0
    let thunk := variadicAdapter w fixed.1 (lookupName imp.symName) fixed.2
    (thunk.1.countResolved, some thunk.2)
  else
    -- the slot of the pool is the answer as it is, whatever the addend
    let slot := takeSlot w s .weak 128
    (slot.1.countStubbed, slot.2.map (Address.place .weak))

/-- `resolve_import` behind the decoding of the import; `none` is a read of the library table at
an ordinal that has no entry. -/
def resolveChained (w : World) (s : State) (imp : Import) (addend : BitVec 64) :
    Option (State × Address) :=
  match luaHook imp.symName with
  | some f => some (s.countResolved, .value (w.own f))
  | none =>
    if imp.libOrdinal = -1 then some (orStub (chainedStub w imp.symName) (chainedMain s imp addend))
    else if imp.libOrdinal = -2 then
      some (orStub (chainedStub w imp.symName) (bindFlat w s imp addend))
    else if imp.libOrdinal = -3 then
      some (orStub (chainedStub w imp.symName) (chainedWeak w s imp addend))
    else if s.dylibs.InRange imp.libOrdinal then
      (s.dylibs.entryAt? imp.libOrdinal).map fun de =>
        orStub (chainedStub w imp.symName) (bindDylib w s de imp addend)
    else some (chainedStub w imp.symName s.countFailed)

def resolveImport (w : World) (s : State) (imports : ImportTable) (ordinal : BitVec 32)
    (addend : BitVec 64) : Option (State × Address) :=
  match imports.import? ordinal with
  | none => some (s, .null)
  | some imp => resolveChained w s imp.1 (addend + imp.2)

/-- Ordinals 0 and -1 of `resolve_bind_by_name`. -/
def infoSelf (w : World) (s : State) (imp : Import) (addend : BitVec 64) :
    State × Option Address :=
  let addr := lookupMachoSymbol s.main imp.symName
  let fallback := w.dlsym rtldDefault (lookupName imp.symName)
  if addr ≠ 0 then (s.countResolved, some (.value (addr + addend)))
  else if fallback ≠ 0 then (s.countResolved, some (.value (fallback + addend)))
  else (s.countUnresolved imp.weak, none)

/-- Ordinal -3 of `resolve_bind_by_name`. -/
def infoWeak (w : World) (s : State) (imp : Import) (addend : BitVec 64) :
    State × Option Address :=
  let machoAddr := lookupMachoSymbol s.main imp.symName
  let addr := w.dlsym rtldDefault (lookupName imp.symName)
  if machoAddr ≠ 0 then (s.countResolved, some (.value (machoAddr + addend)))
  else if addr ≠ 0 then
    let ctor := ctorAdapter w s imp.symName (.value (addr + addend))
    let fixed := wrapFixedStackArgSymbol w ctor.1 (lookupName imp.symName) ctor.2 0
    (fixed.1.countResolved, some fixed.2)
  else (s.countStubbed, none)

def resolveBindByName (w : World) (s : State) (imp : Import) (addend : BitVec 64) :
    Option (State × Address) :=
  match luaHook imp.symName with
  | some f => some (s.countResolved, .value (w.own f))
  | none =>
    if imp.libOrdinal = 0 ∨ imp.libOrdinal = -1 then
      some (orStub (allocReturn0Stub w) (infoSelf w s imp addend))
    else if imp.libOrdinal = -2 then some (orStub (allocReturn0Stub w) (bindFlat w s imp addend))
    else if imp.libOrdinal = -3 then some (orStub (allocReturn0Stub w) (infoWeak w s imp addend))
    else if s.dylibs.InRange imp.libOrdinal then
      (s.dylibs.entryAt? imp.libOrdinal).map fun de =>
        orStub (allocReturn0Stub w) (bindDylib w s de imp addend)
    else some (allocReturn0Stub w s.countFailed)

/-- A process in which no library exports anything and every region can be mapped. -/
def emptyWorld : World where
  dlsym := fun _ _ => 0
  elfSymbolIsWeak := fun _ => false
  own := fun _ => 1
  maps := fun _ => true
  pageSize := 4096

/-- An image without symbols that loads one library, which no mapping names. -/
def skippedState : State where
  main :=
    { image :=
        { sizeofcmds := 0, cmds := [], slide := 0
          tableAt := fun _ _ _ => { syms := [], strtab := [], strsize := 0, nsyms_lt := by decide } }
      index := none, sectionFlags := [] }
  dylibs := Dylibs.empty.add (text "Cocoa")
  pools := fun _ => none
  bindsResolved := 0
  bindsStubbed := 0
  bindsFailed := 0
  deferred :=
    { binds := [], active := false, resolved := false, saved := none, length_le := by decide }
  realSDLGLCreateContext := .null
  realSDLGLSetAttribute := .null

end Machgate.ImportResolver
