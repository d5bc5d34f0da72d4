import Machgate.RecordBuffer

namespace Machgate.SymbolNames

open RecordBuffer

/-- The bytes of a symbol or library name, without the terminator. -/
abbrev Name := List Octet

def octet (c : Char) : Octet := BitVec.ofNat 8 c.toNat

def text (s : String) : Name := s.toList.map octet

/-- `strncmp(a, b, n) == 0`: a comparison that reaches the end compares the terminators too. -/
def strncmpEq (a b : Name) (n : Nat) : Bool :=
  (a ++ [0#8]).take n == (b ++ [0#8]).take n

def strstr (name needle : Name) : Bool :=
  name.tails.any fun rest => needle.isPrefixOf rest

def dropUnderscore (name : Name) : Name :=
  if name.head? = some (octet '_') then name.tail else name

/-- The part before the first `$`, unless `$_` begins an Objective-C suffix or the part does not
fit the buffer of 256 bytes. -/
def stripDollar (name : Name) : Name :=
  let stem := name.takeWhile fun c => c ≠ octet '$'
  if stem.length < name.length ∧ name[stem.length + 1]? ≠ some (octet '_') ∧ stem.length < 256 then
    stem
  else name

def lookupName (symName : Name) : Name := stripDollar (dropUnderscore symName)

def normalizeCxxOperatorSymbol (symName : Name) : Name :=
  if symName[0]? = some (octet '_') ∧ symName[1]? = some (octet '_') then symName.tail else symName

def operatorNewNames : List Name :=
  [text "_Znwm", text "_Znam", text "_ZnwmRKSt9nothrow_t", text "_ZnamRKSt9nothrow_t"]

def operatorNewAlignedNames : List Name :=
  [text "_ZnwmSt11align_val_t", text "_ZnamSt11align_val_t",
    text "_ZnwmSt11align_val_tRKSt9nothrow_t", text "_ZnamSt11align_val_tRKSt9nothrow_t"]

def operatorDeleteNames : List Name :=
  [text "_ZdlPv", text "_ZdaPv", text "_ZdlPvm", text "_ZdaPvm", text "_ZdlPvRKSt9nothrow_t",
    text "_ZdaPvRKSt9nothrow_t", text "_ZdlPvSt11align_val_t", text "_ZdaPvSt11align_val_t",
    text "_ZdlPvmSt11align_val_t", text "_ZdaPvmSt11align_val_t",
    text "_ZdlPvSt11align_val_tRKSt9nothrow_t", text "_ZdaPvSt11align_val_tRKSt9nothrow_t"]

def isOperatorNewSymbol (symName : Name) : Bool :=
  operatorNewNames.contains (normalizeCxxOperatorSymbol symName)

def isOperatorNewAlignedSymbol (symName : Name) : Bool :=
  operatorNewAlignedNames.contains (normalizeCxxOperatorSymbol symName)

def isOperatorDeleteSymbol (symName : Name) : Bool :=
  operatorDeleteNames.contains (normalizeCxxOperatorSymbol symName)

def isCxxOperatorSymbol (symName : Name) : Bool :=
  isOperatorNewSymbol symName || isOperatorNewAlignedSymbol symName ||
    isOperatorDeleteSymbol symName

/-- The functions and the data of the loader itself that a bind can be given. -/
inductive Own
  | wrappedLuaopenJit
  | wrappedLuaClose
  | wrappedLuaPcall
  | wrappedSDLGLCreateContext
  | wrappedSDLGLSetAttribute
  | zeroingOperatorNew
  | zeroingOperatorNewAligned
  | zeroingOperatorDelete
  | nsPasteboardTypeString
  | nsapplicationSingleton
  | detectStackUseAfterReturn
  | shadowBase
  deriving DecidableEq

def luaHook (symName : Name) : Option Own :=
  if symName = text "_luaopen_jit" then some .wrappedLuaopenJit
  else if symName = text "_lua_close" then some .wrappedLuaClose
  else if symName = text "_lua_pcall" then some .wrappedLuaPcall
  else none

def resolveCxxOperatorHook (symName : Name) : Option Own :=
  if isOperatorNewSymbol symName then some .zeroingOperatorNew
  else if isOperatorNewAlignedSymbol symName then some .zeroingOperatorNewAligned
  else if isOperatorDeleteSymbol symName then some .zeroingOperatorDelete
  else none

def mangled (name : Name) : Option Name :=
  let p := dropUnderscore name
  if p[0]? = some (octet '_') ∧ p[1]? = some (octet 'Z') then some p else none

/-- What follows the first `C` or `D`, `0`, `1` or `2`, and `E`. -/
def afterCtorMark : Name → Option Name
  | [] => none
  | c :: rest =>
    if (c = octet 'C' ∨ c = octet 'D') ∧
        (rest[0]? = some (octet '0') ∨ rest[0]? = some (octet '1') ∨
          rest[0]? = some (octet '2')) ∧
        rest[1]? = some (octet 'E') then some (rest.drop 2)
    else afterCtorMark rest

def isCtorOrDtor (name : Name) : Bool :=
  ((mangled name).bind afterCtorMark).isSome

/-- Counts the parameters of simple types, up to the first other one. -/
def stackParams (floatCount intCount : Nat) : Name → Bool
  | [] => decide (8 < floatCount ∨ 7 < intCount)
  | c :: rest =>
    if c ∈ text "fd" then stackParams (floatCount + 1) intCount rest
    else if c ∈ text "ijlmxycsbahtw" then stackParams floatCount (intCount + 1) rest
    else decide (8 < floatCount ∨ 7 < intCount)

def ctorHasStackParams (name : Name) : Bool :=
  match (mangled name).bind afterCtorMark with
  | none => false
  | some params =>
    if params = [] ∨ params[0]? = some (octet 'v') then false else stackParams 0 0 params

/-- The import names of `variadic_functions` with their `v` counterparts. -/
def variadicFunctions : List (Name × Name) :=
  [(text "printf", text "vprintf"), (text "fprintf", text "vfprintf"),
    (text "sprintf", text "vsprintf"), (text "snprintf", text "vsnprintf"),
    (text "sscanf", text "vsscanf"), (text "fscanf", text "vfscanf"),
    (text "__sprintf_chk", text "__vsprintf_chk"), (text "vsnprintf", text "vsnprintf"),
    (text "vsprintf", text "vsprintf"), (text "vfprintf", text "vfprintf"),
    (text "vprintf", text "vprintf"), (text "vsscanf", text "vsscanf"),
    (text "vfscanf", text "vfscanf"), (text "vsnprintf", text "vsnprintf"),
    (text "vasprintf", text "vasprintf"), (text "__vsnprintf_chk", text "__vsnprintf_chk"),
    (text "__vsprintf_chk", text "__vsprintf_chk")]

def lookupVariadic (name : Name) : Option Name :=
  (variadicFunctions.find? fun vi => vi.1 = name).map Prod.snd

/-- The second comparison runs over 18 bytes, one more than its text has. -/
def isLikelyDataSymbol (symName : Name) : Bool :=
  if symName.head? ≠ some (octet '_') then false
  else
    let body := symName.tail
    if strncmpEq body (text "OBJC_CLASS_$_") 13 then false
    else if strncmpEq body (text "OBJC_METACLASS_$_") 18 then false
    else match body.head? with
      | some c => decide (c = octet '_' ∨ octet 'A' ≤ c ∧ c ≤ octet 'Z')
      | none => false

def darwinRuntimeNames : List Name :=
  [text "mmap", text "munmap", text "mprotect", text "sigaction", text "sigaltstack", text "popen",
    text "pclose", text "dlsym"]

def isDarwinRuntimeSymbol (name : Name) : Bool :=
  strncmpEq name (text "pthread_") 8 || darwinRuntimeNames.contains name

def darwinAllocatorNames : List Name :=
  [text "malloc", text "free", text "calloc", text "realloc", text "posix_memalign",
    text "memalign", text "aligned_alloc", text "valloc", text "malloc_size",
    text "malloc_good_size", text "malloc_default_zone", text "malloc_create_zone",
    text "malloc_destroy_zone", text "malloc_set_zone_name", text "malloc_get_zone_name",
    text "malloc_zone_from_ptr", text "malloc_get_all_zones", text "malloc_num_zones",
    text "malloc_zones", text "malloc_zone_malloc", text "malloc_zone_calloc",
    text "malloc_zone_valloc", text "malloc_zone_realloc", text "malloc_zone_free",
    text "malloc_zone_destroy", text "malloc_zone_size", text "malloc_zone_batch_malloc",
    text "malloc_zone_batch_free", text "malloc_zone_memalign",
    text "malloc_zone_free_definite_size", text "malloc_zone_pressure_relief",
    text "malloc_zone_claimed_address", text "malloc_zone_malloc_with_options",
    text "malloc_zone_register", text "malloc_zone_unregister"]

def isDarwinAllocatorSymbol (name : Name) : Bool := darwinAllocatorNames.contains name

def isShimObjcClassSymbol (symName : Name) : Bool :=
  (text "OBJC_CLASS_$_").isPrefixOf symName || (text "OBJC_CLASS_$_").isPrefixOf symName.tail

def letterPlaces (letter : Octet) (name : Name) : List Nat :=
  ((name.zipIdx.filter fun c => c.1 = letter).map Prod.snd).take 16

/-- The name with the letter put at the places whose bit of `mask` is set. -/
def substitute (name : Name) (places : List Nat) (letter : Octet) (mask : Nat) : Name :=
  places.zipIdx.foldl (fun buf p => if mask.testBit p.2 then buf.set p.1 letter else buf) name

def substitutions (name : Name) (old new : Octet) : List Name :=
  let places := letterPlaces old name
  (List.range' 1 (2 ^ places.length - 1)).map (substitute name places new)

/-- The names `try_mangling_variants` asks for, in its order. -/
def manglingVariants (name : Name) : List Name :=
  (if name = text "_ZNSt3__120__libcpp_atomic_waitEPVKvx" then
    [text "_ZNSt3__120__libcpp_atomic_waitEPVKvi"] else []) ++
    substitutions name (octet 'y') (octet 'm') ++ substitutions name (octet 'm') (octet 'y')

/-- The first `y` or `m` exchanged for the other letter. -/
def swapFirst : Name → Name
  | [] => []
  | c :: rest =>
    if c = octet 'y' then octet 'm' :: rest
    else if c = octet 'm' then octet 'y' :: rest
    else c :: swapFirst rest

end Machgate.SymbolNames
