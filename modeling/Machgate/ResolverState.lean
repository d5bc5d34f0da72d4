import Machgate.DylibTable
import Machgate.SlotPool

namespace Machgate.ResolverState

open ByteMemory SymbolIndex SymbolNames DylibTable SlotPool Function Option

inductive Pool
  | return0
  | zeroData
  | weak
  | ctorTramp
  | variadic
  | stackArg
  | asanShadow
  deriving DecidableEq

def Pool.capacity (pageSize : Nat) : Pool → Nat
  | .return0 => 256 * 4096
  | .zeroData => 4096
  | .weak => 64 * 4096
  | .ctorTramp => pageSize * 4
  | .variadic => pageSize * 2
  | .stackArg => pageSize
  | .asanShadow => 512 * 1024 * 1024

/-- An address a bind is given: one that was looked up, or a place in a region whose base `mmap`
chose. -/
inductive Address
  | value (v : Addr)
  | place (p : Pool) (offset : Nat)
  deriving DecidableEq

namespace Address

def null : Address := .value 0

def toAddr (base : Pool → Addr) : Address → Addr
  | .value v => v
  | .place p offset => base p + BitVec.ofNat 64 offset

def pool? : Address → Option Pool
  | .value _ => none
  | .place p _ => some p

/-- Addresses that agree wherever the regions lie are both values, or lie in one region. -/
theorem pool?_eq_of_forall_toAddr_eq {a b : Address}
    (h : ∀ base, a.toAddr base = b.toAddr base) : a.pool? = b.pool? := by
  cases a with
  | value v =>
    cases b with
    | value v' => rfl
    | place q o =>
      have hone := h fun _ => v - BitVec.ofNat 64 o + 1
      simp only [toAddr] at hone
      bv_omega
  | place p o =>
    cases b with
    | value v =>
      have hone := h fun _ => v - BitVec.ofNat 64 o + 1
      simp only [toAddr] at hone
      bv_omega
    | place q o' =>
      by_contra hne
      have hpq : q ≠ p := fun heq => hne (by rw [heq]; rfl)
      have hzero := h fun _ => 0
      have hone := h fun r => if r = p then 1 else 0
      simp only [toAddr, if_true, if_neg hpq] at hzero hone
      bv_omega

theorem eq_of_forall_toAddr_value {a : Address} {v : Addr}
    (h : ∀ base, a.toAddr base = (Address.value v).toAddr base) : a = .value v := by
  cases a with
  | value v' => exact congrArg Address.value (h fun _ => 0)
  | place p o => exact absurd (pool?_eq_of_forall_toAddr_eq h) (by simp [pool?])

theorem not_forall_toAddr_place_eq (p : Pool) (offset : Nat) (v : Addr) :
    ¬ ∀ base, (Address.place p offset).toAddr base = v := fun h =>
  absurd (eq_of_forall_toAddr_value h) (by simp)

theorem forall_toAddr_null_eq_iff {v : Addr} : (∀ base, Address.null.toAddr base = v) ↔ v = 0 := by
  constructor
  · intro h
    exact (h fun _ => 0).symm
  · rintro rfl base
    rfl

end Address

/-- The symbols and the section flags of the image that is bound. `index` is the memory of the
symbol index, if there is any. -/
structure MainImage where
  image : Image
  index : Option (Nat → Int)
  sectionFlags : List (BitVec 32)

structure DeferredBind where
  gotSlot : Addr
  symName : Name
  libOrdinal : Int
  weak : Bool
  addend : BitVec 64

def maxDeferredBinds : Nat := 512

/-- `g_deferred`; `saved` holds what the end of a resolution copies for the completion. -/
structure Deferred where
  binds : List DeferredBind
  active : Bool
  resolved : Bool
  saved : Option (Dylibs × MainImage)
  length_le : binds.length ≤ maxDeferredBinds

structure State where
  main : MainImage
  dylibs : Dylibs
  pools : Pool → Used
  bindsResolved : Nat
  bindsStubbed : Nat
  bindsFailed : Nat
  deferred : Deferred
  realSDLGLCreateContext : Address
  realSDLGLSetAttribute : Address

/-- What lies outside the resolver when it handles a bind: the dynamic linker, the loader's own
symbols, and whether `mmap` would map a region. -/
structure World where
  dlsym : Addr → Name → Addr
  elfSymbolIsWeak : Addr → Bool
  own : Own → Addr
  maps : Pool → Bool
  pageSize : Nat

def rtldDefault : Addr := 0

namespace State

def countResolved (s : State) : State := { s with bindsResolved := s.bindsResolved + 1 }

def countStubbed (s : State) : State := { s with bindsStubbed := s.bindsStubbed + 1 }

def countFailed (s : State) : State := { s with bindsFailed := s.bindsFailed + 1 }

def countUnresolved (s : State) (weak : Bool) : State :=
  if weak then s.countStubbed else s.countFailed

def setPool (s : State) (p : Pool) (used : Used) : State :=
  { s with pools := Function.update s.pools p used }

/-- Two states that differ at most in their regions, their counts and the SDL functions kept for
the wrappers. -/
structure Frame (s t : State) : Prop where
  main : t.main = s.main
  dylibs : t.dylibs = s.dylibs
  deferred : t.deferred = s.deferred

namespace Frame

variable {s t u : State}

theorem refl (s : State) : Frame s s := ⟨rfl, rfl, rfl⟩

theorem trans (h : Frame s t) (h' : Frame t u) : Frame s u :=
  ⟨h'.main.trans h.main, h'.dylibs.trans h.dylibs, h'.deferred.trans h.deferred⟩

theorem countResolved (h : Frame s t) : Frame s t.countResolved := ⟨h.main, h.dylibs, h.deferred⟩

theorem countStubbed (h : Frame s t) : Frame s t.countStubbed := ⟨h.main, h.dylibs, h.deferred⟩

theorem countFailed (h : Frame s t) : Frame s t.countFailed := ⟨h.main, h.dylibs, h.deferred⟩

theorem countUnresolved (h : Frame s t) (weak : Bool) : Frame s (t.countUnresolved weak) := by
  cases weak with
  | false => exact h.countFailed
  | true => exact h.countStubbed

end Frame

@[simp]
theorem pools_countUnresolved (s : State) (weak : Bool) :
    (s.countUnresolved weak).pools = s.pools := by
  cases weak <;> rfl

/-- A step that keeps the frame, takes nothing from a region and answers with no place in it. -/
structure Avoids (q : Pool) (s t : State) (answer : Option Address) : Prop extends Frame s t where
  pools : t.pools q = s.pools q
  answer : ∀ a ∈ answer, a.pool? ≠ some q

namespace Avoids

variable {q : Pool} {s t u : State} {answer answer' : Option Address}

theorem refl (s : State) {a : Address} (h : a.pool? ≠ some q) : Avoids q s s (some a) :=
  ⟨Frame.refl s, rfl, by simpa using h⟩

theorem trans (h : Avoids q s t answer) (h' : Avoids q t u answer') : Avoids q s u answer' :=
  ⟨h.toFrame.trans h'.toFrame, h'.pools.trans h.pools, h'.answer⟩

theorem countResolved (h : Avoids q s t answer) : Avoids q s t.countResolved answer :=
  ⟨h.toFrame.countResolved, h.pools, h.answer⟩

theorem value (s : State) (v : Addr) : Avoids q s s.countResolved (some (.value v)) :=
  countResolved (refl s (by simp [Address.pool?]))

theorem none_of_pools (h : Frame s t) (hpools : t.pools q = s.pools q) : Avoids q s t none :=
  ⟨h, hpools, by simp⟩

theorem unresolved (s : State) (weak : Bool) : Avoids q s (s.countUnresolved weak) none :=
  none_of_pools ((Frame.refl s).countUnresolved weak) (by rw [pools_countUnresolved])

end Avoids

end State

open State

/-- A slot of a region, which is mapped at the first request. -/
def takeSlot (w : World) (s : State) (p : Pool) (size : Nat) : State × Option Nat :=
  let r := take size (p.capacity w.pageSize) (w.maps p) (s.pools p)
  (s.setPool p r.1, r.2)

/-- `takeSlot` with what is used when there is no slot. -/
def slotOr (w : World) (s : State) (p : Pool) (size : Nat) (other : Address) : State × Address :=
  let r := takeSlot w s p size
  (r.1, match r.2 with
    | some offset => .place p offset
    | none => other)

def ServesPool (w : World) (s : State) (p : Pool) (size : Nat) : Prop :=
  Serves size (p.capacity w.pageSize) (w.maps p) (s.pools p)

instance (w : World) (s : State) (p : Pool) (size : Nat) : Decidable (ServesPool w s p size) :=
  inferInstanceAs (Decidable (Serves _ _ _ _))

section

variable (w : World) (s : State) (p : Pool) (size : Nat) (other : Address)

theorem frame_takeSlot : Frame s (takeSlot w s p size).1 := ⟨rfl, rfl, rfl⟩

theorem pools_takeSlot_self :
    (takeSlot w s p size).1.pools p =
      (take size (p.capacity w.pageSize) (w.maps p) (s.pools p)).1 :=
  update_self p _ s.pools

theorem pools_takeSlot_of_ne {q : Pool} (h : q ≠ p) : (takeSlot w s p size).1.pools q = s.pools q :=
  update_of_ne h _ _

variable {w s p size}

theorem slotOr_of_serves (h : ServesPool w s p size) :
    (slotOr w s p size other).2 = .place p (front (s.pools p)) := by
  simp only [slotOr, takeSlot, take_of_serves h]

theorem slotOr_of_not_serves (h : ¬ ServesPool w s p size) :
    (slotOr w s p size other).2 = other := by
  simp only [slotOr, takeSlot, (take_of_not_serves h).1]

variable (w s p size) in
theorem slotOr_eq_or :
    (slotOr w s p size other).2 = other ∨ (slotOr w s p size other).2.pool? = some p := by
  by_cases h : ServesPool w s p size
  · rw [slotOr_of_serves other h]
    exact Or.inr rfl
  · exact Or.inl (slotOr_of_not_serves other h)

variable (w s size) in
theorem avoids_slotOr {q : Pool} (h : q ≠ p) (hother : other.pool? ≠ some q) :
    Avoids q s (slotOr w s p size other).1 (some (slotOr w s p size other).2) := by
  refine ⟨frame_takeSlot w s p size, pools_takeSlot_of_ne w s p size h, ?_⟩
  intro a ha
  obtain rfl := mem_some_iff.mp ha
  rcases slotOr_eq_or w s p size other with heq | hpool
  · rw [heq]
    exact hother
  · rw [hpool]
    exact fun heq => h (some.inj heq).symm

end

def allocReturn0Stub (w : World) (s : State) : State × Address :=
  slotOr w s .return0 128 .null

/-- The page is mapped once and shared by all binds. -/
def allocZeroDataStub (w : World) (s : State) : State × Address :=
  match s.pools .zeroData with
  | some _ => (s, .place .zeroData 0)
  | none => if w.maps .zeroData then (s.setPool .zeroData (some 0), .place .zeroData 0) else (s, .null)

def wrapCtorForAppleAbi (w : World) (s : State) (realAddr : Address) : State × Address :=
  slotOr w s .ctorTramp 32 realAddr

/-- The adapter of a constructor or destructor whose arguments all lie in registers. -/
def ctorAdapter (w : World) (s : State) (symName : Name) (result : Address) : State × Address :=
  if isCtorOrDtor symName && !ctorHasStackParams symName then wrapCtorForAppleAbi w s result
  else (s, result)

def fixedTarget (w : World) (providerHandle : Addr) : Addr :=
  let provided :=
    if providerHandle ≠ 0 then w.dlsym providerHandle (text "machgate_darwin_ioctl_fixed") else 0
  if provided = 0 then w.dlsym rtldDefault (text "machgate_darwin_ioctl_fixed") else provided

def wrapFixedStackArgSymbol (w : World) (s : State) (lookupName : Name) (result : Address)
    (providerHandle : Addr) : State × Address :=
  if lookupName = text "ioctl" then
    if fixedTarget w providerHandle = 0 then (s, result) else slotOr w s .stackArg 40 result
  else (s, result)

/-- The thunk of a variadic function, if its `v` counterpart is there. -/
def variadicAdapter (w : World) (s : State) (lookupName : Name) (result : Address) :
    State × Address :=
  match lookupVariadic lookupName with
  | none => (s, result)
  | some vName =>
    if w.dlsym rtldDefault vName = 0 then (s, result) else slotOr w s .variadic 56 result

def hookSDLGL (w : World) (s : State) (lookupName : Name) (result : Address) : State × Address :=
  if s.deferred.active && !s.deferred.resolved then
    if lookupName = text "SDL_GL_CreateContext" then
      ({ s with realSDLGLCreateContext := result }, .value (w.own .wrappedSDLGLCreateContext))
    else if lookupName = text "SDL_GL_SetAttribute" then
      ({ s with realSDLGLSetAttribute := result }, .value (w.own .wrappedSDLGLSetAttribute))
    else (s, result)
  else (s, result)

variable (w : World) (s : State) (symName lookupName : Name) (result : Address) (handle : Addr)

theorem avoids_allocReturn0Stub {q : Pool} (h : q ≠ .return0) :
    Avoids q s (allocReturn0Stub w s).1 (some (allocReturn0Stub w s).2) :=
  avoids_slotOr w s 128 .null h (by simp [Address.null, Address.pool?])

theorem avoids_allocZeroDataStub {q : Pool} (h : q ≠ .zeroData) :
    Avoids q s (allocZeroDataStub w s).1 (some (allocZeroDataStub w s).2) := by
  have hplace : (Address.place .zeroData 0).pool? ≠ some q := fun heq => h (some.inj heq).symm
  rw [allocZeroDataStub]
  split
  · exact Avoids.refl s hplace
  · split
    · exact ⟨⟨rfl, rfl, rfl⟩, update_of_ne h _ _, by simpa using hplace⟩
    · exact Avoids.refl s (by simp [Address.null, Address.pool?])

variable {result} {q : Pool} (hresult : result.pool? ≠ some q)

include hresult

theorem avoids_ctorAdapter (h : q ≠ .ctorTramp) :
    Avoids q s (ctorAdapter w s symName result).1 (some (ctorAdapter w s symName result).2) := by
  rw [ctorAdapter]
  split
  · exact avoids_slotOr w s 32 result h hresult
  · exact Avoids.refl s hresult

theorem avoids_wrapFixedStackArgSymbol (h : q ≠ .stackArg) :
    Avoids q s (wrapFixedStackArgSymbol w s lookupName result handle).1
      (some (wrapFixedStackArgSymbol w s lookupName result handle).2) := by
  rw [wrapFixedStackArgSymbol]
  split
  · split
    · exact Avoids.refl s hresult
    · exact avoids_slotOr w s 40 result h hresult
  · exact Avoids.refl s hresult

theorem avoids_variadicAdapter (h : q ≠ .variadic) :
    Avoids q s (variadicAdapter w s lookupName result).1
      (some (variadicAdapter w s lookupName result).2) := by
  rw [variadicAdapter]
  split
  · exact Avoids.refl s hresult
  · split
    · exact Avoids.refl s hresult
    · exact avoids_slotOr w s 56 result h hresult

theorem avoids_hookSDLGL :
    Avoids q s (hookSDLGL w s lookupName result).1 (some (hookSDLGL w s lookupName result).2) := by
  rw [hookSDLGL]
  split
  · split
    · exact ⟨⟨rfl, rfl, rfl⟩, rfl, by simp [Address.pool?]⟩
    · split
      · exact ⟨⟨rfl, rfl, rfl⟩, rfl, by simp [Address.pool?]⟩
      · exact Avoids.refl s hresult
  · exact Avoids.refl s hresult

end Machgate.ResolverState
