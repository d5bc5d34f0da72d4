import Machgate.Interleaving

namespace Machgate.GuestVmTrack

open Interleaving List

def guestVmTrackMax : Nat := 64
def pageSize : Nat := 4096

structure GuestVmEntry where
  addr : Nat
  mappedSize : Nat
deriving DecidableEq

/-- What the kernel has at a page: nothing, an anonymous mapping of less than a page that a call
without an address made, or anything else. -/
inductive Page
  | free
  | subPage
  | other
deriving DecidableEq

structure Vm where
  table : List GuestVmEntry
  pages : Nat → Page

/-- The guest's calls, each with the kernel's answer if it is asked: the address of the mapping, or
whether the range was unmapped. -/
inductive Call
  | mmap (addr length : Nat) (anonymous fixed : Bool) (result : Option Nat)
  | munmap (addr length : Nat) (ok : Bool)

def guestVmTrackAdd (table : List GuestVmEntry) (addr length : Nat) : List GuestVmEntry :=
  if table.length < guestVmTrackMax then table ++ [⟨addr, length⟩] else table

def guestVmLookup (table : List GuestVmEntry) (addr : Nat) : Bool := table.any (·.addr = addr)

def guestVmForget (table : List GuestVmEntry) (addr : Nat) : List GuestVmEntry :=
  table.eraseP (·.addr = addr)

/-- The mappings that `machgate_darwin_mmap` enters into the table. -/
def entered (addr length : Nat) (anonymous : Bool) : Bool :=
  addr = 0 ∧ 0 < length ∧ length < pageSize ∧ anonymous

def Refuses (s : Vm) (addr length : Nat) : Prop :=
  guestVmLookup s.table addr ∧ pageSize ≤ length

instance (s : Vm) (addr length : Nat) : Decidable (Refuses s addr length) :=
  inferInstanceAs (Decidable (_ ∧ _))

def InRange (addr length page : Nat) : Prop :=
  addr / pageSize ≤ page ∧ page < addr / pageSize + (length + pageSize - 1) / pageSize

instance (addr length page : Nat) : Decidable (InRange addr length page) :=
  inferInstanceAs (Decidable (_ ∧ _))

/-- The addresses the kernel may answer with: page 0 is never mapped, `MAP_FIXED` is obeyed, and
without it the range is free. -/
def mayAnswer (pages : Nat → Page) (addr length : Nat) (fixed : Bool) (a : Nat) : Prop :=
  a % pageSize = 0 ∧ 0 < a ∧ 0 < length ∧
    if fixed then a = addr
    else ∀ k < (length + pageSize - 1) / pageSize, pages (a / pageSize + k) = .free

instance (pages : Nat → Page) (addr length : Nat) (fixed : Bool) (a : Nat) :
    Decidable (mayAnswer pages addr length fixed a) :=
  inferInstanceAs (Decidable (_ ∧ _ ∧ _ ∧ _))

/-- `machgate_darwin_mmap` and `machgate_darwin_munmap`; `none` if the kernel does not answer so. -/
def step (s : Vm) : Call → Option Vm
  | .mmap _ _ _ _ none => some s
  | .mmap addr length anonymous fixed (some a) =>
    if mayAnswer s.pages addr length fixed a then
      let enter := entered addr length anonymous
      some
        { table := if enter then guestVmTrackAdd s.table a length else s.table
          pages := fun p =>
            if InRange a length p then if enter then .subPage else .other else s.pages p }
    else none
  | .munmap addr length ok =>
    if Refuses s addr length ∨ ok = false then some s
    else if addr % pageSize = 0 ∧ 0 < length then
      some
        { table := if guestVmLookup s.table addr then guestVmForget s.table addr else s.table
          pages := fun p => if InRange addr length p then .free else s.pages p }
    else none

def Live (s : Vm) (addr : Nat) : Prop :=
  addr % pageSize = 0 ∧ s.pages (addr / pageSize) = .subPage

def Sound (s : Vm) : Prop := ∀ e ∈ s.table, Live s e.addr

/-- After the call the table holds live mappings only, and a `munmap` that is refused is one of a
live mapping's start. -/
def Correct (s : Vm) (c : Call) : Prop :=
  (∀ s', step s c = some s' → Sound s') ∧
    ∀ addr length ok, c = .munmap addr length ok → Refuses s addr length → Live s addr

def Touches (s : Vm) : Call → Nat → Prop
  | .mmap _ length _ _ (some a), p => InRange a length p
  | .mmap _ _ _ _ none, _ => False
  | .munmap addr length ok, p => (¬ Refuses s addr length ∧ ok) ∧ InRange addr length p

/-- The call leaves the pages of the table's entries alone, up to a `munmap` of an entry's own
address. -/
def Clear (s : Vm) (c : Call) : Prop :=
  (step s c).isSome → ∀ e ∈ s.table, Touches s c (e.addr / pageSize) →
    ∃ length ok, c = .munmap e.addr length ok

def Distinct (s : Vm) : Prop := (s.table.map (·.addr)).Nodup

variable {table : List GuestVmEntry} {addr : Nat}

theorem lookup_iff : guestVmLookup table addr ↔ ∃ e ∈ table, e.addr = addr := by
  simp [guestVmLookup]

theorem mem_forget_iff {e : GuestVmEntry} (hdistinct : (table.map (·.addr)).Nodup) :
    e ∈ guestVmForget table addr ↔ e ∈ table ∧ e.addr ≠ addr := by
  induction table with
  | nil => simp [guestVmForget]
  | cons f table ih =>
    rw [map_cons, nodup_cons] at hdistinct
    have hrest := ih hdistinct.2
    rw [guestVmForget] at hrest ⊢
    by_cases hf : f.addr = addr
    · rw [eraseP_cons_of_pos (by simpa using hf)]
      grind
    · grind

theorem mem_trackAdd_iff {length : Nat} {e : GuestVmEntry} :
    e ∈ guestVmTrackAdd table addr length ↔
      e ∈ table ∨ table.length < guestVmTrackMax ∧ e = ⟨addr, length⟩ := by
  rw [guestVmTrackAdd]
  split
  · next hroom => simp [hroom]
  · next hroom => simp only [hroom, false_and, or_false]

theorem inRange_self {length : Nat} (h : 0 < length) : InRange addr length (addr / pageSize) := by
  refine ⟨le_rfl, Nat.lt_add_of_pos_right (Nat.div_pos ?_ (by decide))⟩
  omega

section

variable {s s' : Vm} (hsound : Sound s)

include hsound

/-- An address that is entered was given by the kernel, and its page was free. -/
theorem free_of_entered {addr length a : Nat} {anonymous fixed : Bool}
    (hmay : mayAnswer s.pages addr length fixed a) (henter : entered addr length anonymous)
    {e : GuestVmEntry} (he : e ∈ s.table) : ¬ InRange a length (e.addr / pageSize) := by
  rintro ⟨hlow, hhigh⟩
  obtain ⟨-, hpos, -, hanswer⟩ := hmay
  simp only [entered, decide_eq_true_eq] at henter
  cases fixed with
  | true =>
    have haddr : a = addr := by simpa using hanswer
    exact hpos.ne' (haddr.trans henter.1)
  | false =>
    have hfree := hanswer (e.addr / pageSize - a / pageSize) (by omega)
    rw [Nat.add_sub_cancel' hlow, (hsound e he).2] at hfree
    cases hfree

variable {c : Call}

theorem sound_step_iff (hdistinct : Distinct s) (hstep : step s c = some s') :
    Sound s' ↔ ∀ e ∈ s.table, Touches s c (e.addr / pageSize) →
      ∃ length ok, c = .munmap e.addr length ok := by
  unfold step at hstep
  split at hstep
  · cases hstep
    exact iff_of_true hsound fun _ _ h => h.elim
  · next addr length anonymous fixed a =>
    split at hstep
    · next hmay =>
      cases hstep
      constructor
      · intro h e he htouch
        have hin : e ∈ (if entered addr length anonymous then guestVmTrackAdd s.table a length
            else s.table) := by
          split
          · exact mem_trackAdd_iff.mpr (.inl he)
          · exact he
        have hlive := (h e hin).2
        simp only [if_pos (show InRange a length (e.addr / pageSize) from htouch)] at hlive
        split at hlive
        · next henter => exact absurd htouch (free_of_entered hsound hmay henter he)
        · cases hlive
      · intro h e he
        have hkept : e ∈ s.table → ¬ InRange a length (e.addr / pageSize) := by
          intro hold htouch
          obtain ⟨_, _, hcall⟩ := h e hold htouch
          cases hcall
        have hold : e ∈ s.table ∨ entered addr length anonymous ∧ e = ⟨a, length⟩ := by
          split at he
          · next henter =>
            rcases mem_trackAdd_iff.mp he with hold | ⟨-, hnew⟩
            · exact .inl hold
            · exact .inr ⟨henter, hnew⟩
          · exact .inl he
        rcases hold with hold | ⟨henter, rfl⟩
        · exact ⟨(hsound e hold).1, (if_neg (hkept hold)).trans (hsound e hold).2⟩
        · have hfirst : InRange a length (a / pageSize) := inRange_self hmay.2.2.1
          exact ⟨hmay.1, by simp only [if_pos hfirst, if_pos henter]⟩
    · cases hstep
  · next addr length ok =>
    split at hstep
    · next hkept =>
      cases hstep
      refine iff_of_true hsound fun e he htouch => ?_
      rcases hkept with hrefuses | hfails
      · exact absurd hrefuses htouch.1.1
      · exact absurd (htouch.1.2.symm.trans hfails) (by decide)
    · next hasked =>
      rw [not_or, Bool.not_eq_false] at hasked
      split at hstep
      · cases hstep
        have hmem : ∀ e, e ∈ (if guestVmLookup s.table addr then guestVmForget s.table addr
            else s.table) ↔ e ∈ s.table ∧ e.addr ≠ addr := by
          intro e
          split
          · exact mem_forget_iff hdistinct
          · next hnone =>
            rw [lookup_iff] at hnone
            exact (and_iff_left_of_imp fun he heq => hnone ⟨e, he, heq⟩).symm
        constructor
        · intro h e he htouch
          by_contra hother
          have hne : e.addr ≠ addr := fun heq => hother ⟨length, ok, heq ▸ rfl⟩
          have hlive := (h e ((hmem e).mpr ⟨he, hne⟩)).2
          simp only [if_pos htouch.2] at hlive
          cases hlive
        · intro h e he
          obtain ⟨hold, hne⟩ := (hmem e).mp he
          have hkept : ¬ InRange addr length (e.addr / pageSize) := by
            intro htouch
            obtain ⟨_, _, hcall⟩ := h e hold ⟨hasked, htouch⟩
            cases hcall
            exact hne rfl
          exact ⟨(hsound e hold).1, (if_neg hkept).trans (hsound e hold).2⟩
      · cases hstep

theorem distinct_step (hdistinct : Distinct s) (hstep : step s c = some s') : Distinct s' := by
  unfold step at hstep
  split at hstep
  · cases hstep
    exact hdistinct
  · next addr length anonymous fixed a =>
    split at hstep
    · next hmay =>
      cases hstep
      rw [Distinct]
      split
      · next henter =>
        have hnew : a ∉ s.table.map (·.addr) := by
          rw [mem_map]
          rintro ⟨e, he, rfl⟩
          exact free_of_entered hsound hmay henter he (inRange_self hmay.2.2.1)
        rw [guestVmTrackAdd]
        split
        · rw [map_append, map_singleton]
          exact nodup_append.mpr ⟨hdistinct, by simp, by simpa using hnew⟩
        · exact hdistinct
      · exact hdistinct
    · cases hstep
  · split at hstep
    · cases hstep
      exact hdistinct
    · split at hstep
      · cases hstep
        split
        · exact hdistinct.sublist ((eraseP_sublist ..).map _)
        · exact hdistinct
      · cases hstep

theorem correct_iff_clear (hdistinct : Distinct s) : Correct s c ↔ Clear s c := by
  have hrefused : ∀ addr length ok, c = .munmap addr length ok → Refuses s addr length →
      Live s addr := by
    rintro addr length ok - ⟨hlookup, -⟩
    obtain ⟨e, he, rfl⟩ := lookup_iff.mp hlookup
    exact hsound e he
  rw [Correct, and_iff_left hrefused, Clear]
  cases hstep : step s c with
  | none => simp
  | some s' => simpa using sound_step_iff hsound hdistinct hstep

end

theorem correct_along_iff (pages : Nat → Page) (calls : List Call) :
    Along step Correct ⟨[], pages⟩ calls ↔ Along step Clear ⟨[], pages⟩ calls := by
  have hinit : Sound ⟨[], pages⟩ ∧ Distinct ⟨[], pages⟩ := ⟨nofun, nodup_nil⟩
  have hkeep : ∀ s c s', Sound s ∧ Distinct s → Correct s c → step s c = some s' →
      Sound s' ∧ Distinct s' := fun s c s' hs hc hstep =>
    ⟨hc.1 s' hstep, distinct_step hs.1 hs.2 hstep⟩
  constructor
  · exact Along.imp hkeep (fun s c hs => (correct_iff_clear hs.1 hs.2).mp) hinit
  · exact Along.imp (fun s c s' hs hc => hkeep s c s' hs ((correct_iff_clear hs.1 hs.2).mpr hc))
      (fun s c hs => (correct_iff_clear hs.1 hs.2).mpr) hinit

/-- A mapping of 100 bytes is unmapped from the page in front of it on, and its address is handed
out again for two pages. -/
def reusedAddress : List Call :=
  [.mmap 0 100 true false (some 0x10000), .munmap 0xf000 0x2000 true,
    .mmap 0 0x2000 true false (some 0x10000)]

theorem reusedAddress_refused :
    (run step ⟨[], fun _ => .free⟩ reusedAddress).map (fun s =>
      (decide (Refuses s 0x10000 0x2000), s.pages (0x10000 / pageSize))) = some (true, .other) := by
  decide

end Machgate.GuestVmTrack
