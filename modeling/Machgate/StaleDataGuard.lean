import Machgate.SymbolIndex

namespace Machgate.StaleDataGuard

open RecordBuffer SymbolIndex List

def matchesPrefix (name : List Octet) (prefixes : List (List Octet)) : Bool :=
  prefixes.any fun p => p.isPrefixOf name

/-- The image as the function sees it: its slide, its `__DATA` segment, the symbols, and for each
section number the address at which the section ends. -/
structure DataImage where
  slide : BitVec 64
  vmaddr : BitVec 64
  vmsize : BitVec 64
  table : SymbolTable
  sectionEnd : BitVec 8 → Nat

def maxGuardedPages : Nat := 4096

namespace DataImage

variable (image : DataImage) (pageSize : Nat) (prefixes : List (List Octet))

def dataBase : Nat := (image.vmaddr + image.slide).toNat

def dataEnd : Nat := (image.vmaddr + image.slide + image.vmsize).toNat

def numPages : Nat := (image.vmsize.toNat + pageSize - 1) / pageSize

def address (sym : Nlist64) : Nat := (sym.nValue + image.slide).toNat

def pageIdx (sym : Nlist64) : Option Nat :=
  let addr := image.address sym
  if addr < image.dataBase ∨ image.dataEnd ≤ addr then none
  else
    let pageIdx := (addr - image.dataBase) / pageSize
    if image.numPages pageSize ≤ pageIdx then none else some pageIdx

def isLibrary (sym : Nlist64) : Bool := matchesPrefix (image.table.symName sym) prefixes

def hasLibrary (i : Nat) : Bool :=
  image.table.syms.any fun sym =>
    Scanned image.table sym ∧ image.pageIdx pageSize sym = some i ∧ image.isLibrary prefixes sym

def hasOther (i : Nat) : Bool :=
  image.table.syms.any fun sym =>
    Scanned image.table sym ∧ image.pageIdx pageSize sym = some i ∧ ¬ image.isLibrary prefixes sym

def pageAddr (i : Nat) : Nat := image.dataBase + i * pageSize

/-- The pages `trampoline_guard_stale_data` makes inaccessible, with the answers of `mprotect` and
the number of pages that were guarded before. -/
def guardedPages (mprotect : Nat → Bool) (before : Nat) : List Nat :=
  if image.dataBase = 0 then []
  else (((List.range (image.numPages pageSize)).filter fun i =>
      image.hasLibrary pageSize prefixes i && !image.hasOther pageSize prefixes i).filter
    fun i => mprotect (image.pageAddr pageSize i)).take (maxGuardedPages - before)

/-- The page has symbols of the library and no others, and `mprotect` makes it inaccessible. -/
def isTaken (mprotect : Nat → Bool) (i : Nat) : Bool :=
  mprotect (image.pageAddr pageSize i) &&
    (image.hasLibrary pageSize prefixes i && !image.hasOther pageSize prefixes i)

/-- The object of a symbol, up to the next symbol of its section or the section's end, has the
byte. -/
def Covers (sym : Nlist64) (b : Nat) : Prop :=
  (sym ∈ image.table.syms ∧ Scanned image.table sym) ∧
    (image.address sym ≤ b ∧ b < image.sectionEnd sym.nSect) ∧
    ∀ next ∈ image.table.syms, Scanned image.table next → next.nSect = sym.nSect →
      image.address sym < image.address next → b < image.address next

instance (sym : Nlist64) (b : Nat) : Decidable (image.Covers sym b) :=
  inferInstanceAs (Decidable (_ ∧ _))

def InPage (i b : Nat) : Prop :=
  image.pageAddr pageSize i ≤ b ∧ b < image.pageAddr pageSize i + pageSize

def OnlyLibrary (b : Nat) : Prop :=
  (∃ sym, image.Covers sym b) ∧ ∀ sym, image.Covers sym b → image.isLibrary prefixes sym

variable {image pageSize prefixes}

theorem pageIdx_eq {sym : Nlist64} {i : Nat} (hi : i < image.numPages pageSize)
    (hpage : image.InPage pageSize i (image.address sym))
    (hend : image.address sym < image.dataEnd) : image.pageIdx pageSize sym = some i := by
  obtain ⟨hlow, hhigh⟩ := hpage
  rw [pageAddr] at hlow hhigh
  have hidx : (image.address sym - image.dataBase) / pageSize = i := by
    refine Nat.div_eq_of_lt_le (by omega) ?_
    rw [Nat.succ_mul]
    omega
  simp only [pageIdx, hidx]
  rw [if_neg (by omega), if_neg (by omega)]

theorem mem_take_filter_range {p : Nat → Bool} {n i m : Nat} :
    i ∈ ((range n).filter p).take m ↔ (i < n ∧ p i) ∧ (range i).countP p < m := by
  induction n with
  | zero => simp
  | succ n ih =>
    have hlast : i ∈ (filter p [n]).take (m - (filter p (range n)).length) ↔
        (i = n ∧ p i) ∧ (range n).countP p < m := by
      rw [countP_eq_length_filter]
      cases h : m - (filter p (range n)).length <;> grind
    rw [range_succ, filter_append, take_append, mem_append, ih, hlast]
    grind

theorem mem_guardedPages_iff {mprotect : Nat → Bool} {before i : Nat} :
    i ∈ image.guardedPages pageSize prefixes mprotect before ↔
      image.dataBase ≠ 0 ∧ (i < image.numPages pageSize ∧
        image.isTaken pageSize prefixes mprotect i) ∧
        (range i).countP (image.isTaken pageSize prefixes mprotect) < maxGuardedPages - before := by
  rw [guardedPages, mem_ite_nil_left, filter_filter]
  exact and_congr_right fun _ => mem_take_filter_range

theorem isLibrary_of_isTaken {mprotect : Nat → Bool} {i : Nat} {sym : Nlist64}
    (h : image.isTaken pageSize prefixes mprotect i) (hmem : sym ∈ image.table.syms)
    (hscanned : Scanned image.table sym) (hpage : image.pageIdx pageSize sym = some i) :
    image.isLibrary prefixes sym := by
  simp only [isTaken, Bool.and_eq_true, Bool.not_eq_true', hasOther, any_eq_false, decide_eq_true_eq,
    not_and, not_not] at h
  exact h.2.2 sym hmem hscanned hpage

/-- The symbols that start in a guarded page are looked at; what reaches in from outside is not. -/
theorem guards_only_library_iff (mprotect : Nat → Bool) (before : Nat) :
    (∀ i ∈ image.guardedPages pageSize prefixes mprotect before, ∀ b,
        image.InPage pageSize i b → image.OnlyLibrary prefixes b) ↔
      ∀ i, (image.dataBase ≠ 0 ∧ (i < image.numPages pageSize ∧
          image.isTaken pageSize prefixes mprotect i) ∧
          (range i).countP (image.isTaken pageSize prefixes mprotect) < maxGuardedPages - before) →
        ∀ b, image.InPage pageSize i b → (∃ sym, image.Covers sym b) ∧ ∀ sym, image.Covers sym b →
          image.address sym < image.pageAddr pageSize i ∨ image.dataEnd ≤ image.address sym →
            image.isLibrary prefixes sym := by
  simp only [mem_guardedPages_iff]
  refine forall₂_congr fun i hguarded => forall₂_congr fun b hpage => ?_
  obtain ⟨-, ⟨hi, htaken⟩, -⟩ := hguarded
  constructor
  · exact fun ⟨hcovered, honly⟩ => ⟨hcovered, fun sym hcovers _ => honly sym hcovers⟩
  · rintro ⟨hcovered, houtside⟩
    refine ⟨hcovered, fun sym hcovers => ?_⟩
    by_cases hout : image.address sym < image.pageAddr pageSize i ∨
        image.dataEnd ≤ image.address sym
    · exact houtside sym hcovers hout
    · obtain ⟨⟨hmem, hscanned⟩, ⟨hstart, -⟩, -⟩ := hcovers
      have hinside : image.InPage pageSize i (image.address sym) :=
        ⟨by omega, Nat.lt_of_le_of_lt hstart hpage.2⟩
      exact isLibrary_of_isTaken htaken hmem hscanned (pageIdx_eq hi hinside (by omega))

/-- A table of the game's that fills the first page and a half, and a library's variable behind. -/
def spanning : DataImage :=
  { slide := 0, vmaddr := 0x100008000, vmsize := 0x2000, sectionEnd := fun _ => 0x10000a000
    table :=
      { syms := [⟨0, 0x0e, 1, 0, 0x100008000⟩, ⟨4, 0x0f, 1, 0, 0x100009800⟩]
        strtab := [0x5f, 0x74, 0x62, 0, 0x5f, 0x53, 0x44, 0x4c, 0], strsize := 9
        nsyms_lt := by decide } }

theorem spanning_guards_other :
    spanning.guardedPages 4096 [[0x5f, 0x53, 0x44, 0x4c]] (fun _ => true) 0 = [1] ∧
      spanning.InPage 4096 1 0x100009000 ∧
      spanning.Covers ⟨0, 0x0e, 1, 0, 0x100008000⟩ 0x100009000 ∧
      spanning.isLibrary [[0x5f, 0x53, 0x44, 0x4c]] ⟨0, 0x0e, 1, 0, 0x100008000⟩ = false := by
  refine ⟨by decide, ⟨by decide, by decide⟩, by decide, by decide⟩

end DataImage

end Machgate.StaleDataGuard
