import Machgate.ByteMemory

namespace Machgate.FixedMapping

open ByteMemory

structure Region where
  start : Nat
  size : Nat

namespace Region

variable {a b a' b' : Region}

def Disjoint (a b : Region) : Prop :=
  a.start + a.size ≤ b.start ∨ b.start + b.size ≤ a.start

instance (a b : Region) : Decidable (a.Disjoint b) :=
  inferInstanceAs (Decidable (_ ∨ _))

def Within (a b : Region) : Prop :=
  b.start ≤ a.start ∧ a.start + a.size ≤ b.start + b.size

instance (a b : Region) : Decidable (a.Within b) :=
  inferInstanceAs (Decidable (_ ∧ _))

theorem Disjoint.symm (h : a.Disjoint b) : b.Disjoint a :=
  Or.symm h

theorem Within.trans {c : Region} (hab : a.Within b) (hbc : b.Within c) : a.Within c :=
  ⟨hbc.1.trans hab.1, hab.2.trans hbc.2⟩

theorem Disjoint.within (h : a.Disjoint b) (ha : a'.Within a) (hb : b'.Within b) :
    a'.Disjoint b' := by
  obtain ⟨halow, hahigh⟩ := ha
  obtain ⟨hblow, hbhigh⟩ := hb
  rcases h with hbefore | hafter
  · exact Or.inl (by omega)
  · exact Or.inr (by omega)

end Region

/-- What `mmap` with `MAP_FIXED_NOREPLACE` answers, `none` for `MAP_FAILED`: memory apart from all
that is mapped.  The first argument counts the calls, so that two equal calls may be answered
differently.  The addresses of the last page are error values and never mapped. -/
structure Mapper where
  mmap : Nat → List Region → Addr → BitVec 64 → Option Addr
  below_top : ∀ n mapped hint size result, mmap n mapped hint size = some result →
    result.toNat + size.toNat ≤ 2 ^ 64 - 4096
  fresh : ∀ n mapped hint size result, mmap n mapped hint size = some result →
    ∀ r ∈ mapped, r.Disjoint ⟨result.toNat, size.toNat⟩

structure AddressSpace where
  mapped : List Region
  calls : Nat

namespace AddressSpace

variable {s t u : AddressSpace} {r : Region}

def Covers (s : AddressSpace) (r : Region) : Prop :=
  ∃ q ∈ s.mapped, r.Within q

def Extends (s t : AddressSpace) : Prop :=
  ∀ r ∈ s.mapped, r ∈ t.mapped

theorem Extends.refl (s : AddressSpace) : Extends s s :=
  fun _ hr => hr

theorem Extends.trans (hst : Extends s t) (htu : Extends t u) : Extends s u :=
  fun r hr => htu r (hst r hr)

theorem Covers.mono (h : Covers s r) (hst : Extends s t) : Covers t r := by
  obtain ⟨q, hq, hwithin⟩ := h
  exact ⟨q, hst q hq, hwithin⟩

structure Obtains (s t : AddressSpace) (r : Region) : Prop where
  extends_ : Extends s t
  covers : Covers t r
  below_top : r.start + r.size ≤ 2 ^ 64 - 4096
  fresh : ∀ q ∈ s.mapped, q.Disjoint r

theorem Obtains.after (hst : Extends s t) (h : Obtains t u r) : Obtains s u r where
  extends_ := hst.trans h.extends_
  covers := h.covers
  below_top := h.below_top
  fresh := fun q hq => h.fresh q (hst q hq)

theorem Obtains.disjoint {a : Region} (h : Obtains s t r) (ha : Covers s a) : a.Disjoint r := by
  obtain ⟨q, hq, hwithin⟩ := ha
  exact (h.fresh q hq).within hwithin ⟨le_refl _, le_refl _⟩

end AddressSpace

/-- The call at a given address.  It gives the null pointer when it fails, and when memory was
found elsewhere, which is unmapped again. -/
def mapAt (m : Mapper) (size : BitVec 64) (s : AddressSpace) (address : Addr) :
    AddressSpace × Addr :=
  if m.mmap s.calls s.mapped address size = some address then
    ({ mapped := ⟨address.toNat, size.toNat⟩ :: s.mapped, calls := s.calls + 1 }, address)
  else ({ s with calls := s.calls + 1 }, 0#64)

variable (m : Mapper) (size : BitVec 64) (s : AddressSpace) (address : Addr)

theorem mapAt_cases :
    ((mapAt m size s address).2 = 0#64 ∧ s.Extends (mapAt m size s address).1) ∨
      ((mapAt m size s address).2 = address ∧
        s.Obtains (mapAt m size s address).1 ⟨address.toNat, size.toNat⟩) := by
  rw [mapAt]
  split_ifs with hmmap
  · refine Or.inr ⟨rfl, ?_, ?_, ?_, ?_⟩
    · exact fun _ hr => List.mem_cons_of_mem _ hr
    · exact ⟨_, List.mem_cons_self, le_refl _, le_refl _⟩
    · exact m.below_top _ _ _ _ _ hmmap
    · exact m.fresh _ _ _ _ _ hmmap
  · exact Or.inl ⟨rfl, fun _ hr => hr⟩

theorem extends_mapAt : s.Extends (mapAt m size s address).1 := by
  rcases mapAt_cases m size s address with ⟨-, h⟩ | ⟨-, h⟩
  · exact h
  · exact h.extends_

theorem obtains_mapAt (h : (mapAt m size s address).2 ≠ 0#64) :
    (mapAt m size s address).2 = address ∧
      s.Obtains (mapAt m size s address).1 ⟨address.toNat, size.toNat⟩ := by
  rcases mapAt_cases m size s address with ⟨hzero, -⟩ | hobtains
  · exact absurd hzero h
  · exact hobtains

end Machgate.FixedMapping
