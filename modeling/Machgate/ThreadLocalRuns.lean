import Mathlib.Data.List.Pairwise
import Machgate.ThreadLocals

namespace Machgate.ThreadLocals

open Interleaving Function List Option Nat

namespace Storage

variable {x y : Storage} {storages : List Storage}

theorem start_lt_limit (x : Storage) : x.start < x.limit := by
  simp only [limit, block, tlvBlockPrefix]
  omega

instance : Std.Symm Apart := ⟨fun _ _ => Or.symm⟩

theorem eq_of_block (h : storages.Pairwise Apart) (hx : x ∈ storages) (hy : y ∈ storages)
    (hblock : x.block = y.block) : x = y := by
  by_contra hne
  have hapart := h.forall hx hy hne
  have hx := x.start_lt_limit
  have hy := y.start_lt_limit
  simp only [Apart, block, Nat.add_right_cancel_iff] at hapart hblock
  omega

end Storage

variable {V : Type} {p : Program V} {s s' : State V} {t : Thread} {v : V} {k : Key} {b : Nat}

/-- A variable has a key of its own, and a value of a key is the block of a storage of its own. -/
structure Placed (p : Program V) (s : State V) : Prop where
  counter : darwinTsdFirstKey ≤ s.nextDarwinTsdKey.toNat
  keys : ∀ v k, s.key v = some k → darwinTsdKey k ∧ k.toNat < s.nextDarwinTsdKey.toNat
  distinct : ∀ v v' k, s.key v = some k → s.key v' = some k → v = v'
  values : ∀ t k b, s.values t k = some b →
    ∃ v, s.key v = some k ∧ ∃ x ∈ s.storages, x.block = b ∧ x.capacity = p.needed v
  owners : ∀ t k t' k' b, s.values t k = some b → s.values t' k' = some b → t = t' ∧ k = k'
  apart : s.storages.Pairwise Storage.Apart

/-- The log goes with what the threads have. -/
structure Logged (p : Program V) (s : State V) : Prop where
  accesses : ∀ a ∈ s.log, s.exiting a.thread = false → ∃ k b, s.key a.var = some k ∧
    s.values a.thread k = some b ∧ a.address = some (b + p.offset a.var)
  known : ∀ t v k b, s.key v = some k → s.values t k = some b →
    ∃ a ∈ s.log, a.thread = t ∧ a.var = v
  given : ∀ a ∈ s.log, a.address ≠ none
  stable : ∀ a ∈ s.log, ∀ b ∈ s.log, a.thread = b.thread → a.var = b.var → a.address = b.address
  fresh : Lawful (Fresh p) s.log

structure Inv (p : Program V) (s : State V) : Prop extends Placed p s, Logged p s

theorem inv_initial (memory : Nat → Byte) : Inv p (initial memory) where
  counter := by simp [initial, darwinTsdFirstKey]
  keys := fun _ _ h => nomatch h
  distinct := fun _ _ _ h => nomatch h
  values := fun _ _ _ h => nomatch h
  owners := fun _ _ _ _ _ h => nomatch h
  apart := Pairwise.nil
  accesses := fun _ h => nomatch h
  known := fun _ _ _ _ h => nomatch h
  given := fun _ h => nomatch h
  stable := fun _ h => nomatch h
  fresh := lawful_nil

theorem toNat_next {key : Key} (hroom : key.toNat + 1 < 2 ^ 32) : (key + 1).toNat = key.toNat + 1 := by
  exact mod_eq_of_lt hroom

namespace State

theorem setValue_of_none {s : State V} (h : s.values t k = none) : s.setValue t k none = s := by
  rw [setValue, ← h, update_eq_self, update_eq_self]

end State

namespace Inv

variable (h : Inv p s)

include h

theorem capacityOf (hkey : s.key v = some k) (hvalue : s.values t k = some b) :
    s.capacityOf b = p.needed v := by
  rcases h.values t k b hvalue with ⟨v', hkey', x, hx, hblock, hcapacity⟩
  rw [h.distinct v v' k hkey hkey', ← hcapacity, State.capacityOf]
  cases hfind : s.storages.find? fun y => y.block = b with
  | none => simpa [hblock] using find?_eq_none.mp hfind x hx
  | some y =>
    have hy : y.block = b := by simpa using find?_some hfind
    rw [Storage.eq_of_block h.apart hx (mem_of_find?_eq_some hfind) (hblock.trans hy.symm)]
    rfl

theorem get (hkey : s.key v = some k) : s.shimTsdGet t k = s.values t k :=
  if_pos (h.keys v k hkey).1

theorem storage {a : Access V} (ha : a ∈ s.log) (hlive : s.exiting a.thread = false) :
    ∃ k, s.key a.var = some k ∧ ∃ x ∈ s.storages, s.values a.thread k = some x.block ∧
      x.capacity = p.needed a.var ∧ a.address = some (x.block + p.offset a.var) := by
  rcases h.accesses a ha hlive with ⟨k, b, hkey, hvalue, haddress⟩
  rcases h.values _ _ _ hvalue with ⟨v, hkey', x, hx, rfl, hcapacity⟩
  rw [h.distinct v a.var k hkey' hkey] at hcapacity
  exact ⟨k, hkey, x, hx, hvalue, hcapacity, haddress⟩

theorem correct : Correct p s where
  given := h.given
  stable := h.stable
  fresh := h.fresh
  disjoint := by
    intro a ha a' ha' hlive hlive' hpair address haddress address' haddress'
    rcases h.storage ha hlive with ⟨k, hkey, x, hx, hvalue, hcapacity, hx'⟩
    rcases h.storage ha' hlive' with ⟨k', hkey', y, hy, hvalue', hcapacity', hy'⟩
    have hne : x ≠ y := by
      rintro rfl
      rcases h.owners _ _ _ _ _ hvalue hvalue' with ⟨hthread, rfl⟩
      exact hpair.elim (fun hne => hne hthread) fun hne => hne (h.distinct _ _ k hkey hkey')
    have hapart := h.apart.forall hx hy hne
    have hroom := p.inside_needed a.var
    have hroom' := p.inside_needed a'.var
    cases hx'.symm.trans haddress
    cases hy'.symm.trans haddress'
    simp only [Storage.Apart, Storage.limit, Storage.block, hcapacity, hcapacity'] at hapart ⊢
    omega

theorem values_next : s.values t s.nextDarwinTsdKey = none := by
  rw [eq_none_iff_forall_not_mem]
  intro b hb
  rcases h.values t _ b hb with ⟨v, hkey, -⟩
  exact Nat.lt_irrefl _ (h.keys v _ hkey).2

theorem allocateKey_of_le {tlv : Bool} (hle : s.nextDarwinTsdKey.toNat ≤ darwinTsdLastKey) :
    s.shimTsdAllocateKey t tlv =
      ({ s with
          nextDarwinTsdKey := s.nextDarwinTsdKey + 1
          tlvDestructor := update s.tlvDestructor s.nextDarwinTsdKey tlv },
        some s.nextDarwinTsdKey) := by
  rw [State.shimTsdAllocateKey]
  rw [if_neg (Nat.not_lt.mpr hle), State.setValue_of_none]
  exact h.values_next

theorem counted {destructors : Key → Bool} (hroom : s.nextDarwinTsdKey.toNat + 1 < 2 ^ 32) :
    Inv p { s with nextDarwinTsdKey := s.nextDarwinTsdKey + 1, tlvDestructor := destructors } := by
  have hle : s.nextDarwinTsdKey.toNat ≤ (s.nextDarwinTsdKey + 1).toNat := by
    rw [toNat_next hroom]
    exact le_succ _
  refine { h with counter := Nat.le_trans h.counter hle, keys := ?_ }
  intro v k hkey
  exact ⟨(h.keys v k hkey).1, Nat.lt_of_lt_of_le (h.keys v k hkey).2 hle⟩

theorem createKey (hroom : s.nextDarwinTsdKey.toNat + 1 < 2 ^ 32) :
    Inv p (s.shimTsdAllocateKey t false).1 := by
  rcases Nat.lt_or_ge darwinTsdLastKey s.nextDarwinTsdKey.toNat with hlt | hle
  · rw [State.shimTsdAllocateKey]
    rw [if_pos hlt]
    exact h.counted hroom
  · rw [h.allocateKey_of_le hle]
    exact h.counted hroom

variable [DecidableEq V]

/-- A variable without a key is given one that nobody has. -/
theorem setKey (hnone : s.key v = none) (hk : darwinTsdKey k ∧ k.toNat < s.nextDarwinTsdKey.toNat)
    (hunused : ∀ v, s.key v ≠ some k) (hvalues : ∀ t, s.values t k = none) :
    Inv p { s with key := update s.key v (some k) } := by
  have hother : ∀ {v' k'}, s.key v' = some k' → update s.key v (some k) v' = some k' := by
    intro v' k' hkey
    have hne : v' ≠ v := by
      rintro rfl
      cases hnone.symm.trans hkey
    rw [update_of_ne hne, hkey]
  have hcases : ∀ {v' k'}, update s.key v (some k) v' = some k' →
      v' = v ∧ k' = k ∨ s.key v' = some k' := by
    intro v' k' hkey
    rw [update_apply] at hkey
    split at hkey
    · next heq => exact .inl ⟨heq, (some.inj hkey).symm⟩
    · exact .inr hkey
  refine { h with keys := ?_, distinct := ?_, values := ?_, accesses := ?_, known := ?_ }
  · intro v' k' hkey
    rcases hcases hkey with ⟨-, rfl⟩ | hkey
    · exact hk
    · exact h.keys v' k' hkey
  · intro v₁ v₂ k' hkey₁ hkey₂
    rcases hcases hkey₁ with ⟨rfl, rfl⟩ | hold₁ <;> rcases hcases hkey₂ with ⟨rfl, hk'⟩ | hold₂
    · rfl
    · exact absurd hold₂ (hunused v₂)
    · exact absurd (hk' ▸ hold₁) (hunused v₁)
    · exact h.distinct v₁ v₂ k' hold₁ hold₂
  · intro t k' b hvalue
    rcases h.values t k' b hvalue with ⟨v', hkey, hstorage⟩
    exact ⟨v', hother hkey, hstorage⟩
  · intro a ha hlive
    rcases h.accesses a ha hlive with ⟨k', b, hkey, hrest⟩
    exact ⟨k', b, hother hkey, hrest⟩
  · intro t v' k' b hkey hvalue
    rcases hcases hkey with ⟨-, rfl⟩ | hkey
    · cases (hvalues t).symm.trans hvalue
    · exact h.known t v' k' b hkey hvalue

theorem tlvKey {garbage : Key}
    (hleft : s.key v = none → s.nextDarwinTsdKey.toNat ≤ darwinTsdLastKey) :
    Inv p (tlvKey s t v garbage) := by
  rw [ThreadLocals.tlvKey]
  cases hkey : s.key v with
  | some k => exact h
  | none =>
    have hle := hleft hkey
    have hroom : s.nextDarwinTsdKey.toNat + 1 < 2 ^ 32 := by
      simp only [darwinTsdLastKey] at hle
      omega
    rw [h.allocateKey_of_le hle]
    refine (h.counted hroom).setKey hkey ⟨?_, ?_⟩ ?_ fun t' => h.values_next
    · simpa [darwinTsdKey] using ⟨h.counter, hle⟩
    · rw [toNat_next hroom]
      exact lt_succ_self _
    · intro v' hkey'
      exact Nat.lt_irrefl _ (h.keys v' _ hkey').2

end Inv

theorem Logged.returns (h : Logged p s) (hkeys : s'.key = s.key) (hlog : s'.log = s.log)
    (hexiting : s'.exiting = s.exiting) (hplaced : Placed p s') (hlive : s.exiting t = false)
    (hkey : s.key v = some k) (hvalue : s'.values t k = some b)
    (hkept : ∀ t k b, s.values t k = some b → s'.values t k = some b)
    (hnew : ∀ t' k' b', s'.values t' k' = some b' → s.values t' k' = some b' ∨ t' = t ∧ k' = k)
    (hfresh : (∀ a ∈ s.log, a.thread = t → a.var ≠ v) →
      (range (p.size v)).map (fun i => s'.memory (b + p.offset v + i)) = p.initialBytes v) :
    Inv p (s'.returns t p v (some (b + p.offset v))) := by
  have hsame : ∀ a ∈ s.log, a.thread = t → a.var = v → a.address = some (b + p.offset v) := by
    rintro a ha rfl rfl
    rcases h.accesses a ha hlive with ⟨k', b', hkey', hvalue', haddress⟩
    cases hkey.symm.trans hkey'
    cases hvalue.symm.trans (hkept _ _ _ hvalue')
    exact haddress
  refine { hplaced with accesses := ?_, known := ?_, given := ?_, stable := ?_, fresh := ?_ }
  · simp only [State.returns, hlog, hkeys, hexiting, forall_mem_append, forall_mem_singleton]
    refine ⟨fun a ha hlive' => ?_, fun _ => ⟨k, b, hkey, hvalue, rfl⟩⟩
    rcases h.accesses a ha hlive' with ⟨k', b', hkey', hvalue', haddress⟩
    exact ⟨k', b', hkey', hkept _ _ _ hvalue', haddress⟩
  · intro t' v' k' b' hkey' hvalue'
    simp only [State.returns, hlog, hkeys] at hkey' hvalue' ⊢
    rcases hnew t' k' b' hvalue' with hold | ⟨rfl, rfl⟩
    · rcases h.known t' v' k' b' hkey' hold with ⟨a, ha, hpair⟩
      exact ⟨a, mem_append_left _ ha, hpair⟩
    · refine ⟨_, mem_append_right _ mem_cons_self, rfl, ?_⟩
      exact hplaced.distinct v v' k' (hkeys ▸ hkey) (hkeys ▸ hkey')
  · simp only [State.returns, hlog, forall_mem_append, forall_mem_singleton]
    exact ⟨h.given, some_ne_none _⟩
  · simp only [State.returns, hlog, forall_mem_append, forall_mem_singleton]
    refine ⟨fun a ha => ⟨h.stable a ha, hsame a ha⟩, fun a ha hthread hvar => ?_, fun _ _ => trivial⟩
    exact (hsame a ha hthread.symm hvar.symm).symm
  · simp only [State.returns, hlog]
    exact lawful_concat h.fresh hfresh

theorem values_setValue {value : Option Nat} {t' : Thread} {k' : Key} :
    (s.setValue t k value).values t' k' = if t' = t ∧ k' = k then value else s.values t' k' := by
  rcases eq_or_ne t' t with rfl | hne
  · simp [State.setValue, update_apply]
  · simp [State.setValue, hne]

theorem Placed.allocate {x : Storage} (h : Placed p s) (hkey : s.key v = some k)
    (hnone : s.values t k = none) (hfree : ∀ y ∈ s.storages, x.Apart y) (hcapacity : x.capacity = p.needed v) :
    Placed p ({ s with storages := x :: s.storages }.setValue t k (some x.block)) := by
  have hcases : ∀ {t' k' b'}, ({ s with storages := x :: s.storages }.setValue t k (some x.block)).values
      t' k' = some b' → t' = t ∧ k' = k ∧ b' = x.block ∨ s.values t' k' = some b' := by
    intro t' k' b' hvalue
    rw [values_setValue] at hvalue
    split at hvalue
    · next hpair => exact .inl ⟨hpair.1, hpair.2, (some.inj hvalue).symm⟩
    · exact .inr hvalue
  -- The new storage is not one of those that are in use.
  have hother : ∀ {t' k'}, s.values t' k' ≠ some x.block := by
    intro t' k' hvalue
    rcases h.values _ _ _ hvalue with ⟨-, -, y, hy, hblock, -⟩
    have hlimit := x.start_lt_limit
    have hlimit' := y.start_lt_limit
    have hapart := hfree y hy
    simp only [Storage.Apart, Storage.block, Nat.add_right_cancel_iff] at hapart hblock
    omega
  refine { h with values := ?_, owners := ?_, apart := pairwise_cons.mpr ⟨hfree, h.apart⟩ }
  · intro t' k' b' hvalue
    rcases hcases hvalue with ⟨-, rfl, rfl⟩ | hvalue
    · exact ⟨v, hkey, x, mem_cons_self, rfl, hcapacity⟩
    · rcases h.values _ _ _ hvalue with ⟨v', hkey', y, hy, hrest⟩
      exact ⟨v', hkey', y, mem_cons_of_mem x hy, hrest⟩
  · intro t₁ k₁ t₂ k₂ b' hvalue₁ hvalue₂
    rcases hcases hvalue₁ with ⟨rfl, rfl, rfl⟩ | hold₁ <;>
      rcases hcases hvalue₂ with ⟨rfl, rfl, hb⟩ | hold₂
    · exact ⟨rfl, rfl⟩
    · exact absurd hold₂ hother
    · exact absurd (hb ▸ hold₁) hother
    · exact h.owners _ _ _ _ _ hold₁ hold₂

theorem bytes_allocated {x : Storage} (hcapacity : x.capacity = p.needed v) :
    (range (p.size v)).map (fun i =>
      if x.block ≤ x.block + p.offset v + i ∧ x.block + p.offset v + i < x.limit then
        p.initialByte (x.block + p.offset v + i - x.block)
      else s.memory (x.block + p.offset v + i)) = p.initialBytes v := by
  refine map_congr_left fun i hi => ?_
  have hroom := p.inside_needed v
  rw [mem_range] at hi
  rw [if_pos, Nat.add_assoc, Nat.add_sub_cancel_left]
  rw [Storage.limit, hcapacity]
  omega

theorem Inv.first {start : Nat} (h : Inv p s) (hlive : s.exiting t = false) (hkey : s.key v = some k)
    (hnone : s.values t k = none) (hstep : (tlvAllocateBlock p s ⟨start, p.needed v⟩).map (fun s =>
      (s.shimTsdSet t k (Storage.block ⟨start, p.needed v⟩)).returns t p v
        (some (Storage.block ⟨start, p.needed v⟩ + p.offset v))) = some s') : Inv p s' := by
  rcases map_eq_some_iff.mp hstep with ⟨allocated, hallocated, rfl⟩
  rw [tlvAllocateBlock] at hallocated
  split at hallocated
  · next hfree =>
    cases hallocated
    have hplaced := h.toPlaced.allocate hkey hnone hfree rfl
    rw [State.shimTsdSet, if_pos (h.keys v k hkey).1]
    refine h.toLogged.returns (k := k) rfl rfl rfl ?_ hlive hkey ?_ ?_ ?_ ?_
    · exact { hplaced with }
    · rw [values_setValue, if_pos ⟨rfl, rfl⟩]
    · intro t' k' b' hvalue
      rw [values_setValue, if_neg]
      · exact hvalue
      · rintro ⟨rfl, rfl⟩
        cases hnone.symm.trans hvalue
    · intro t' k' b' hvalue
      rw [values_setValue] at hvalue
      split at hvalue
      · next hpair => exact .inr hpair
      · exact .inl hvalue
    · exact fun _ => bytes_allocated rfl
  · cases hallocated

theorem Inv.again (h : Inv p s) (hlive : s.exiting t = false) (hkey : s.key v = some k)
    (hvalue : s.values t k = some b) : Inv p (s.returns t p v (some (b + p.offset v))) := by
  refine h.toLogged.returns rfl rfl rfl h.toPlaced hlive hkey hvalue (fun _ _ _ => id)
    (fun _ _ _ => .inl) fun hnever => ?_
  rcases h.known t v k b hkey hvalue with ⟨a, ha, hthread, hvar⟩
  exact absurd hvar (hnever a ha hthread)

theorem Inv.bootstrap {start : Option Nat} (h : Inv p s) (hlive : s.exiting t = false)
    (hstart : (s.key v).bind (s.shimTsdGet t) = none → start ≠ none)
    (hstep : tlvBootstrapImpl p s t v start = some s') : Inv p s' := by
  rcases bind_eq_some_iff.mp hstep with ⟨k, hkey, hstep⟩
  rw [hkey, bind_some] at hstart
  rw [h.get hkey] at hstart hstep
  cases hvalue : s.values t k with
  | none =>
    rw [hvalue] at hstart hstep
    cases start with
    | none => exact absurd rfl (hstart rfl)
    | some start => exact h.first hlive hkey hvalue hstep
  | some block =>
    rw [hvalue] at hstep
    dsimp only at hstep
    rw [if_neg] at hstep
    · cases hstep
      exact h.again hlive hkey hvalue
    · rw [h.capacityOf hkey hvalue]
      exact Nat.lt_irrefl _

theorem Inv.exits (h : Inv p s) : Inv p { s with exiting := update s.exiting t true } := by
  refine { h with accesses := fun a ha hlive => h.accesses a ha ?_ }
  simp only [update_apply] at hlive
  split at hlive
  · cases hlive
  · exact hlive

theorem Inv.drop (h : Inv p s) (hexiting : s.exiting t = true) : Inv p (s.setValue t k none) := by
  have hkept : ∀ {t' k' b'}, (s.setValue t k none).values t' k' = some b' → s.values t' k' = some b' := by
    intro t' k' b' hvalue
    rw [values_setValue] at hvalue
    split at hvalue
    · cases hvalue
    · exact hvalue
  refine { h with values := ?_, owners := ?_, accesses := ?_, known := ?_ }
  · exact fun t' k' b' hvalue => h.values t' k' b' (hkept hvalue)
  · exact fun t₁ k₁ t₂ k₂ b' hvalue₁ hvalue₂ => h.owners _ _ _ _ _ (hkept hvalue₁) (hkept hvalue₂)
  · intro a ha hlive
    rcases h.accesses a ha hlive with ⟨k', b', hkey, hvalue, haddress⟩
    refine ⟨k', b', hkey, ?_, haddress⟩
    rw [values_setValue, if_neg]
    · exact hvalue
    · rintro ⟨rfl, -⟩
      cases hexiting.symm.trans hlive
  · exact fun t' v' k' b' hkey hvalue => h.known t' v' k' b' hkey (hkept hvalue)

theorem Inv.free (h : Inv p s) (hunused : ∀ t k, s.values t k ≠ some b) : Inv p (s.free b) := by
  refine { h with values := ?_, apart := h.apart.filter _ }
  intro t' k' b' hvalue
  rcases h.values t' k' b' hvalue with ⟨v, hkey, x, hx, rfl, hcapacity⟩
  refine ⟨v, hkey, x, mem_filter.mpr ⟨hx, ?_⟩, rfl, hcapacity⟩
  rw [decide_eq_true_eq]
  rintro rfl
  exact hunused t' k' hvalue

theorem Inv.destroy (h : Inv p s) : Inv p (destroy s t k) := by
  have hexits : Inv p { s with exiting := update s.exiting t true } := h.exits
  rw [ThreadLocals.destroy]
  cases hvalue : s.values t k with
  | none => exact hexits
  | some b =>
    have hdrop := hexits.drop (k := k) (update_self t true s.exiting)
    dsimp only
    split
    · refine hdrop.free fun t' k' hvalue' => ?_
      rw [values_setValue] at hvalue'
      split at hvalue'
      · cases hvalue'
      · next hpair => exact hpair (h.owners _ _ _ _ _ hvalue' hvalue)
    · exact hdrop

variable [DecidableEq V]

theorem inv_step (s : State V) (move : Move V) (s' : State V) (h : Inv p s)
    (hprovided : Provided s move) (hstep : step p s move = some s') : Inv p s' := by
  cases move with
  | createKey t =>
    cases hstep
    exact h.createKey hprovided
  | tlvKey t v garbage =>
    cases hstep
    exact h.tlvKey hprovided
  | bootstrap t v start => exact h.bootstrap hprovided.1 hprovided.2 hstep
  | store address byte =>
    cases hstep
    exact { h with }
  | destroy t key =>
    cases hstep
    exact h.destroy

def oneByte : Program Unit where
  image := [7]
  bssSize := 0
  offset := fun _ => 0
  size := fun _ => 1
  inside := by decide
  bounded := by decide

/-- The guest has taken all the keys, and a thread uses the variable twice. -/
def outOfKeys : List (Move Unit) :=
  List.replicate 384 (.createKey 0) ++
    [.tlvKey 0 () 0, .bootstrap 0 () (some 0x10000), .bootstrap 0 () (some 0x20000)]

/-- Two threads and two variables of a byte each; a thread ends, and its memory is used again. -/
def twoBytes : Program Bool where
  image := [7]
  bssSize := 1
  offset := fun v => if v then 1 else 0
  size := fun _ => 1
  inside := by decide
  bounded := by decide

def inTurns : List (Move Bool) :=
  [.tlvKey 0 false 0, .bootstrap 0 false (some 0x10000), .tlvKey 1 true 0, .createKey 1,
    .bootstrap 1 true (some 0x20000), .store 0x20011 9, .bootstrap 1 true none,
    .bootstrap 1 false (some 0x30000), .destroy 0 128, .bootstrap 2 true (some 0x10000)]

end Machgate.ThreadLocals
