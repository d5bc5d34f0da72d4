import Machgate.FdGuards
import Machgate.Interleaving

namespace Machgate.SpawnActions

open Interleaving Function FdGuards Option List

structure Request where
  path : String
  flags : BitVec 32
  mode : BitVec 32
  deriving DecidableEq

/-- `struct shim_spawn_file_action`. -/
inductive Action
  | close (fd : Int)
  | dup2 (fd newfd : Int)
  | openFile (fd : Int) (request : Request)
  deriving DecidableEq

/-- The descriptors of the child, and how many files it has opened. -/
structure Child where
  files : Int → Option Descriptor
  opened : Nat

/-- The bound for descriptor numbers, and what an open gives, which may depend on those before it. -/
structure Kernel where
  limit : Nat
  opens : Request → Nat → Option Nat

variable (k : Kernel)

def sysClose (c : Child) (fd : Int) : Option Child :=
  if c.files fd = none then none else some { c with files := update c.files fd none }

def sysDup2 (c : Child) (fd newfd : Int) : Option Child :=
  if c.files fd = none ∨ newfd < 0 ∨ k.limit ≤ newfd then none
  else if fd = newfd then some c
  else some { c with files := update c.files newfd ((c.files fd).map ({ · with cloexec := false })) }

def lowestFree (c : Child) : Option Nat := (List.range k.limit).find? (c.files · = none)

/-- `libc_open` of the translated flags: the lowest number that is free. -/
def libcOpen (c : Child) (request : Request) : Option (Child × Int) :=
  (lowestFree k c).bind fun fd => (k.opens request c.opened).map fun description =>
    ({ files := update c.files fd (some ⟨description, request.flags &&& darwinOCloexec ≠ 0⟩)
       opened := c.opened + 1 }, fd)

/-- One round of the loop of `apply_spawn_file_actions`, which looks at no result. -/
def applyAction (c : Child) : Action → Child
  | .close fd => (sysClose c fd).getD c
  | .dup2 fd newfd => (sysDup2 k c fd newfd).getD c
  | .openFile target request =>
    match libcOpen k c request with
    | none => c
    | some (c, fd) =>
      if fd ≠ target then
        let c := (sysDup2 k c fd target).getD c
        (sysClose c fd).getD c
      else c

def applySpawnFileActions (c : Child) (actions : List Action) : Child :=
  actions.foldl (applyAction k) c

/-- What an action asks for, `none` if a part of it fails: an open leaves the file under its number
for the program. -/
def perform (c : Child) : Action → Option Child
  | .close fd => sysClose c fd
  | .dup2 fd newfd => sysDup2 k c fd newfd
  | .openFile target request =>
    (libcOpen k c request).bind fun (c', fd) =>
      if target < 0 ∨ k.limit ≤ target then none
      else some { c' with
        files := update (update c'.files fd none) target ((c'.files fd).map ({ · with cloexec := false })) }

def inherited (c : Child) (fd : Int) : Option Descriptor := (c.files fd).filter (!·.cloexec)

/-- The program runs because all actions succeeded, and with what they leave. -/
def Faithful (c : Child) (actions : List Action) : Prop :=
  ∃ c', actions.foldlM (perform k) c = some c' ∧
    inherited (applySpawnFileActions k c actions) = inherited c'

/-- The action succeeds, and no file that is to be closed on exec is given its own number at once. -/
def Clean (c : Child) (action : Action) : Prop :=
  (perform k c action).isSome ∧
    ∀ target request, action = .openFile target request → request.flags &&& darwinOCloexec ≠ 0 →
      (libcOpen k c request).map Prod.snd ≠ some target

variable {k} {c c' : Child} {action : Action}

theorem lowestFree_spec {fd : Nat} (h : lowestFree k c = some fd) : fd < k.limit ∧ c.files fd = none := by
  have hfree := find?_some h
  exact ⟨mem_range.mp (mem_of_find?_eq_some h), of_decide_eq_true hfree⟩

theorem libcOpen_spec {request : Request} {fd : Int} (h : libcOpen k c request = some (c', fd)) :
    0 ≤ fd ∧ fd < k.limit ∧
      ∃ description, c'.files fd = some ⟨description, request.flags &&& darwinOCloexec ≠ 0⟩ := by
  rcases bind_eq_some_iff.mp h with ⟨n, hn, h⟩
  rcases map_eq_some_iff.mp h with ⟨description, -, ⟨⟩⟩
  have hlimit := (lowestFree_spec hn).1
  exact ⟨by omega, by omega, description, update_self ..⟩

theorem perform_openFile {target : Int} {request : Request}
    (h : perform k c (.openFile target request) = some c') :
    ∃ c₁ fd description, libcOpen k c request = some (c₁, fd) ∧ 0 ≤ target ∧ target < k.limit ∧
      c₁.files fd = some ⟨description, request.flags &&& darwinOCloexec ≠ 0⟩ ∧
      c' = { c₁ with files := update (update c₁.files fd none) target (some ⟨description, false⟩) } := by
  rcases bind_eq_some_iff.mp h with ⟨⟨c₁, fd⟩, hopen, h⟩
  rcases ite_none_left_eq_some.mp h with ⟨hrange, ⟨⟩⟩
  rcases libcOpen_spec hopen with ⟨-, -, description, hfile⟩
  exact ⟨c₁, fd, description, hopen, by omega, by omega, hfile, by rw [hfile]; rfl⟩

theorem applyAction_of_clean (h : perform k c action = some c') (hclean : Clean k c action) :
    applyAction k c action = c' := by
  cases action with
  | close fd | dup2 fd newfd =>
    rw [perform] at h
    rw [applyAction, h, getD_some]
  | openFile target request =>
    rcases perform_openFile h with ⟨c₁, fd, description, hopen, hnonneg, hlimit, hfile, rfl⟩
    simp only [applyAction, hopen]
    split
    · next hne =>
      have hdup : sysDup2 k c₁ fd target =
          some { c₁ with files := update c₁.files target (some ⟨description, false⟩) } := by
        rw [sysDup2, hfile, if_neg (by simp; omega), if_neg hne]
        rfl
      rw [hdup, getD_some, sysClose, if_neg (by simp [update_of_ne hne, hfile]), getD_some,
        update_comm (Ne.symm hne)]
    · next heq =>
      obtain rfl := not_not.mp heq
      have hflag : request.flags &&& darwinOCloexec = 0 := by
        by_contra hflag
        exact hclean.2 fd request rfl hflag (by rw [hopen]; rfl)
      rw [hflag] at hfile
      rw [update_idem, ← show c₁.files fd = some ⟨description, false⟩ from hfile, update_eq_self]

theorem clean_of_faithful (h : Faithful k c [action]) : Clean k c action := by
  rcases h with ⟨c', hperform, hinherited⟩
  replace hperform : perform k c action = some c' := by simpa using hperform
  refine ⟨by rw [hperform]; rfl, ?_⟩
  rintro target request rfl hflag hown
  rcases perform_openFile hperform with ⟨c₁, fd, description, hopen, -, -, hfile, rfl⟩
  obtain rfl : fd = target := by simpa [hopen] using hown
  -- the program would find the file under the number; the loop leaves it with the flag
  have hlost := congrFun hinherited fd
  rw [decide_eq_true hflag] at hfile
  simp [applySpawnFileActions, applyAction, hopen, inherited, hfile, Option.filter] at hlost

theorem faithful_cons_iff (hclean : Clean k c action) {actions : List Action} :
    Faithful k c (action :: actions) ↔ Faithful k (applyAction k c action) actions := by
  rcases isSome_iff_exists.mp hclean.1 with ⟨c', hperform⟩
  simp only [Faithful, applySpawnFileActions, foldlM_cons, foldl_cons, hperform,
    applyAction_of_clean hperform hclean, bind_eq_bind, bind_some]

/-- The lists of actions for which the program runs only after all of them, however many of them are
given. -/
theorem faithful_iff_clean (k : Kernel) (c : Child) (actions : List Action) :
    (∀ before, before <+: actions → Faithful k c before) ↔
      Along (fun c action => some (applyAction k c action)) (Clean k) c actions := by
  induction actions generalizing c with
  | nil =>
    refine iff_of_true (fun before hbefore => ?_) trivial
    rw [prefix_nil.mp hbefore]
    exact ⟨c, rfl, rfl⟩
  | cons action actions ih =>
    rw [Along]
    constructor
    · intro h
      have hclean := clean_of_faithful (h [action] (prefix_cons_inj action |>.mpr nil_prefix))
      refine ⟨hclean, ?_⟩
      rintro _ ⟨⟩
      refine (ih _).mp fun before hbefore => (faithful_cons_iff hclean).mp ?_
      exact h _ ((prefix_cons_inj action).mpr hbefore)
    · rintro ⟨hclean, hrest⟩ before hbefore
      rcases prefix_cons_iff.mp hbefore with rfl | ⟨before, rfl, hrest'⟩
      · exact ⟨c, rfl, rfl⟩
      · exact (faithful_cons_iff hclean).mpr ((ih _).mpr (hrest _ rfl) before hrest')

/-- An open that fails is passed over; and a file that is opened with `O_CLOEXEC` as the first free
number, which is its own, is lost at the exec. -/
theorem open_unfaithful :
    ¬ Faithful ⟨8, fun _ _ => none⟩ ⟨fun _ => none, 0⟩ [.openFile 0 ⟨"input", 0, 0⟩] ∧
      ¬ Faithful ⟨8, fun _ _ => some 5⟩ ⟨fun _ => none, 0⟩ [.openFile 0 ⟨"input", darwinOCloexec, 0⟩] := by
  constructor
  · intro h
    have hclean := (clean_of_faithful h).1
    revert hclean
    decide
  · intro h
    exact (clean_of_faithful h).2 0 _ rfl (by decide) (by decide)

end Machgate.SpawnActions
