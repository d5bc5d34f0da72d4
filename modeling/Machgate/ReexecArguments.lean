import Mathlib.Data.List.Basic

namespace Machgate.ReexecArguments

open List Function

/-- The characters of a C string in front of its terminator. -/
abbrev Text := List Char

def darwinE2big : Nat := 7
def machgateExecveMaxArgs : Nat := 4096

/-- An array of `char*`; a null pointer is `none`. -/
abbrev Pointers := Nat → Option Text

def countFrom : Nat → List Text → Except Nat Nat
  | count, [] => .ok count
  | count, _ :: rest =>
    if count = machgateExecveMaxArgs then .error darwinE2big else countFrom (count + 1) rest

def countGuestArgv : Option (List Text) → Except Nat Nat
  | none => .ok 0
  | some guestArgv => countFrom 0 guestArgv

/-- The copying loop at `index`, with the arguments from there on. -/
def copyArguments : Pointers → Nat → List Text → Pointers
  | loaderArgv, _, [] => loaderArgv
  | loaderArgv, index, argument :: rest =>
    copyArguments (Function.update loaderArgv (index + 1) (some argument)) (index + 1) rest

/-- `loaderArgv` holds whatever the stack held before. -/
def buildLoaderArgv (loaderPath guestPath : Text) (guestArgv : Option (List Text))
    (loaderArgv : Pointers) (loaderArgvSize : Nat) : Except Nat Pointers :=
  match countGuestArgv guestArgv with
  | .error result => .error result
  | .ok guestArgc =>
    if guestArgc + 2 > loaderArgvSize then .error darwinE2big
    else
      let loaderArgv := Function.update loaderArgv 0 (some loaderPath)
      let loaderArgv := Function.update loaderArgv 1 (some guestPath)
      let loaderArgv := copyArguments loaderArgv 1 ((guestArgv.getD []).drop 1)
      .ok (Function.update loaderArgv (guestArgc + 1) none)

/-- The arguments that the kernel takes from an array: those in front of the first null pointer. -/
def argvFrom (pointers : Pointers) : Nat → Nat → List Text
  | 0, _ => []
  | size + 1, index =>
    match pointers index with
    | none => []
    | some argument => argument :: argvFrom pointers size (index + 1)

def argvOf (pointers : Pointers) (size : Nat) : List Text := argvFrom pointers size 0

/-- What the arguments make `main` do: the program it loads with the arguments that program gets,
or exit status 1 after these texts. -/
inductive Selected
  | program (filename : Text) (argv : List Text) (verbose : Bool)
  | exits (messages : List Text)
  deriving DecidableEq

def usage (argv0 : Text) : Text :=
  "Usage: ".toList ++ argv0 ++ " [-v] <mach-o-binary> [args...]\n".toList

def unknownOption (option : Text) : Text := "Unknown option: ".toList ++ option ++ "\n".toList

/-- The flag loop: the value of `machgate_verbose` and the arguments from the program on. -/
def parseFlags (argv0 : Text) : Bool → List Text → Except (List Text) (Bool × List Text)
  | verbose, [] => .ok (verbose, [])
  | verbose, argument :: rest =>
    if argument.head? = some '-' then
      if argument = "-v".toList ∨ argument = "--verbose".toList then parseFlags argv0 true rest
      else if argument = "--".toList then .ok (verbose, rest)
      else .error [unknownOption argument, usage argv0]
    else .ok (verbose, argument :: rest)

def main (argv : List Text) : Selected :=
  let argv0 := argv.headD []
  match parseFlags argv0 false (argv.drop 1) with
  | .error messages => .exits messages
  | .ok (_, []) => .exits [usage argv0]
  | .ok (verbose, filename :: rest) => .program filename (filename :: rest) verbose

theorem countFrom_ok {count argc : Nat} {argv : List Text} (h : countFrom count argv = .ok argc) :
    argc = count + argv.length := by
  induction argv generalizing count with
  | nil =>
    cases h
    rfl
  | cons _ rest ih =>
    rw [countFrom] at h
    split at h
    · cases h
    · rw [ih h, length_cons]
      omega

theorem countGuestArgv_ok {guestArgv : Option (List Text)} {argc : Nat}
    (h : countGuestArgv guestArgv = .ok argc) : argc = (guestArgv.getD []).length := by
  cases guestArgv with
  | none =>
    cases h
    rfl
  | some argv => simpa using countFrom_ok h

/-- The loop leaves the slots up to its index alone and fills the ones behind it. -/
theorem copyArguments_apply (pointers : Pointers) (index : Nat) (arguments : List Text) (slot : Nat) :
    copyArguments pointers index arguments slot =
      if index < slot ∧ slot ≤ index + arguments.length then arguments[slot - index - 1]?
      else pointers slot := by
  induction arguments generalizing pointers index with
  | nil =>
    rw [copyArguments, if_neg]
    simp
  | cons argument rest ih =>
    rw [copyArguments, ih, length_cons]
    by_cases hslot : slot = index + 1
    · subst hslot
      simp
    · by_cases hin : index + 1 < slot ∧ slot ≤ index + 1 + rest.length
      · rw [if_pos hin, if_pos (by omega)]
        rw [show slot - index - 1 = (slot - (index + 1) - 1) + 1 by omega, getElem?_cons_succ]
      · rw [if_neg hin, if_neg (by omega), update_of_ne hslot]

variable {arguments : List Text} {argv0 argument : Text}

/-- An array that holds a list behind `index`, and a null pointer after it, is read as that list. -/
theorem argvFrom_eq {pointers : Pointers} {size index : Nat} (hsize : arguments.length < size)
    (h : ∀ i ≤ arguments.length, pointers (index + i) = arguments[i]?) :
    argvFrom pointers size index = arguments := by
  induction arguments generalizing size index with
  | nil =>
    obtain ⟨size, rfl⟩ := Nat.exists_eq_add_one.mpr hsize
    have hnull := h 0 (Nat.le_refl 0)
    rw [Nat.add_zero] at hnull
    simp [argvFrom, hnull]
  | cons argument rest ih =>
    obtain ⟨size, rfl⟩ := Nat.exists_eq_add_one.mpr (Nat.zero_lt_of_lt hsize)
    have hhead := h 0 (Nat.zero_le _)
    rw [Nat.add_zero, getElem?_cons_zero] at hhead
    have hrest : argvFrom pointers size (index + 1) = rest := by
      apply ih (Nat.lt_of_succ_lt_succ hsize)
      intro i hi
      have hnext := h (i + 1) (Nat.succ_le_succ hi)
      rwa [getElem?_cons_succ, ← Nat.add_assoc, Nat.add_right_comm] at hnext
    simp [argvFrom, hhead, hrest]

section

variable {loaderPath guestPath : Text} {guestArgv : Option (List Text)} {pointers built : Pointers}
  {size : Nat}

/-- What the loader is started with: the guest path stands in front of the guest's arguments, unless
the guest has no `argv[0]`; then the terminator takes its place. -/
theorem argvOf_built (h : buildLoaderArgv loaderPath guestPath guestArgv pointers size = .ok built) :
    argvOf built size =
      loaderPath :: (if guestArgv.getD [] = [] then [] else guestPath :: (guestArgv.getD []).tail) := by
  rw [buildLoaderArgv] at h
  split at h
  · cases h
  · rename_i argc hargc
    have hlength := countGuestArgv_ok hargc
    split at h
    · cases h
    · cases h
      cases hargv : guestArgv.getD [] with
      | nil =>
        rw [hargv] at hlength
        subst hlength
        apply argvFrom_eq
        · rw [if_pos rfl, length_singleton]
          omega
        · intro i hi
          -- The terminator is written to the slot of the guest path.
          rcases i with _ | i
          · rfl
          · obtain rfl : i = 0 := by simpa using hi
            exact update_self _ _ _
      | cons first rest =>
        rw [hargv, length_cons] at hlength
        subst hlength
        apply argvFrom_eq
        · rw [if_neg (cons_ne_nil first rest)]
          simp only [tail_cons, length_cons]
          omega
        · intro i hi
          rw [if_neg (cons_ne_nil first rest)] at hi ⊢
          simp only [tail_cons, length_cons] at hi
          rcases Nat.eq_or_lt_of_le hi with rfl | hlt
          · simp
          · rw [Nat.zero_add, update_of_ne (by omega), copyArguments_apply]
            rcases i with _ | _ | i
            · rfl
            · rfl
            · rw [if_pos ⟨by omega, by simp; omega⟩]
              simp

end

/-- The program and its arguments are the last of the arguments that the flag loop gets. -/
theorem parseFlags_suffix {verbose after : Bool} {rest : List Text}
    (h : parseFlags argv0 verbose arguments = .ok (after, rest)) : rest <:+ arguments := by
  induction arguments generalizing verbose with
  | nil =>
    cases h
    exact suffix_rfl
  | cons argument arguments ih =>
    rw [parseFlags] at h
    split at h
    · split at h
      · exact (ih h).trans (suffix_cons argument arguments)
      · split at h
        · cases h
          exact suffix_cons argument _
        · cases h
    · cases h
      exact suffix_rfl

theorem parseFlags_option {after : Bool} {rest : List Text} (hargument : argument.head? = some '-')
    (h : parseFlags argv0 false (argument :: arguments) = .ok (after, rest)) : rest <:+ arguments := by
  rw [parseFlags, if_pos hargument] at h
  split at h
  · exact parseFlags_suffix h
  · split at h
    · cases h
      exact suffix_rfl
    · cases h

/-- An argument in front that looks like an option is never the program. -/
theorem main_option (verbose : Bool) (hargument : argument.head? = some '-') :
    main (argv0 :: argument :: arguments) ≠ .program argument (argument :: arguments) verbose := by
  intro h
  simp only [main, drop_one, tail_cons] at h
  split at h
  · cases h
  · cases h
  · rename_i parsed _ filename rest hparse
    cases h
    have hlength := (parseFlags_option hargument hparse).length_le
    rw [length_cons] at hlength
    omega

theorem main_program (arguments : List Text) (hargument : argument.head? ≠ some '-') :
    main (argv0 :: argument :: arguments) = .program argument (argument :: arguments) false := by
  simp only [main, drop_one, tail_cons, parseFlags, if_neg hargument]

theorem reexec_runs_iff {loaderPath guestPath : Text} {guestArgv : Option (List Text)}
    {loaderArgv built : Pointers} {loaderArgvSize : Nat}
    (h : buildLoaderArgv loaderPath guestPath guestArgv loaderArgv loaderArgvSize = .ok built) :
    main (argvOf built loaderArgvSize) =
        .program guestPath (guestPath :: (guestArgv.getD []).tail) false ↔
      guestPath.head? ≠ some '-' ∧ guestArgv.getD [] ≠ [] := by
  rw [argvOf_built h]
  by_cases hargv : guestArgv.getD [] = []
  · rw [if_pos hargv]
    constructor
    · intro hmain
      cases hmain
    · intro hcond
      exact absurd hargv hcond.2
  · rw [if_neg hargv]
    constructor
    · intro hmain
      exact ⟨fun hoption => main_option false hoption hmain, hargv⟩
    · rintro ⟨hpath, -⟩
      exact main_program _ hpath

def machgatePath : Text := "/usr/bin/machgate".toList

/-- Arguments as a guest passes them on the stack frame of `machgate_execve_macho_guest`. -/
def started (guestPath : Text) (guestArgv : Option (List Text)) : Option Selected :=
  match buildLoaderArgv machgatePath guestPath guestArgv (fun _ => none)
      (machgateExecveMaxArgs + 3) with
  | .error _ => none
  | .ok built => some (main (argvOf built (machgateExecveMaxArgs + 3)))

/-- A call without arguments ends in the usage text, and a program file called `-v` is taken for
the flag: the guest's first argument is run in its place. -/
theorem started_wrong :
    started "/opt/tool".toList (some []) = some (.exits [usage machgatePath]) ∧
      started "-v".toList (some ["-v".toList, "/opt/other".toList, "x".toList]) =
        some (.program "/opt/other".toList ["/opt/other".toList, "x".toList] true) := by
  decide +kernel

theorem started_plain :
    ∃ built, buildLoaderArgv machgatePath "tool".toList (some ["t".toList, "-v".toList])
        (fun _ => none) 4 = .ok built ∧
      main (argvOf built 4) = .program "tool".toList ["tool".toList, "-v".toList] false :=
  ⟨_, rfl, (reexec_runs_iff (rfl : buildLoaderArgv machgatePath "tool".toList
    (some ["t".toList, "-v".toList]) (fun _ => none) 4 = .ok _)).mpr
      ⟨by decide +kernel, cons_ne_nil _ _⟩⟩

end Machgate.ReexecArguments
