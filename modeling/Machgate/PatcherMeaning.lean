import Machgate.PatternSearch

namespace Machgate.PatcherMeaning

open ByteMemory CText Instructions Patcher PatchText PatternSearch WordPointers
open Option List Prod Function Nat

/-- What a location stands for, given the addresses of the labels. -/
inductive Means (host : Host) (mem : Memory) (env : List Char → Option Addr) :
    LocExpr → Addr → Prop
  | abs (offset : BitVec 64) : Means host mem env (.abs offset) (offset + host.slide)
  | label {name : List Char} {base : Addr} (offset : BitVec 64) (hlabel : env name = some base) :
      Means host mem env (.label name offset) (base + offset)
  | sym {name : List Char} (offset : BitVec 64) (hloaded : host.loaded)
      (hsym : host.lookupSymbol name ≠ 0#64) :
      Means host mem env (.sym name offset) (host.lookupSymbol name + offset)
  | find {name : List Char} {offset within start stop a : BitVec 64} {patterns : List Pattern}
      (hloaded : host.loaded) (hsym : host.lookupSymbol name ≠ 0#64)
      (hextent : host.symbolExtent name = some (start, stop))
      (hmatch : UniqueMatch mem start stop within patterns a) :
      Means host mem env (.symFind name offset patterns within) a

/-- The labels after some lines: a label stands for what its last definition so far says. -/
inductive Defines (host : Host) (mem : Memory) :
    (List Char → Option Addr) → List PatchLine → (List Char → Option Addr) → Prop
  | nil {env : List Char → Option Addr} : Defines host mem env [] env
  | letLine {env env' : List Char → Option Addr} {name : List Char} {loc : LocExpr} {a : Addr}
      {lines : List PatchLine} (hloc : Means host mem env loc a)
      (hrest : Defines host mem (Function.update env name (some a)) lines env') :
      Defines host mem env (.letLine name loc :: lines) env'
  | edit {env env' : List Char → Option Addr} {line : PatchLine} {lines : List PatchLine}
      (hline : (editOf line).isSome) (hrest : Defines host mem env lines env') :
      Defines host mem env (line :: lines) env'

/-- The branch an instruction word stands for: whether it links, and where it goes. -/
def branchTarget (pc : Addr) (w : Word) : Option (Bool × Addr) :=
  if w &&& 0xFC000000#32 = 0x14000000#32 then some (false, pc + branchOffset (w.setWidth 26))
  else if w &&& 0xFC000000#32 = 0x94000000#32 then some (true, pc + branchOffset (w.setWidth 26))
  else none

inductive Encodes (host : Host) (mem : Memory) (env : List Char → Option Addr) (r : ResolvedEdit) :
    InsnExpr → Prop
  | raw : Encodes host mem env r (.raw r.insn)
  | b {loc : LocExpr} {target : Addr} (hloc : Means host mem env loc target)
      (hbranch : branchTarget r.addr r.insn = some (false, target)) : Encodes host mem env r (.b loc)
  | bl {loc : LocExpr} {target : Addr} (hloc : Means host mem env loc target)
      (hbranch : branchTarget r.addr r.insn = some (true, target)) : Encodes host mem env r (.bl loc)

structure Realizes (host : Host) (mem : Memory) (env : List Char → Option Addr) (edit : Edit)
    (r : ResolvedEdit) : Prop where
  addr : Means host mem env edit.loc r.addr
  insn : Encodes host mem env r edit.insn
  expected : ∀ w ∈ edit.expected, loadWord mem r.addr = w

def applyEdits (edits : List ResolvedEdit) (mem : Memory) : Memory :=
  edits.foldl (fun mem edit => storeWord mem edit.addr edit.insn) mem

section

/-- A `find` of an accepted file has no more patterns than there is room for. -/
def Bounded : LocExpr → Prop
  | .symFind _ _ patterns _ => patterns.length ≤ locMaxPatterns
  | _ => True

def InsnBounded : InsnExpr → Prop
  | .raw _ => True
  | .b target => Bounded target
  | .bl target => Bounded target

def LineBounded : PatchLine → Prop
  | .atLine loc insn _ => Bounded loc ∧ InsnBounded insn
  | .letLine _ loc => Bounded loc
  | .absLine _ _ => True

variable {rest p : List Char}

theorem length_parsePatterns {room : Nat} {save : List Char} {patterns : List Pattern}
    (h : parsePatterns room save = some (patterns, rest)) : patterns.length ≤ room := by
  induction room generalizing save patterns with
  | zero => cases h
  | succ room ih =>
    obtain ⟨pattern, -, h⟩ := bind_eq_some_iff.mp h
    dsimp only at h
    split at h
    · obtain ⟨⟨patterns', rest'⟩, hrest, heq⟩ := map_eq_some_iff.mp h
      obtain ⟨rfl, rfl⟩ := mk.inj heq
      exact succ_le_succ (ih hrest)
    · obtain ⟨rfl, -⟩ := mk.inj (some.inj h)
      exact succ_le_succ (Nat.zero_le room)

theorem bounded_parseSym {loc : LocExpr} (h : parseSym p = some (loc, rest)) : Bounded loc := by
  obtain ⟨⟨name, p'⟩, -, h⟩ := bind_eq_some_iff.mp h
  obtain ⟨⟨offset, p''⟩, -, h⟩ := bind_eq_some_iff.mp h
  dsimp only at h
  split at h
  · obtain ⟨⟨patterns, save⟩, hpatterns, h⟩ := bind_eq_some_iff.mp h
    obtain ⟨⟨within, save'⟩, -, heq⟩ := map_eq_some_iff.mp h
    obtain ⟨rfl, -⟩ := mk.inj heq
    exact length_parsePatterns hpatterns
  · obtain ⟨rfl, -⟩ := mk.inj (some.inj h)
    trivial

theorem bounded_parseLocExpr {loc : LocExpr}
    (h : parseLocExpr p = some (loc, rest)) : Bounded loc := by
  rw [parseLocExpr] at h
  dsimp only at h
  split at h
  · exact bounded_parseSym h
  · split at h
    · obtain ⟨⟨offset, p'⟩, -, heq⟩ := map_eq_some_iff.mp h
      obtain ⟨rfl, -⟩ := mk.inj heq
      trivial
    · obtain ⟨⟨name, p'⟩, -, h⟩ := bind_eq_some_iff.mp h
      obtain ⟨⟨offset, p''⟩, -, heq⟩ := map_eq_some_iff.mp h
      obtain ⟨rfl, -⟩ := mk.inj heq
      trivial

theorem bounded_parseInsnExpr {insn : InsnExpr}
    (h : parseInsnExpr p = some (insn, rest)) : InsnBounded insn := by
  rw [parseInsnExpr] at h
  dsimp only at h
  split at h
  · obtain ⟨rfl, -⟩ := mk.inj (some.inj h)
    trivial
  split at h
  · obtain ⟨rfl, -⟩ := mk.inj (some.inj h)
    trivial
  split at h
  · obtain ⟨⟨target, p'⟩, htarget, heq⟩ := map_eq_some_iff.mp h
    obtain ⟨rfl, -⟩ := mk.inj heq
    exact bounded_parseLocExpr htarget
  split at h
  · obtain ⟨⟨target, p'⟩, htarget, heq⟩ := map_eq_some_iff.mp h
    obtain ⟨rfl, -⟩ := mk.inj heq
    exact bounded_parseLocExpr htarget
  · obtain ⟨⟨v, p'⟩, -, h⟩ := bind_eq_some_iff.mp h
    dsimp only at h
    split at h
    · cases h
    · obtain ⟨rfl, -⟩ := mk.inj (some.inj h)
      trivial

theorem bounded_parseLine {buf : List Char} {line : PatchLine}
    (h : parseLine buf = some (some line)) : LineBounded line := by
  rw [parseLine] at h
  split at h
  · cases h
  split at h
  · obtain ⟨line', hlegacy, heq⟩ := map_eq_some_iff.mp h
    obtain rfl := some.inj heq
    obtain ⟨⟨a, q⟩, -, hlegacy⟩ := bind_eq_some_iff.mp hlegacy
    obtain ⟨⟨i, q'⟩, -, hlegacy⟩ := bind_eq_some_iff.mp hlegacy
    dsimp only at hlegacy
    split at hlegacy
    · cases hlegacy
    · obtain rfl := some.inj hlegacy
      trivial
  split at h
  · obtain ⟨line', hlet, heq⟩ := map_eq_some_iff.mp h
    obtain rfl := some.inj heq
    rw [parseLet] at hlet
    dsimp only at hlet
    split at hlet
    · cases hlet
    · split at hlet
      · obtain ⟨⟨loc, p'⟩, hloc, rfl⟩ := map_eq_some_iff.mp hlet
        exact bounded_parseLocExpr hloc
      · cases hlet
  split at h
  · obtain ⟨line', hat, heq⟩ := map_eq_some_iff.mp h
    obtain rfl := some.inj heq
    obtain ⟨⟨loc, q⟩, hloc, hat⟩ := bind_eq_some_iff.mp hat
    obtain ⟨⟨insn, q'⟩, hinsn, hat⟩ := bind_eq_some_iff.mp hat
    obtain ⟨expected, -, rfl⟩ := map_eq_some_iff.mp hat
    exact ⟨bounded_parseLocExpr hloc, bounded_parseInsnExpr hinsn⟩
  · cases h

theorem bounded_parseLines {bufs : List (List Char)} {lines : List PatchLine}
    (h : parseLines bufs = some lines) : ∀ line ∈ lines, LineBounded line := by
  induction bufs generalizing lines with
  | nil =>
    cases h
    exact fun _ hline => absurd hline not_mem_nil
  | cons buf bufs ih =>
    obtain ⟨line, hline, h⟩ := bind_eq_some_iff.mp h
    obtain ⟨lines', hlines, rfl⟩ := map_eq_some_iff.mp h
    intro line' hmem
    rcases mem_append.mp hmem with hmem | hmem
    · rw [mem_toList] at hmem
      rw [hmem] at hline
      exact bounded_parseLine hline
    · exact ih hlines line' hmem

end

section

variable {labels : List Label} {name : List Char}

theorem findLabel_setLabel_of_ne {name' : List Char} (hne : name' ≠ name) (addr : Addr) :
    findLabel (setLabel labels name addr) name' = findLabel labels name' := by
  induction labels with
  | nil => rfl
  | cons label labels ih =>
    rw [setLabel]
    split
    · next hname =>
      have hother : label.name ≠ name' := fun heq => hne (heq.symm.trans hname)
      rw [findLabel, findLabel, if_neg hother, if_neg hother]
    · rw [findLabel, findLabel, ih]

theorem findLabel_setLabel_self (hname : name ∈ labels.map Label.name) (addr : Addr) :
    findLabel (setLabel labels name addr) name = some addr := by
  induction labels with
  | nil => cases hname
  | cons label labels ih =>
    rw [setLabel]
    split
    · next heq => rw [findLabel, if_pos heq]
    · next hne =>
      rw [findLabel, if_neg hne]
      exact ih ((mem_cons.mp hname).resolve_left fun heq => hne heq.symm)

theorem map_name_setLabel (labels : List Label) (name : List Char) (addr : Addr) :
    (setLabel labels name addr).map Label.name = labels.map Label.name := by
  induction labels with
  | nil => rfl
  | cons label labels ih =>
    rw [setLabel]
    split
    · rfl
    · rw [map_cons, map_cons, ih]

def Holds (labels : List Label) (env : List Char → Option Addr) : Prop :=
  ∀ name, findLabel labels name = env name

theorem Holds.set {env : List Char → Option Addr} (h : Holds labels env)
    (hname : name ∈ labels.map Label.name) (addr : Addr) :
    Holds (setLabel labels name addr) (update env name (some addr)) := by
  intro name'
  by_cases heq : name' = name
  · rw [heq, update_self]
    exact findLabel_setLabel_self hname addr
  · rw [update_of_ne heq, findLabel_setLabel_of_ne heq]
    exact h name'

theorem holds_registerLabels (lines : List PatchLine) :
    Holds (registerLabels lines) fun _ => none := by
  intro name
  induction lines with
  | nil => rfl
  | cons line lines ih =>
    cases line with
    | letLine label loc =>
      rw [registerLabels, findLabel]
      split
      · rfl
      · exact ih
    | atLine loc insn expected | absLine offset raw => exact ih

theorem mem_registerLabels {lines : List PatchLine} {loc : LocExpr}
    (h : .letLine name loc ∈ lines) : name ∈ (registerLabels lines).map Label.name := by
  induction lines with
  | nil => cases h
  | cons line lines ih =>
    rcases mem_cons.mp h with rfl | hrest
    · exact mem_cons_self
    · cases line with
      | letLine label loc' => exact mem_cons_of_mem label (ih hrest)
      | atLine loc' insn expected | absLine offset raw => exact ih hrest

end

variable {host : Host} {mem : Memory} {labels : List Label} {env : List Char → Option Addr}

theorem symStart_eq_some {name : List Char} {a : Addr} (h : symStart host name = some a) :
    host.loaded ∧ host.lookupSymbol name ≠ 0#64 ∧ host.lookupSymbol name = a := by
  rw [symStart] at h
  split at h
  · next hsym => exact ⟨hsym.1, hsym.2, some.inj h⟩
  · cases h

theorem means_of_resolveLoc (hlabels : Holds labels env) {loc : LocExpr} (hloc : Bounded loc)
    {a : Addr} (h : resolveLoc host mem labels loc = some a) : Means host mem env loc a := by
  cases loc with
  | abs offset =>
    obtain rfl := some.inj h
    exact .abs offset
  | label name offset =>
    obtain ⟨base, hbase, rfl⟩ := map_eq_some_iff.mp h
    exact .label offset ((hlabels name).symm.trans hbase)
  | sym name offset =>
    obtain ⟨base, hbase, rfl⟩ := map_eq_some_iff.mp h
    obtain ⟨hloaded, hsym, rfl⟩ := symStart_eq_some hbase
    exact .sym offset hloaded hsym
  | symFind name offset patterns within =>
    obtain ⟨base, hbase, h⟩ := bind_eq_some_iff.mp h
    obtain ⟨⟨start, stop⟩, hextent, h⟩ := bind_eq_some_iff.mp h
    obtain ⟨⟨count, hit⟩, hfind, h⟩ := bind_eq_some_iff.mp h
    dsimp only at h
    split at h
    · next hcount =>
      obtain rfl := some.inj h
      obtain ⟨hloaded, hsym, -⟩ := symStart_eq_some hbase
      rw [hcount] at hfind
      exact .find hloaded hsym hextent (uniqueMatch_of_patternFindUnique hloc hfind)
    · cases h

theorem defines_of_resolveLets {lines : List PatchLine} {labels' : List Label}
    (hlabels : Holds labels env) (hlines : ∀ line ∈ lines, LineBounded line)
    (hnames : ∀ name loc, .letLine name loc ∈ lines → name ∈ labels.map Label.name)
    (h : resolveLets host mem lines labels = some labels') :
    ∃ env', Defines host mem env lines env' ∧ Holds labels' env' := by
  induction lines generalizing labels env with
  | nil =>
    obtain rfl := some.inj h
    exact ⟨env, .nil, hlabels⟩
  | cons line lines ih =>
    have hrest : ∀ line' ∈ lines, LineBounded line' :=
      fun line' hmem => hlines line' (mem_cons_of_mem line hmem)
    have hnames' : ∀ name loc, .letLine name loc ∈ lines → name ∈ labels.map Label.name :=
      fun name loc hmem => hnames name loc (mem_cons_of_mem line hmem)
    cases line with
    | letLine name loc =>
      obtain ⟨addr, haddr, h⟩ := bind_eq_some_iff.mp h
      have hloc := means_of_resolveLoc hlabels (hlines _ mem_cons_self) haddr
      have hname := hnames name loc mem_cons_self
      rw [← map_name_setLabel labels name addr] at hnames'
      obtain ⟨env', hdefines, hholds⟩ := ih (hlabels.set hname addr) hrest hnames' h
      exact ⟨env', .letLine hloc hdefines, hholds⟩
    | atLine loc insn expected | absLine offset raw =>
      obtain ⟨env', hdefines, hholds⟩ := ih hlabels hrest hnames' h
      exact ⟨env', .edit rfl hdefines, hholds⟩

end Machgate.PatcherMeaning
