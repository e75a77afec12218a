import Tyrdbs.Library.Outcome
import Tyrdbs.Library.Runs
import Mathlib.Algebra.Order.Ring.Nat
import Mathlib.Logic.Function.Basic

namespace Tyrdbs

open Outcome Runs

/-- What the rows of the argument table have in common; a null pointer is none. -/
structure ArgHdr where
  hasValue : Bool := false
  shortopts : Option String := none
  longopts : Option String := none
  datatype : Option String := none
  glossary : Option String
  mincount : Nat
  maxcount : Nat

/-- The rows that are used: a flag, a value and a remark. -/
inductive Arg
  | lit (hdr : ArgHdr) (count : Nat)
  | str (hdr : ArgHdr) (count : Nat) (sval : List (Option String))
  | rem (hdr : ArgHdr)

namespace Arg

def litn (shortopts longopts : Option String) (mincount maxcount : Nat) (glossary : Option String) : Arg :=
  .lit { shortopts, longopts, glossary, mincount, maxcount := if maxcount < mincount then mincount else maxcount } 0

def strn (shortopts longopts datatype : Option String) (mincount maxcount : Nat) (glossary : Option String) : Arg :=
  let maxcount := if maxcount < mincount then mincount else maxcount
  .str { hasValue := true, shortopts, longopts, datatype := some (datatype.getD "<string>"), glossary, mincount, maxcount }
    0 (List.replicate maxcount (some ""))

def remark (datatype glossary : Option String) : Arg :=
  .rem { datatype, glossary, mincount := 1, maxcount := 1 }

def setDefault (arg : Arg) (value : Option String) : Arg :=
  match arg with
  | .str hdr count sval => .str hdr count (sval.set 0 value)
  | arg => arg

end Arg

structure CmdLine (Name : Type) where
  argMap : Name → Option Nat := fun _ => none
  argTable : List Arg := []
  argTypes : List Bool := []

namespace CmdLine

/-- A loop over 2 ^ 32 lines does not end. -/
inductive Fault
  | assertion
  | outOfBounds
  | otherKind
  | endless
  deriving DecidableEq

variable {Name : Type} [DecidableEq Name]

def firstGlossaryLine (glossary : List String) : Option String := glossary.head?

/-- The index of the loop is 32 bits wide. -/
def addOtherGlossaryLines (c : CmdLine Name) (glossary : List String) : Except Fault (CmdLine Name) := do
  check (glossary.length < 2 ^ 32) .endless
  return { c with argTable := c.argTable ++ glossary.tail.map (fun line => Arg.remark none (some line)) }

/-- What add_flag and add_param have in common. -/
def register (c : CmdLine Name) (name : Name) (arg : Arg) (isFlag : Bool) (glossary : List String) :
    Except Fault (CmdLine Name) := do
  check (c.argMap name = none) .assertion
  addOtherGlossaryLines
    { argMap := Function.update c.argMap name (some (c.argTable.length % 2 ^ 32))
      argTable := c.argTable ++ [arg]
      argTypes := c.argTypes ++ [isFlag] } glossary

def addFlag (c : CmdLine Name) (name : Name) (shortOpts longOpts : Option String) (glossary : List String) :
    Except Fault (CmdLine Name) :=
  c.register name (Arg.litn shortOpts longOpts 0 1 (firstGlossaryLine glossary)) true glossary

/-- The private overload of add_param, which the others call. -/
def addParamWith (c : CmdLine Name) (name : Name) (shortOpts longOpts dataType : Option String) (required : Bool)
    (defaultValue : Option String) (glossary : List String) : Except Fault (CmdLine Name) := do
  check (required = true ∨ shortOpts ≠ none ∨ longOpts ≠ none) .assertion
  let minCount := if required then 1 else 0
  c.register name
    ((Arg.strn shortOpts longOpts dataType minCount 1 (firstGlossaryLine glossary)).setDefault defaultValue) false
    glossary

def addParam (c : CmdLine Name) (name : Name) (shortOpts longOpts dataType : Option String)
    (glossary : List String) : Except Fault (CmdLine Name) :=
  c.addParamWith name shortOpts longOpts dataType true none glossary

def addParamDefault (c : CmdLine Name) (name : Name) (shortOpts longOpts dataType defaultValue : Option String)
    (glossary : List String) : Except Fault (CmdLine Name) :=
  c.addParamWith name shortOpts longOpts dataType false defaultValue glossary

def addParamBare (c : CmdLine Name) (name : Name) (dataType : Option String) (glossary : List String) :
    Except Fault (CmdLine Name) :=
  c.addParamWith name none none dataType true none glossary

def addSeparator (c : CmdLine Name) : CmdLine Name :=
  { c with argTable := c.argTable ++ [Arg.remark none (some "\n")] }

/-- The constructor adds the first flag. -/
def new (help : Name) : Except Fault (CmdLine Name) :=
  addFlag {} help none (some "help") ["display this help and exit"]

def getNdxFor (c : CmdLine Name) (name : Name) : Except Fault Nat :=
  match c.argMap name with
  | none => .error .assertion
  | some ndx => .ok ndx

def rowOf (c : CmdLine Name) (name : Name) (isFlag : Bool) : Except Fault Arg := do
  let ndx ← c.getNdxFor name
  match c.argTypes[ndx]? with
  | none => .error .outOfBounds
  | some kind => do
      check (kind = isFlag) .assertion
      match c.argTable[ndx]? with
      | none => .error .outOfBounds
      | some arg => return arg

def flag (c : CmdLine Name) (name : Name) : Except Fault Bool := do
  match ← c.rowOf name true with
  | .lit _ count => return count = 1
  | _ => .error .otherKind

def firstValue (arg : Arg) : Except Fault (Option String) :=
  match arg with
  | .str _ _ (value :: _) => .ok value
  | .str _ _ [] => .error .outOfBounds
  | _ => .error .otherKind

def has (c : CmdLine Name) (name : Name) : Except Fault Bool := do
  let value ← firstValue (← c.rowOf name false)
  return value ≠ none

def get (c : CmdLine Name) (name : Name) : Except Fault String := do
  match ← firstValue (← c.rowOf name false) with
  | none => .error .assertion
  | some value => return value

inductive Op (Name : Type)
  | addFlag (name : Name) (shortOpts longOpts : Option String) (glossary : List String)
  | addParam (name : Name) (shortOpts longOpts dataType : Option String) (glossary : List String)
  | addParamDefault (name : Name) (shortOpts longOpts dataType defaultValue : Option String) (glossary : List String)
  | addParamBare (name : Name) (dataType : Option String) (glossary : List String)
  | addSeparator

structure Argument (Name : Type) where
  name : Name
  arg : Arg
  isFlag : Bool
  glossary : List String

namespace Op

def argument : Op Name → Option (Argument Name)
  | .addFlag name shortOpts longOpts glossary =>
      some ⟨name, Arg.litn shortOpts longOpts 0 1 (firstGlossaryLine glossary), true, glossary⟩
  | .addParam name shortOpts longOpts dataType glossary =>
      some ⟨name, (Arg.strn shortOpts longOpts dataType 1 1 (firstGlossaryLine glossary)).setDefault none, false,
        glossary⟩
  | .addParamDefault name shortOpts longOpts dataType defaultValue glossary =>
      some ⟨name, (Arg.strn shortOpts longOpts dataType 0 1 (firstGlossaryLine glossary)).setDefault defaultValue,
        false, glossary⟩
  | .addParamBare name dataType glossary =>
      some ⟨name, (Arg.strn none none dataType 1 1 (firstGlossaryLine glossary)).setDefault none, false, glossary⟩
  | .addSeparator => none

def run (c : CmdLine Name) : Op Name → Except Fault (CmdLine Name)
  | .addFlag name shortOpts longOpts glossary => c.addFlag name shortOpts longOpts glossary
  | .addParam name shortOpts longOpts dataType glossary => c.addParam name shortOpts longOpts dataType glossary
  | .addParamDefault name shortOpts longOpts dataType defaultValue glossary =>
      c.addParamDefault name shortOpts longOpts dataType defaultValue glossary
  | .addParamBare name dataType glossary => c.addParamBare name dataType glossary
  | .addSeparator => .ok c.addSeparator

/-- A parameter with a default is an option. -/
def HasOption : Op Name → Prop
  | .addParamDefault _ shortOpts longOpts _ _ _ => shortOpts ≠ none ∨ longOpts ≠ none
  | _ => True

end Op

/-- An argument, with the row that was made for it and the place of its kind. -/
structure Registered (Name : Type) where
  name : Name
  arg : Arg
  isFlag : Bool
  row : Nat
  kind : Nat

/-- The command line, until a check fails, and what was registered on it. -/
structure State (Name : Type) where
  line : Except Fault (CmdLine Name)
  registered : List (Registered Name) := []

def Argument.registered (a : Argument Name) (c : CmdLine Name) : Registered Name :=
  ⟨a.name, a.arg, a.isFlag, c.argTable.length, c.argTypes.length⟩

def State.apply (s : State Name) (op : Op Name) : State Name :=
  match s.line with
  | .error _ => s
  | .ok c => { line := op.run c, registered := s.registered ++ (op.argument.map (fun a => a.registered c)).toList }

/-- What the constructor leaves. -/
def State.initial (help : Name) : State Name where
  line := new help
  registered := [⟨help, Arg.litn none (some "help") 0 1 (some "display this help and exit"), true, 0, 0⟩]

/-- Names are registered once. -/
def Op.Allowed (s : State Name) (op : Op Name) : Prop :=
  op.HasOption ∧ ∀ a ∈ op.argument, ∀ reg ∈ s.registered, reg.name ≠ a.name

def Step (s : State Name) (op : Op Name) (s' : State Name) : Prop := op.Allowed s ∧ s' = s.apply op

/-- A name leads to the row and to the kind of its own argument. -/
structure Leads (c : CmdLine Name) (reg : Registered Name) : Prop where
  ndx : c.getNdxFor reg.name = .ok reg.row
  row : c.argTable[reg.row]? = some reg.arg
  same : reg.row = reg.kind
  kind : c.argTypes[reg.kind]? = some reg.isFlag
  flag : reg.isFlag = true → ∃ set, c.flag reg.name = .ok set
  has : reg.isFlag = false → ∃ set, c.has reg.name = .ok set ∧ (set = true → ∃ value, c.get reg.name = .ok value)

def State.Aligned (s : State Name) : Prop := ∃ c, s.line = .ok c ∧ ∀ reg ∈ s.registered, Leads c reg

/-- The next row and the next kind are at the same place, and the lines can be counted. -/
def Op.Fits (s : State Name) (op : Op Name) : Prop :=
  ∀ a ∈ op.argument, ∀ c, s.line = .ok c → c.argTable.length = c.argTypes.length ∧
    c.argTable.length < 2 ^ 32 ∧ a.glossary.length < 2 ^ 32

/-- The row of an argument is of its kind. -/
def OfKind (arg : Arg) (isFlag : Bool) : Prop :=
  if isFlag then ∃ hdr count, arg = .lit hdr count else ∃ hdr count value rest, arg = .str hdr count (value :: rest)

section Lookups

variable {c : CmdLine Name} {op : Op Name} {a : Argument Name}

theorem run_eq (hoption : op.HasOption) (ha : op.argument = some a) :
    op.run c = c.register a.name a.arg a.isFlag a.glossary := by
  cases op with
  | addSeparator => cases ha
  | addFlag name shortOpts longOpts glossary =>
      cases ha
      rfl
  | addParam name shortOpts longOpts dataType glossary =>
      cases ha
      rfl
  | addParamBare name dataType glossary =>
      cases ha
      rfl
  | addParamDefault name shortOpts longOpts dataType defaultValue glossary =>
      cases ha
      have hsome : false = true ∨ shortOpts ≠ none ∨ longOpts ≠ none := Or.inr hoption
      rw [Op.run, addParamDefault, addParamWith, check_of hsome]
      rfl

omit [DecidableEq Name] in
theorem argument_ofKind (ha : op.argument = some a) : OfKind a.arg a.isFlag := by
  cases op with
  | addSeparator => cases ha
  | addFlag name shortOpts longOpts glossary =>
      cases ha
      exact ⟨_, _, rfl⟩
  | addParam name shortOpts longOpts dataType glossary =>
      cases ha
      exact ⟨_, _, _, _, rfl⟩
  | addParamBare name dataType glossary =>
      cases ha
      exact ⟨_, _, _, _, rfl⟩
  | addParamDefault name shortOpts longOpts dataType defaultValue glossary =>
      cases ha
      exact ⟨_, _, _, _, rfl⟩

omit [DecidableEq Name] in
theorem leads_of_place {reg : Registered Name} (hmap : c.argMap reg.name = some reg.row)
    (hrow : c.argTable[reg.row]? = some reg.arg) (hsame : reg.row = reg.kind)
    (hkind : c.argTypes[reg.kind]? = some reg.isFlag) (hof : OfKind reg.arg reg.isFlag) : Leads c reg := by
  have hndx : c.getNdxFor reg.name = .ok reg.row := by
    rw [getNdxFor, hmap]
  have hlookup : c.rowOf reg.name reg.isFlag = .ok reg.arg := by
    rw [rowOf, hndx, ok_bind]
    simp only [hsame ▸ hkind, hrow]
    rw [check_of trivial]
    rfl
  refine ⟨hndx, hrow, hsame, hkind, fun hflag => ?_, fun hparam => ?_⟩
  · rw [hflag] at hof hlookup
    obtain ⟨hdr, count, harg⟩ := hof
    rw [harg] at hlookup
    exact ⟨_, by rw [CmdLine.flag, hlookup]; rfl⟩
  · rw [hparam] at hof hlookup
    obtain ⟨hdr, count, value, rest, harg⟩ := hof
    rw [harg] at hlookup
    refine ⟨_, by rw [CmdLine.has, hlookup]; rfl, fun hset => ?_⟩
    cases value with
    | none => exact absurd hset (by simp)
    | some value => exact ⟨value, by rw [CmdLine.get, hlookup]; rfl⟩

end Lookups

section Runs

variable {s s' : State Name} {op : Op Name} {help : Name}

/-- The rows of what was registered come first, in the order of the kinds. -/
structure Inv (c : CmdLine Name) (registered : List (Registered Name)) : Prop where
  types : c.argTypes = registered.map Registered.isFlag
  placed : ∀ (i : Nat) (reg : Registered Name), registered[i]? = some reg → reg.row = i ∧ reg.kind = i ∧
    c.argMap reg.name = some i ∧ c.argTable[i]? = some reg.arg ∧ OfKind reg.arg reg.isFlag
  named : ∀ name ndx, c.argMap name = some ndx → ∃ reg ∈ registered, reg.name = name

def State.Inv (s : State Name) : Prop := ∃ c, s.line = .ok c ∧ CmdLine.Inv c s.registered

omit [DecidableEq Name] in
theorem State.Inv.aligned (h : s.Inv) : s.Aligned := by
  obtain ⟨c, hline, hinv⟩ := h
  refine ⟨c, hline, fun reg hreg => ?_⟩
  obtain ⟨i, hi⟩ := List.mem_iff_getElem?.mp hreg
  obtain ⟨hrow, hkind, hmap, harg, hof⟩ := hinv.placed i reg hi
  refine leads_of_place (hrow ▸ hmap) (hrow ▸ harg) (hrow.trans hkind.symm) ?_ hof
  rw [hkind, hinv.types, List.getElem?_map, hi]
  rfl

theorem register_ok {c : CmdLine Name} {a : Argument Name} (hnew : c.argMap a.name = none)
    (hlines : a.glossary.length < 2 ^ 32) :
    ∃ rest, c.register a.name a.arg a.isFlag a.glossary = .ok
      { argMap := Function.update c.argMap a.name (some (c.argTable.length % 2 ^ 32))
        argTable := c.argTable ++ [a.arg] ++ rest
        argTypes := c.argTypes ++ [a.isFlag] } := by
  refine ⟨a.glossary.tail.map (fun line => Arg.remark none (some line)), ?_⟩
  rw [register, check_of hnew, ok_bind, addOtherGlossaryLines, check_of hlines, ok_bind]
  rfl

omit [DecidableEq Name] in
theorem Inv.fresh {c : CmdLine Name} {registered : List (Registered Name)} (h : Inv c registered) {name : Name}
    (hother : ∀ reg ∈ registered, reg.name ≠ name) : c.argMap name = none := by
  rw [Option.eq_none_iff_forall_ne_some]
  intro ndx hndx
  obtain ⟨reg, hreg, hname⟩ := h.named name ndx hndx
  exact hother reg hreg hname

theorem Inv.register {c : CmdLine Name} {registered : List (Registered Name)} (h : Inv c registered)
    {a : Argument Name} (hof : OfKind a.arg a.isFlag) (hother : ∀ reg ∈ registered, reg.name ≠ a.name)
    (hplace : c.argTable.length = c.argTypes.length) (hfew : c.argTable.length < 2 ^ 32)
    (hlines : a.glossary.length < 2 ^ 32) :
    ∃ c', c.register a.name a.arg a.isFlag a.glossary = .ok c' ∧ Inv c' (registered ++ [a.registered c]) := by
  have hlength : registered.length = c.argTypes.length := by
    rw [h.types, List.length_map]
  obtain ⟨rest, hregister⟩ := register_ok (h.fresh hother) hlines
  refine ⟨_, hregister, ?_, fun i reg hi => ?_, fun name ndx hndx => ?_⟩
  · rw [h.types, List.map_append]
    rfl
  · by_cases hlt : i < registered.length
    · rw [List.getElem?_append_left hlt] at hi
      obtain ⟨hrow, hkind, hmap, harg, hofReg⟩ := h.placed i reg hi
      have hne : reg.name ≠ a.name := hother reg (List.mem_of_getElem? hi)
      refine ⟨hrow, hkind, (Function.update_of_ne hne ..).trans hmap, ?_, hofReg⟩
      change (c.argTable ++ [a.arg] ++ rest)[i]? = _
      rw [List.append_assoc, List.getElem?_append_left (by omega)]
      exact harg
    · have hlast : i = registered.length := by
        have hbound := (List.getElem?_eq_some_iff.mp hi).1
        rw [List.length_append, List.length_singleton] at hbound
        omega
      rw [hlast, List.getElem?_concat_length, Option.some.injEq] at hi
      subst hi
      have hrow : c.argTable.length = i := by omega
      refine ⟨hrow, hplace.symm.trans hrow, (Function.update_self ..).trans ?_, ?_, hof⟩
      · rw [Nat.mod_eq_of_lt hfew, hrow]
      · change (c.argTable ++ [a.arg] ++ rest)[i]? = some a.arg
        rw [← hrow, List.append_assoc, List.getElem?_append_right (le_refl _), Nat.sub_self]
        rfl
  · by_cases hname : name = a.name
    · exact ⟨a.registered c, by simp, hname.symm⟩
    · have hold := (Function.update_of_ne hname ..).symm.trans hndx
      obtain ⟨reg, hreg, heq⟩ := h.named name ndx hold
      exact ⟨reg, List.mem_append_left _ hreg, heq⟩

omit [DecidableEq Name] in
theorem Inv.addSeparator {c : CmdLine Name} {registered : List (Registered Name)} (h : Inv c registered) :
    Inv c.addSeparator registered where
  types := h.types
  placed i reg hi := by
    obtain ⟨hrow, hkind, hmap, harg, hof⟩ := h.placed i reg hi
    have hlt := (List.getElem?_eq_some_iff.mp harg).1
    refine ⟨hrow, hkind, hmap, ?_, hof⟩
    exact (List.getElem?_append_left hlt).trans harg
  named := h.named

theorem inv_initial (help : Name) : (State.initial help).Inv := by
  have hnone : CmdLine.Inv ({} : CmdLine Name) [] :=
    ⟨rfl, fun i reg hi => absurd hi (by simp), fun name ndx hndx => absurd hndx (by simp)⟩
  obtain ⟨c, hregister, hinv⟩ := hnone.register
    (argument_ofKind (show (Op.addFlag help none (some "help") ["display this help and exit"]).argument = _ from rfl))
    (fun reg hreg => absurd hreg List.not_mem_nil) rfl (Nat.two_pow_pos 32) (by simp)
  exact ⟨c, hregister, hinv⟩

theorem State.apply_ok {c : CmdLine Name} (hline : s.line = .ok c) : s.apply op =
    { line := op.run c, registered := s.registered ++ (op.argument.map (fun a => a.registered c)).toList } := by
  rw [State.apply, hline]

theorem State.Inv.step (h : s.Inv) (hstep : Step s op s') (hfits : op.Fits s) : s'.Inv := by
  obtain ⟨c, hline, hinv⟩ := h
  obtain ⟨⟨hoption, hother⟩, rfl⟩ := hstep
  rw [State.apply_ok hline]
  cases ha : op.argument with
  | none =>
      cases op with
      | addSeparator =>
          refine ⟨c.addSeparator, rfl, ?_⟩
          rw [Option.map_none, Option.toList_none, List.append_nil]
          exact hinv.addSeparator
      | _ => cases ha
  | some a =>
      obtain ⟨hplace, hfew, hlines⟩ := hfits a ha c hline
      obtain ⟨c', hregister, hinv'⟩ := hinv.register (argument_ofKind ha) (hother a ha) hplace hfew hlines
      exact ⟨c', (run_eq hoption ha).trans hregister, hinv'⟩

theorem State.Inv.breaks (h : s.Inv) (hstep : Step s op s') (hfits : ¬ op.Fits s) : ¬ s'.Aligned := by
  obtain ⟨c, hline, hinv⟩ := h
  obtain ⟨⟨hoption, hother⟩, rfl⟩ := hstep
  rw [State.apply_ok hline]
  rintro ⟨c', hline', haligned⟩
  refine hfits (fun a ha c'' hline'' => ?_)
  rw [hline, Except.ok.injEq] at hline''
  subst hline''
  have hregister : c.register a.name a.arg a.isFlag a.glossary = .ok c' := (run_eq hoption ha).symm.trans hline'
  have hnew := hinv.fresh (hother a ha)
  have hlast := haligned (a.registered c) (by simp [Option.mem_def.mp ha])
  have hlines : a.glossary.length < 2 ^ 32 := by
    by_contra hmany
    rw [register, check_of hnew, ok_bind, addOtherGlossaryLines, check_of_not hmany] at hregister
    cases hregister
  obtain ⟨rest, hregister'⟩ := register_ok hnew hlines
  rw [hregister, Except.ok.injEq] at hregister'
  have hndx := hlast.ndx
  rw [hregister'] at hndx
  simp only [getNdxFor, Argument.registered, Function.update_self, Except.ok.injEq] at hndx
  have hfew : c.argTable.length < 2 ^ 32 := by omega
  exact ⟨hlast.same, hfew, hlines⟩

/-- Names lead to their own arguments as long as no argument follows a separator or a
second glossary line. -/
theorem aligned_iff {ts : List (State Name × Op Name × State Name)} (h : Run Step (State.initial help) ts s) :
    (∀ v ∈ visited (State.initial help) ts, v.Aligned) ↔ ∀ t ∈ ts, t.2.1.Fits t.1 :=
  h.exact (fun s op => op.Fits s) State.Inv State.Aligned (inv_initial help) (fun _ hinv => hinv.aligned)
    (fun _ _ _ hinv hstep hfits => hinv.step hstep hfits) (fun _ _ _ hinv hstep hfits => hinv.breaks hstep hfits)

instance (op : Op Name) : Decidable op.HasOption :=
  match op with
  | .addFlag .. => isTrue trivial
  | .addParam .. => isTrue trivial
  | .addParamDefault _ shortOpts longOpts _ _ _ =>
      (inferInstance : Decidable (shortOpts ≠ none ∨ longOpts ≠ none))
  | .addParamBare .. => isTrue trivial
  | .addSeparator => isTrue trivial

instance (s : State Name) (op : Op Name) : Decidable (op.Allowed s) :=
  (inferInstance : Decidable (op.HasOption ∧ ∀ a ∈ op.argument, ∀ reg ∈ s.registered, reg.name ≠ a.name))

/-- An option, a flag with two lines and a separator, which comes last. -/
def server : List (Op Nat) :=
  [.addParamDefault 1 none (some "cpu") (some "index") (some "0") ["cpu index to run the program on"],
    .addFlag 2 none (some "preallocate-space") ["preallocate storage space", "and wait for it"], .addSeparator]

theorem aligned_iff_server : ∃ ts s, Run Step (State.initial 0) ts s ∧
    s.registered.map (fun reg => (reg.row, reg.kind)) = [(0, 0), (1, 1), (2, 2)] ∧
    ((∀ v ∈ visited (State.initial 0) ts, v.Aligned) ↔ ∀ t ∈ ts, t.2.1.Fits t.1) := by
  have hrun := run_of_allowed State.apply (fun s op => op.Allowed s) server (State.initial 0) (by decide)
  exact ⟨_, _, hrun, by decide, aligned_iff hrun⟩

/-- The second line of the first flag takes the row that the kind of the second flag would need. -/
def twoLines : List (Op Nat) := [.addFlag 1 none (some "verbose") ["print more", "of everything"],
  .addFlag 2 none (some "quiet") ["print less"]]

theorem not_aligned_twoLines : ¬ ∀ ts s, Run Step (State.initial 0) ts s →
    ∀ v ∈ visited (State.initial 0) ts, v.Aligned := by
  intro h
  have hrun := run_of_allowed State.apply (fun s op => op.Allowed s) twoLines (State.initial 0) (by decide)
  obtain ⟨c, _, haligned⟩ := h _ _ hrun _ hrun.mem_visited
  have hplaces : ((twoLines.foldl State.apply (State.initial 0)).registered.map (fun reg => (reg.row, reg.kind)))[2]? =
      some (3, 2) := by decide
  rw [List.getElem?_map, Option.map_eq_some_iff] at hplaces
  obtain ⟨reg, hreg, hplace⟩ := hplaces
  have hsame := (haligned reg (List.mem_of_getElem? hreg)).same
  rw [Prod.mk.injEq] at hplace
  omega

end Runs

end CmdLine

end Tyrdbs
