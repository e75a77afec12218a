import Tyrdbs.Library.Bytes
import Mathlib.Algebra.BigOperators.Group.List.Basic

namespace Tyrdbs.Message

/-- The last one stands for a call that the generated classes do not have. -/
inductive Fault
  | assertion
  | insufficientSpace
  | malformed
  | outOfMessage
  | notGenerated
  deriving DecidableEq

inductive Scalar
  | int8
  | int16
  | int32
  | int64
  | uint8
  | uint16
  | uint32
  | uint64
  deriving DecidableEq

def Scalar.size : Scalar → Nat
  | .int8 | .uint8 => 1
  | .int16 | .uint16 => 2
  | .int32 | .uint32 => 4
  | .int64 | .uint64 => 8

def Scalar.signed : Scalar → Bool
  | .int8 | .int16 | .int32 | .int64 => true
  | .uint8 | .uint16 | .uint32 | .uint64 => false

theorem scalar_pos (t : Scalar) : 0 < t.size := by cases t <;> decide

/-- Only a static field can be a float or a double: a parse of an element
computes its offset in the type of the element. -/
inductive StaticType
  | scalar (t : Scalar)
  | float
  | double
  deriving DecidableEq

def StaticType.size : StaticType → Nat
  | .scalar t => t.size
  | .float => 4
  | .double => 8

inductive ElementType
  | scalar (t : Scalar)
  | string
  | struct (name : Nat)
  | template
  deriving DecidableEq

inductive Dynamic
  | one (t : ElementType)
  | list (t : ElementType)
  deriving DecidableEq

inductive Field
  | static (t : StaticType)
  | dynamic (t : Dynamic)

/-- The fields of a struct, in the order of its declaration. -/
abbrev StructDef := List Field

/-- Structs refer to each other, and to themselves, by name. -/
abbrev Schema := Nat → StructDef

namespace StructDef

def statics (d : StructDef) : List StaticType :=
  d.filterMap (fun
    | .static t => some t
    | .dynamic _ => none)

def dynamics (d : StructDef) : List Dynamic :=
  d.filterMap (fun
    | .static _ => none
    | .dynamic t => some t)

def elements (d : StructDef) : Nat := d.dynamics.length

def staticSize (d : StructDef) : Nat := (d.statics.map StaticType.size).sum

def staticOffset (d : StructDef) (j : Nat) : Nat := ((d.statics.take j).map StaticType.size).sum

def minSize (d : StructDef) : Nat := 2 + 2 * d.elements + d.staticSize

theorem staticOffset_succ {d : StructDef} {j : Nat} {t : StaticType} (h : d.statics[j]? = some t) :
    d.staticOffset (j + 1) = d.staticOffset j + t.size := by
  rw [staticOffset, staticOffset, List.take_add_one, h, List.map_append, List.sum_append]
  rfl

theorem staticOffset_le {d : StructDef} {i j : Nat} {t : StaticType} (h : d.statics[i]? = some t) (hij : i < j) :
    d.staticOffset i + t.size ≤ d.staticOffset j := by
  have hsplit : d.statics.take j = d.statics.take (i + 1) ++ (d.statics.take j).drop (i + 1) := by
    have hall := List.take_append_drop (i + 1) (d.statics.take j)
    rw [List.take_take, Nat.min_eq_left hij] at hall
    exact hall.symm
  rw [← staticOffset_succ h, staticOffset, staticOffset, hsplit, List.map_append, List.sum_append]
  exact Nat.le_add_right ..

theorem staticOffset_add {d : StructDef} {j : Nat} {t : StaticType} (h : d.statics[j]? = some t) :
    d.staticOffset j + t.size ≤ d.staticSize := by
  have hlt : j < d.statics.length := (List.getElem?_eq_some_iff.mp h).1
  have hget : d.statics[j] = t := (List.getElem?_eq_some_iff.mp h).2
  have hsplit : d.statics = d.statics.take j ++ t :: d.statics.drop (j + 1) := by
    rw [← hget, List.cons_getElem_drop_succ, List.take_append_drop]
  have hsum := congrArg (fun l => (l.map StaticType.size).sum) hsplit
  simp only [List.map_append, List.map_cons, List.sum_append, List.sum_cons] at hsum
  rw [staticSize, staticOffset]
  omega

end StructDef

/-- What a struct builder returned for a field of this type can build. -/
def ElementType.accepts : ElementType → Nat → Bool
  | .struct name, name' => name = name'
  | .template, _ => true
  | _, _ => false

mutual

/-- A value, with the calls that build it; a scalar is the number that its
bytes spell. -/
inductive Tree
  | scalar (value : Nat)
  | string (value : List Byte)
  | struct (name : Nat) (calls : Calls)
  | list (elements : Trees)

/-- The calls of a struct builder, between its construction and finalize. -/
inductive Calls
  | done
  | set (j : Nat) (value : Nat) (rest : Calls)
  | add (k : Nat) (value : Tree) (rest : Calls)

inductive Trees
  | nil
  | cons (head : Tree) (tail : Trees)

end

def Calls.added : Calls → List Nat
  | .done => []
  | .set _ _ rest => rest.added
  | .add k _ rest => k :: rest.added

def Calls.lastSet : Calls → Nat → Nat → Nat
  | .done, _, value => value
  | .set i v rest, j, value => rest.lastSet j (if i = j then v else value)
  | .add _ _ rest, j, value => rest.lastSet j value

def Trees.length : Trees → Nat
  | .nil => 0
  | .cons _ tail => tail.length + 1

mutual

def Tree.size (schema : Schema) : Dynamic → Tree → Nat
  | .one (.scalar t), .scalar _ => t.size
  | .one .string, .string s => 2 + s.length
  | .one _, .struct name calls => (schema name).minSize + calls.size schema (schema name)
  | .list t, .list ts => 2 + ts.size schema t
  | _, _ => 0

def Calls.size (schema : Schema) (d : StructDef) : Calls → Nat
  | .done => 0
  | .set _ _ rest => rest.size schema d
  | .add k value rest =>
      (match d.dynamics[k]? with
        | some t => value.size schema t
        | none => 0) + rest.size schema d

def Trees.size (schema : Schema) (t : ElementType) : Trees → Nat
  | .nil => 0
  | .cons head tail => head.size schema (.one t) + tail.size schema t

end

mutual

/-- A value of the schema, each field of which is added at most once. -/
def Tree.WellTyped (schema : Schema) : Dynamic → Tree → Prop
  | .one (.scalar t), .scalar v => v < 256 ^ t.size
  | .one .string, .string _ => True
  | .one t, .struct name calls => t.accepts name = true ∧ calls.WellTyped schema (schema name)
  | .list t, .list ts => ts.WellTyped schema t
  | _, _ => False

def Calls.WellTyped (schema : Schema) (d : StructDef) : Calls → Prop
  | .done => True
  | .set j v rest => (∃ t, d.statics[j]? = some t ∧ v < 256 ^ t.size) ∧ rest.WellTyped schema d
  | .add k value rest =>
      (match d.dynamics[k]? with
        | some t => value.WellTyped schema t
        | none => False) ∧ k ∉ rest.added ∧ rest.WellTyped schema d

def Trees.WellTyped (schema : Schema) (t : ElementType) : Trees → Prop
  | .nil => True
  | .cons head tail => head.WellTyped schema (.one t) ∧ tail.WellTyped schema t

end

end Tyrdbs.Message
