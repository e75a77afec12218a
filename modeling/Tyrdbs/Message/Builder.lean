import Tyrdbs.Library.Outcome
import Tyrdbs.Message.Schema

namespace Tyrdbs.Message

open Bytes Outcome

/-- The 16 bit number at an offset. -/
def u16At (bytes : List Byte) (offset : Nat) : Nat := fromLittleEndian (slice bytes offset 2)

structure Builder where
  bytes : List Byte
  maxSize : Nat

structure StructBuilder where
  offset : Nat
  structDef : StructDef

namespace Builder

def put (b : Builder) (bytes : List Byte) : Builder := { b with bytes := b.bytes ++ bytes }

def patch (b : Builder) (offset : Nat) (bytes : List Byte) : Builder := { b with bytes := splice b.bytes offset bytes }

def beginStruct (b : Builder) (d : StructDef) : Except Fault (Builder × StructBuilder) := do
  check (b.bytes.length + d.minSize ≤ b.maxSize) .assertion
  return (b.put (List.replicate d.minSize 0), ⟨b.bytes.length, d⟩)

def setOffset (b : Builder) (s : StructBuilder) (k : Nat) : Except Fault Builder := do
  let offset := s.offset + 2 + 2 * k
  check (u16At b.bytes offset = 0) .assertion
  return b.patch offset (littleEndian 2 (b.bytes.length - s.offset))

/-- A static field lies behind the offsets; its place is the sum of those
before it. -/
def setStatic (b : Builder) (s : StructBuilder) (j value : Nat) : Except Fault Builder :=
  match s.structDef.statics[j]? with
  | none => .error .notGenerated
  | some t => .ok (b.patch (s.offset + 2 + 2 * s.structDef.elements + s.structDef.staticOffset j)
      (littleEndian t.size value))

def finalize (b : Builder) (s : StructBuilder) : Builder :=
  b.patch s.offset (littleEndian 2 (b.bytes.length - s.offset - 2))

def beginList (b : Builder) : Except Fault (Builder × Nat) := do
  check (b.bytes.length + 2 ≤ b.maxSize) .assertion
  return (b.put (littleEndian 2 0), b.bytes.length)

def addElement (b : Builder) (list : Nat) : Builder := b.patch list (littleEndian 2 (u16At b.bytes list + 1))

def addScalar (b : Builder) (t : Scalar) (value : Nat) : Except Fault Builder := do
  check (b.bytes.length + t.size ≤ b.maxSize) .insufficientSpace
  return b.put (littleEndian t.size value)

def addString (b : Builder) (value : List Byte) : Except Fault Builder := do
  check (value.length < 65536) .assertion
  check (b.bytes.length + 2 + value.length ≤ b.maxSize) .insufficientSpace
  return (b.put (littleEndian 2 value.length)).put value

def withStruct (b : Builder) (d : StructDef) (calls : Builder → StructBuilder → Except Fault Builder) :
    Except Fault Builder := do
  let (b, s) ← b.beginStruct d
  let b ← calls b s
  return b.finalize s

def withList (b : Builder) (values : Builder → Nat → Except Fault Builder) : Except Fault Builder := do
  let (b, list) ← b.beginList
  values b list

end Builder

mutual

def Tree.build (schema : Schema) (b : Builder) : Dynamic → Tree → Except Fault Builder
  | .one (.scalar t), .scalar v => b.addScalar t v
  | .one .string, .string s => b.addString s
  | .one t, .struct name calls =>
      if t.accepts name then b.withStruct (schema name) (fun b s => calls.build schema b s) else .error .notGenerated
  | .list t, .list ts => b.withList (fun b list => ts.build schema t b list)
  | _, _ => .error .notGenerated

def Calls.build (schema : Schema) (b : Builder) (s : StructBuilder) : Calls → Except Fault Builder
  | .done => .ok b
  | .set j v rest => do
      let b ← b.setStatic s j v
      rest.build schema b s
  | .add k value rest =>
      match s.structDef.dynamics[k]? with
      | none => .error .notGenerated
      | some t => do
          let b ← b.setOffset s k
          let b ← value.build schema b t
          rest.build schema b s

def Trees.build (schema : Schema) (t : ElementType) (b : Builder) (list : Nat) : Trees → Except Fault Builder
  | .nil => .ok b
  | .cons head tail => do
      let b ← head.build schema (b.addElement list) (.one t)
      tail.build schema t b list

end

/-- A builder goes on behind what it has built, within its buffer. -/
structure Builder.Grows (b b' : Builder) : Prop where
  maxSize : b'.maxSize = b.maxSize
  length : b.bytes.length ≤ b'.bytes.length
  bounded : b.bytes.length ≤ b.maxSize → b'.bytes.length ≤ b'.maxSize

theorem Builder.Grows.trans {b b₁ b₂ : Builder} (h : b.Grows b₁) (h' : b₁.Grows b₂) : b.Grows b₂ :=
  ⟨h'.maxSize.trans h.maxSize, Nat.le_trans h.length h'.length, fun hb => h'.bounded (h.maxSize ▸ h.bounded hb)⟩

theorem Builder.grows_refl (b : Builder) : b.Grows b := ⟨rfl, Nat.le_refl _, id⟩

theorem Builder.grows_patch (b : Builder) (offset : Nat) (bytes : List Byte) : b.Grows (b.patch offset bytes) :=
  ⟨rfl, Nat.le_of_eq (length_splice ..).symm, fun h => Nat.le_trans (Nat.le_of_eq (length_splice ..)) h⟩

theorem Builder.grows_put {b : Builder} {bytes : List Byte} (h : b.bytes.length + bytes.length ≤ b.maxSize) :
    b.Grows (b.put bytes) :=
  ⟨rfl, by rw [put, List.length_append]; exact Nat.le_add_right .., fun _ => by
    rw [put, List.length_append]
    exact h⟩

theorem yields_checked {α : Type} {p : Prop} [Decidable p] {e : Fault} {P : α → Prop} {x : Except Fault α}
    (h : p → Yields (fun _ => True) P x) : Yields (fun _ => True) P (check p e >>= fun _ => x) := by
  by_cases hp : p
  · rw [check_of hp]
    exact h hp
  · rw [check_of_not hp]
    trivial

theorem Builder.addScalar_grows (b : Builder) (t : Scalar) (value : Nat) :
    Yields (fun _ => True) b.Grows (b.addScalar t value) :=
  yields_checked (fun h => grows_put (by rwa [length_littleEndian]))

theorem Builder.addString_grows (b : Builder) (value : List Byte) :
    Yields (fun _ => True) b.Grows (b.addString value) := by
  refine yields_checked (fun _ => yields_checked (fun h => ?_))
  have hfirst : b.Grows (b.put (littleEndian 2 value.length)) := grows_put (by rw [length_littleEndian]; omega)
  refine hfirst.trans (grows_put ?_)
  rw [put, List.length_append, length_littleEndian]
  exact h

theorem Builder.withStruct_grows (b : Builder) (d : StructDef)
    {calls : Builder → StructBuilder → Except Fault Builder}
    (hcalls : ∀ b' s, Yields (fun _ => True) b'.Grows (calls b' s)) :
    Yields (fun _ => True) b.Grows (b.withStruct d calls) := by
  have hbegin : Yields (fun _ => True) (fun r => b.Grows r.1) (b.beginStruct d) :=
    yields_checked (fun h => grows_put (by rwa [List.length_replicate]))
  refine hbegin.bind (fun ⟨b₁, s⟩ h₁ => (hcalls b₁ s).bind (fun b₂ h₂ => ?_))
  exact (h₁.trans h₂).trans (grows_patch ..)

mutual

theorem Tree.build_grows (schema : Schema) : ∀ (t : Dynamic) (v : Tree) (b : Builder),
    Yields (fun _ => True) b.Grows (v.build schema b t)
  | .one (.scalar t), .scalar v, b => b.addScalar_grows t v
  | .one .string, .string s, b => b.addString_grows s
  | .one t, .struct name calls, b => by
      have hstruct := b.withStruct_grows (schema name) (fun b' s => calls.build_grows schema b' s)
      cases t <;> (rw [Tree.build]; split; exact hstruct; trivial)
  | .list t, .list ts, b => by
      have hbegin : Yields (fun _ => True) (fun r => b.Grows r.1) b.beginList :=
        yields_checked (fun h => Builder.grows_put (by rwa [length_littleEndian]))
      exact hbegin.bind (fun ⟨b₁, list⟩ h₁ => (ts.build_grows schema t b₁ list).mono (fun _ => h₁.trans))
  | .one (.scalar _), .string _, _ => trivial
  | .one (.scalar _), .list _, _ => trivial
  | .one .string, .scalar _, _ => trivial
  | .one .string, .list _, _ => trivial
  | .one (.struct _), .scalar _, _ => trivial
  | .one (.struct _), .string _, _ => trivial
  | .one (.struct _), .list _, _ => trivial
  | .one .template, .scalar _, _ => trivial
  | .one .template, .string _, _ => trivial
  | .one .template, .list _, _ => trivial
  | .list _, .scalar _, _ => trivial
  | .list _, .string _, _ => trivial
  | .list _, .struct _ _, _ => trivial

theorem Calls.build_grows (schema : Schema) : ∀ (calls : Calls) (b : Builder) (s : StructBuilder),
    Yields (fun _ => True) b.Grows (calls.build schema b s)
  | .done, b, _ => b.grows_refl
  | .set j v rest, b, s => by
      have hset : Yields (fun _ => True) b.Grows (b.setStatic s j v) := by
        rw [Builder.setStatic]
        split
        · trivial
        · exact b.grows_patch ..
      exact hset.bind (fun b₁ h₁ => (rest.build_grows schema b₁ s).mono (fun _ => h₁.trans))
  | .add k value rest, b, s => by
      rw [Calls.build]
      split
      · trivial
      · have hoffset : Yields (fun _ => True) b.Grows (b.setOffset s k) := yields_checked (fun _ => b.grows_patch ..)
        refine hoffset.bind (fun b₁ h₁ => (value.build_grows schema _ b₁).bind (fun b₂ h₂ => ?_))
        exact (rest.build_grows schema b₂ s).mono (fun _ h₃ => (h₁.trans h₂).trans h₃)

theorem Trees.build_grows (schema : Schema) : ∀ (t : ElementType) (ts : Trees) (b : Builder) (list : Nat),
    Yields (fun _ => True) b.Grows (ts.build schema t b list)
  | _, .nil, b, _ => b.grows_refl
  | t, .cons head tail, b, list => by
      have hcount : b.Grows (b.addElement list) := b.grows_patch ..
      refine (head.build_grows schema (.one t) (b.addElement list)).bind (fun b₁ h₁ => ?_)
      exact (tail.build_grows schema t b₁ list).mono (fun _ h₂ => (hcount.trans h₁).trans h₂)

end

/-- What a struct builder has written behind the size of the struct. -/
structure Layout where
  offsets : List Nat
  statics : List Byte
  payload : List Byte

namespace Layout

def empty (d : StructDef) : Layout where
  offsets := List.replicate d.elements 0
  statics := List.replicate d.staticSize 0
  payload := []

def bytes (l : Layout) (size : Nat) : List Byte :=
  littleEndian 2 size ++ l.offsets.flatMap (littleEndian 2) ++ l.statics ++ l.payload

def set (l : Layout) (d : StructDef) (j value : Nat) : Layout :=
  match d.statics[j]? with
  | none => l
  | some t => { l with statics := splice l.statics (d.staticOffset j) (littleEndian t.size value) }

def add (l : Layout) (d : StructDef) (k : Nat) (bytes : List Byte) : Layout :=
  { l with offsets := l.offsets.set k (d.minSize + l.payload.length), payload := l.payload ++ bytes }

/-- The layout of a struct as it grows, all of whose space is there. -/
structure Fits (l : Layout) (d : StructDef) : Prop where
  offsets : l.offsets.length = d.elements
  statics : l.statics.length = d.staticSize

end Layout

mutual

def Tree.encode (schema : Schema) : Dynamic → Tree → List Byte
  | .one (.scalar t), .scalar v => littleEndian t.size v
  | .one .string, .string s => littleEndian 2 s.length ++ s
  | .one _, .struct name calls =>
      let l := calls.encode schema (schema name) (Layout.empty (schema name))
      l.bytes ((schema name).minSize + l.payload.length - 2)
  | .list t, .list ts => littleEndian 2 ts.length ++ ts.encode schema t
  | _, _ => []

def Calls.encode (schema : Schema) (d : StructDef) (l : Layout) : Calls → Layout
  | .done => l
  | .set j v rest => rest.encode schema d (l.set d j v)
  | .add k value rest =>
      match d.dynamics[k]? with
      | none => l
      | some t => rest.encode schema d (l.add d k (value.encode schema t))

def Trees.encode (schema : Schema) (t : ElementType) : Trees → List Byte
  | .nil => []
  | .cons head tail => head.encode schema (.one t) ++ tail.encode schema t

end

end Tyrdbs.Message
