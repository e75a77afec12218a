import Tyrdbs.Message.Builder

namespace Tyrdbs.Message

open Bytes Outcome

variable {schema : Schema} {d : StructDef} {l : Layout}

namespace Layout

theorem fits_empty (d : StructDef) : (empty d).Fits d :=
  ⟨List.length_replicate, List.length_replicate⟩

theorem Fits.set (h : l.Fits d) (j value : Nat) : (l.set d j value).Fits d := by
  rw [Layout.set]
  split
  · exact h
  · exact ⟨h.offsets, (length_splice _ _ _).trans h.statics⟩

theorem Fits.add (h : l.Fits d) (k : Nat) (bytes : List Byte) : (l.add d k bytes).Fits d :=
  ⟨List.length_set.trans h.offsets, h.statics⟩

theorem Fits.length (h : l.Fits d) (size : Nat) : (l.bytes size).length = d.minSize + l.payload.length := by
  rw [bytes, List.length_append, List.length_append, List.length_append, length_littleEndian,
    length_flatMap_littleEndian, h.offsets, h.statics, StructDef.minSize]

theorem bytes_empty (d : StructDef) : (empty d).bytes 0 = List.replicate d.minSize 0 := by
  have hzeros : ∀ n, (List.replicate n 0).flatMap (littleEndian 2) = List.replicate (2 * n) 0 := by
    intro n
    induction n with
    | zero => rfl
    | succ n ih =>
        rw [List.replicate_succ, List.flatMap_cons, ih, littleEndian_zero, ← List.replicate_add, Nat.mul_succ, Nat.add_comm]
  rw [bytes, empty, littleEndian_zero, hzeros, ← List.replicate_add, ← List.replicate_add, List.append_nil, StructDef.minSize]

def head (l : Layout) (size : Nat) : List Byte :=
  littleEndian 2 size ++ l.offsets.flatMap (littleEndian 2) ++ l.statics

theorem Fits.length_head (h : l.Fits d) (size : Nat) : (l.head size).length = d.minSize := by
  rw [head, List.length_append, List.length_append, length_littleEndian, length_flatMap_littleEndian, h.offsets,
    h.statics, StructDef.minSize]

theorem payload_middle {a e c : List Byte} (h : l.payload = a ++ e ++ c) (pre post : List Byte) (size : Nat) :
    pre ++ l.bytes size ++ post = (pre ++ l.head size ++ a) ++ e ++ (c ++ post) := by
  rw [show l.bytes size = l.head size ++ l.payload from rfl, h]
  simp only [List.append_assoc]

theorem append_bytes (pre : List Byte) (size : Nat) :
    pre ++ l.bytes size = (pre ++ littleEndian 2 size) ++ l.offsets.flatMap (littleEndian 2) ++
      (l.statics ++ l.payload) := by
  rw [bytes]
  simp only [List.append_assoc]

theorem patch_offset {pre : List Byte} {size k v : Nat} (hk : k < l.offsets.length) :
    splice (pre ++ l.bytes size) (pre.length + 2 + 2 * k) (littleEndian 2 v) =
      pre ++ { l with offsets := l.offsets.set k v }.bytes size := by
  have hfit : 2 * k + (littleEndian 2 v).length ≤ (l.offsets.flatMap (littleEndian 2)).length := by
    rw [length_flatMap_littleEndian, length_littleEndian]
    omega
  have hlen : pre.length + 2 = (pre ++ littleEndian 2 size).length := by
    rw [List.length_append, length_littleEndian]
  rw [append_bytes, append_bytes, hlen, splice_middle hfit, splice_flatMap_littleEndian hk]

theorem read_offset {pre post : List Byte} {size k v : Nat} (hk : l.offsets[k]? = some v) :
    slice (pre ++ l.bytes size ++ post) (pre.length + 2 + 2 * k) 2 = littleEndian 2 v := by
  have hlt : k < l.offsets.length := (List.getElem?_eq_some_iff.mp hk).1
  have hfit : 2 * k + 2 ≤ (l.offsets.flatMap (littleEndian 2)).length := by
    rw [length_flatMap_littleEndian]
    omega
  have hlen : pre.length + 2 = (pre ++ littleEndian 2 size).length := by
    rw [List.length_append, length_littleEndian]
  rw [append_bytes, hlen, List.append_assoc, slice_middle hfit, slice_flatMap_littleEndian hk]

theorem append_statics (pre : List Byte) (size : Nat) :
    pre ++ l.bytes size = (pre ++ littleEndian 2 size ++ l.offsets.flatMap (littleEndian 2)) ++ l.statics ++
      l.payload := by
  rw [bytes]
  simp only [List.append_assoc]

theorem Fits.staticsAt (h : l.Fits d) (pre : List Byte) (size : Nat) :
    (pre ++ littleEndian 2 size ++ l.offsets.flatMap (littleEndian 2)).length = pre.length + 2 + 2 * d.elements := by
  rw [List.length_append, List.length_append, length_littleEndian, length_flatMap_littleEndian, h.offsets]

theorem Fits.patch_static (h : l.Fits d) {pre : List Byte} {size j v : Nat} {t : StaticType}
    (hj : d.statics[j]? = some t) :
    splice (pre ++ l.bytes size) (pre.length + 2 + 2 * d.elements + d.staticOffset j) (littleEndian t.size v) =
      pre ++ (l.set d j v).bytes size := by
  have hfit : d.staticOffset j + (littleEndian t.size v).length ≤ l.statics.length := by
    rw [length_littleEndian, h.statics]
    exact StructDef.staticOffset_add hj
  rw [append_statics, ← h.staticsAt pre size, splice_middle hfit, Layout.set, hj, append_statics]

theorem Fits.read_static (h : l.Fits d) {pre post : List Byte} {size i n : Nat} (hi : i + n ≤ d.staticSize) :
    slice (pre ++ l.bytes size ++ post) (pre.length + 2 + 2 * d.elements + i) n = slice l.statics i n := by
  have hfit : i + n ≤ l.statics.length := by rwa [h.statics]
  rw [append_statics, ← h.staticsAt pre size, List.append_assoc, slice_middle hfit]

theorem patch_size (pre : List Byte) (size size' : Nat) :
    splice (pre ++ l.bytes size) pre.length (littleEndian 2 size') = pre ++ l.bytes size' := by
  have hsplit : ∀ n, pre ++ l.bytes n =
      pre ++ littleEndian 2 n ++ (l.offsets.flatMap (littleEndian 2) ++ l.statics ++ l.payload) := by
    intro n
    rw [bytes]
    simp only [List.append_assoc]
  have hfit : 0 + (littleEndian 2 size').length ≤ (littleEndian 2 size).length := by simp
  have hall : splice (littleEndian 2 size) 0 (littleEndian 2 size') = littleEndian 2 size' := by
    rw [splice_eq hfit]
    simp [littleEndian]
  rw [hsplit, hsplit, ← hall]
  exact @splice_middle _ pre (littleEndian 2 size) _ (littleEndian 2 size') 0 hfit

theorem bytes_append (size : Nat) (bytes : List Byte) :
    l.bytes size ++ bytes = { l with payload := l.payload ++ bytes }.bytes size := by
  rw [Layout.bytes, Layout.bytes]
  simp only [List.append_assoc]

end Layout

theorem encode_struct (t : ElementType) (name : Nat) (calls : Calls) :
    (Tree.struct name calls).encode schema (.one t) =
      (calls.encode schema (schema name) (Layout.empty (schema name))).bytes ((schema name).minSize +
        (calls.encode schema (schema name) (Layout.empty (schema name))).payload.length - 2) := by
  cases t <;> rfl

theorem size_struct (t : ElementType) (name : Nat) (calls : Calls) :
    (Tree.struct name calls).size schema (.one t) = (schema name).minSize + calls.size schema (schema name) := by
  cases t <;> rfl

theorem wellTyped_struct {t : ElementType} {name : Nat} {calls : Calls}
    (h : (Tree.struct name calls).WellTyped schema (.one t)) :
    t.accepts name = true ∧ calls.WellTyped schema (schema name) := by
  cases t <;> exact h

theorem build_struct {t : ElementType} {name : Nat} (h : t.accepts name = true) (b : Builder) (calls : Calls) :
    (Tree.struct name calls).build schema b (.one t) =
      b.withStruct (schema name) (fun b s => calls.build schema b s) := by
  cases t <;> simp only [Tree.build, h, if_true]

/-- In the place of a scalar or a string: an add that threw, which has left
none of its bytes. -/
def Tree.rejected : Tree := .list .nil

def Dynamic.rejects : Dynamic → Tree → Bool
  | .one _, .list _ => true
  | _, _ => false

mutual

/-- A value of the schema, some of whose adds may have been rejected. -/
def Tree.Formed (schema : Schema) : Dynamic → Tree → Prop
  | .one (.scalar t), .scalar v => v < 256 ^ t.size
  | .one (.scalar _), .list .nil => True
  | .one .string, .string _ => True
  | .one .string, .list .nil => True
  | .one t, .struct name calls => t.accepts name = true ∧ calls.Formed schema (schema name)
  | .list t, .list ts => ts.Formed schema t
  | _, _ => False

def Calls.Formed (schema : Schema) (d : StructDef) : Calls → Prop
  | .done => True
  | .set j v rest => (∃ t, d.statics[j]? = some t ∧ v < 256 ^ t.size) ∧ rest.Formed schema d
  | .add k value rest =>
      (match d.dynamics[k]? with
        | some t => value.Formed schema t
        | none => False) ∧ k ∉ rest.added ∧ rest.Formed schema d

def Trees.Formed (schema : Schema) (t : ElementType) : Trees → Prop
  | .nil => True
  | .cons head tail => head.Formed schema (.one t) ∧ tail.Formed schema t

end

theorem formed_struct {t : ElementType} {name : Nat} {calls : Calls}
    (h : (Tree.struct name calls).Formed schema (.one t)) :
    t.accepts name = true ∧ calls.Formed schema (schema name) := by
  cases t <;> exact h

theorem formed_of_struct {t : ElementType} {name : Nat} {calls : Calls} (haccepts : t.accepts name = true)
    (h : calls.Formed schema (schema name)) : (Tree.struct name calls).Formed schema (.one t) := by
  cases t <;> exact ⟨haccepts, h⟩

mutual

theorem Tree.WellTyped.formed : ∀ {t : Dynamic} {v : Tree}, v.WellTyped schema t → v.Formed schema t
  | .one (.scalar _), .scalar _, h => h
  | .one .string, .string _, _ => trivial
  | .one _, .struct _ _, h => formed_of_struct (wellTyped_struct h).1 (wellTyped_struct h).2.formed
  | .list t, .list ts, h => Trees.WellTyped.formed (show ts.WellTyped schema t from h)

theorem Calls.WellTyped.formed {d : StructDef} : ∀ {calls : Calls}, calls.WellTyped schema d → calls.Formed schema d
  | .done, _ => trivial
  | .set j v rest, h => ⟨h.1, h.2.formed⟩
  | .add k value rest, h => by
      obtain ⟨hvalue, hnew, hrest⟩ := h
      refine ⟨?_, hnew, hrest.formed⟩
      cases hk : d.dynamics[k]? with
      | none => simp only [hk] at hvalue
      | some t =>
          simp only [hk] at hvalue ⊢
          exact hvalue.formed

theorem Trees.WellTyped.formed {t : ElementType} : ∀ {ts : Trees}, ts.WellTyped schema t → ts.Formed schema t
  | .nil, _ => trivial
  | .cons _ _, h => ⟨h.1.formed, h.2.formed⟩

end

mutual

theorem Tree.length_encode : ∀ (t : Dynamic) (v : Tree), v.Formed schema t →
    (v.encode schema t).length = v.size schema t
  | .one (.scalar t), .scalar v, _ => length_littleEndian t.size v
  | .one .string, .string s, _ => by
      rw [Tree.encode, Tree.size, List.length_append, length_littleEndian]
  | .one (.scalar _), .list .nil, _ => rfl
  | .one .string, .list .nil, _ => rfl
  | .one t, .struct name calls, h => by
      have hcalls := calls.length_encode (formed_struct h).2 (Layout.fits_empty _)
      rw [encode_struct, size_struct, hcalls.1.length, hcalls.2]
      exact congrArg _ (Nat.zero_add _)
  | .list t, .list ts, h => by
      rw [Tree.encode, Tree.size, List.length_append, length_littleEndian, ts.length_encode t h]

theorem Calls.length_encode {d : StructDef} {l : Layout} : ∀ (calls : Calls), calls.Formed schema d → l.Fits d →
    (calls.encode schema d l).Fits d ∧
      (calls.encode schema d l).payload.length = l.payload.length + calls.size schema d
  | .done, _, hl => ⟨hl, rfl⟩
  | .set j v rest, h, hl => by
      have hrest := rest.length_encode h.2 (hl.set j v)
      have hsame : (l.set d j v).payload = l.payload := by
        rw [Layout.set]
        split <;> rfl
      rwa [hsame] at hrest
  | .add k value rest, h, hl => by
      obtain ⟨hvalue, -, hrest⟩ := h
      rw [Calls.encode, Calls.size]
      cases hk : d.dynamics[k]? with
      | none => simp only [hk] at hvalue
      | some t =>
          simp only [hk] at hvalue
          have hall := rest.length_encode hrest (hl.add k (value.encode schema t))
          refine ⟨hall.1, hall.2.trans ?_⟩
          rw [Layout.add, List.length_append, value.length_encode t hvalue, Nat.add_assoc]

theorem Trees.length_encode : ∀ (t : ElementType) (ts : Trees), ts.Formed schema t →
    (ts.encode schema t).length = ts.size schema t
  | _, .nil, _ => rfl
  | t, .cons head tail, h => by
      rw [Trees.encode, Trees.size, List.length_append, head.length_encode (.one t) h.1, tail.length_encode t h.2]

end

/-- The count of a list goes up by one, and wraps as 16 bits do. -/
theorem addElement_eq (pre body : List Byte) (n maxSize : Nat) :
    Builder.addElement ⟨pre ++ littleEndian 2 n ++ body, maxSize⟩ pre.length =
      ⟨pre ++ littleEndian 2 (n + 1) ++ body, maxSize⟩ := by
  have hread : u16At (pre ++ littleEndian 2 n ++ body) pre.length = n % 65536 := by
    have hslice : slice (pre ++ littleEndian 2 n ++ body) (pre.length + 0) 2 = slice (littleEndian 2 n) 0 2 :=
      slice_middle (by simp)
    rw [u16At, show pre.length = pre.length + 0 from rfl, hslice]
    exact fromLittleEndian_mod 2 n
  have hnext : littleEndian 2 (n % 65536 + 1) = littleEndian 2 (n + 1) := by
    rw [← littleEndian_mod 2 (n % 65536 + 1), ← littleEndian_mod 2 (n + 1)]
    exact congrArg (littleEndian 2) (show (n % 65536 + 1) % 65536 = (n + 1) % 65536 by omega)
  have hfit : 0 + (littleEndian 2 (n + 1)).length ≤ (littleEndian 2 n).length := by simp
  have hall : splice (littleEndian 2 n) 0 (littleEndian 2 (n + 1)) = littleEndian 2 (n + 1) := by
    rw [splice_eq hfit]
    simp [littleEndian]
  rw [Builder.addElement, hread, hnext, Builder.patch]
  refine congrArg (Builder.mk · maxSize) ?_
  conv => rhs; rw [← hall]
  exact @splice_middle _ pre (littleEndian 2 n) body (littleEndian 2 (n + 1)) 0 hfit

theorem setOffset_eq (hl : l.Fits d) {k : Nat} (hk : l.offsets[k]? = some 0) (pre : List Byte) (maxSize : Nat) :
    Builder.setOffset ⟨pre ++ l.bytes 0, maxSize⟩ ⟨pre.length, d⟩ k =
      .ok ⟨pre ++ { l with offsets := l.offsets.set k (d.minSize + l.payload.length) }.bytes 0, maxSize⟩ := by
  have hread : u16At (pre ++ l.bytes 0) (pre.length + 2 + 2 * k) = 0 := by
    have hslice := @Layout.read_offset l pre [] 0 k 0 hk
    rw [List.append_nil] at hslice
    rw [u16At, hslice]
    rfl
  have hlen : (pre ++ l.bytes 0).length - pre.length = d.minSize + l.payload.length := by
    rw [List.length_append, hl.length, Nat.add_sub_cancel_left]
  rw [Builder.setOffset, check_of hread, ok_bind, hlen]
  exact congrArg (fun bytes => Except.ok (Builder.mk bytes maxSize)) (Layout.patch_offset (List.getElem?_eq_some_iff.mp hk).1)

theorem beginStruct_eq {b : Builder} (hspace : b.bytes.length + d.minSize ≤ b.maxSize) :
    b.beginStruct d = .ok (⟨b.bytes ++ (Layout.empty d).bytes 0, b.maxSize⟩, ⟨b.bytes.length, d⟩) := by
  rw [Builder.beginStruct, check_of hspace, Layout.bytes_empty]
  rfl

theorem setStatic_eq (hl : l.Fits d) {j : Nat} {t : StaticType} (hj : d.statics[j]? = some t) (pre : List Byte)
    (size value maxSize : Nat) : Builder.setStatic ⟨pre ++ l.bytes size, maxSize⟩ ⟨pre.length, d⟩ j value =
      .ok ⟨pre ++ (l.set d j value).bytes size, maxSize⟩ := by
  rw [Builder.setStatic]
  simp only [hj, Builder.patch, hl.patch_static hj]

theorem finalize_eq (hl : l.Fits d) (pre : List Byte) (maxSize : Nat) :
    Builder.finalize ⟨pre ++ l.bytes 0, maxSize⟩ ⟨pre.length, d⟩ =
      ⟨pre ++ l.bytes (d.minSize + l.payload.length - 2), maxSize⟩ := by
  have hlen : (pre ++ l.bytes 0).length - pre.length - 2 = d.minSize + l.payload.length - 2 := by
    rw [List.length_append, hl.length, Nat.add_sub_cancel_left]
  rw [Builder.finalize, hlen, Builder.patch, Layout.patch_size]

theorem withStruct_eq {b : Builder} {calls : Builder → StructBuilder → Except Fault Builder}
    (hspace : b.bytes.length + d.minSize ≤ b.maxSize) (hl : l.Fits d)
    (hcalls : calls ⟨b.bytes ++ (Layout.empty d).bytes 0, b.maxSize⟩ ⟨b.bytes.length, d⟩ =
      .ok ⟨b.bytes ++ l.bytes 0, b.maxSize⟩) :
    b.withStruct d calls = .ok (b.put (l.bytes (d.minSize + l.payload.length - 2))) := by
  rw [Builder.withStruct, beginStruct_eq hspace, ok_bind]
  simp only [hcalls, ok_bind, finalize_eq hl]
  rfl

theorem beginList_eq {b : Builder} (hspace : b.bytes.length + 2 ≤ b.maxSize) :
    b.beginList = .ok (⟨b.bytes ++ littleEndian 2 0, b.maxSize⟩, b.bytes.length) := by
  rw [Builder.beginList, check_of hspace]
  rfl

theorem Calls.added_lt {d : StructDef} : ∀ (calls : Calls), calls.Formed schema d → ∀ k ∈ calls.added, k < d.elements
  | .done, _, k, hk => absurd hk List.not_mem_nil
  | .set j v rest, h, k, hk => rest.added_lt h.2 k hk
  | .add i value rest, h, k, hk => by
      obtain ⟨hvalue, -, hrest⟩ := h
      rcases List.mem_cons.mp hk with rfl | hk
      · cases hi : d.dynamics[k]? with
        | none => simp only [hi] at hvalue
        | some t => exact (List.getElem?_eq_some_iff.mp hi).1
      · exact rest.added_lt hrest k hk

theorem Calls.payload_prefix {d : StructDef} : ∀ (calls : Calls) (l : Layout),
    ∃ tail, (calls.encode schema d l).payload = l.payload ++ tail
  | .done, l => ⟨[], (List.append_nil _).symm⟩
  | .set j v rest, l => by
      obtain ⟨tail, htail⟩ := rest.payload_prefix (l.set d j v)
      have hsame : (l.set d j v).payload = l.payload := by
        rw [Layout.set]
        split <;> rfl
      exact ⟨tail, hsame ▸ htail⟩
  | .add k value rest, l => by
      rw [Calls.encode]
      cases d.dynamics[k]? with
      | none => exact ⟨[], (List.append_nil _).symm⟩
      | some t =>
          obtain ⟨tail, htail⟩ := rest.payload_prefix (l.add d k (value.encode schema t))
          exact ⟨value.encode schema t ++ tail, htail.trans (List.append_assoc ..)⟩

theorem Calls.offsets_of_notMem {d : StructDef} {k : Nat} : ∀ (calls : Calls) (l : Layout), k ∉ calls.added →
    (calls.encode schema d l).offsets[k]? = l.offsets[k]?
  | .done, _, _ => rfl
  | .set j v rest, l, hk => by
      have hsame : (l.set d j v).offsets = l.offsets := by
        rw [Layout.set]
        split <;> rfl
      exact (rest.offsets_of_notMem (l.set d j v) hk).trans (congrArg (·[k]?) hsame)
  | .add i value rest, l, hk => by
      obtain ⟨hne, hrest⟩ := not_or.mp (fun h => hk (List.mem_cons.mpr h))
      rw [Calls.encode]
      cases d.dynamics[i]? with
      | none => rfl
      | some t =>
          refine (rest.offsets_of_notMem (l.add d i (value.encode schema t)) hrest).trans ?_
          exact List.getElem?_set_ne (Ne.symm hne)

mutual

theorem Tree.build_eq : ∀ (t : Dynamic) (v : Tree) (b : Builder), v.WellTyped schema t → b.maxSize < 65536 →
    b.bytes.length + v.size schema t ≤ b.maxSize → v.build schema b t = .ok (b.put (v.encode schema t))
  | .one (.scalar t), .scalar v, b, _, _, hspace => by
      rw [Tree.size] at hspace
      rw [Tree.build, Builder.addScalar, check_of hspace]
      rfl
  | .one .string, .string s, b, _, hmax, hspace => by
      rw [Tree.size, ← Nat.add_assoc] at hspace
      have hshort : s.length < 65536 := by omega
      rw [Tree.build, Builder.addString, check_of hshort, ok_bind, check_of hspace, ok_bind, Tree.encode]
      exact congrArg (fun bytes => Except.ok (Builder.mk bytes b.maxSize)) (List.append_assoc ..)
  | .one t, .struct name calls, b, h, hmax, hspace => by
      have haccepts := (wellTyped_struct h).1
      have hcalls := (wellTyped_struct h).2
      rw [size_struct] at hspace
      have hzero : ∀ k ∈ calls.added, (Layout.empty (schema name)).offsets[k]? = some 0 := by
        intro k hk
        exact List.getElem?_replicate_of_lt (calls.added_lt hcalls.formed k hk)
      have hsum : b.bytes.length + (schema name).minSize + 0 + calls.size schema (schema name) ≤ b.maxSize := by omega
      have hbuild := calls.build_eq b.bytes b.maxSize hcalls (Layout.fits_empty _) hzero hmax hsum
      have hfits := (calls.length_encode hcalls.formed (Layout.fits_empty _)).1
      rw [build_struct haccepts, encode_struct]
      exact withStruct_eq (by omega) hfits hbuild
  | .list t, .list ts, b, h, hmax, hspace => by
      rw [Tree.size] at hspace
      have hroom : b.bytes.length + 2 ≤ b.maxSize := by omega
      have hbuild := ts.build_eq t b.bytes [] 0 b.maxSize h hmax (by rw [List.length_nil]; omega)
      rw [List.append_nil, List.nil_append, Nat.zero_add] at hbuild
      rw [Tree.build, Builder.withList, beginList_eq hroom, ok_bind, Tree.encode]
      refine hbuild.trans ?_
      rw [Builder.put, List.append_assoc]

theorem Calls.build_eq {d : StructDef} {l : Layout} : ∀ (calls : Calls) (pre : List Byte) (maxSize : Nat),
    calls.WellTyped schema d → l.Fits d → (∀ k ∈ calls.added, l.offsets[k]? = some 0) → maxSize < 65536 →
    pre.length + d.minSize + l.payload.length + calls.size schema d ≤ maxSize →
    calls.build schema ⟨pre ++ l.bytes 0, maxSize⟩ ⟨pre.length, d⟩ =
      .ok ⟨pre ++ (calls.encode schema d l).bytes 0, maxSize⟩
  | .done, _, _, _, _, _, _, _ => rfl
  | .set j v rest, pre, maxSize, h, hl, hzero, hmax, hspace => by
      obtain ⟨⟨t, hj, -⟩, hrest⟩ := h
      have hset : l.set d j v = { l with statics := splice l.statics (d.staticOffset j) (littleEndian t.size v) } := by
        rw [Layout.set, hj]
      have hbuild := rest.build_eq pre maxSize hrest (hl.set j v) (by rw [hset]; exact hzero) hmax
        (by rw [hset]; exact hspace)
      rw [Calls.build, setStatic_eq hl hj, ok_bind]
      exact hbuild
  | .add k value rest, pre, maxSize, h, hl, hzero, hmax, hspace => by
      obtain ⟨hvalue, hnew, hrest⟩ := h
      cases hk : d.dynamics[k]? with
      | none => simp only [hk] at hvalue
      | some t =>
          simp only [hk] at hvalue
          rw [Calls.size] at hspace
          simp only [hk] at hspace
          have hfits : { l with offsets := l.offsets.set k (d.minSize + l.payload.length) }.Fits d :=
            ⟨List.length_set.trans hl.offsets, hl.statics⟩
          have hone := value.build_eq t
            ⟨pre ++ { l with offsets := l.offsets.set k (d.minSize + l.payload.length) }.bytes 0, maxSize⟩ hvalue hmax
            (by rw [List.length_append, hfits.length]; change _ + (_ + l.payload.length) + _ ≤ maxSize; omega)
          have hstill : ∀ k' ∈ rest.added, (l.add d k (value.encode schema t)).offsets[k']? = some 0 := by
            intro k' hk'
            have hne : k ≠ k' := fun he => hnew (he ▸ hk')
            exact (List.getElem?_set_ne hne).trans (hzero k' (List.mem_cons_of_mem k hk'))
          have hbuild := rest.build_eq pre maxSize hrest (hl.add k (value.encode schema t)) hstill hmax (by
            rw [Layout.add, List.length_append, value.length_encode t hvalue.formed]
            omega)
          rw [Calls.build, Calls.encode]
          simp only [hk]
          rw [setOffset_eq hl (hzero k (List.mem_cons_self ..)), ok_bind, hone, ok_bind, Builder.put,
            List.append_assoc, Layout.bytes_append]
          exact hbuild

theorem Trees.build_eq : ∀ (t : ElementType) (ts : Trees) (pre body : List Byte) (n maxSize : Nat),
    ts.WellTyped schema t → maxSize < 65536 → pre.length + 2 + body.length + ts.size schema t ≤ maxSize →
    ts.build schema t ⟨pre ++ littleEndian 2 n ++ body, maxSize⟩ pre.length =
      .ok ⟨pre ++ littleEndian 2 (n + ts.length) ++ (body ++ ts.encode schema t), maxSize⟩
  | t, .nil, pre, body, n, maxSize, _, _, _ => by
      rw [Trees.encode, List.append_nil]
      rfl
  | t, .cons head tail, pre, body, n, maxSize, h, hmax, hspace => by
      rw [Trees.size] at hspace
      have hone := head.build_eq (.one t) ⟨pre ++ littleEndian 2 (n + 1) ++ body, maxSize⟩ h.1 hmax
        (by rw [List.length_append, List.length_append, length_littleEndian]; change _ ≤ maxSize; omega)
      have hbuild := tail.build_eq t pre (body ++ head.encode schema (.one t)) (n + 1) maxSize h.2 hmax
        (by rw [List.length_append, head.length_encode (.one t) h.1.formed]; omega)
      rw [Trees.build, addElement_eq, hone, ok_bind, Builder.put, List.append_assoc]
      refine hbuild.trans ?_
      simp only [Trees.encode, Trees.length, List.append_assoc, Nat.add_assoc, Nat.add_comm 1]

end

end Tyrdbs.Message
