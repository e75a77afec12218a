import Tyrdbs.Message.Encoding
import Tyrdbs.Message.ScalarOffsets

namespace Tyrdbs.Message

open Bytes Outcome

def ElementType.wide : ElementType → Bool
  | .scalar t => t.size ≥ 2
  | _ => true

def Dynamic.wide : Dynamic → Bool
  | .one t => t.wide
  | .list t => t.wide

def Schema.Wide (schema : Schema) : Prop := ∀ name, ∀ t ∈ (schema name).dynamics, t.wide = true

mutual

/-- The parsers over a message find the value at an offset: its struct takes
the bytes that its size tells, its fields are there if and only if they were
added, and its lists have the elements in order and no others. -/
def Tree.Shows (schema : Schema) (msg : List Byte) : Dynamic → Nat → Tree → Prop
  | .one (.scalar t), offset, .scalar v => t.parse msg offset = .ok v
  | .one .string, offset, .string s => parseString msg offset = .ok s
  | .one t, offset, .struct name calls =>
      t.accepts name = true ∧
      ∃ p, StructParser.make msg (schema name) offset = .ok p ∧
        u16At msg offset + 2 = (Tree.struct name calls).size schema (.one t) ∧
        (∀ k < (schema name).elements, p.hasOffset msg k = .ok (decide (k ∈ calls.added))) ∧
        (∀ j < (schema name).statics.length, p.static msg j = .ok (calls.lastSet j 0)) ∧
        calls.Shows schema msg p
  | .list t, offset, .list ts => ∃ l, ListParser.make msg t offset = .ok l ∧ ts.Shows schema msg t l
  | _, _, _ => False

def Calls.Shows (schema : Schema) (msg : List Byte) (p : StructParser) : Calls → Prop
  | .done => True
  | .set _ _ rest => rest.Shows schema msg p
  | .add k value rest =>
      (match p.structDef.dynamics[k]? with
        | some t => ∃ offset, p.offsetOf msg k = .ok offset ∧ value.Shows schema msg t offset
        | none => False) ∧ rest.Shows schema msg p

def Trees.Shows (schema : Schema) (msg : List Byte) (t : ElementType) (l : ListParser) : Trees → Prop
  | .nil => (l.next msg).1 = .ok false
  | .cons head tail =>
      (l.next msg).1 = .ok true ∧ head.Shows schema msg (.one t) (l.next msg).2.offset ∧
        tail.Shows schema msg t (l.next msg).2

end

variable {schema : Schema} {d : StructDef} {l : Layout}

/-- A 16 bit number somewhere in a message. -/
theorem u16At_middle (pre post : List Byte) {v : Nat} (h : v < 65536) :
    u16At (pre ++ littleEndian 2 v ++ post) pre.length = v := by
  have hslice : slice (pre ++ littleEndian 2 v ++ post) (pre.length + 0) 2 = slice (littleEndian 2 v) 0 2 :=
    slice_middle (by simp)
  rw [u16At, show pre.length = pre.length + 0 from rfl, hslice]
  exact fromLittleEndian_littleEndian 2 v h

theorem parse_scalar {t : Scalar} {v : Nat} (hv : v < 256 ^ t.size) (ht : 2 ≤ t.size) (pre post : List Byte)
    (hmsg : (pre ++ littleEndian t.size v ++ post).length ≤ 32767) :
    t.parse (pre ++ littleEndian t.size v ++ post) pre.length = .ok v := by
  have hpow : 65536 ≤ 256 ^ t.size := Nat.pow_le_pow_right (show 0 < 256 by omega) ht
  rw [List.length_append, List.length_append] at hmsg
  exact parse_written hv pre post (castOffset_of_lt (by omega) (fun _ => by omega))

theorem parse_string (pre post s : List Byte)
    (hmsg : (pre ++ (littleEndian 2 s.length ++ s) ++ post).length < 65536) :
    parseString (pre ++ (littleEndian 2 s.length ++ s) ++ post) pre.length = .ok s := by
  have hlen : (pre ++ (littleEndian 2 s.length ++ s) ++ post).length = pre.length + 2 + s.length + post.length := by
    rw [List.length_append, List.length_append, List.length_append, length_littleEndian]
    omega
  have hsize : u16At (pre ++ (littleEndian 2 s.length ++ s) ++ post) pre.length = s.length := by
    have h := u16At_middle pre (s ++ post) (show s.length < 65536 by omega)
    simpa only [List.append_assoc] using h
  have hbody : slice (pre ++ (littleEndian 2 s.length ++ s) ++ post) (pre.length + 2) s.length = s := by
    have h := @slice_middle _ pre (littleEndian 2 s.length ++ s) post 2 s.length
      (Nat.le_of_eq (by rw [List.length_append, length_littleEndian]))
    rw [h, slice_append_right (Nat.le_of_eq (length_littleEndian 2 _)), length_littleEndian, Nat.sub_self, slice_zero_length]
  have hwrap : (pre.length + 2) % 65536 = pre.length + 2 := Nat.mod_eq_of_lt (by omega)
  rw [parseString, check_of (by omega), ok_bind, load16_nat (by omega), ok_bind, hsize, hwrap]
  change (check (pre.length + 2 + s.length ≤ _) _ >>= fun _ => load _ ↑(pre.length + 2) _) = _
  rw [check_of (by omega), ok_bind, load_nat (by omega), hbody]

theorem Calls.statics_encode {j : Nat} {t : StaticType} (hj : d.statics[j]? = some t) :
    ∀ (calls : Calls) (l : Layout) (v : Nat), calls.Formed schema d → l.Fits d →
      slice l.statics (d.staticOffset j) t.size = littleEndian t.size v →
      slice (calls.encode schema d l).statics (d.staticOffset j) t.size = littleEndian t.size (calls.lastSet j v)
  | .done, _, _, _, _, hv => hv
  | .set i w rest, l, v, h, hl, hv => by
      obtain ⟨⟨u, hi, -⟩, hrest⟩ := h
      have hfit : d.staticOffset i + (littleEndian u.size w).length ≤ l.statics.length := by
        rw [length_littleEndian, hl.statics]
        exact StructDef.staticOffset_add hi
      have hset : (l.set d i w).statics = splice l.statics (d.staticOffset i) (littleEndian u.size w) := by
        rw [Layout.set, hi]
      refine rest.statics_encode hj (l.set d i w) (if i = j then w else v) hrest (hl.set i w) ?_
      rw [hset]
      rcases Nat.lt_trichotomy i j with hij | rfl | hij
      · have hplace := StructDef.staticOffset_le hi hij
        rw [if_neg (Nat.ne_of_lt hij), slice_splice_after hfit (by rwa [length_littleEndian]), hv]
      · rw [hi, Option.some.injEq] at hj
        subst hj
        have hself := slice_splice_self hfit
        rw [length_littleEndian] at hself
        rw [if_pos rfl, hself]
      · rw [if_neg (Nat.ne_of_gt hij), slice_splice_before hfit (StructDef.staticOffset_le hj hij), hv]
  | .add k value rest, l, v, h, hl, hv => by
      obtain ⟨hvalue, -, hrest⟩ := h
      rw [Calls.encode]
      cases hk : d.dynamics[k]? with
      | none => simp only [hk] at hvalue
      | some u => exact rest.statics_encode hj (l.add d k (value.encode schema u)) v hrest (hl.add k _) hv

theorem Calls.lastSet_lt {j : Nat} {t : StaticType} (hj : d.statics[j]? = some t) :
    ∀ (calls : Calls) (v : Nat), calls.Formed schema d → v < 256 ^ t.size → calls.lastSet j v < 256 ^ t.size
  | .done, _, _, hv => hv
  | .set i w rest, v, h, hv => by
      obtain ⟨⟨u, hi, hw⟩, hrest⟩ := h
      refine rest.lastSet_lt hj (if i = j then w else v) hrest ?_
      by_cases hij : i = j
      · rw [hij, hj, Option.some.injEq] at hi
        rw [if_pos hij, hi]
        exact hw
      · rw [if_neg hij]
        exact hv
  | .add k value rest, v, h, hv => rest.lastSet_lt hj v h.2.2 hv

theorem Calls.offsets_encode {k : Nat} : ∀ (calls : Calls) (l : Layout), calls.Formed schema d → l.Fits d →
    k ∈ calls.added → ∃ v, (calls.encode schema d l).offsets[k]? = some v ∧ d.minSize ≤ v ∧
      v ≤ d.minSize + (calls.encode schema d l).payload.length
  | .done, _, _, _, hk => absurd hk List.not_mem_nil
  | .set j v rest, l, h, hl, hk => rest.offsets_encode (l.set d j v) h.2 (hl.set j v) hk
  | .add i value rest, l, h, hl, hk => by
      obtain ⟨hvalue, hnew, hrest⟩ := h
      rw [Calls.encode]
      cases hi : d.dynamics[i]? with
      | none => simp only [hi] at hvalue
      | some t =>
          rcases List.mem_cons.mp hk with rfl | hk
          · have hlt : k < l.offsets.length := by
              rw [hl.offsets]
              exact (List.getElem?_eq_some_iff.mp hi).1
            refine ⟨d.minSize + l.payload.length, ?_, Nat.le_add_right .., ?_⟩
            · exact (rest.offsets_of_notMem _ hnew).trans (List.getElem?_set_self hlt)
            · obtain ⟨tail, htail⟩ := @Calls.payload_prefix schema d rest (l.add d k (value.encode schema t))
              have hlen := congrArg List.length htail
              rw [Layout.add, List.length_append, List.length_append] at hlen
              change _ ≤ d.minSize + (rest.encode schema d (l.add d k (value.encode schema t))).payload.length
              rw [Layout.add]
              omega
          · exact rest.offsets_encode (l.add d i (value.encode schema t)) hrest (hl.add i _) hk

theorem rejects_of_wellTyped {t : ElementType} {v : Tree} (h : v.WellTyped schema (.one t)) :
    (Dynamic.one t).rejects v = false := by
  cases v with
  | scalar _ | string _ => cases t <;> rfl
  | struct _ _ => rfl
  | list _ => cases t <;> cases h

theorem size_pos {t : ElementType} {v : Tree} (h : v.Formed schema (.one t))
    (hv : (Dynamic.one t).rejects v = false) : 0 < v.size schema (.one t) := by
  cases v with
  | scalar v =>
      cases t with
      | scalar t => exact scalar_pos t
      | string | struct _ | template => cases h
  | string s =>
      cases t with
      | string => exact Nat.lt_of_lt_of_le Nat.two_pos (Nat.le_add_right 2 _)
      | scalar _ | struct _ | template => cases h
  | struct name calls =>
      rw [size_struct, StructDef.minSize]
      omega
  | list ts =>
      cases ts with
      | nil => cases t <;> cases hv
      | cons _ _ => cases t <;> cases h

theorem length_le_size {t : ElementType} (ts : Trees) (h : ts.WellTyped schema t) : ts.length ≤ ts.size schema t := by
  cases ts with
  | nil => exact Nat.le_refl 0
  | cons head tail =>
      have hhead := size_pos h.1.formed (rejects_of_wellTyped h.1)
      have htail := length_le_size tail h.2
      rw [Trees.length, Trees.size]
      omega

theorem u16At_struct {t : ElementType} {name : Nat} {calls : Calls}
    (h : (Tree.struct name calls).Formed schema (.one t)) (pre post : List Byte)
    (hsize : (Tree.struct name calls).size schema (.one t) < 65536) :
    u16At (pre ++ (Tree.struct name calls).encode schema (.one t) ++ post) pre.length + 2 =
      (Tree.struct name calls).size schema (.one t) := by
  have hlen := Tree.length_encode (.one t) _ h
  rw [encode_struct] at hlen ⊢
  generalize hl : calls.encode schema (schema name) (Layout.empty (schema name)) = l at hlen ⊢
  have hfits : l.Fits (schema name) := hl ▸ (calls.length_encode (formed_struct h).2 (Layout.fits_empty _)).1
  rw [hfits.length] at hlen
  have hmin : 2 ≤ (schema name).minSize := by
    rw [StructDef.minSize]
    omega
  have hread := u16At_middle pre (l.offsets.flatMap (littleEndian 2) ++ l.statics ++ l.payload ++ post)
    (show (schema name).minSize + l.payload.length - 2 < 65536 by omega)
  rw [Layout.bytes]
  simp only [List.append_assoc] at hread ⊢
  rw [hread]
  omega

theorem u16At_size {t : ElementType} {v : Tree} (h : v.Formed schema (.one t))
    (hv : (Dynamic.one t).rejects v = false) (ht : ∀ s, t ≠ .scalar s) (pre post : List Byte)
    (hsize : v.size schema (.one t) < 65536) :
    2 ≤ v.size schema (.one t) ∧
      u16At (pre ++ v.encode schema (.one t) ++ post) pre.length + 2 = v.size schema (.one t) := by
  cases v with
  | scalar v =>
      cases t with
      | scalar t => exact absurd rfl (ht t)
      | string | struct _ | template => cases h
  | string s =>
      cases t with
      | scalar _ | struct _ | template => cases h
      | string =>
          rw [Tree.size] at hsize
          have hread := u16At_middle pre (s ++ post) (show s.length < 65536 by omega)
          rw [Tree.size, Tree.encode]
          simp only [List.append_assoc] at hread ⊢
          rw [hread]
          omega
  | struct name calls =>
      refine ⟨?_, u16At_struct h pre post hsize⟩
      rw [size_struct, StructDef.minSize]
      omega
  | list ts =>
      cases ts with
      | nil => cases t <;> cases hv
      | cons _ _ => cases t <;> cases h

theorem readSize_eq {t : ElementType} {v : Tree} (h : v.Formed schema (.one t))
    (hv : (Dynamic.one t).rejects v = false) (pre post : List Byte)
    (hmsg : (pre ++ v.encode schema (.one t) ++ post).length < 65536) {l : ListParser} (ht : l.elementType = t)
    (hoffset : l.offset = pre.length) :
    l.readSize (pre ++ v.encode schema (.one t) ++ post) = .ok (v.size schema (.one t)) := by
  have hlen := Tree.length_encode (.one t) v h
  have hall : (pre ++ v.encode schema (.one t) ++ post).length =
      pre.length + v.size schema (.one t) + post.length := by
    rw [List.length_append, List.length_append, hlen]
  by_cases hscalar : ∃ s, t = .scalar s
  · obtain ⟨s, rfl⟩ := hscalar
    match v, h with
    | .scalar v, _ =>
        rw [ListParser.readSize, ht]
        rfl
    | .list .nil, _ => cases hv
  · have hns : ∀ s, t ≠ .scalar s := fun s hs => hscalar ⟨s, hs⟩
    obtain ⟨htwo, hread⟩ := u16At_size h hv hns pre post (by omega)
    have hfit : pre.length + 2 ≤ (pre ++ v.encode schema (.one t) ++ post).length := by omega
    have hparse : Scalar.uint16.parse (pre ++ v.encode schema (.one t) ++ post) l.offset =
        .ok (u16At (pre ++ v.encode schema (.one t) ++ post) pre.length) := by
      rw [Scalar.parse, hoffset, castOffset_eq rfl (by omega)]
      change (check ((pre.length : Int) + (2 : Nat) ≤ _) _ >>= fun _ => load _ pre.length 2 >>= _) = _
      rw [check_of (by exact_mod_cast hfit), ok_bind, load_nat hfit]
      rfl
    have hstep : l.readSize (pre ++ v.encode schema (.one t) ++ post) = (do
        let size ← Scalar.uint16.parse (pre ++ v.encode schema (.one t) ++ post) l.offset
        return (size + 2) % 65536) := by
      rw [ListParser.readSize, ht]
      cases t with
      | scalar s => exact absurd rfl (hns s)
      | string | struct | template => rfl
    rw [hstep, hparse, ok_bind, hread, Nat.mod_eq_of_lt (by omega)]
    rfl

theorem length_message (hl : l.Fits d) (pre post : List Byte) (size : Nat) :
    (pre ++ l.bytes size ++ post).length = pre.length + d.minSize + l.payload.length + post.length := by
  rw [List.length_append, List.length_append, hl.length, ← Nat.add_assoc]

theorem load_offset (hl : l.Fits d) {k v : Nat} (hk : l.offsets[k]? = some v) (hv : v < 65536) (pre post : List Byte)
    (size : Nat) : load16 (pre ++ l.bytes size ++ post) (pre.length + 2 + 2 * k) = .ok v := by
  have hlt : k < d.elements := hl.offsets ▸ (List.getElem?_eq_some_iff.mp hk).1
  have hfit : pre.length + 2 + 2 * k + 2 ≤ (pre ++ l.bytes size ++ post).length := by
    rw [length_message hl, StructDef.minSize]
    omega
  rw [load16_nat hfit, u16At, Layout.read_offset hk]
  exact congrArg Except.ok (fromLittleEndian_littleEndian 2 v hv)

theorem offsetOf_eq (hl : l.Fits d) {k v : Nat} (hk : l.offsets[k]? = some v) (hv : 0 < v)
    (hplace : v ≤ d.minSize + l.payload.length) (pre post : List Byte) (size : Nat)
    (hmsg : (pre ++ l.bytes size ++ post).length < 65536) :
    StructParser.offsetOf (pre ++ l.bytes size ++ post) ⟨pre.length, d⟩ k = .ok (pre.length + v) := by
  have hlen := length_message hl pre post size
  have hin : pre.length + v ≤ (pre ++ l.bytes size ++ post).length := by omega
  rw [StructParser.offsetOf]
  simp only [load_offset hl hk (show v < 65536 by omega)]
  rw [ok_bind, check_of (Nat.ne_of_gt hv), ok_bind, check_of hin, ok_bind, Nat.mod_eq_of_lt (by omega), Nat.add_comm]
  rfl

theorem Calls.hasOffset_eq {calls : Calls} (h : calls.Formed schema d) {k : Nat} (hk : k < d.elements)
    (pre post : List Byte) (size : Nat)
    (hmsg : (pre ++ (calls.encode schema d (Layout.empty d)).bytes size ++ post).length < 65536) :
    StructParser.hasOffset (pre ++ (calls.encode schema d (Layout.empty d)).bytes size ++ post) ⟨pre.length, d⟩ k =
      .ok (decide (k ∈ calls.added)) := by
  have hl := (calls.length_encode h (Layout.fits_empty d)).1
  have hlen := length_message hl pre post size
  have hmin : 2 ≤ d.minSize := by
    rw [StructDef.minSize]
    omega
  rw [StructParser.hasOffset]
  by_cases hin : k ∈ calls.added
  · obtain ⟨v, hv, hlow, hhigh⟩ := calls.offsets_encode _ h (Layout.fits_empty d) hin
    simp only [load_offset hl hv (show v < 65536 by omega)]
    rw [ok_bind, decide_eq_true hin, decide_eq_true (show v ≠ 0 by omega)]
    rfl
  · have hzero := (@Calls.offsets_of_notMem schema d k calls (Layout.empty d) hin).trans
      (List.getElem?_replicate_of_lt hk)
    simp only [load_offset hl hzero (show 0 < 65536 by omega)]
    rw [ok_bind, decide_eq_false hin]
    rfl

theorem Calls.static_eq {calls : Calls} (h : calls.Formed schema d) {j : Nat} (hj : j < d.statics.length)
    (pre post : List Byte) (size : Nat) :
    StructParser.static (pre ++ (calls.encode schema d (Layout.empty d)).bytes size ++ post) ⟨pre.length, d⟩ j =
      .ok (calls.lastSet j 0) := by
  have hl := (calls.length_encode h (Layout.fits_empty d)).1
  have hget : d.statics[j]? = some d.statics[j] := List.getElem?_eq_getElem hj
  have hplace := StructDef.staticOffset_add hget
  have hfit : pre.length + 2 + 2 * d.elements + d.staticOffset j + d.statics[j].size ≤
      (pre ++ (calls.encode schema d (Layout.empty d)).bytes size ++ post).length := by
    rw [length_message hl, StructDef.minSize]
    omega
  have hunset : slice (Layout.empty d).statics (d.staticOffset j) d.statics[j].size =
      littleEndian d.statics[j].size 0 := by
    rw [Layout.empty, slice, List.drop_replicate, List.take_replicate, littleEndian_zero, Nat.min_eq_left (by omega)]
  have hvalue := calls.statics_encode hget _ 0 h (Layout.fits_empty d) hunset
  have hlast := calls.lastSet_lt hget 0 h (Nat.pow_pos (by omega))
  rw [StructParser.static]
  simp only [hget]
  rw [load_nat hfit, ok_bind, hl.read_static hplace, hvalue, fromLittleEndian_littleEndian _ _ hlast]
  rfl

theorem shows_struct {msg : List Byte} {t : ElementType} {offset name : Nat} {calls : Calls} {p : StructParser}
    (haccepts : t.accepts name = true) (hp : StructParser.make msg (schema name) offset = .ok p)
    (hsize : u16At msg offset + 2 = (Tree.struct name calls).size schema (.one t))
    (hhas : ∀ k < (schema name).elements, p.hasOffset msg k = .ok (decide (k ∈ calls.added)))
    (hstatic : ∀ j < (schema name).statics.length, p.static msg j = .ok (calls.lastSet j 0))
    (hcalls : calls.Shows schema msg p) : (Tree.struct name calls).Shows schema msg (.one t) offset := by
  cases t <;> exact ⟨haccepts, p, hp, hsize, hhas, hstatic, hcalls⟩

mutual

/-- Whatever stands before and after it, the bytes of a value show the value. -/
theorem Tree.shows_encode (hwide : schema.Wide) : ∀ (t : Dynamic) (v : Tree) (pre post : List Byte),
    v.WellTyped schema t → t.wide = true → (pre ++ v.encode schema t ++ post).length ≤ 32767 →
    v.Shows schema (pre ++ v.encode schema t ++ post) t pre.length
  | .one (.scalar t), .scalar v, pre, post, h, ht, hmsg => parse_scalar h (of_decide_eq_true ht) pre post hmsg
  | .one .string, .string s, pre, post, h, ht, hmsg => parse_string pre post s (Nat.lt_of_le_of_lt hmsg (by omega))
  | .one t, .struct name calls, pre, post, h, ht, hmsg => by
      have hcalls := (wellTyped_struct h).2
      have hl := (calls.length_encode hcalls.formed (Layout.fits_empty (schema name))).1
      have hlen := Tree.length_encode (.one t) _ h.formed
      have hfirst := u16At_struct h.formed pre post (by rw [List.length_append, List.length_append] at hmsg; omega)
      rw [encode_struct] at hmsg hfirst ⊢
      generalize hsize : (schema name).minSize +
        (calls.encode schema (schema name) (Layout.empty (schema name))).payload.length - 2 = size at hmsg hfirst ⊢
      have hfit : pre.length + (schema name).minSize ≤
          (pre ++ (calls.encode schema (schema name) (Layout.empty (schema name))).bytes size ++ post).length := by
        rw [length_message hl]
        omega
      have hshows := calls.shows_encode hwide _ pre post size (fun k t hk => hwide name t (List.mem_of_getElem? hk))
        hcalls (Layout.fits_empty _) hmsg
      refine shows_struct (wellTyped_struct h).1 (p := ⟨pre.length, schema name⟩) ?_ hfirst (fun k hk => ?_)
        (fun j hj => calls.static_eq hcalls.formed hj pre post size) hshows
      · rw [StructParser.make, check_of hfit]
        rfl
      · exact calls.hasOffset_eq hcalls.formed hk pre post size (by omega)
  | .list t, .list ts, pre, post, h, ht, hmsg => by
      have hcount := length_le_size ts h
      have hlen := ts.length_encode t (show ts.WellTyped schema t from h).formed
      have hassoc : pre ++ (Tree.list ts).encode schema (.list t) ++ post =
          pre ++ littleEndian 2 ts.length ++ ts.encode schema t ++ post := by
        rw [Tree.encode]
        simp only [List.append_assoc]
      rw [hassoc] at hmsg ⊢
      have hall : (pre ++ littleEndian 2 ts.length ++ ts.encode schema t ++ post).length =
          pre.length + 2 + ts.size schema t + post.length := by
        rw [List.length_append, List.length_append, List.length_append, length_littleEndian, hlen]
      have hread : load16 (pre ++ littleEndian 2 ts.length ++ ts.encode schema t ++ post) pre.length =
          .ok ts.length := by
        have hfit : pre.length + 2 ≤ (pre ++ littleEndian 2 ts.length ++ ts.encode schema t ++ post).length := by omega
        rw [load16_nat hfit, List.append_assoc _ (ts.encode schema t),
          u16At_middle pre _ (show ts.length < 65536 by omega)]
      refine ⟨{ elementType := t, offset := (pre.length + 2) % 65536, elements := ts.length }, ?_, ?_⟩
      · have hfit : pre.length + 2 ≤ (pre ++ littleEndian 2 ts.length ++ ts.encode schema t ++ post).length := by omega
        rw [ListParser.make, check_of hfit, ok_bind, hread]
        rfl
      · refine ts.shows_encode hwide t _ (pre ++ littleEndian 2 ts.length) post h ht rfl rfl ?_ hmsg
        rw [List.length_append, length_littleEndian]
        exact Nat.mod_eq_of_lt (show pre.length + 2 < 65536 by omega)

theorem Calls.shows_encode (hwide : schema.Wide) {d : StructDef} : ∀ (calls : Calls) (l : Layout)
    (pre post : List Byte) (size : Nat), (∀ (k : Nat) (t : Dynamic), d.dynamics[k]? = some t → t.wide = true) →
    calls.WellTyped schema d → l.Fits d →
    (pre ++ (calls.encode schema d l).bytes size ++ post).length ≤ 32767 →
    calls.Shows schema (pre ++ (calls.encode schema d l).bytes size ++ post) ⟨pre.length, d⟩
  | .done, _, _, _, _, _, _, _, _ => trivial
  | .set j v rest, l, pre, post, size, hd, h, hl, hmsg =>
      rest.shows_encode hwide (l.set d j v) pre post size hd h.2 (hl.set j v) hmsg
  | .add k value rest, l, pre, post, size, hd, h, hl, hmsg => by
      obtain ⟨hvalue, hnew, hrest⟩ := h
      rw [Calls.encode] at hmsg ⊢
      rw [Calls.Shows]
      cases hk : d.dynamics[k]? with
      | none => simp only [hk] at hvalue
      | some t =>
          simp only [hk] at hvalue hmsg ⊢
          have hadd := hl.add k (value.encode schema t)
          refine ⟨?_, rest.shows_encode hwide _ pre post size hd hrest hadd hmsg⟩
          obtain ⟨tail, htail⟩ := @Calls.payload_prefix schema d rest (l.add d k (value.encode schema t))
          have hoffset := (@Calls.offsets_of_notMem schema d k rest (l.add d k (value.encode schema t)) hnew).trans
            (List.getElem?_set_self (hl.offsets ▸ (List.getElem?_eq_some_iff.mp hk).1))
          have hfits := (rest.length_encode hrest.formed hadd).1
          generalize rest.encode schema d (l.add d k (value.encode schema t)) = final at hmsg htail hoffset hfits ⊢
          have hplace := congrArg List.length htail
          rw [Layout.add, List.length_append, List.length_append] at hplace
          have hmin : 0 < d.minSize := by
            rw [StructDef.minSize]
            omega
          refine ⟨pre.length + (d.minSize + l.payload.length), offsetOf_eq hfits hoffset (by omega) (by omega) pre post
            size (by omega), ?_⟩
          have hmiddle := Layout.payload_middle htail pre post size
          have hlen : (pre ++ final.head size ++ l.payload).length =
              pre.length + (d.minSize + l.payload.length) := by
            rw [List.length_append, List.length_append, hfits.length_head, Nat.add_assoc]
          rw [hmiddle] at hmsg ⊢
          rw [← hlen]
          exact value.shows_encode hwide t _ (tail ++ post) hvalue (hd k t hk) hmsg

theorem Trees.shows_encode (hwide : schema.Wide) : ∀ (t : ElementType) (ts : Trees) (l : ListParser)
    (pre post : List Byte), ts.WellTyped schema t → t.wide = true → l.elementType = t → l.elements = ts.length →
    l.offset + l.elementSize = pre.length → (pre ++ ts.encode schema t ++ post).length ≤ 32767 →
    ts.Shows schema (pre ++ ts.encode schema t ++ post) t l
  | t, .nil, l, pre, post, _, _, _, hcount, _, _ => by
      rw [Trees.Shows, ListParser.next, if_pos (show l.elements = 0 from hcount)]
  | t, .cons head tail, l, pre, post, h, ht, htype, hcount, hoffset, hmsg => by
      have hassoc : pre ++ (Trees.cons head tail).encode schema t ++ post =
          pre ++ head.encode schema (.one t) ++ (tail.encode schema t ++ post) := by
        rw [Trees.encode]
        simp only [List.append_assoc]
      have hassoc' : pre ++ (Trees.cons head tail).encode schema t ++ post =
          pre ++ head.encode schema (.one t) ++ tail.encode schema t ++ post := by
        rw [Trees.encode]
        simp only [List.append_assoc]
      have hsome : l.elements ≠ 0 := by
        rw [hcount]
        exact Nat.succ_ne_zero _
      have hwrap : (l.offset + l.elementSize) % 65536 = pre.length := by
        rw [hoffset]
        rw [List.length_append, List.length_append] at hmsg
        exact Nat.mod_eq_of_lt (by omega)
      have hsize := readSize_eq h.1.formed (rejects_of_wellTyped h.1) pre (tail.encode schema t ++ post)
          (by rw [← hassoc]; omega)
        (show { l with elements := l.elements - 1, offset := pre.length }.elementType = t from htype) rfl
      rw [← hassoc] at hsize
      have hnext : l.next (pre ++ (Trees.cons head tail).encode schema t ++ post) = (.ok true,
          { l with elements := l.elements - 1, offset := pre.length, elementSize := head.size schema (.one t) }) := by
        rw [ListParser.next, if_neg hsome]
        simp only [hwrap, hsize]
      rw [Trees.Shows, hnext]
      refine ⟨rfl, ?_, ?_⟩
      · rw [hassoc] at hmsg ⊢
        exact head.shows_encode hwide (.one t) pre _ h.1 ht hmsg
      · rw [hassoc'] at hmsg ⊢
        refine tail.shows_encode hwide t _ (pre ++ head.encode schema (.one t)) post h.2 ht htype ?_ ?_ hmsg
        · change l.elements - 1 = tail.length
          rw [hcount]
          rfl
        · rw [List.length_append, head.length_encode (.one t) h.1.formed]

end

/-- A tree of the schema that fits in a buffer is built, and the parsers find
it in what was built. -/
theorem message_round_trip (schema : Schema) (hwide : schema.Wide) (name : Nat) (calls : Calls) (maxSize : Nat)
    (htyped : (Tree.struct name calls).WellTyped schema (.one (.struct name))) (hmax : maxSize ≤ 32767)
    (hfits : (Tree.struct name calls).size schema (.one (.struct name)) ≤ maxSize) :
    ∃ b, (Tree.struct name calls).build schema ⟨[], maxSize⟩ (.one (.struct name)) = .ok b ∧
      b.bytes.length = (Tree.struct name calls).size schema (.one (.struct name)) ∧
      (Tree.struct name calls).Shows schema b.bytes (.one (.struct name)) 0 := by
  have hlen := Tree.length_encode (.one (.struct name)) _ htyped.formed
  have hbuild := Tree.build_eq (.one (.struct name)) _ ⟨[], maxSize⟩ htyped (show maxSize < 65536 by omega)
    (by rw [List.length_nil, Nat.zero_add]; exact hfits)
  have hshows := Tree.shows_encode hwide (.one (.struct name)) _ [] [] htyped rfl
    (by rw [List.nil_append, List.append_nil]; omega)
  rw [List.nil_append, List.append_nil] at hshows
  exact ⟨_, hbuild, hlen, hshows⟩

/-- A struct with a name, a static byte and a list of structs like itself. -/
def people : Schema := fun _ => [.dynamic (.one .string), .static (.scalar .uint8), .dynamic (.list (.struct 0))]

theorem people_wide : people.Wide := by
  intro name t ht
  have hall : ∀ t ∈ (people 0).dynamics, t.wide = true := by decide
  exact hall t ht

def parent : Calls :=
  .add 1 (.list (.cons (.struct 0 (.set 0 7 .done)) .nil)) (.add 0 (.string [65, 66]) .done)

theorem message_round_trip_parent :
    ∃ b, (Tree.struct 0 parent).build people ⟨[], 32⟩ (.one (.struct 0)) = .ok b ∧ b.bytes.length = 20 ∧
      (Tree.struct 0 parent).Shows people b.bytes (.one (.struct 0)) 0 := by
  have htyped : (Tree.struct 0 parent).WellTyped people (.one (.struct 0)) := by
    refine ⟨rfl, ⟨⟨⟨rfl, ⟨_, rfl, ?_⟩, trivial⟩, trivial⟩, ?_, trivial, ?_, trivial⟩⟩
    · decide
    · decide
    · decide
  exact message_round_trip people people_wide 0 parent 32 htyped (by decide) (by decide)

end Tyrdbs.Message
