import Tyrdbs.Message.RoundTrip

namespace Tyrdbs.Message

open Bytes Outcome

/-- What a serialize that throws for lack of space leaves: the check comes
before the first byte is written. -/
def Builder.keep (b : Builder) (v : Tree) : Except Fault Builder → Except Fault (Builder × Tree)
  | .ok b' => .ok (b', v)
  | .error .insufficientSpace => .ok (b, .rejected)
  | .error e => .error e

mutual

/-- The calls that build a value, by a program that catches
insufficient_space_error and goes on, and the calls as they went. A program
that catches it further out makes fewer calls on the builders inside, which
their destructors finalize all the same. -/
def Tree.attempt (schema : Schema) (b : Builder) : Dynamic → Tree → Except Fault (Builder × Tree)
  | .one (.scalar t), .scalar v => b.keep (.scalar v) (b.addScalar t v)
  | .one .string, .string s => b.keep (.string s) (b.addString s)
  | .one t, .struct name calls =>
      if t.accepts name then do
        let (b, s) ← b.beginStruct (schema name)
        let (b, calls) ← calls.attempt schema b s
        return (b.finalize s, .struct name calls)
      else .error .notGenerated
  | .list t, .list ts => do
      let (b, list) ← b.beginList
      let (b, ts) ← ts.attempt schema t b list
      return (b, .list ts)
  | _, _ => .error .notGenerated

def Calls.attempt (schema : Schema) (b : Builder) (s : StructBuilder) : Calls → Except Fault (Builder × Calls)
  | .done => .ok (b, .done)
  | .set j v rest => do
      let b ← b.setStatic s j v
      let (b, rest) ← rest.attempt schema b s
      return (b, .set j v rest)
  | .add k value rest =>
      match s.structDef.dynamics[k]? with
      | none => .error .notGenerated
      | some t => do
          let b ← b.setOffset s k
          let (b, value) ← value.attempt schema b t
          let (b, rest) ← rest.attempt schema b s
          return (b, .add k value rest)

def Trees.attempt (schema : Schema) (t : ElementType) (b : Builder) (list : Nat) :
    Trees → Except Fault (Builder × Trees)
  | .nil => .ok (b, .nil)
  | .cons head tail => do
      let (b, head) ← head.attempt schema (b.addElement list) (.one t)
      let (b, tail) ← tail.attempt schema t b list
      return (b, .cons head tail)

end

mutual

def Tree.kept (schema : Schema) : Dynamic → Tree → Tree
  | .one _, .struct name calls => .struct name (calls.kept schema (schema name))
  | .list t, .list ts => .list (ts.kept schema t)
  | _, v => v

def Calls.kept (schema : Schema) (d : StructDef) : Calls → Calls
  | .done => .done
  | .set j v rest => .set j v (rest.kept schema d)
  | .add k value rest =>
      match d.dynamics[k]? with
      | none => rest.kept schema d
      | some t => if t.rejects value then rest.kept schema d else .add k (value.kept schema t) (rest.kept schema d)

def Trees.kept (schema : Schema) (t : ElementType) : Trees → Trees
  | .nil => .nil
  | .cons head tail =>
      if (Dynamic.one t).rejects head then tail.kept schema t
      else .cons (head.kept schema (.one t)) (tail.kept schema t)

end

def Calls.rejected (d : StructDef) : Calls → List Nat
  | .done => []
  | .set _ _ rest => rest.rejected d
  | .add k value rest =>
      match d.dynamics[k]? with
      | none => rest.rejected d
      | some t => if t.rejects value then k :: rest.rejected d else rest.rejected d

def Trees.rejections (t : ElementType) : Trees → Nat
  | .nil => 0
  | .cons head tail => tail.rejections t + if (Dynamic.one t).rejects head then 1 else 0

mutual

/-- In no struct was a field rejected, and in each list as many elements as
make its 16 bit count go around. -/
def Tree.Intact (schema : Schema) : Dynamic → Tree → Prop
  | .one _, .struct name calls => calls.rejected (schema name) = [] ∧ calls.Intact schema (schema name)
  | .list t, .list ts => ts.rejections t % 65536 = 0 ∧ ts.Intact schema t
  | _, _ => True

def Calls.Intact (schema : Schema) (d : StructDef) : Calls → Prop
  | .done => True
  | .set _ _ rest => rest.Intact schema d
  | .add k value rest =>
      (match d.dynamics[k]? with
        | some t => value.Intact schema t
        | none => True) ∧ rest.Intact schema d

def Trees.Intact (schema : Schema) (t : ElementType) : Trees → Prop
  | .nil => True
  | .cons head tail => head.Intact schema (.one t) ∧ tail.Intact schema t

end

mutual

/-- The parsers over a message find the value at an offset: its fields are
there if and only if they were added, and its lists have its elements in order
and no others; a scalar where its type can hold the offset. -/
def Tree.Found (schema : Schema) (msg : List Byte) : Dynamic → Nat → Tree → Prop
  | .one (.scalar t), offset, .scalar v => t.castOffset offset = offset → t.parse msg offset = .ok v
  | .one .string, offset, .string s => parseString msg offset = .ok s
  | .one t, offset, .struct name calls =>
      t.accepts name = true ∧
      ∃ p, StructParser.make msg (schema name) offset = .ok p ∧
        (∀ k < (schema name).elements, p.hasOffset msg k = .ok (decide (k ∈ calls.added))) ∧
        (∀ j < (schema name).statics.length, p.static msg j = .ok (calls.lastSet j 0)) ∧
        calls.Found schema msg p
  | .list t, offset, .list ts => ∃ l, ListParser.make msg t offset = .ok l ∧ ts.Found schema msg t l
  | _, _, _ => False

def Calls.Found (schema : Schema) (msg : List Byte) (p : StructParser) : Calls → Prop
  | .done => True
  | .set _ _ rest => rest.Found schema msg p
  | .add k value rest =>
      (match p.structDef.dynamics[k]? with
        | some t => ∃ offset, p.offsetOf msg k = .ok offset ∧ value.Found schema msg t offset
        | none => False) ∧ rest.Found schema msg p

def Trees.Found (schema : Schema) (msg : List Byte) (t : ElementType) (l : ListParser) : Trees → Prop
  | .nil => (l.next msg).1 = .ok false
  | .cons head tail =>
      (l.next msg).1 = .ok true ∧ head.Found schema msg (.one t) (l.next msg).2.offset ∧
        tail.Found schema msg t (l.next msg).2

end

variable {schema : Schema} {d : StructDef} {l : Layout}

/-- A builder has appended the bytes of the value as it went. -/
def Appends (schema : Schema) (b : Builder) (t : Dynamic) (r : Builder × Tree) : Prop :=
  r.2.Formed schema t ∧ r.1 = b.put (r.2.encode schema t)

theorem put_nil (b : Builder) : b.put [] = b := congrArg (Builder.mk · b.maxSize) (List.append_nil _)

theorem keep_scalar (b : Builder) {t : Scalar} {v : Nat} (hv : v < 256 ^ t.size) :
    Yields (fun _ => True) (Appends schema b (.one (.scalar t))) (b.keep (.scalar v) (b.addScalar t v)) := by
  by_cases hfit : b.bytes.length + t.size ≤ b.maxSize
  · rw [Builder.addScalar, check_of hfit]
    exact ⟨hv, rfl⟩
  · rw [Builder.addScalar, check_of_not hfit]
    exact ⟨trivial, (put_nil b).symm⟩

theorem keep_string (b : Builder) (s : List Byte) :
    Yields (fun _ => True) (Appends schema b (.one .string)) (b.keep (.string s) (b.addString s)) := by
  by_cases hshort : s.length < 65536
  · rw [Builder.addString, check_of hshort, ok_bind]
    by_cases hfit : b.bytes.length + 2 + s.length ≤ b.maxSize
    · rw [check_of hfit]
      exact ⟨trivial, congrArg (Builder.mk · b.maxSize) (List.append_assoc ..)⟩
    · rw [check_of_not hfit]
      exact ⟨trivial, (put_nil b).symm⟩
  · rw [Builder.addString, check_of_not hshort]
    trivial

theorem attempt_struct {t : ElementType} {name : Nat} {calls : Calls} {b : Builder} (haccepts : t.accepts name = true)
    (hcalls : Yields (fun _ => True)
      (fun r => r.2.Formed schema (schema name) ∧
        r.1 = ⟨b.bytes ++ (r.2.encode schema (schema name) (Layout.empty (schema name))).bytes 0, b.maxSize⟩)
      (calls.attempt schema ⟨b.bytes ++ (Layout.empty (schema name)).bytes 0, b.maxSize⟩
        ⟨b.bytes.length, schema name⟩)) :
    Yields (fun _ => True) (Appends schema b (.one t)) ((Tree.struct name calls).attempt schema b (.one t)) := by
  have hstep : (Tree.struct name calls).attempt schema b (.one t) = (do
      let (b, s) ← b.beginStruct (schema name)
      let (b, calls) ← calls.attempt schema b s
      return (b.finalize s, .struct name calls)) := by
    cases t <;> simp only [Tree.attempt, haccepts, if_true]
  rw [hstep]
  by_cases hspace : b.bytes.length + (schema name).minSize ≤ b.maxSize
  · rw [beginStruct_eq hspace, ok_bind]
    refine hcalls.bind (fun ⟨b₁, calls₁⟩ h₁ => ?_)
    obtain ⟨hformed, hb⟩ := h₁
    dsimp only at hformed hb
    subst hb
    have hl := (calls₁.length_encode hformed (Layout.fits_empty _)).1
    refine ⟨formed_of_struct haccepts hformed, ?_⟩
    rw [encode_struct, finalize_eq hl]
    rfl
  · rw [Builder.beginStruct, check_of_not hspace]
    trivial

mutual

theorem Tree.attempt_appends : ∀ (t : Dynamic) (v : Tree) (b : Builder), v.WellTyped schema t →
    Yields (fun _ => True) (Appends schema b t) (v.attempt schema b t)
  | .one (.scalar t), .scalar v, b, h => keep_scalar b h
  | .one .string, .string s, b, _ => keep_string b s
  | .one t, .struct name calls, b, h => by
      have hcalls := (wellTyped_struct h).2
      refine attempt_struct (wellTyped_struct h).1 ?_
      refine (calls.attempt_appends b.bytes b.maxSize hcalls (Layout.fits_empty _) (fun k hk => ?_)).mono
        (fun r hr => ⟨hr.1, hr.2.2⟩)
      exact List.getElem?_replicate_of_lt (calls.added_lt hcalls.formed k hk)
  | .list t, .list ts, b, h => by
      rw [Tree.attempt]
      by_cases hroom : b.bytes.length + 2 ≤ b.maxSize
      · rw [beginList_eq hroom, ok_bind]
        have hts := ts.attempt_appends t b.bytes [] 0 b.maxSize h
        rw [List.append_nil] at hts
        refine hts.bind (fun ⟨b₁, ts₁⟩ h₁ => ?_)
        obtain ⟨hformed, hb⟩ := h₁
        dsimp only at hformed hb
        subst hb
        refine ⟨hformed, ?_⟩
        rw [Nat.zero_add, List.nil_append, Tree.encode, Builder.put, List.append_assoc]
      · rw [Builder.beginList, check_of_not hroom]
        trivial

theorem Calls.attempt_appends {d : StructDef} {l : Layout} : ∀ (calls : Calls) (pre : List Byte) (maxSize : Nat),
    calls.WellTyped schema d → l.Fits d → (∀ k ∈ calls.added, l.offsets[k]? = some 0) →
    Yields (fun _ => True)
      (fun r => r.2.Formed schema d ∧ r.2.added = calls.added ∧
        r.1 = ⟨pre ++ (r.2.encode schema d l).bytes 0, maxSize⟩)
      (calls.attempt schema ⟨pre ++ l.bytes 0, maxSize⟩ ⟨pre.length, d⟩)
  | .done, _, _, _, _, _ => ⟨trivial, rfl, rfl⟩
  | .set j v rest, pre, maxSize, h, hl, hzero => by
      obtain ⟨⟨t, hj, hv⟩, hrest⟩ := h
      have hset : l.set d j v = { l with statics := splice l.statics (d.staticOffset j) (littleEndian t.size v) } := by
        rw [Layout.set, hj]
      have hall := rest.attempt_appends pre maxSize hrest (hl.set j v) (by rw [hset]; exact hzero)
      rw [Calls.attempt, setStatic_eq hl hj, ok_bind]
      refine hall.bind (fun ⟨b₁, rest₁⟩ h₁ => ?_)
      exact ⟨⟨⟨t, hj, hv⟩, h₁.1⟩, h₁.2.1, h₁.2.2⟩
  | .add k value rest, pre, maxSize, h, hl, hzero => by
      obtain ⟨hvalue, hnew, hrest⟩ := h
      cases hk : d.dynamics[k]? with
      | none => simp only [hk] at hvalue
      | some t =>
          simp only [hk] at hvalue
          have hone := value.attempt_appends t
            ⟨pre ++ { l with offsets := l.offsets.set k (d.minSize + l.payload.length) }.bytes 0, maxSize⟩ hvalue
          rw [Calls.attempt]
          simp only [hk]
          rw [setOffset_eq hl (hzero k (List.mem_cons_self ..)), ok_bind]
          refine hone.bind (fun ⟨b₁, value₁⟩ h₁ => ?_)
          obtain ⟨hformed, hb⟩ := h₁
          dsimp only at hformed hb
          subst hb
          have hstill : ∀ k' ∈ rest.added, (l.add d k (value₁.encode schema t)).offsets[k']? = some 0 := by
            intro k' hk'
            have hne : k ≠ k' := fun he => hnew (he ▸ hk')
            exact (List.getElem?_set_ne hne).trans (hzero k' (List.mem_cons_of_mem k hk'))
          have hall := rest.attempt_appends pre maxSize hrest (hl.add k (value₁.encode schema t)) hstill
          rw [Builder.put, List.append_assoc, Layout.bytes_append]
          refine hall.bind (fun ⟨b₂, rest₂⟩ h₂ => ?_)
          obtain ⟨hformed₂, hadded, hb⟩ := h₂
          dsimp only at hformed₂ hadded hb
          subst hb
          refine ⟨⟨?_, hadded ▸ hnew, hformed₂⟩, congrArg (k :: ·) hadded, ?_⟩
          · simp only [hk]
            exact hformed
          · simp only [Calls.encode, hk]

theorem Trees.attempt_appends : ∀ (t : ElementType) (ts : Trees) (pre body : List Byte) (n maxSize : Nat),
    ts.WellTyped schema t →
    Yields (fun _ => True)
      (fun r => r.2.Formed schema t ∧
        r.1 = ⟨pre ++ littleEndian 2 (n + r.2.length) ++ (body ++ r.2.encode schema t), maxSize⟩)
      (ts.attempt schema t ⟨pre ++ littleEndian 2 n ++ body, maxSize⟩ pre.length)
  | t, .nil, pre, body, n, maxSize, _ => ⟨trivial, by rw [Trees.encode, List.append_nil]; rfl⟩
  | t, .cons head tail, pre, body, n, maxSize, h => by
      rw [Trees.attempt, addElement_eq]
      refine (head.attempt_appends (.one t) _ h.1).bind (fun ⟨b₁, head₁⟩ h₁ => ?_)
      obtain ⟨hformed, hb⟩ := h₁
      dsimp only at hformed hb
      subst hb
      have hall := tail.attempt_appends t pre (body ++ head₁.encode schema (.one t)) (n + 1) maxSize h.2
      rw [Builder.put, List.append_assoc]
      refine hall.bind (fun ⟨b₂, tail₂⟩ h₂ => ?_)
      obtain ⟨hformed₂, hb⟩ := h₂
      dsimp only at hformed₂ hb
      subst hb
      refine ⟨⟨hformed, hformed₂⟩, ?_⟩
      simp only [Trees.encode, Trees.length, List.append_assoc, Nat.add_assoc, Nat.add_comm 1]

end

theorem keep_grows {b : Builder} {x : Except Fault Builder} (v : Tree) (h : Yields (fun _ => True) b.Grows x) :
    Yields (fun _ => True) (fun r => b.Grows r.1) (b.keep v x) := by
  match x, h with
  | .ok _, h => exact h
  | .error .insufficientSpace, _ => exact b.grows_refl
  | .error .assertion, _ | .error .malformed, _ | .error .outOfMessage, _ | .error .notGenerated, _ => trivial

mutual

theorem Tree.attempt_grows (schema : Schema) : ∀ (t : Dynamic) (v : Tree) (b : Builder),
    Yields (fun _ => True) (fun r => b.Grows r.1) (v.attempt schema b t)
  | .one (.scalar t), .scalar v, b => keep_grows (.scalar v) (b.addScalar_grows t v)
  | .one .string, .string s, b => keep_grows (.string s) (b.addString_grows s)
  | .one t, .struct name calls, b => by
      have hbegin : Yields (fun _ => True) (fun r => b.Grows r.1) (b.beginStruct (schema name)) :=
        yields_checked (fun h => Builder.grows_put (by rwa [List.length_replicate]))
      have hstruct : Yields (fun _ => True) (fun r => b.Grows r.1) (do
          let (b, s) ← b.beginStruct (schema name)
          let (b, calls) ← calls.attempt schema b s
          return (b.finalize s, Tree.struct name calls)) := by
        refine hbegin.bind (fun ⟨b₁, s⟩ h₁ => (calls.attempt_grows schema b₁ s).bind (fun r h₂ => ?_))
        exact (h₁.trans h₂).trans (Builder.grows_patch ..)
      cases t <;> (rw [Tree.attempt]; split; exact hstruct; trivial)
  | .list t, .list ts, b => by
      have hbegin : Yields (fun _ => True) (fun r => b.Grows r.1) b.beginList :=
        yields_checked (fun h => Builder.grows_put (by rwa [length_littleEndian]))
      refine hbegin.bind (fun ⟨b₁, list⟩ h₁ => ?_)
      exact (ts.attempt_grows schema t b₁ list).bind (fun _ h₂ => h₁.trans h₂)
  | .one (.scalar _), .string _, _ | .one (.scalar _), .list _, _ | .one .string, .scalar _, _ => trivial
  | .one .string, .list _, _ | .one (.struct _), .scalar _, _ | .one (.struct _), .string _, _ => trivial
  | .one (.struct _), .list _, _ | .one .template, .scalar _, _ | .one .template, .string _, _ => trivial
  | .one .template, .list _, _ | .list _, .scalar _, _ | .list _, .string _, _ | .list _, .struct _ _, _ => trivial

theorem Calls.attempt_grows (schema : Schema) : ∀ (calls : Calls) (b : Builder) (s : StructBuilder),
    Yields (fun _ => True) (fun r => b.Grows r.1) (calls.attempt schema b s)
  | .done, b, _ => b.grows_refl
  | .set j v rest, b, s => by
      have hset : Yields (fun _ => True) b.Grows (b.setStatic s j v) := by
        rw [Builder.setStatic]
        split
        · trivial
        · exact b.grows_patch ..
      exact hset.bind (fun b₁ h₁ => (rest.attempt_grows schema b₁ s).bind (fun _ h₂ => h₁.trans h₂))
  | .add k value rest, b, s => by
      rw [Calls.attempt]
      split
      · trivial
      · have hoffset : Yields (fun _ => True) b.Grows (b.setOffset s k) := yields_checked (fun _ => b.grows_patch ..)
        refine hoffset.bind (fun b₁ h₁ => (value.attempt_grows schema _ b₁).bind (fun r₂ h₂ => ?_))
        exact (rest.attempt_grows schema r₂.1 s).bind (fun _ h₃ => (h₁.trans h₂).trans h₃)

theorem Trees.attempt_grows (schema : Schema) : ∀ (t : ElementType) (ts : Trees) (b : Builder) (list : Nat),
    Yields (fun _ => True) (fun r => b.Grows r.1) (ts.attempt schema t b list)
  | _, .nil, b, _ => b.grows_refl
  | t, .cons head tail, b, list => by
      have hcount : b.Grows (b.addElement list) := b.grows_patch ..
      refine (head.attempt_grows schema (.one t) (b.addElement list)).bind (fun r₁ h₁ => ?_)
      exact (tail.attempt_grows schema t r₁.1 list).bind (fun _ h₂ => (hcount.trans h₁).trans h₂)

end

theorem Calls.added_kept {d : StructDef} {k : Nat} : ∀ (calls : Calls), calls.Formed schema d →
    (k ∈ calls.added ↔ k ∈ (calls.kept schema d).added ∨ k ∈ calls.rejected d) ∧
      (k ∈ calls.rejected d → k ∉ (calls.kept schema d).added)
  | .done, _ => ⟨by simp [Calls.added, Calls.kept, Calls.rejected], fun h => absurd h List.not_mem_nil⟩
  | .set j v rest, h => rest.added_kept h.2
  | .add i value rest, h => by
      obtain ⟨hvalue, hnew, hrest⟩ := h
      obtain ⟨hiff, hnot⟩ := rest.added_kept hrest
      rw [Calls.added, Calls.kept, Calls.rejected]
      cases hi : d.dynamics[i]? with
      | none => simp only [hi] at hvalue
      | some t =>
          by_cases hr : t.rejects value = true
          · simp only [hr, if_true, List.mem_cons]
            refine ⟨by rw [hiff]; tauto, ?_⟩
            rintro (rfl | hk)
            · exact fun hin => hnew ((rest.added_kept hrest).1.mpr (Or.inl hin))
            · exact hnot hk
          · simp only [hr, if_false, Calls.added, List.mem_cons, Bool.false_eq_true]
            refine ⟨by rw [hiff]; tauto, fun hk => ?_⟩
            rintro (rfl | hin)
            · exact hnew (hiff.mpr (Or.inr hk))
            · exact hnot hk hin

theorem Calls.lastSet_kept {d : StructDef} {j : Nat} : ∀ (calls : Calls) (v : Nat), calls.Formed schema d →
    (calls.kept schema d).lastSet j v = calls.lastSet j v
  | .done, _, _ => rfl
  | .set i w rest, v, h => rest.lastSet_kept (if i = j then w else v) h.2
  | .add k value rest, v, h => by
      rw [Calls.kept, Calls.lastSet, ← rest.lastSet_kept v h.2.2]
      split
      · rfl
      · split <;> rfl

theorem Trees.length_kept {t : ElementType} : ∀ (ts : Trees),
    ts.length = (ts.kept schema t).length + ts.rejections t
  | .nil => rfl
  | .cons head tail => by
      rw [Trees.length, Trees.kept, Trees.rejections, tail.length_kept]
      split
      · rfl
      · rw [Trees.length]
        omega

theorem Trees.length_kept_le {t : ElementType} : ∀ (ts : Trees), ts.Formed schema t →
    (ts.kept schema t).length ≤ ts.size schema t
  | .nil, _ => Nat.le_refl 0
  | .cons head tail, h => by
      have htail := tail.length_kept_le h.2
      rw [Trees.kept, Trees.size]
      split
      next => omega
      next hv =>
        have hhead := size_pos h.1 (Bool.eq_false_iff.mpr hv)
        rw [Trees.length]
        omega

theorem encode_rejected {t : ElementType} {v : Tree} (h : v.Formed schema (.one t))
    (hv : (Dynamic.one t).rejects v = true) : v.encode schema (.one t) = [] := by
  cases v with
  | list ts =>
      cases ts with
      | nil => cases t <;> rfl
      | cons _ _ => cases t <;> cases h
  | scalar _ | string _ => cases t <;> cases hv
  | struct _ _ => cases hv

theorem intact_rejected {t : Dynamic} {v : Tree} (hv : t.rejects v = true) : v.Intact schema t := by
  match t, v with
  | .one _, .list _ => trivial
  | .one _, .scalar _ | .one _, .string _ | .one _, .struct _ _ => cases hv
  | .list _, _ => cases hv

theorem next_false_iff (msg : List Byte) (l : ListParser) : (l.next msg).1 = .ok false ↔ l.elements = 0 := by
  rw [ListParser.next]
  split
  next h => exact iff_of_true rfl h
  next h =>
    refine iff_of_false (fun hfalse => ?_) h
    dsimp only at hfalse
    split at hfalse <;> cases hfalse

theorem Calls.hasOffset_kept_iff {calls : Calls} (h : calls.Formed schema d) {p : Nat → Except Fault Bool}
    (hp : ∀ k < d.elements, p k = .ok (decide (k ∈ calls.added))) :
    (∀ k < d.elements, p k = .ok (decide (k ∈ (calls.kept schema d).added))) ↔ calls.rejected d = [] := by
  constructor
  · intro hkept
    refine List.eq_nil_iff_forall_not_mem.mpr (fun k hk => ?_)
    obtain ⟨hiff, hnot⟩ := calls.added_kept h (k := k)
    have hin : k ∈ calls.added := hiff.mpr (Or.inr hk)
    have hlt := calls.added_lt h k hin
    have hboth := (hp k hlt).symm.trans (hkept k hlt)
    rw [decide_eq_true hin, decide_eq_false (hnot hk)] at hboth
    cases hboth
  · intro hnil k hk
    have hiff := (calls.added_kept h (k := k)).1
    rw [hnil, or_iff_left List.not_mem_nil] at hiff
    rw [hp k hk]
    exact congrArg Except.ok (decide_eq_decide.mpr hiff)

theorem found_struct_iff {msg : List Byte} {t : ElementType} {offset name : Nat} {calls : Calls} {p : StructParser}
    (haccepts : t.accepts name = true) (hp : StructParser.make msg (schema name) offset = .ok p) :
    (Tree.struct name calls).Found schema msg (.one t) offset ↔
      (∀ k < (schema name).elements, p.hasOffset msg k = .ok (decide (k ∈ calls.added))) ∧
      (∀ j < (schema name).statics.length, p.static msg j = .ok (calls.lastSet j 0)) ∧
      calls.Found schema msg p := by
  have hunfold : (Tree.struct name calls).Found schema msg (.one t) offset ↔ t.accepts name = true ∧
      ∃ p, StructParser.make msg (schema name) offset = .ok p ∧
        (∀ k < (schema name).elements, p.hasOffset msg k = .ok (decide (k ∈ calls.added))) ∧
        (∀ j < (schema name).statics.length, p.static msg j = .ok (calls.lastSet j 0)) ∧
        calls.Found schema msg p := by
    cases t <;> exact Iff.rfl
  rw [hunfold]
  constructor
  · rintro ⟨-, q, hq, h⟩
    rw [hp, Except.ok.injEq] at hq
    exact hq ▸ h
  · exact fun h => ⟨haccepts, p, hp, h⟩

mutual

/-- The parsers find in what an attempt leaves the adds that succeeded if and
only if it is intact. -/
theorem Tree.found_iff : ∀ (t : Dynamic) (v : Tree) (pre post : List Byte), v.Formed schema t →
    t.rejects v = false → (pre ++ v.encode schema t ++ post).length < 65536 →
    ((v.kept schema t).Found schema (pre ++ v.encode schema t ++ post) t pre.length ↔ v.Intact schema t)
  | .one (.scalar t), .scalar v, pre, post, h, _, _ => iff_of_true (fun hcast => parse_written h pre post hcast) trivial
  | .one .string, .string s, pre, post, _, _, hmsg => iff_of_true (parse_string pre post s hmsg) trivial
  | .one t, .struct name calls, pre, post, h, _, hmsg => by
      have hcalls := (formed_struct h).2
      have hl := (calls.length_encode hcalls (Layout.fits_empty (schema name))).1
      have hkept : (Tree.struct name calls).kept schema (.one t) = .struct name (calls.kept schema (schema name)) := rfl
      rw [encode_struct] at hmsg ⊢
      generalize (schema name).minSize +
        (calls.encode schema (schema name) (Layout.empty (schema name))).payload.length - 2 = size at hmsg ⊢
      have hfit : pre.length + (schema name).minSize ≤
          (pre ++ (calls.encode schema (schema name) (Layout.empty (schema name))).bytes size ++ post).length := by
        rw [length_message hl]
        omega
      have hmake : StructParser.make (pre ++ (calls.encode schema (schema name)
          (Layout.empty (schema name))).bytes size ++ post) (schema name) pre.length =
            .ok ⟨pre.length, schema name⟩ := by
        rw [StructParser.make, check_of hfit]
        rfl
      rw [hkept, found_struct_iff (formed_struct h).1 hmake,
        calls.hasOffset_kept_iff hcalls (fun k hk => calls.hasOffset_eq hcalls hk pre post size hmsg),
        calls.found_iff _ pre post size hcalls (Layout.fits_empty _) hmsg]
      have hstatic : ∀ j < (schema name).statics.length, StructParser.static (pre ++ (calls.encode schema
          (schema name) (Layout.empty (schema name))).bytes size ++ post) ⟨pre.length, schema name⟩ j =
            .ok ((calls.kept schema (schema name)).lastSet j 0) := by
        intro j hj
        rw [calls.lastSet_kept 0 hcalls]
        exact calls.static_eq hcalls hj pre post size
      refine and_congr_right (fun _ => and_iff_right hstatic)
  | .list t, .list ts, pre, post, h, _, hmsg => by
      have hassoc : pre ++ (Tree.list ts).encode schema (.list t) ++ post =
          pre ++ littleEndian 2 ts.length ++ ts.encode schema t ++ post := by
        rw [Tree.encode]
        simp only [List.append_assoc]
      have hkept : (Tree.list ts).kept schema (.list t) = .list (ts.kept schema t) := rfl
      rw [hassoc] at hmsg ⊢
      have hlen : (pre ++ littleEndian 2 ts.length ++ ts.encode schema t ++ post).length =
          pre.length + 2 + ts.size schema t + post.length := by
        rw [List.length_append, List.length_append, List.length_append, length_littleEndian, ts.length_encode t h]
      have hcount : u16At (pre ++ littleEndian 2 ts.length ++ ts.encode schema t ++ post) pre.length =
          ts.length % 65536 := by
        rw [← littleEndian_mod 2 ts.length, List.append_assoc _ (ts.encode schema t)]
        exact u16At_middle pre _ (Nat.mod_lt _ (by omega))
      have hmake : ListParser.make (pre ++ littleEndian 2 ts.length ++ ts.encode schema t ++ post) t pre.length =
          .ok { elementType := t, offset := pre.length + 2, elements := ts.length % 65536 } := by
        rw [ListParser.make, check_of (by omega), ok_bind, load16_nat (by omega), ok_bind, hcount,
          Nat.mod_eq_of_lt (show pre.length + 2 < 65536 by omega)]
        rfl
      have hall := ts.found_iff t { elementType := t, offset := pre.length + 2, elements := ts.length % 65536 }
        (pre ++ littleEndian 2 ts.length) post h rfl (by rw [List.length_append, length_littleEndian]; rfl) hmsg
      have hsplit := @Trees.length_kept schema t ts
      have hkept_le := @Trees.length_kept_le schema t ts h
      rw [hkept]
      change (∃ l, ListParser.make _ t pre.length = .ok l ∧ _) ↔ _
      simp only [hmake, Except.ok.injEq, exists_eq_left', hall]
      exact and_congr_left (fun _ => by omega)

theorem Calls.found_iff {d : StructDef} : ∀ (calls : Calls) (l : Layout) (pre post : List Byte) (size : Nat),
    calls.Formed schema d → l.Fits d → (pre ++ (calls.encode schema d l).bytes size ++ post).length < 65536 →
    ((calls.kept schema d).Found schema (pre ++ (calls.encode schema d l).bytes size ++ post) ⟨pre.length, d⟩ ↔
      calls.Intact schema d)
  | .done, _, _, _, _, _, _, _ => Iff.rfl
  | .set j v rest, l, pre, post, size, h, hl, hmsg => rest.found_iff (l.set d j v) pre post size h.2 (hl.set j v) hmsg
  | .add k value rest, l, pre, post, size, h, hl, hmsg => by
      obtain ⟨hvalue, hnew, hrest⟩ := h
      cases hk : d.dynamics[k]? with
      | none => simp only [hk] at hvalue
      | some t =>
          simp only [hk] at hvalue
          have hadd := hl.add k (value.encode schema t)
          simp only [Calls.encode, Calls.kept, Calls.Intact, hk] at hmsg ⊢
          have hall := rest.found_iff (l.add d k (value.encode schema t)) pre post size hrest hadd hmsg
          by_cases hr : t.rejects value = true
          · rw [if_pos hr, hall, and_iff_right (intact_rejected hr)]
          · obtain ⟨tail, htail⟩ := @Calls.payload_prefix schema d rest (l.add d k (value.encode schema t))
            have hoffset := (@Calls.offsets_of_notMem schema d k rest (l.add d k (value.encode schema t)) hnew).trans
              (List.getElem?_set_self (hl.offsets ▸ (List.getElem?_eq_some_iff.mp hk).1))
            have hfits := (rest.length_encode hrest hadd).1
            rw [if_neg hr]
            simp only [Calls.Found, hk, hall]
            generalize rest.encode schema d (l.add d k (value.encode schema t)) = final at hmsg htail hoffset hfits ⊢
            have hplace := congrArg List.length htail
            rw [Layout.add, List.length_append, List.length_append] at hplace
            have hmin : 0 < d.minSize := by
              rw [StructDef.minSize]
              omega
            have hat := offsetOf_eq hfits hoffset (by omega) (by omega) pre post size hmsg
            have hmiddle := Layout.payload_middle htail pre post size
            have hlen : (pre ++ final.head size ++ l.payload).length = pre.length + (d.minSize + l.payload.length) := by
              rw [List.length_append, List.length_append, hfits.length_head, Nat.add_assoc]
            have hone := value.found_iff t (pre ++ final.head size ++ l.payload) (tail ++ post) hvalue
              (Bool.eq_false_iff.mpr hr) (by rw [← hmiddle]; exact hmsg)
            rw [← hmiddle, hlen] at hone
            simp only [hat, Except.ok.injEq, exists_eq_left', hone]

theorem Trees.found_iff : ∀ (t : ElementType) (ts : Trees) (l : ListParser) (pre post : List Byte),
    ts.Formed schema t → l.elementType = t → l.offset + l.elementSize = pre.length →
    (pre ++ ts.encode schema t ++ post).length < 65536 →
    ((ts.kept schema t).Found schema (pre ++ ts.encode schema t ++ post) t l ↔
      l.elements = (ts.kept schema t).length ∧ ts.Intact schema t)
  | t, .nil, l, pre, post, _, _, _, _ => (next_false_iff _ l).trans (and_iff_left trivial).symm
  | t, .cons head tail, l, pre, post, h, htype, hoffset, hmsg => by
      rw [Trees.kept, Trees.Intact]
      by_cases hr : (Dynamic.one t).rejects head = true
      · have hnil : (Trees.cons head tail).encode schema t = tail.encode schema t := by
          rw [Trees.encode, encode_rejected h.1 hr, List.nil_append]
        rw [hnil] at hmsg ⊢
        rw [if_pos hr, tail.found_iff t l pre post h.2 htype hoffset hmsg, and_iff_right (intact_rejected hr)]
      · rw [if_neg hr, Trees.Found, Trees.length]
        by_cases hnone : l.elements = 0
        · refine iff_of_false (fun hf => ?_) (fun hf => ?_)
          · have hfalse := (next_false_iff (pre ++ (Trees.cons head tail).encode schema t ++ post) l).mpr hnone
            rw [hfalse] at hf
            cases hf.1
          · rw [hnone] at hf
            exact absurd hf.1.symm (Nat.succ_ne_zero _)
        · have hassoc : pre ++ (Trees.cons head tail).encode schema t ++ post =
              pre ++ head.encode schema (.one t) ++ (tail.encode schema t ++ post) := by
            rw [Trees.encode]
            simp only [List.append_assoc]
          have hassoc' : pre ++ (Trees.cons head tail).encode schema t ++ post =
              pre ++ head.encode schema (.one t) ++ tail.encode schema t ++ post := by
            rw [Trees.encode]
            simp only [List.append_assoc]
          have hwrap : (l.offset + l.elementSize) % 65536 = pre.length := by
            rw [hoffset]
            rw [List.length_append, List.length_append] at hmsg
            exact Nat.mod_eq_of_lt (by omega)
          have hv := Bool.eq_false_iff.mpr hr
          have hsize := readSize_eq h.1 hv pre (tail.encode schema t ++ post) (by rw [← hassoc]; omega)
            (show { l with elements := l.elements - 1, offset := pre.length }.elementType = t from htype) rfl
          rw [← hassoc] at hsize
          have hnext : l.next (pre ++ (Trees.cons head tail).encode schema t ++ post) = (.ok true,
              { l with
                elements := l.elements - 1, offset := pre.length
                elementSize := head.size schema (.one t) }) := by
            rw [ListParser.next, if_neg hnone]
            simp only [hwrap, hsize]
          have hone := head.found_iff (.one t) pre (tail.encode schema t ++ post) h.1 hv (hassoc ▸ hmsg)
          have hall := tail.found_iff t
            { l with elements := l.elements - 1, offset := pre.length, elementSize := head.size schema (.one t) }
            (pre ++ head.encode schema (.one t)) post h.2 htype
            (by rw [List.length_append, head.length_encode (.one t) h.1]) (hassoc' ▸ hmsg)
          rw [← hassoc] at hone
          rw [← hassoc'] at hall
          rw [hnext, hone, hall, and_iff_right rfl]
          change _ ∧ l.elements - 1 = _ ∧ _ ↔ _
          constructor
          · rintro ⟨hhead, hcount, htail⟩
            exact ⟨by omega, hhead, htail⟩
          · rintro ⟨hcount, hhead, htail⟩
            exact ⟨hhead, by omega, htail⟩

end

/-- A message whose builder is called again after every add that is rejected:
the parsers find the adds that succeeded, and nothing else, if and only if no
field was rejected, and of each list none but as many elements as make its
count go around. -/
theorem rejected_adds_iff (schema : Schema) (name : Nat) (calls : Calls) (maxSize : Nat) {b : Builder} {v : Tree}
    (htyped : (Tree.struct name calls).WellTyped schema (.one (.struct name))) (hmax : maxSize < 65536)
    (hattempt : (Tree.struct name calls).attempt schema ⟨[], maxSize⟩ (.one (.struct name)) = .ok (b, v)) :
    (v.kept schema (.one (.struct name))).Found schema b.bytes (.one (.struct name)) 0 ↔
      v.Intact schema (.one (.struct name)) := by
  obtain ⟨hformed, hbytes⟩ := (Tree.attempt_appends _ _ ⟨[], maxSize⟩ htyped).of_ok hattempt
  have hgrows := (Tree.attempt_grows schema _ _ ⟨[], maxSize⟩).of_ok hattempt
  have hfits := hgrows.bounded (Nat.zero_le maxSize)
  rw [hgrows.maxSize] at hfits
  have hencode : b.bytes = [] ++ v.encode schema (.one (.struct name)) ++ [] := by
    rw [List.append_nil]
    exact congrArg Builder.bytes hbytes
  have hkept : (Dynamic.one (.struct name)).rejects v = false := by
    match v, hformed with
    | .struct _ _, _ => rfl
  rw [hencode] at hfits ⊢
  exact Tree.found_iff _ v [] [] hformed hkept (Nat.lt_of_le_of_lt hfits hmax)

theorem parent_wellTyped : (Tree.struct 0 parent).WellTyped people (.one (.struct 0)) := by
  refine ⟨rfl, ⟨⟨⟨rfl, ⟨_, rfl, ?_⟩, trivial⟩, trivial⟩, ?_, trivial, ?_, trivial⟩⟩
  · decide
  · decide
  · decide

def nameless : Tree :=
  .struct 0 (.add 1 (.list (.cons (.struct 0 (.set 0 7 .done)) .nil)) (.add 0 .rejected .done))

/-- In 20 bytes all adds succeed, in 18 that of the name is rejected. -/
theorem rejected_adds_iff_parent :
    (∃ b v, (Tree.struct 0 parent).attempt people ⟨[], 20⟩ (.one (.struct 0)) = .ok (b, v) ∧
      b.bytes.length = 20 ∧
      (v.kept people (.one (.struct 0))).Found people b.bytes (.one (.struct 0)) 0) ∧
    ∃ b, (Tree.struct 0 parent).attempt people ⟨[], 18⟩ (.one (.struct 0)) = .ok (b, nameless) ∧
      ¬ (nameless.kept people (.one (.struct 0))).Found people b.bytes (.one (.struct 0)) 0 := by
  constructor
  · refine ⟨_, _, rfl, rfl, (rejected_adds_iff people 0 parent 20 parent_wellTyped (by decide) rfl).mpr ?_⟩
    exact ⟨rfl, ⟨rfl, ⟨rfl, trivial⟩, trivial⟩, trivial, trivial⟩
  · refine ⟨_, rfl, fun hfound => ?_⟩
    have hintact := (rejected_adds_iff people 0 parent 18 parent_wellTyped (by decide) rfl).mp hfound
    exact absurd hintact.1 (by decide)

def numbers : Schema := fun _ => [.dynamic (.list (.scalar .uint32))]

/-- A name that does not fit is there all the same, and a number that does not
fit is counted. -/
theorem rejected_adds_show :
    (∃ b, (Tree.struct 0 (.add 0 (.string [65, 66]) .done)).attempt people ⟨[], 8⟩ (.one (.struct 0)) =
        .ok (b, .struct 0 (.add 0 .rejected .done)) ∧
      StructParser.hasOffset b.bytes ⟨0, people 0⟩ 0 = .ok true ∧
      ¬ (Tree.struct 0 .done).Found people b.bytes (.one (.struct 0)) 0) ∧
    ∃ b, (Tree.struct 0 (.add 0 (.list (.cons (.scalar 1) (.cons (.scalar 2) .nil))) .done)).attempt numbers
        ⟨[], 12⟩ (.one (.struct 0)) =
          .ok (b, .struct 0 (.add 0 (.list (.cons (.scalar 1) (.cons .rejected .nil))) .done)) ∧
      ListParser.make b.bytes (.scalar .uint32) 4 =
        .ok { elementType := .scalar .uint32, offset := 6, elements := 2 } := by
  refine ⟨⟨_, rfl, rfl, ?_⟩, ⟨_, rfl, rfl⟩⟩
  rintro ⟨-, p, hp, hhas, -⟩
  have habsent := hhas 0 (by decide)
  rw [← Except.ok.inj hp] at habsent
  exact absurd habsent (by decide)

end Tyrdbs.Message
