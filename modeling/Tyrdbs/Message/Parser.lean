import Tyrdbs.Message.Builder

namespace Tyrdbs.Message

open Bytes Outcome

/-- The offset of an element is passed on in the type of the element. -/
def Scalar.castOffset (t : Scalar) (offset : Nat) : Int :=
  let wrapped := offset % 256 ^ t.size
  if t.signed ∧ 256 ^ t.size ≤ 2 * wrapped then wrapped - 256 ^ t.size else wrapped

variable (msg : List Byte)

def load (offset : Int) (size : Nat) : Except Fault (List Byte) :=
  if 0 ≤ offset ∧ offset + size ≤ msg.length then .ok (slice msg offset.toNat size) else .error .outOfMessage

def load16 (offset : Nat) : Except Fault Nat := do
  let bytes ← load msg offset 2
  return fromLittleEndian bytes

def Scalar.parse (t : Scalar) (offset : Nat) : Except Fault Nat := do
  let offset := t.castOffset offset
  check (offset + t.size ≤ msg.length) .malformed
  let bytes ← load msg offset t.size
  return fromLittleEndian bytes

def parseString (offset : Nat) : Except Fault (List Byte) := do
  check (offset + 2 ≤ msg.length) .malformed
  let size ← load16 msg offset
  let offset := (offset + 2) % 65536
  check (offset + size ≤ msg.length) .malformed
  load msg offset size

structure StructParser where
  offset : Nat
  structDef : StructDef

namespace StructParser

def make (d : StructDef) (offset : Nat) : Except Fault StructParser := do
  check (offset + d.minSize ≤ msg.length) .malformed
  return ⟨offset, d⟩

def hasOffset (p : StructParser) (k : Nat) : Except Fault Bool := do
  let offset ← load16 msg (p.offset + 2 + 2 * k)
  return offset ≠ 0

def offsetOf (p : StructParser) (k : Nat) : Except Fault Nat := do
  let offset ← load16 msg (p.offset + 2 + 2 * k)
  check (offset ≠ 0) .malformed
  check (p.offset + offset ≤ msg.length) .malformed
  return (offset + p.offset) % 65536

def static (p : StructParser) (j : Nat) : Except Fault Nat :=
  match p.structDef.statics[j]? with
  | none => .error .notGenerated
  | some t => do
      let bytes ← load msg ↑(p.offset + 2 + 2 * p.structDef.elements + p.structDef.staticOffset j) t.size
      return fromLittleEndian bytes

end StructParser

structure ListParser where
  elementType : ElementType
  offset : Nat
  elements : Nat
  elementSize : Nat := 0

namespace ListParser

def make (t : ElementType) (offset : Nat) : Except Fault ListParser := do
  check (offset + 2 ≤ msg.length) .malformed
  let elements ← load16 msg offset
  return { elementType := t, offset := (offset + 2) % 65536, elements := elements }

def readSize (l : ListParser) : Except Fault Nat :=
  match l.elementType with
  | .scalar t => .ok t.size
  | _ => do
      let size ← Scalar.uint16.parse msg l.offset
      return (size + 2) % 65536

def next (l : ListParser) : Except Fault Bool × ListParser :=
  if l.elements = 0 then (.ok false, l)
  else
    let l := { l with elements := l.elements - 1, offset := (l.offset + l.elementSize) % 65536 }
    match l.readSize msg with
    | .ok size => (.ok true, { l with elementSize := size })
    | .error e => (.error e, l)

def advance : Nat → ListParser → ListParser
  | 0, l => l
  | n + 1, l => advance n (l.next msg).2

end ListParser

/-- What an access returns: a value, or a parser for it. -/
inductive Parsed
  | scalar (value : Nat)
  | string (value : List Byte)
  | struct (p : StructParser)
  | list (l : ListParser)
  | template (offset : Nat)

variable (schema : Schema)

def ElementType.parse (t : ElementType) (offset : Nat) : Except Fault Parsed :=
  match t with
  | .scalar t => Parsed.scalar <$> t.parse msg offset
  | .string => Parsed.string <$> parseString msg offset
  | .struct name => Parsed.struct <$> StructParser.make msg (schema name) offset
  | .template => .ok (.template offset)

def Dynamic.parse (t : Dynamic) (offset : Nat) : Except Fault Parsed :=
  match t with
  | .one t => t.parse msg schema offset
  | .list t => Parsed.list <$> ListParser.make msg t offset

def StructParser.field (p : StructParser) (k : Nat) : Except Fault Parsed :=
  match p.structDef.dynamics[k]? with
  | none => .error .notGenerated
  | some t => do
      let offset ← p.offsetOf msg k
      t.parse msg schema offset

def ListParser.value (l : ListParser) : Except Fault Parsed := l.elementType.parse msg schema l.offset

/-- What a program can get from the generated parsers over a message, in any
order, and again after an exception. -/
inductive Obtained : Parsed → Prop
  | struct {name offset : Nat} {p : StructParser} : offset < 65536 →
      StructParser.make msg (schema name) offset = .ok p → Obtained (.struct p)
  | list {name offset : Nat} {t : ElementType} {l : ListParser} : offset < 65536 →
      Dynamic.list t ∈ (schema name).dynamics → ListParser.make msg t offset = .ok l → Obtained (.list l)
  | field {p : StructParser} {k : Nat} {v : Parsed} : Obtained (.struct p) → p.field msg schema k = .ok v → Obtained v
  | next {l : ListParser} : Obtained (.list l) → Obtained (.list (l.next msg).2)
  | value {l : ListParser} {v : Parsed} : Obtained (.list l) → l.value msg schema = .ok v → Obtained v

def Scalar.holdsOffsets (t : Scalar) : Bool := t = .uint16 || t.size ≥ 4

def ElementType.admissible : ElementType → Bool
  | .scalar t => t.holdsOffsets
  | _ => true

def Dynamic.admissible : Dynamic → Bool
  | .one t => t.admissible
  | .list t => t.admissible

def Schema.Admissible : Prop := ∀ name, ∀ t ∈ (schema name).dynamics, t.admissible = true

/-- An access throws malformed_message_error, or all that it reads is in the
message. -/
def Safe {α : Type} (x : Except Fault α) : Prop := Yields (· = .malformed) (fun _ => True) x

variable {msg schema} {offset : Nat}

theorem load_nat {size : Nat} (h : offset + size ≤ msg.length) : load msg offset size = .ok (slice msg offset size) := by
  rw [load, if_pos ⟨Int.natCast_nonneg _, by exact_mod_cast h⟩, Int.toNat_natCast]

theorem load16_nat (h : offset + 2 ≤ msg.length) : load16 msg offset = .ok (u16At msg offset) := by
  rw [load16, load_nat h]
  rfl

theorem castOffset_of_lt {t : Scalar} (h : offset < 256 ^ t.size) (hhalf : t.signed = true → 2 * offset < 256 ^ t.size) :
    t.castOffset offset = offset := by
  rw [Scalar.castOffset]
  simp only [Nat.mod_eq_of_lt h]
  exact if_neg (fun ⟨hsigned, hle⟩ => absurd (hhalf hsigned) (Nat.not_lt.mpr hle))

theorem castOffset_eq {t : Scalar} (ht : t.holdsOffsets = true) (h : offset < 65536) : t.castOffset offset = offset := by
  rw [Scalar.holdsOffsets, Bool.or_eq_true, decide_eq_true_eq, decide_eq_true_eq] at ht
  rcases ht with rfl | hsize
  · exact castOffset_of_lt h (fun hsigned => absurd hsigned (by decide))
  · have hpow : 256 ^ 4 ≤ 256 ^ t.size := Nat.pow_le_pow_right (by omega) hsize
    have hbig : 2 * 65536 ≤ 256 ^ 4 := by decide
    exact castOffset_of_lt (by omega) (fun _ => by omega)

theorem safe_ok {α : Type} (a : α) : Safe (Except.ok a) := trivial

theorem safe_bind {α β : Type} {x : Except Fault α} {f : α → Except Fault β} {P : α → Prop}
    (hx : Yields (· = .malformed) P x) (hf : ∀ a, P a → Safe (f a)) : Safe (x >>= f) := hx.bind hf

theorem safe_map {α β : Type} {x : Except Fault α} {f : α → β} (h : Safe x) : Safe (f <$> x) := by
  cases x with
  | error e => exact h
  | ok a => trivial

theorem yields_check {p : Prop} [Decidable p] : Yields (· = Fault.malformed) (fun _ => p) (check p Fault.malformed) := by
  by_cases h : p
  · rw [check_of h]
    exact h
  · rw [check_of_not h]
    rfl

theorem yields_load {size : Nat} (h : offset + size ≤ msg.length) :
    Yields (· = .malformed) (fun bytes => bytes = slice msg offset size) (load msg offset size) := by
  rw [load_nat h]
  rfl

theorem yields_load16 (h : offset + 2 ≤ msg.length) :
    Yields (· = .malformed) (fun n => n = u16At msg offset) (load16 msg offset) := by
  rw [load16_nat h]
  rfl

theorem safe_parse {t : Scalar} (ht : t.holdsOffsets = true) (h : offset < 65536) : Safe (t.parse msg offset) := by
  rw [Scalar.parse, castOffset_eq ht h]
  refine safe_bind yields_check (fun _ hfit => safe_bind (yields_load (by exact_mod_cast hfit)) (fun _ _ => ?_))
  exact safe_ok _

theorem safe_parseString : Safe (parseString msg offset) := by
  refine safe_bind yields_check (fun _ hfit => safe_bind (yields_load16 hfit) (fun size _ => ?_))
  refine safe_bind yields_check (fun _ hall => ?_)
  exact (yields_load hall).mono (fun _ _ => trivial)

theorem safe_makeStruct (d : StructDef) : Safe (StructParser.make msg d offset) :=
  safe_bind yields_check (fun _ _ => safe_ok _)

theorem safe_makeList (t : ElementType) : Safe (ListParser.make msg t offset) :=
  safe_bind yields_check (fun _ hfit => safe_bind (yields_load16 hfit) (fun _ _ => safe_ok _))

theorem safe_element {t : ElementType} (ht : t.admissible = true) (h : offset < 65536) :
    Safe (t.parse msg schema offset) := by
  cases t with
  | scalar t => exact safe_map (safe_parse ht h)
  | string => exact safe_map safe_parseString
  | struct name => exact safe_map (safe_makeStruct _)
  | template => exact safe_ok _

theorem safe_dynamic {t : Dynamic} (ht : t.admissible = true) (h : offset < 65536) :
    Safe (t.parse msg schema offset) := by
  cases t with
  | one t => exact safe_element ht h
  | list t => exact safe_map (safe_makeList t)

/-- What holds of every parser: a struct lies in the message up to its static
fields, and a list is one of the schema. -/
def Sound (schema : Schema) (msg : List Byte) : Parsed → Prop
  | .struct p => p.offset + p.structDef.minSize ≤ msg.length ∧ ∃ name, p.structDef = schema name
  | .list l => l.offset < 65536 ∧ ∃ name, Dynamic.list l.elementType ∈ (schema name).dynamics
  | _ => True

theorem sound_makeStruct {name : Nat} {p : StructParser} (h : StructParser.make msg (schema name) offset = .ok p) :
    Sound schema msg (.struct p) := by
  by_cases hfit : offset + (schema name).minSize ≤ msg.length
  · rw [StructParser.make, check_of hfit] at h
    rw [← Except.ok.inj h]
    exact ⟨hfit, name, rfl⟩
  · rw [StructParser.make, check_of_not hfit] at h
    cases h

theorem makeList_spec {t : ElementType} {l : ListParser} (h : ListParser.make msg t offset = .ok l) :
    offset + 2 ≤ msg.length ∧ l = { elementType := t, offset := (offset + 2) % 65536, elements := u16At msg offset } := by
  by_cases hfit : offset + 2 ≤ msg.length
  · rw [ListParser.make, check_of hfit, ok_bind, load16_nat hfit] at h
    exact ⟨hfit, (Except.ok.inj h).symm⟩
  · rw [ListParser.make, check_of_not hfit] at h
    cases h

theorem sound_element {t : ElementType} {v : Parsed} (h : t.parse msg schema offset = .ok v) : Sound schema msg v := by
  cases t with
  | scalar t =>
      rw [ElementType.parse] at h
      cases hx : t.parse msg offset with
      | error e => rw [hx] at h; cases h
      | ok n => rw [hx] at h; exact Except.ok.inj h ▸ trivial
  | string =>
      rw [ElementType.parse] at h
      cases hx : parseString msg offset with
      | error e => rw [hx] at h; cases h
      | ok n => rw [hx] at h; exact Except.ok.inj h ▸ trivial
  | struct name =>
      rw [ElementType.parse] at h
      cases hx : StructParser.make msg (schema name) offset with
      | error e => rw [hx] at h; cases h
      | ok p => rw [hx] at h; exact Except.ok.inj h ▸ sound_makeStruct hx
  | template => exact Except.ok.inj h ▸ trivial

theorem next_offset_lt {l : ListParser} (h : l.offset < 65536) : (l.next msg).2.offset < 65536 := by
  have hwrap := Nat.mod_lt (l.offset + l.elementSize) (show 0 < 65536 by omega)
  rw [ListParser.next]
  split
  · exact h
  · dsimp only
    split <;> exact hwrap

theorem next_elementType (l : ListParser) : (l.next msg).2.elementType = l.elementType := by
  rw [ListParser.next]
  split
  · rfl
  · dsimp only
    split <;> rfl

theorem sound_obtained {v : Parsed} (h : Obtained msg schema v) : Sound schema msg v := by
  induction h with
  | struct _ hmake => exact sound_makeStruct hmake
  | list hoffset hmem hmake =>
      obtain ⟨-, rfl⟩ := makeList_spec hmake
      exact ⟨Nat.mod_lt _ (by omega), _, hmem⟩
  | @field p k v _ hv ih =>
      obtain ⟨-, name, hname⟩ := ih
      rw [StructParser.field] at hv
      cases hk : p.structDef.dynamics[k]? with
      | none => simp only [hk] at hv; cases hv
      | some t =>
          simp only [hk] at hv
          cases hx : p.offsetOf msg k with
          | error e => rw [hx] at hv; cases hv
          | ok o =>
              rw [hx, ok_bind] at hv
              cases t with
              | one t => exact sound_element hv
              | list t =>
                  rw [Dynamic.parse] at hv
                  cases hl : ListParser.make msg t o with
                  | error e => rw [hl] at hv; cases hv
                  | ok l =>
                      rw [hl] at hv
                      obtain ⟨-, hl⟩ := makeList_spec hl
                      rw [← Except.ok.inj hv, hl]
                      exact ⟨Nat.mod_lt _ (by omega), name, hname ▸ List.mem_of_getElem? hk⟩
  | next _ ih =>
      refine ⟨next_offset_lt ih.1, ?_⟩
      rw [next_elementType]
      exact ih.2
  | value _ hv _ => exact sound_element hv

theorem minSize_offset {p : StructParser} {k : Nat} (hk : k < p.structDef.elements) :
    p.offset + 2 + 2 * k + 2 ≤ p.offset + p.structDef.minSize := by
  rw [StructDef.minSize]
  omega

theorem safe_offsetOf {p : StructParser} (h : p.offset + p.structDef.minSize ≤ msg.length) {k : Nat}
    (hk : k < p.structDef.elements) : Yields (· = .malformed) (· < 65536) (p.offsetOf msg k) := by
  have hfit := Nat.le_trans (minSize_offset hk) h
  refine (yields_load16 hfit).bind (fun o _ => yields_check.bind (fun _ _ => yields_check.bind (fun _ _ => ?_)))
  exact Nat.mod_lt _ (by omega)

theorem safe_struct (hschema : schema.Admissible) {p : StructParser} (h : Sound schema msg (.struct p)) :
    (∀ k < p.structDef.elements, Safe (p.hasOffset msg k) ∧ Safe (p.field msg schema k)) ∧
    ∀ j < p.structDef.statics.length, Safe (p.static msg j) := by
  obtain ⟨hfit, name, hname⟩ := h
  refine ⟨fun k hk => ⟨?_, ?_⟩, fun j hj => ?_⟩
  · exact safe_bind (yields_load16 (Nat.le_trans (minSize_offset hk) hfit)) (fun _ _ => safe_ok _)
  · have hget : p.structDef.dynamics[k]? = some p.structDef.dynamics[k] := List.getElem?_eq_getElem hk
    have hmem : p.structDef.dynamics[k] ∈ (schema name).dynamics := hname ▸ List.mem_of_getElem? hget
    rw [StructParser.field, hget]
    exact safe_bind (safe_offsetOf hfit hk) (fun o ho => safe_dynamic (hschema name _ hmem) ho)
  · have hget : p.structDef.statics[j]? = some p.structDef.statics[j] := List.getElem?_eq_getElem hj
    have hplace := StructDef.staticOffset_add hget
    rw [StructParser.static, hget]
    refine safe_bind (yields_load ?_) (fun _ _ => safe_ok _)
    rw [StructDef.minSize] at hfit
    omega

theorem safe_list (hschema : schema.Admissible) {l : ListParser} (h : Sound schema msg (.list l)) :
    Safe (l.next msg).1 ∧ Safe (l.value msg schema) := by
  obtain ⟨hoffset, name, hmem⟩ := h
  refine ⟨?_, safe_element (hschema name _ hmem) hoffset⟩
  have hsize : ∀ l' : ListParser, l'.offset < 65536 → Safe (l'.readSize msg) := by
    intro l' hl'
    rw [ListParser.readSize]
    split
    · exact safe_ok _
    · exact safe_bind ((safe_parse rfl hl').mono (fun _ _ => trivial)) (fun _ _ => safe_ok _)
  rw [ListParser.next]
  split
  · exact safe_ok _
  · dsimp only
    have hread := hsize { l with elements := l.elements - 1, offset := (l.offset + l.elementSize) % 65536 }
      (Nat.mod_lt _ (by omega))
    split
    next => exact safe_ok _
    next e he =>
      rw [he] at hread
      exact hread

theorem next_elements (l : ListParser) : (l.next msg).2.elements = l.elements - 1 := by
  rw [ListParser.next]
  split
  next h => rw [h]
  next =>
    dsimp only
    split <;> rfl

theorem advance_elements (n : Nat) (l : ListParser) : (l.advance msg n).elements = l.elements - n := by
  induction n generalizing l with
  | zero => rfl
  | succ n ih => rw [ListParser.advance, ih, next_elements, Nat.sub_sub, Nat.add_comm 1]

theorem next_advance {n : Nat} {l : ListParser} (h : l.elements ≤ n) : ((l.advance msg n).next msg).1 = .ok false := by
  rw [ListParser.next, if_pos (by rw [advance_elements]; omega)]

/-- No access, in whatever order, reads outside of the message, and every list
ends within its 16 bit count. -/
theorem parser_safe (schema : Schema) (msg : List Byte) (hschema : schema.Admissible) :
    (∀ name offset, Safe (StructParser.make msg (schema name) offset)) ∧
    (∀ t offset, Safe (ListParser.make msg t offset) ∧
      ∀ l, ListParser.make msg t offset = .ok l → l.elements = u16At msg offset) ∧
    (∀ p, Obtained msg schema (.struct p) →
      (∀ k < p.structDef.elements, Safe (p.hasOffset msg k) ∧ Safe (p.field msg schema k)) ∧
      ∀ j < p.structDef.statics.length, Safe (p.static msg j)) ∧
    ∀ l, Obtained msg schema (.list l) →
      Safe (l.next msg).1 ∧ Safe (l.value msg schema) ∧
      ∀ n, l.elements ≤ n → ((l.advance msg n).next msg).1 = .ok false := by
  refine ⟨fun _ _ => safe_makeStruct _, fun t offset => ⟨safe_makeList t, fun l hl => ?_⟩, fun p hp => ?_, fun l hl => ?_⟩
  · rw [(makeList_spec hl).2]
  · exact safe_struct hschema (sound_obtained hp)
  · obtain ⟨hnext, hvalue⟩ := safe_list hschema (sound_obtained hl)
    exact ⟨hnext, hvalue, fun n hn => next_advance hn⟩

def greetings : Schema := fun _ => [.static (.scalar .uint8), .dynamic (.list .string)]

theorem greetings_admissible : greetings.Admissible := by
  intro name t ht
  have hall : ∀ t ∈ (greetings 0).dynamics, t.admissible = true := by decide
  exact hall t ht

theorem parser_safe_greetings :
    Safe (StructParser.make [9, 0, 5, 0, 7, 2, 0, 255, 255] (greetings 0) 0) ∧
    (∀ l, Obtained [9, 0, 5, 0, 7, 2, 0, 255, 255] greetings (.list l) →
      Safe (l.value [9, 0, 5, 0, 7, 2, 0, 255, 255] greetings)) := by
  have hall := parser_safe greetings [9, 0, 5, 0, 7, 2, 0, 255, 255] greetings_admissible
  exact ⟨hall.1 0 0, fun l hl => (hall.2.2.2 l hl).2.1⟩

end Tyrdbs.Message
