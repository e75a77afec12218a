import Tyrdbs.Slices.Node

namespace Tyrdbs.Slices

open Bytes Outcome

instance neZero_keyCount : NeZero (2 ^ 16) := ⟨by decide⟩

/-- A node being filled: headers grow from the front, data from the end. -/
structure OpenNode where
  data : Data
  entryOffset : Nat
  dataOffset : Nat
  keyCount : Fin (2 ^ 16)
  deriving DecidableEq

structure NodeWriter where
  node : Option OpenNode := none
  deriving DecidableEq

def entrySize : Nat := 6

def attributesSize : Nat := 8

namespace OpenNode

def internalReset : OpenNode where
  data := ⟨List.replicate nodeSize 0, List.length_replicate⟩
  entryOffset := 2
  dataOffset := nodeSize
  keyCount := 0

/-- The required size is summed up in 16 bits. -/
def hasEnoughSpace (b : OpenNode) (key value : List Byte) (noSplit : Bool) : Bool :=
  let valueSize := if noSplit then value.length else max 16 (value.length >>> 3)
  b.entryOffset + (entrySize + key.length + attributesSize + valueSize) % 2 ^ 16 ≤ b.dataOffset

def nextEntry (b : OpenNode) : OpenNode :=
  { b with entryOffset := b.entryOffset + entrySize, keyCount := b.keyCount + 1 }

def allocate (b : OpenNode) (size : Nat) : Except Fault OpenNode := do
  require (b.entryOffset + size ≤ b.dataOffset) .assertion
  return { b with dataOffset := b.dataOffset - size }

def copy (b : OpenNode) (bytes : List Byte) : Except Fault OpenNode := do
  let b ← b.allocate bytes.length
  return { b with data := b.data.put b.dataOffset bytes }

def copyValue (b : OpenNode) (value : List Byte) (reservedSpace : Nat) : Except Fault (OpenNode × Nat) := do
  let availableSpace := (b.dataOffset + 2 ^ 32 - (b.entryOffset + reservedSpace)) % 2 ^ 32
  let partialSize := min availableSpace value.length % 2 ^ 16
  require (partialSize < 16384) .assertion
  let b ← b.copy (value.take partialSize)
  return (b, partialSize)

/-- An entry's header: three fields of 16 bits, the last one made of the key
size in 10 bits and the two marks. -/
def header (valueSize keyOffset keySize : Nat) (eor deleted : Bool) : List Byte :=
  littleEndian 2 valueSize ++ littleEndian 2 keyOffset ++
    littleEndian 2 (keySize + eor.toNat * 2 ^ 10 + deleted.toNat * 2 ^ 11)

end OpenNode

namespace NodeWriter

def opened (w : NodeWriter) : OpenNode := w.node.getD OpenNode.internalReset

/-- The size of the part of the value that was added, or none where the node
has no space. -/
def add (w : NodeWriter) (key value : List Byte) (eor deleted : Bool) (attributes : Nat)
    (noSplit : Bool) : Except Fault (NodeWriter × Option Nat) := do
  require (key.length ≠ 0) .assertion
  require (key.length < maxKeySize) .assertion
  let b := w.opened
  if ¬ b.hasEnoughSpace key value noSplit then .ok ({ node := some b }, none)
  else do
    let b₁ ← b.nextEntry.copy key
    let (b₂, size) ← b₁.copyValue value attributesSize
    let b₃ ← b₂.copy (littleEndian attributesSize attributes)
    let header := OpenNode.header size b₁.dataOffset key.length (eor && size = value.length) deleted
    .ok ({ node := some { b₃ with data := b₃.data.put b.entryOffset header } }, some size)

def flush (w : NodeWriter) : OpenNode :=
  { w.opened with data := w.opened.data.put 0 (littleEndian 2 w.opened.keyCount.val) }

/-- The finished node; the next add begins another one. -/
def reset (w : NodeWriter) : Except Fault (Node × NodeWriter) :=
  match w.node with
  | none => .error .assertion
  | some b => .ok ({ data := b.data, keyCount := b.keyCount.val }, {})

end NodeWriter

namespace Data

theorem slice_put_self (d : Data) {off len : Nat} {bs : List Byte} (hlen : bs.length = len)
    (h : off + len ≤ nodeSize) : slice (d.put off bs).bytes off len = bs := by
  subst hlen
  exact slice_splice_self (by rwa [d.size_eq])

theorem slice_put_apart (d : Data) {off i len : Nat} {bs : List Byte} (h : off + bs.length ≤ nodeSize)
    (hi : i + len ≤ off ∨ off + bs.length ≤ i) : slice (d.put off bs).bytes i len = slice d.bytes i len := by
  have h : off + bs.length ≤ d.bytes.length := by rwa [d.size_eq]
  rcases hi with hi | hi
  · exact slice_splice_before h hi
  · exact slice_splice_after h hi

end Data

/-- An entry at its index in a node, its data at or above an offset. -/
structure Placed (d : Data) (low ndx : Nat) (e : Entry) : Prop where
  key_fits : e.key.length < maxKeySize
  attributes_fits : e.attributes < 2 ^ 64
  at_offset : ∃ keyOffset, low + attributesSize + e.value.length ≤ keyOffset ∧
    keyOffset + e.key.length ≤ nodeSize ∧
    slice d.bytes (2 + 6 * ndx) 6 =
      OpenNode.header e.value.length keyOffset e.key.length e.eor e.deleted ∧
    slice d.bytes keyOffset e.key.length = e.key ∧
    slice d.bytes (keyOffset - e.value.length) e.value.length = e.value ∧
    slice d.bytes (keyOffset - e.value.length - attributesSize) attributesSize =
      littleEndian attributesSize e.attributes

theorem Placed.put {d : Data} {low low' ndx : Nat} {e : Entry} (h : Placed d low ndx e) (off : Nat)
    (bs : List Byte) (hlow : low' ≤ low) (hoff : off + bs.length ≤ low)
    (hhead : off + bs.length ≤ 2 + 6 * ndx ∨ 8 + 6 * ndx ≤ off) : Placed (d.put off bs) low' ndx e := by
  obtain ⟨keyOffset, hk, hend, hheader, hkey, hvalue, hattributes⟩ := h.at_offset
  have hfit : off + bs.length ≤ nodeSize := by omega
  refine ⟨h.key_fits, h.attributes_fits, keyOffset, by omega, hend, ?_, ?_, ?_, ?_⟩
  · rwa [d.slice_put_apart hfit (by omega)]
  · rwa [d.slice_put_apart hfit (by omega)]
  · rwa [d.slice_put_apart hfit (by omega)]
  · rwa [d.slice_put_apart hfit (by omega)]

theorem entryOffset_eq (ndx : Nat) : Node.entryOffset ndx = 2 + 6 * ndx := by
  rw [Node.entryOffset, Nat.shiftLeft_eq, Nat.shiftLeft_eq]
  omega

theorem fields_of_header {n : Node} {ndx valueSize keyOffset keySize : Nat} {eor deleted : Bool}
    (h : slice n.data.bytes (2 + 6 * ndx) 6 = OpenNode.header valueSize keyOffset keySize eor deleted)
    (hv : valueSize < 2 ^ 16) (hk : keyOffset < 2 ^ 16) (hs : keySize < 1024) :
    n.valueSizeAt ndx = valueSize ∧ n.keyOffsetAt ndx = keyOffset ∧ n.keySizeAt ndx = keySize ∧
      n.eorAt ndx = eor ∧ n.deletedAt ndx = deleted := by
  have hfield : ∀ i, i + 2 ≤ 6 → n.data.u16At (2 + 6 * ndx + i) = fromLittleEndian
      (slice (OpenNode.header valueSize keyOffset keySize eor deleted) i 2) := by
    intro i hi
    have hsub : slice (slice n.data.bytes (2 + 6 * ndx) 6) i 2 = slice n.data.bytes (2 + 6 * ndx + i) 2 := by
      simp only [slice, List.drop_take, List.drop_drop, List.take_take]
      rw [Nat.min_eq_left (by omega)]
    rw [Data.u16At, ← hsub, h]
  have hf : n.flagsAt ndx = keySize + eor.toNat * 2 ^ 10 + deleted.toNat * 2 ^ 11 := by
    rw [Node.flagsAt, entryOffset_eq, hfield 4 (by omega)]
    refine fromLittleEndian_littleEndian 2 _ ?_
    cases eor <;> cases deleted <;> simp <;> omega
  refine ⟨?_, ?_, ?_, ?_, ?_⟩
  · rw [Node.valueSizeAt, entryOffset_eq, ← Nat.add_zero (2 + 6 * ndx), hfield 0 (by omega)]
    exact fromLittleEndian_littleEndian 2 _ (by omega)
  · rw [Node.keyOffsetAt, entryOffset_eq, hfield 2 (by omega)]
    exact fromLittleEndian_littleEndian 2 _ (by omega)
  · have hmask : (1023 : Nat) = 2 ^ 10 - 1 := rfl
    rw [Node.keySizeAt, hf, hmask, Nat.and_two_pow_sub_one_eq_mod]
    omega
  · rw [Node.eorAt, hf, Nat.testBit_eq_decide_div_mod_eq]
    cases eor <;> cases deleted <;> simp <;> omega
  · rw [Node.deletedAt, hf, Nat.testBit_eq_decide_div_mod_eq]
    cases eor <;> cases deleted <;> simp <;> omega

theorem Placed.read {n : Node} {low ndx : Nat} {e : Entry} (h : Placed n.data low ndx e) :
    n.entryAt ndx = e ∧ low + attributesSize + n.valueSizeAt ndx ≤ n.keyOffsetAt ndx ∧
      n.keyOffsetAt ndx + n.keySizeAt ndx ≤ nodeSize := by
  obtain ⟨keyOffset, hk, hend, hheader, hkey, hvalue, hattributes⟩ := h.at_offset
  have hsize : nodeSize = 8128 := rfl
  have hattr : attributesSize = 8 := rfl
  obtain ⟨hv, ho, hks, he, hd⟩ := fields_of_header hheader (by omega) (by omega) h.key_fits
  have hvo : n.valueOffsetAt ndx = keyOffset - e.value.length := by
    rw [Node.valueOffsetAt, ho, hv]
    omega
  have ha : n.attributesAt ndx = e.attributes := by
    have hoff : (keyOffset - e.value.length + 2 ^ 16 - 8) % 2 ^ 16 = keyOffset - e.value.length - 8 := by
      omega
    rw [Node.attributesAt, hvo, hoff, ← hattr, hattributes]
    exact fromLittleEndian_littleEndian 8 _ h.attributes_fits
  refine ⟨?_, by rwa [hv, ho], by rwa [ho, hks]⟩
  rw [Node.entryAt, Node.keyAt, Node.valueAt, ho, hks, hvo, hv, hkey, hvalue, he, hd, ha]

theorem Placed.entryAt {n : Node} {low ndx : Nat} {e : Entry} (h : Placed n.data low ndx e) :
    n.entryAt ndx = e := h.read.1

structure Filled (b : OpenNode) (es : List Entry) : Prop where
  keyCount_eq : b.keyCount.val = es.length
  entryOffset_eq : b.entryOffset = 2 + 6 * es.length
  room : b.entryOffset ≤ b.dataOffset
  dataOffset_le : b.dataOffset ≤ nodeSize
  empty : es = [] → b.dataOffset = nodeSize
  placed : ∀ i e, es[i]? = some e → Placed b.data b.dataOffset i e

theorem internalReset_filled : Filled OpenNode.internalReset [] where
  keyCount_eq := rfl
  entryOffset_eq := rfl
  room := by decide
  dataOffset_le := le_rfl
  empty _ := rfl
  placed i e h := by simp at h

theorem Filled.entries {b : OpenNode} {es : List Entry} (h : Filled b es) {n : Node}
    (hd : n.data = b.data) (hk : n.keyCount = b.keyCount.val) : n.entries = es := by
  refine List.ext_getElem (by rw [n.length_entries, hk, h.keyCount_eq]) (fun i hi hi' => ?_)
  rw [n.getElem_entries]
  have hp := h.placed i es[i] (List.getElem?_eq_getElem hi')
  rw [← hd] at hp
  exact hp.entryAt

theorem Filled.flush {b : OpenNode} {es : List Entry} (h : Filled b es) :
    Filled { b with data := b.data.put 0 (littleEndian 2 b.keyCount.val) } es where
  keyCount_eq := h.keyCount_eq
  entryOffset_eq := h.entryOffset_eq
  room := h.room
  dataOffset_le := h.dataOffset_le
  empty := h.empty
  placed i e hi := by
    have hroom := h.room
    rw [h.entryOffset_eq] at hroom
    have hlen := length_littleEndian 2 b.keyCount.val
    exact (h.placed i e hi).put 0 _ le_rfl (by omega) (Or.inl (by omega))

/-- The writes of one add: the data of the entry downwards, its header last. -/
def pushData (d : Data) (entryOffset dataOffset : Nat) (e : Entry) : Data :=
  let keyOffset := dataOffset - e.key.length
  let valueOffset := keyOffset - e.value.length
  (((d.put keyOffset e.key).put valueOffset e.value).put (valueOffset - attributesSize)
      (littleEndian attributesSize e.attributes)).put entryOffset
    (OpenNode.header e.value.length keyOffset e.key.length e.eor e.deleted)

def OpenNode.push (b : OpenNode) (e : Entry) : OpenNode where
  data := pushData b.data b.entryOffset b.dataOffset e
  entryOffset := b.entryOffset + entrySize
  dataOffset := b.dataOffset - e.key.length - e.value.length - attributesSize
  keyCount := b.keyCount + 1

theorem length_header (valueSize keyOffset keySize : Nat) (eor deleted : Bool) :
    (OpenNode.header valueSize keyOffset keySize eor deleted).length = 6 := by
  simp only [OpenNode.header, List.length_append, length_littleEndian]

section Push

variable {d : Data} {entryOffset dataOffset : Nat} {e : Entry}
  (hfit : entryOffset + entrySize + e.key.length + e.value.length + attributesSize ≤ dataOffset)

include hfit

theorem Placed.pushData {ndx : Nat} {e' : Entry} (h : Placed d dataOffset ndx e')
    (hhead : 8 + 6 * ndx ≤ entryOffset) :
    Placed (pushData d entryOffset dataOffset e)
      (dataOffset - e.key.length - e.value.length - attributesSize) ndx e' := by
  have hsix : entrySize = 6 := rfl
  have hattr : attributesSize = 8 := rfl
  have hlen := length_littleEndian attributesSize e.attributes
  have hheader := length_header e.value.length (dataOffset - e.key.length) e.key.length e.eor e.deleted
  have hkey := h.put (dataOffset - e.key.length) e.key
    (Nat.sub_le dataOffset e.key.length) (by omega) (by omega)
  have hvalue := hkey.put (dataOffset - e.key.length - e.value.length) e.value
    (Nat.sub_le _ e.value.length) (by omega) (by omega)
  have hattributes := hvalue.put (dataOffset - e.key.length - e.value.length - attributesSize)
    (littleEndian attributesSize e.attributes) (Nat.sub_le _ attributesSize) (by omega) (by omega)
  exact hattributes.put entryOffset _ le_rfl (by omega) (by omega)

theorem placed_pushData {ndx : Nat} (hend : dataOffset ≤ nodeSize) (hk : e.key.length < maxKeySize)
    (ha : e.attributes < 2 ^ 64) (hhead : entryOffset = 2 + 6 * ndx) :
    Placed (pushData d entryOffset dataOffset e)
      (dataOffset - e.key.length - e.value.length - attributesSize) ndx e := by
  have hsix : entrySize = 6 := rfl
  have hattr : attributesSize = 8 := rfl
  have hlen := length_littleEndian attributesSize e.attributes
  have hheader := length_header e.value.length (dataOffset - e.key.length) e.key.length e.eor e.deleted
  refine ⟨hk, ha, dataOffset - e.key.length, by omega, by omega, ?_, ?_, ?_, ?_⟩
  · rw [← hhead]
    exact Data.slice_put_self _ hheader (by omega)
  · rw [Slices.pushData, Data.slice_put_apart _ (by omega) (by omega),
      Data.slice_put_apart _ (by omega) (by omega), Data.slice_put_apart _ (by omega) (by omega)]
    exact Data.slice_put_self _ rfl (by omega)
  · rw [Slices.pushData, Data.slice_put_apart _ (by omega) (by omega),
      Data.slice_put_apart _ (by omega) (by omega)]
    exact Data.slice_put_self _ rfl (by omega)
  · rw [Slices.pushData, Data.slice_put_apart _ (by omega) (by omega)]
    exact Data.slice_put_self _ hlen (by omega)

end Push

theorem Filled.push {b : OpenNode} {es : List Entry} (h : Filled b es) {e : Entry}
    (hk : e.key.length < maxKeySize) (ha : e.attributes < 2 ^ 64)
    (hfit : b.entryOffset + entrySize + e.key.length + e.value.length + attributesSize ≤ b.dataOffset) :
    Filled (b.push e) (es ++ [e]) where
  keyCount_eq := by
    have hroom := h.room
    have hle := h.dataOffset_le
    have hsize : nodeSize = 8128 := rfl
    rw [h.entryOffset_eq] at hroom
    rw [OpenNode.push, Fin.val_add, h.keyCount_eq, List.length_append, List.length_singleton]
    exact Nat.mod_eq_of_lt (by simp only [Fin.val_one]; omega)
  entryOffset_eq := by
    have hsix : entrySize = 6 := rfl
    simp only [OpenNode.push, h.entryOffset_eq, List.length_append, List.length_singleton]
    omega
  room := by
    simp only [OpenNode.push]
    omega
  dataOffset_le := by
    have hle := h.dataOffset_le
    simp only [OpenNode.push]
    omega
  empty hnil := by simp at hnil
  placed i e' hi := by
    have hoff := h.entryOffset_eq
    rcases Nat.lt_or_ge i es.length with hlt | hge
    · rw [List.getElem?_append_left hlt] at hi
      exact (h.placed i e' hi).pushData hfit (by omega)
    · rw [List.getElem?_append_right hge] at hi
      obtain ⟨hz, rfl⟩ : i - es.length = 0 ∧ e = e' := by
        rcases hn : i - es.length with _ | n
        · rw [hn] at hi
          exact ⟨rfl, Option.some.inj hi⟩
        · rw [hn] at hi
          exact absurd hi (by simp)
      exact placed_pushData hfit h.dataOffset_le hk ha (by omega)

namespace OpenNode

theorem copy_yields (b : OpenNode) (bytes : List Byte) :
    Yields (fun _ => True)
      (fun b' => b.entryOffset + bytes.length ≤ b.dataOffset ∧
        b' = { b with
          dataOffset := b.dataOffset - bytes.length
          data := b.data.put (b.dataOffset - bytes.length) bytes }) (b.copy bytes) := by
  rw [copy, allocate]
  by_cases hfit : b.entryOffset + bytes.length ≤ b.dataOffset
  · rw [require_of hfit]
    exact ⟨hfit, rfl⟩
  · rw [require, if_neg hfit]
    trivial

/-- Where the reserved space is not free, the available space wraps around;
what is copied then leaves no room for it. -/
theorem copyValue_yields (b : OpenNode) (value : List Byte) (reserved : Nat)
    (hle : b.dataOffset ≤ nodeSize) :
    Yields (fun _ => True)
      (fun r => r.2 ≤ value.length ∧ b.entryOffset + r.2 ≤ b.dataOffset ∧
        (b.entryOffset + reserved + r.2 ≤ b.dataOffset →
          r.2 = min (b.dataOffset - b.entryOffset - reserved) value.length) ∧
        r.1 = { b with
          dataOffset := b.dataOffset - r.2
          data := b.data.put (b.dataOffset - r.2) (value.take r.2) })
      (b.copyValue value reserved) := by
  have hsize : nodeSize = 8128 := rfl
  rw [copyValue]
  generalize hp : min ((b.dataOffset + 2 ^ 32 - (b.entryOffset + reserved)) % 2 ^ 32) value.length % 2 ^ 16 = size
  have hlen : (value.take size).length = size := by
    rw [List.length_take]
    omega
  refine (require_yields _ _).bind (fun _ _ => ?_)
  refine (copy_yields b _).bind ?_
  rintro b' ⟨hroom, rfl⟩
  rw [hlen] at hroom ⊢
  refine ⟨?_, hroom, fun hfit => ?_, rfl⟩
  · simp only
    omega
  · have havail : (b.dataOffset + 2 ^ 32 - (b.entryOffset + reserved)) % 2 ^ 32 =
        b.dataOffset - b.entryOffset - reserved := by
      simp only at hfit
      omega
    simp only
    rw [havail] at hp
    omega

end OpenNode

namespace NodeWriter

@[simp] theorem opened_some (b : OpenNode) : ({ node := some b } : NodeWriter).opened = b := rfl

/-- What fits of a value into a node beside its key, header and attributes. -/
def partOf (b : OpenNode) (key value : List Byte) : Nat :=
  min (b.dataOffset - b.entryOffset - (entrySize + key.length + attributesSize)) value.length

def entryFor (key value : List Byte) (eor deleted : Bool) (attributes size : Nat) : Entry :=
  ⟨key, value.take size, eor && size = value.length, deleted, attributes⟩

theorem add_yields {w : NodeWriter} (hle : w.opened.dataOffset ≤ nodeSize) (key value : List Byte)
    (eor deleted : Bool) (attributes : Nat) (noSplit : Bool) :
    Yields (fun _ => True)
      (fun r => r.2 = none ∧ w.opened.hasEnoughSpace key value noSplit = false ∧ r.1.node = some w.opened ∨
        ∃ size, r.2 = some size ∧ w.opened.hasEnoughSpace key value noSplit = true ∧ key.length < maxKeySize ∧
          size = partOf w.opened key value ∧
          w.opened.entryOffset + entrySize + key.length + size + attributesSize ≤ w.opened.dataOffset ∧
          r.1.opened = w.opened.push (entryFor key value eor deleted attributes size))
      (w.add key value eor deleted attributes noSplit) := by
  rw [add]
  refine (require_yields _ _).bind (fun _ _ => ?_)
  refine (require_yields _ _).bind (fun _ hk => ?_)
  by_cases hspace : w.opened.hasEnoughSpace key value noSplit = true
  · rw [if_neg (not_not.mpr hspace)]
    refine (OpenNode.copy_yields _ _).bind ?_
    rintro b₁ ⟨hkey, rfl⟩
    refine (OpenNode.copyValue_yields _ _ _ ?_).bind ?_
    · exact (Nat.sub_le _ _).trans hle
    rintro ⟨b₂, size⟩ ⟨hlen, hvalue, hsize, hb₂⟩
    simp only at hlen hvalue hsize hb₂
    subst hb₂
    refine (OpenNode.copy_yields _ _).bind ?_
    rintro b₃ ⟨hattributes, rfl⟩
    have htake : (value.take size).length = size := by
      rw [List.length_take]
      exact Nat.min_eq_left hlen
    simp only [OpenNode.nextEntry, length_littleEndian] at hkey hvalue hattributes hsize
    refine Or.inr ⟨size, rfl, hspace, hk, ?_, by omega, ?_⟩
    · have hpart := hsize (by omega)
      rw [partOf]
      omega
    · simp only [OpenNode.push, pushData, entryFor, htake, OpenNode.nextEntry, length_littleEndian, opened_some]
  · rw [if_pos hspace]
    exact Or.inl ⟨rfl, Bool.eq_false_iff.mpr hspace, rfl⟩

theorem add_filled {w : NodeWriter} {es : List Entry} (h : Filled w.opened es) (key value : List Byte)
    (eor deleted : Bool) {attributes : Nat} (ha : attributes < 2 ^ 64) (noSplit : Bool) :
    Yields (fun _ => True)
      (fun r => r.2 = none ∧ w.opened.hasEnoughSpace key value noSplit = false ∧ r.1.node = some w.opened ∨
        ∃ size, r.2 = some size ∧ w.opened.hasEnoughSpace key value noSplit = true ∧
          size = partOf w.opened key value ∧
          Filled r.1.opened (es ++ [entryFor key value eor deleted attributes size]))
      (w.add key value eor deleted attributes noSplit) := by
  refine (add_yields h.dataOffset_le key value eor deleted attributes noSplit).mono (fun r hr => hr.imp_right ?_)
  rintro ⟨size, hsome, hspace, hk, hsize, hfit, hpush⟩
  have htake : (value.take size).length = size := by
    rw [List.length_take]
    exact Nat.min_eq_left (hsize ▸ Nat.min_le_right _ _)
  refine ⟨size, hsome, hspace, hsize, ?_⟩
  rw [hpush]
  exact h.push hk ha (by simp only [entryFor, htake]; exact hfit)

end NodeWriter

end Tyrdbs.Slices
