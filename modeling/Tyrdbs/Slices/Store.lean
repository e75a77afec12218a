import Tyrdbs.Slices.SliceWriter

namespace Tyrdbs.Slices

open Bytes Outcome

/-- Decompression undoes compression on every content a node can have. -/
def Codec.Lossless (z : Codec) : Prop := ∀ d : Data, z.decompress (z.compress d.bytes) = some d.bytes

def compressBound (inputSize : Nat) : Nat := inputSize + inputSize / 255 + 16

/-- What is known of the size of compressed nodes. -/
def Codec.Bounded (z : Codec) : Prop :=
  ∀ d : Data, 1 ≤ (z.compress d.bytes).length ∧ (z.compress d.bytes).length ≤ compressBound nodeSize

def packed (z : Codec) (n : Node) : List Byte := z.compress n.data.bytes

def image (z : Codec) (n : Node) : List Byte := littleEndian 4 (z.crc32c (packed z n)).val ++ packed z n

def endOf (z : Codec) (p : Nat × Node) : Nat := offsetFrom p.1 + (image z p.2).length

/-- A node that stands in the file where its location says. -/
structure Imaged (z : Codec) (file : List Byte) (p : Nat × Node) : Prop where
  location_eq : ∃ isLeaf, p.1 = offsetFrom p.1 <<< 16 ||| sizeField (packed z p.2).length isLeaf
  size_lt : (packed z p.2).length < maxSize
  keyCount_eq : p.2.data.u16At 0 = p.2.keyCount
  bytes_eq : slice file (offsetFrom p.1) (image z p.2).length = image z p.2
  end_le : endOf z p ≤ file.length

/-- One node is linked to another, in the cache and in the file. -/
structure Followed (z : Codec) (file : List Byte) (p q : Nat × Node) : Prop where
  next_eq : p.2.next = q.1
  valid : isValid q.1 = true
  end_le : endOf z p + 2 ≤ file.length
  location_eq : q.1 = (endOf z p + 2) <<< 16 ||| fromLittleEndian (slice file (endOf z p) 2)

theorem length_image (z : Codec) (n : Node) : (image z n).length = 4 + (packed z n).length := by
  rw [image, List.length_append, length_littleEndian]

section Stable

variable {z : Codec} {file : List Byte}

theorem Imaged.append {p : Nat × Node} (h : Imaged z file p) (more : List Byte) :
    Imaged z (file ++ more) p := by
  refine ⟨h.location_eq, h.size_lt, h.keyCount_eq, ?_, ?_⟩
  · rw [slice_append_left h.end_le]
    exact h.bytes_eq
  · rw [List.length_append]
    exact Nat.le_add_right_of_le h.end_le

theorem Imaged.relink {p : Nat × Node} (h : Imaged z file p) (next : Nat) :
    Imaged z file (p.1, { p.2 with next := next }) :=
  ⟨h.location_eq, h.size_lt, h.keyCount_eq, h.bytes_eq, h.end_le⟩

theorem Followed.append {p q : Nat × Node} (h : Followed z file p q) (more : List Byte) :
    Followed z (file ++ more) p q := by
  refine ⟨h.next_eq, h.valid, ?_, ?_⟩
  · rw [List.length_append]
    exact Nat.le_add_right_of_le h.end_le
  · rw [slice_append_left h.end_le]
    exact h.location_eq

/-- The three fields that cache::load reads from its buffer. -/
theorem slice_fields {crc next : List Byte} (data rest : List Byte) (hc : crc.length = 4) (hn : next.length = 2) :
    slice (crc ++ data ++ next ++ rest) 0 4 = crc ∧
      slice (crc ++ data ++ next ++ rest) 4 data.length = data ∧
      slice (crc ++ data ++ next ++ rest) (4 + data.length) 2 = next := by
  simp only [List.append_assoc]
  refine ⟨?_, ?_, ?_⟩
  · rw [slice_append_left (by omega), ← hc, slice_zero_length]
  · rw [slice_append_right (by omega), hc, Nat.sub_self, slice_append_left (by omega), slice_zero_length]
  · rw [slice_append_right (by omega), hc, Nat.add_sub_cancel_left, slice_append_right le_rfl,
      Nat.sub_self, slice_append_left (by omega), ← hn, slice_zero_length]

theorem load_packed {n : Node} (hz : z.Lossless) (hk : n.data.u16At 0 = n.keyCount) :
    Node.load z (packed z n) = .ok { data := n.data, keyCount := n.keyCount } := by
  rw [Node.load, packed, hz n.data]
  simp only [n.data.size_eq, hk, dite_true]

/-- What cache::load makes of a node in the file. -/
theorem loadNode_imaged {p : Nat × Node} {stale : List Byte} (hz : z.Lossless) (h : Imaged z file p)
    (hfit : (packed z p.2).length ≤ nodeSize) (hend : endOf z p + 2 ≤ file.length)
    (hsmall : file.length < maxOffset) :
    loadNode z file stale p.1 = .ok { p.2 with
      next := (endOf z p + 2) <<< 16 ||| fromLittleEndian (slice file (endOf z p) 2) } := by
  obtain ⟨isLeaf, hloc⟩ := h.location_eq
  have hlt := h.size_lt
  have hmax : maxSize = 2 ^ 15 - 1 := rfl
  have hlen := length_image z p.2
  have hsize : sizeFrom p.1 = (packed z p.2).length := by
    rw [hloc]
    exact sizeFrom_or _ (by omega) isLeaf
  have hendof : offsetFrom p.1 + (packed z p.2).length + 6 = endOf z p + 2 := by
    rw [endOf, hlen]
    omega
  have hread : slice file (offsetFrom p.1) ((packed z p.2).length + 6) =
      littleEndian 4 (z.crc32c (packed z p.2)).val ++ packed z p.2 ++ slice file (endOf z p) 2 := by
    have hsum : (packed z p.2).length + 6 = (image z p.2).length + 2 := by omega
    rw [hsum, slice_add, h.bytes_eq]
    rfl
  have hcrc : fromLittleEndian (littleEndian 4 (z.crc32c (packed z p.2)).val) = (z.crc32c (packed z p.2)).val :=
    fromLittleEndian_littleEndian 4 _ (by have := (z.crc32c (packed z p.2)).isLt; omega)
  have hnext : (endOf z p + 2) <<< 16 ||| fromLittleEndian (slice file (endOf z p) 2) ≠ 0 := by
    intro hzero
    have hshift := (Nat.or_eq_zero_iff.mp hzero).1
    rw [Nat.shiftLeft_eq] at hshift
    omega
  obtain ⟨hcrcs, hdata, hfield⟩ := slice_fields (packed z p.2)
    (stale.drop (littleEndian 4 (z.crc32c (packed z p.2)).val ++ packed z p.2 ++
      slice file (endOf z p) 2).length)
    (length_littleEndian 4 (z.crc32c (packed z p.2)).val) (length_slice hend)
  rw [loadNode]
  simp only [bind, Except.bind, hsize]
  rw [require_of hfit, pread, if_pos (by omega), hread]
  simp only [hcrcs, hdata, hfield, hcrc]
  rw [require_of trivial, load_packed hz h.keyCount_eq]
  simp only [hendof, locationAt]
  rw [if_pos (by omega)]
  simp only [Node.setNext]
  rw [if_neg hnext]

end Stable

section Links

/-- The same node under the same location, perhaps with another link. -/
def Relinked (p p' : Nat × Node) : Prop := ∃ next, p' = (p.1, { p.2 with next := next })

theorem Relinked.entries {p p' : Nat × Node} (h : Relinked p p') : p'.2.entries = p.2.entries := by
  obtain ⟨next, rfl⟩ := h
  rfl

def contents (nodes : List (Nat × Node)) : List (Nat × List Entry) := nodes.map (fun p => (p.1, p.2.entries))

theorem contents_relink {a b : List (Nat × Node)} {p p' : Nat × Node} (h : Relinked p p') :
    contents (a ++ p' :: b) = contents (a ++ p :: b) := by
  simp only [contents, List.map_append, List.map_cons, h.entries]
  obtain ⟨next, rfl⟩ := h
  rfl

theorem setNextAt_yields (next : Nat) (a : List (Nat × Node)) (p : Nat × Node) (b : List (Nat × Node)) :
    Yields (fun _ => True) (· = a ++ (p.1, { p.2 with next := next }) :: b)
      (setNextAt next a.length (a ++ p :: b)) := by
  induction a with
  | nil =>
      simp only [List.nil_append, List.length_nil, setNextAt, Node.setNext]
      split
      · trivial
      · rfl
  | cons q a ih =>
      simp only [List.cons_append, List.length_cons, setNextAt]
      cases h : setNextAt next a.length (a ++ p :: b) with
      | error e => trivial
      | ok nodes =>
          rw [h] at ih
          exact congrArg (q :: ·) ih

theorem setNextAt_contents (next i : Nat) (nodes : List (Nat × Node)) :
    Yields (fun _ => True) (fun nodes' => contents nodes' = contents nodes) (setNextAt next i nodes) := by
  induction nodes generalizing i with
  | nil => cases i <;> exact rfl
  | cons p nodes ih =>
      cases i with
      | zero =>
          simp only [setNextAt, Node.setNext]
          split
          · trivial
          · rfl
      | succ i =>
          simp only [setNextAt]
          cases h : setNextAt next i nodes with
          | error e => trivial
          | ok nodes' => exact congrArg ((p.1, p.2.entries) :: ·) ((ih i).of_ok h)

end Links

theorem flush_keyCount (w : NodeWriter) : w.flush.data.u16At 0 = w.flush.keyCount.val := by
  have hlen := length_littleEndian 2 w.opened.keyCount.val
  have hlt := w.opened.keyCount.isLt
  rw [NodeWriter.flush, Data.u16At, Data.slice_put_self _ hlen (by decide)]
  exact fromLittleEndian_littleEndian 2 _ (by omega)

def storedNode (w : NodeWriter) : Node := { data := w.flush.data, keyCount := w.flush.keyCount.val }

theorem contents_stored {w : NodeWriter} {es : List Entry} (h : Filled w.opened es) :
    (storedNode w).entries = es := h.flush.entries rfl rfl

def sizePart (z : Codec) (s : Sink) (w : NodeWriter) (isLeaf : Bool) : List Byte :=
  if s.firstNodeSize ≠ invalidSize then
    littleEndian 2 (sizeField (packed z (storedNode w)).length isLeaf)
  else []

structure Stores (z : Codec) (s : Sink) (w : NodeWriter) (isLeaf : Bool) (s' : Sink) (location : Nat) :
    Prop where
  size_lt : (packed z (storedNode w)).length < maxSize
  file_eq : s'.file = s.file ++ sizePart z s w isLeaf ++ image z (storedNode w)
  location_eq : location = ((s.file ++ sizePart z s w isLeaf).length % 2 ^ 32) <<< 16 |||
    sizeField (packed z (storedNode w)).length isLeaf
  first_eq : s'.firstNodeSize = if s.firstNodeSize ≠ invalidSize then s.firstNodeSize
    else sizeField (packed z (storedNode w)).length isLeaf
  first_leaf : s.firstNodeSize = invalidSize → isLeaf = true
  begins_eq : s'.begins = s.begins ++ [(s.file ++ sizePart z s w isLeaf).length]
  nodes_nil : s.nodes = [] → s'.nodes = [(location, storedNode w)]
  nodes_snoc : ∀ a p, s.nodes = a ++ [p] →
    s'.nodes = a ++ [(p.1, { p.2 with next := location }), (location, storedNode w)]

theorem write_yields (s : Sink) (bytes : List Byte) :
    Yields (fun _ => True) (· = { s with file := s.file ++ bytes }) (s.write bytes) := by
  rw [Sink.write, require]
  split
  · rfl
  · trivial

theorem writeSize_yields (z : Codec) (s : Sink) (w : NodeWriter) (isLeaf : Bool) :
    Yields (fun _ => True)
      (fun s₁ => s₁ = { s with
          file := s.file ++ sizePart z s w isLeaf
          firstNodeSize := if s.firstNodeSize ≠ invalidSize then s.firstNodeSize
            else sizeField (packed z (storedNode w)).length isLeaf } ∧
        (s.firstNodeSize = invalidSize → isLeaf = true))
      (s.writeSize (packed z (storedNode w)).length isLeaf) := by
  rw [Sink.writeSize, sizePart]
  by_cases hfirst : s.firstNodeSize ≠ invalidSize
  · simp only [if_pos hfirst]
    refine (write_yields s _).mono (fun s₁ h => ?_)
    exact ⟨h, fun h' => absurd h' hfirst⟩
  · simp only [if_neg hfirst, List.append_nil]
    refine (require_yields _ _).bind (fun _ hleaf => ?_)
    exact ⟨rfl, fun _ => hleaf⟩

theorem setNextAt_last (next : Nat) (nodes : List (Nat × Node)) :
    Yields (fun _ => True)
      (fun nodes' => (nodes = [] → nodes' = []) ∧
        ∀ a p, nodes = a ++ [p] → nodes' = a ++ [(p.1, { p.2 with next := next })])
      (setNextAt next (nodes.length - 1) nodes) := by
  rcases List.eq_nil_or_concat' nodes with rfl | ⟨a, p, rfl⟩
  · exact ⟨fun _ => rfl, fun a p h => absurd h (by simp)⟩
  · rw [List.length_append, List.length_singleton, Nat.add_sub_cancel]
    refine (setNextAt_yields next a p []).mono ?_
    rintro _ rfl
    refine ⟨fun h => absurd h (by simp), fun a' p' h => ?_⟩
    obtain ⟨rfl, hp⟩ := List.append_inj' h rfl
    rw [(List.cons.inj hp).1]

theorem store_yields (z : Codec) (s : Sink) (w : NodeWriter) (isLeaf : Bool) :
    Yields (fun _ => True) (fun r => Stores z s w isLeaf r.1 r.2.2 ∧ r.2.1 = {})
      (s.store z w isLeaf) := by
  rw [Sink.store]
  refine (require_yields _ _).bind (fun _ _ => ?_)
  refine (require_yields _ _).bind (fun _ _ => ?_)
  refine (writeSize_yields z s w isLeaf).bind ?_
  rintro _ ⟨rfl, hleaf⟩
  refine (location_yields _ _ _).bind ?_
  rintro location ⟨hloc, hsize⟩
  refine (write_yields _ _).bind ?_
  rintro _ rfl
  refine (write_yields _ _).bind ?_
  rintro _ rfl
  refine (setNextAt_last _ _).bind ?_
  rintro nodes ⟨hnil, hsnoc⟩
  refine ⟨⟨hsize, ?_, hloc, rfl, hleaf, rfl, ?_, ?_⟩, rfl⟩
  · simp only [image, packed, storedNode, List.append_assoc]
  · intro h
    simp only [hnil h]
    rfl
  · intro a p h
    simp only [hsnoc a p h, List.append_assoc]
    rfl

namespace Stores

variable {z : Codec} {s s' : Sink} {w : NodeWriter} {isLeaf : Bool} {location : Nat}

theorem isLeafFrom_eq (h : Stores z s w isLeaf s' location) : isLeafFrom location = isLeaf := by
  have hlt := h.size_lt
  have hmax : maxSize = 2 ^ 15 - 1 := rfl
  rw [h.location_eq]
  exact isLeafFrom_or _ (by omega) isLeaf

theorem isValid_eq (h : Stores z s w isLeaf s' location) : isValid location = true := by
  have hlt := h.size_lt
  have hmax : maxSize = 2 ^ 15 - 1 := rfl
  rw [h.location_eq, isValid_or _ (sizeField_lt (by omega) isLeaf)]
  exact decide_eq_true (sizeField_ne_invalid hlt isLeaf)

theorem location_lt (h : Stores z s w isLeaf s' location) : location < 2 ^ 64 := by
  have hlt := h.size_lt
  have hmax : maxSize = 2 ^ 15 - 1 := rfl
  have hfield := sizeField_lt (show (packed z (storedNode w)).length < 2 ^ 15 by omega) isLeaf
  rw [h.location_eq, or_eq_add _ hfield]
  omega

theorem length_le (h : Stores z s w isLeaf s' location) : s.file.length ≤ s'.file.length := by
  rw [h.file_eq]
  simp only [List.length_append]
  omega

theorem contents_eq (h : Stores z s w isLeaf s' location) :
    contents s'.nodes = contents s.nodes ++ [(location, (storedNode w).entries)] := by
  rcases List.eq_nil_or_concat' s.nodes with hnil | ⟨a, p, hsnoc⟩
  · rw [h.nodes_nil hnil, hnil]
    rfl
  · rw [h.nodes_snoc a p hsnoc, hsnoc, contents_relink (p := p) ⟨location, rfl⟩]
    simp [contents]

variable (hsmall : s'.file.length < 2 ^ 32)

include hsmall

theorem offsetFrom_eq (h : Stores z s w isLeaf s' location) :
    offsetFrom location = (s.file ++ sizePart z s w isLeaf).length := by
  have hlt := h.size_lt
  have hmax : maxSize = 2 ^ 15 - 1 := rfl
  have hlen := congrArg List.length h.file_eq
  rw [List.length_append] at hlen
  rw [h.location_eq, offsetFrom_or _ (sizeField_lt (by omega) isLeaf)]
  exact Nat.mod_eq_of_lt (by omega)

theorem imaged (h : Stores z s w isLeaf s' location) : Imaged z s'.file (location, storedNode w) where
  location_eq := by
    refine ⟨isLeaf, ?_⟩
    have hlen := congrArg List.length h.file_eq
    rw [List.length_append] at hlen
    simp only
    rw [h.offsetFrom_eq hsmall, h.location_eq, Nat.mod_eq_of_lt (by omega)]
  size_lt := h.size_lt
  keyCount_eq := flush_keyCount w
  bytes_eq := by
    simp only
    rw [h.offsetFrom_eq hsmall, h.file_eq, slice_append_right le_rfl, Nat.sub_self, slice_zero_length]
  end_le := by
    rw [endOf, h.offsetFrom_eq hsmall, h.file_eq]
    exact (List.length_append ..).ge

theorem endOf_eq (h : Stores z s w isLeaf s' location) :
    endOf z (location, storedNode w) = s'.file.length := by
  rw [endOf, h.offsetFrom_eq hsmall, h.file_eq]
  exact (List.length_append ..).symm

end Stores

end Tyrdbs.Slices
