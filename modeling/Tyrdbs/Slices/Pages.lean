import Tyrdbs.Slices.WriterRuns

namespace Tyrdbs.Slices

open Bytes Outcome

/-- The bytes of an open node: what grows from the front, what grows from the
end, zeros between the two. -/
def page (front back : List Byte) : List Byte :=
  front ++ List.replicate (nodeSize - back.length - front.length) 0 ++ back

theorem length_page {front back : List Byte} (h : front.length + back.length ≤ nodeSize) :
    (page front back).length = nodeSize := by
  rw [page, List.length_append, List.length_append, List.length_replicate]
  omega

def OpenNode.ofPage (front back : List Byte) (h : front.length + back.length ≤ nodeSize)
    (keyCount : Fin (2 ^ 16)) : OpenNode where
  data := ⟨page front back, length_page h⟩
  entryOffset := front.length
  dataOffset := nodeSize - back.length
  keyCount := keyCount

section Put

variable {front back bs : List Byte}

theorem splice_replicate {n i : Nat} (x : Byte) (h : i + bs.length ≤ n) :
    splice (List.replicate n x) i bs = List.replicate i x ++ bs ++ List.replicate (n - i - bs.length) x := by
  rw [splice_eq (by rwa [List.length_replicate]), List.take_replicate, List.drop_replicate,
    Nat.min_eq_left (Nat.le_of_add_right_le h), Nat.sub_add_eq]

theorem splice_page_back (h : front.length + bs.length + back.length ≤ nodeSize) :
    splice (page front back) (nodeSize - back.length - bs.length) bs = page front (bs ++ back) := by
  have hoff : nodeSize - back.length - bs.length =
      front.length + (nodeSize - back.length - front.length - bs.length) := by omega
  have hrest : nodeSize - back.length - front.length - (nodeSize - back.length - front.length - bs.length) -
      bs.length = 0 := by omega
  have hgap : nodeSize - (bs ++ back).length - front.length =
      nodeSize - back.length - front.length - bs.length := by
    rw [List.length_append]
    omega
  rw [page, hoff, splice_middle (by rw [List.length_replicate]; omega), splice_replicate 0 (by omega), hrest,
    List.replicate_zero, List.append_nil, page, hgap]
  simp only [List.append_assoc]

theorem splice_page_front (h : front.length + bs.length + back.length ≤ nodeSize) :
    splice (page front back) front.length bs = page (front ++ bs) back := by
  have hgap : nodeSize - back.length - (front ++ bs).length =
      nodeSize - back.length - front.length - 0 - bs.length := by
    rw [List.length_append]
    omega
  have hmiddle := @splice_middle _ front (List.replicate (nodeSize - back.length - front.length) 0) back bs 0
    (by rw [List.length_replicate]; omega)
  rw [Nat.add_zero, splice_replicate 0 (by omega), List.replicate_zero, List.nil_append] at hmiddle
  rw [page, hmiddle, page, hgap]
  simp only [List.append_assoc]

theorem splice_page_start {old : List Byte} (h : old.length = bs.length) :
    splice (page (old ++ front) back) 0 bs = page (bs ++ front) back := by
  have hgap : (old ++ front).length = (bs ++ front).length := by
    rw [List.length_append, List.length_append, h]
  have hwhole : splice old 0 bs = bs := by
    rw [splice_eq (by omega), List.take_zero, List.nil_append, Nat.zero_add, ← h, List.drop_length,
      List.append_nil]
  have hmiddle := @splice_middle _ [] old
    (front ++ List.replicate (nodeSize - back.length - (bs ++ front).length) 0 ++ back) bs 0 (by omega)
  rw [List.length_nil, Nat.zero_add, hwhole, List.nil_append, List.nil_append] at hmiddle
  rw [page, hgap, page]
  simpa only [List.append_assoc] using hmiddle

end Put

theorem internalReset_eq : OpenNode.internalReset = .ofPage [0, 0] [] (by decide) 0 := by
  rw [OpenNode.internalReset, OpenNode.ofPage, OpenNode.mk.injEq, Data.mk.injEq]
  refine ⟨?_, rfl, rfl, rfl⟩
  rw [page, List.append_nil]
  exact List.replicate_succ

namespace NodeWriter

variable {front back key value : List Byte} {eor deleted noSplit : Bool} {attributes : Nat}

theorem copy_returns {b : OpenNode} {bytes : List Byte} (h : b.entryOffset + bytes.length ≤ b.dataOffset) :
    b.copy bytes = .ok { b with
      dataOffset := b.dataOffset - bytes.length
      data := b.data.put (b.dataOffset - bytes.length) bytes } := by
  rw [OpenNode.copy, OpenNode.allocate, require_of h]
  rfl

theorem add_none {w : NodeWriter} (hk : key ≠ []) (hlt : key.length < maxKeySize)
    (hspace : w.opened.hasEnoughSpace key value noSplit = false) :
    w.add key value eor deleted attributes noSplit = .ok ({ node := some w.opened }, none) := by
  have hne : key.length ≠ 0 := fun h => hk (List.eq_nil_of_length_eq_zero h)
  rw [add, require_of hne, ok_bind, require_of hlt, ok_bind]
  simp only [hspace]
  rw [if_pos Bool.false_ne_true]

theorem add_whole {w : NodeWriter} (hk : key ≠ []) (hlt : key.length < maxKeySize)
    (hspace : w.opened.hasEnoughSpace key value noSplit = true) (hle : w.opened.dataOffset ≤ nodeSize)
    (hfit : w.opened.entryOffset + entrySize + key.length + value.length + attributesSize ≤ w.opened.dataOffset) :
    ∃ b, w.add key value eor deleted attributes noSplit = .ok ({ node := some b }, some value.length) ∧
      b.entryOffset = w.opened.entryOffset + entrySize ∧
      b.dataOffset = w.opened.dataOffset - key.length - value.length - attributesSize := by
  have hsize : nodeSize = 8128 := rfl
  have hsix : entrySize = 6 := rfl
  have hattr : attributesSize = 8 := rfl
  have hne : key.length ≠ 0 := fun h => hk (List.eq_nil_of_length_eq_zero h)
  have havailable : min ((w.opened.dataOffset - key.length + 2 ^ 32 -
      (w.opened.entryOffset + entrySize + attributesSize)) % 2 ^ 32) value.length % 2 ^ 16 = value.length := by
    omega
  rw [add, require_of hne, ok_bind, require_of hlt, ok_bind,
    if_neg (not_not.mpr hspace), copy_returns (by simp only [OpenNode.nextEntry]; omega), ok_bind]
  simp only [OpenNode.copyValue, OpenNode.nextEntry, havailable, List.take_length]
  rw [require_of (by omega), ok_bind, copy_returns (by simp only; omega), ok_bind]
  simp only [pure, Except.pure, ok_bind]
  rw [copy_returns (by simp only [length_littleEndian]; omega), ok_bind]
  refine ⟨_, rfl, rfl, ?_⟩
  simp only [length_littleEndian]

theorem add_page {piece : List Byte} {last : Bool} {h : front.length + back.length ≤ nodeSize}
    {keyCount : Fin (2 ^ 16)} (hk : key ≠ []) (hlt : key.length < maxKeySize)
    (hspace : (OpenNode.ofPage front back h keyCount).hasEnoughSpace key value noSplit = true)
    (hsize : min ((nodeSize - back.length - key.length + 2 ^ 32 - (front.length + entrySize + attributesSize)) %
      2 ^ 32) value.length % 2 ^ 16 = piece.length)
    (hpiece : value.take piece.length = piece) (hsmall : piece.length < 16384)
    (hlast : (eor && piece.length = value.length) = last)
    (h' : (front ++ OpenNode.header piece.length (nodeSize - back.length - key.length) key.length last
      deleted).length + (littleEndian attributesSize attributes ++ (piece ++ (key ++ back))).length ≤ nodeSize) :
    add { node := some (.ofPage front back h keyCount) } key value eor deleted attributes noSplit = .ok
      ({ node := some (.ofPage
          (front ++ OpenNode.header piece.length (nodeSize - back.length - key.length) key.length last deleted)
          (littleEndian attributesSize attributes ++ (piece ++ (key ++ back))) h' (keyCount + 1)) },
        some piece.length) := by
  have hsix : entrySize = 6 := rfl
  have hne : key.length ≠ 0 := fun h => hk (List.eq_nil_of_length_eq_zero h)
  have hheader := length_header piece.length (nodeSize - back.length - key.length) key.length last deleted
  have hbytes := length_littleEndian attributesSize attributes
  have hfront := @List.length_append _ front
    (OpenNode.header piece.length (nodeSize - back.length - key.length) key.length last deleted)
  have hback := @List.length_append _ key back
  have hback' := @List.length_append _ piece (key ++ back)
  have hback'' := @List.length_append _ (littleEndian attributesSize attributes) (piece ++ (key ++ back))
  have hputKey := @splice_page_back front back key (by omega)
  have hputPiece := @splice_page_back front (key ++ back) piece (by omega)
  have hputAttributes := @splice_page_back front (piece ++ (key ++ back)) (littleEndian attributesSize attributes)
    (by omega)
  have hputHeader := @splice_page_front front (littleEndian attributesSize attributes ++ (piece ++ (key ++ back)))
    (OpenNode.header piece.length (nodeSize - back.length - key.length) key.length last deleted) (by omega)
  have hoff : nodeSize - (key ++ back).length - piece.length =
      nodeSize - back.length - key.length - piece.length := by omega
  have hoff' : nodeSize - (piece ++ (key ++ back)).length - (littleEndian attributesSize attributes).length =
      nodeSize - back.length - key.length - piece.length - attributesSize := by omega
  have hentry : front.length + entrySize = (front ++
      OpenNode.header piece.length (nodeSize - back.length - key.length) key.length last deleted).length := by omega
  have hdata : nodeSize - back.length - key.length - piece.length - attributesSize =
      nodeSize - (littleEndian attributesSize attributes ++ (piece ++ (key ++ back))).length := by omega
  rw [hoff] at hputPiece
  rw [hoff'] at hputAttributes
  rw [add, require_of hne, ok_bind, require_of hlt, ok_bind, opened_some, if_neg (not_not.mpr hspace),
    copy_returns (by simp only [OpenNode.nextEntry, OpenNode.ofPage]; omega), ok_bind]
  simp only [OpenNode.copyValue, OpenNode.nextEntry, OpenNode.ofPage, Data.put, hputKey, hsize, hpiece]
  rw [require_of hsmall, ok_bind, copy_returns (by simp only; omega), ok_bind]
  simp only [pure, Except.pure, ok_bind, Data.put]
  rw [copy_returns (by simp only [hbytes]; omega), ok_bind]
  simp only [Data.put, hbytes, hlast, hputPiece, hputAttributes, hputHeader]
  simp only [hentry, hdata]

end NodeWriter

theorem storedNode_page {old front back : List Byte} {keyCount : Fin (2 ^ 16)} (hold : old.length = 2)
    {h : (old ++ front).length + back.length ≤ nodeSize}
    (h' : (littleEndian 2 keyCount.val ++ front).length + back.length ≤ nodeSize) :
    storedNode { node := some (.ofPage (old ++ front) back h keyCount) } =
      { data := ⟨page (littleEndian 2 keyCount.val ++ front) back, length_page h'⟩, keyCount := keyCount.val } := by
  have hstart := @splice_page_start front back (littleEndian 2 keyCount.val) old
    (by rw [hold, length_littleEndian])
  simp only [storedNode, NodeWriter.flush, NodeWriter.opened_some, OpenNode.ofPage, Data.put, hstart]

/-- The nodes, one of which was told what follows it. -/
def linkAt (next i : Nat) (nodes : List (Nat × Node)) : List (Nat × Node) :=
  nodes.modify i (fun p => (p.1, { p.2 with next := next }))

namespace Sink

/-- The sink with a node where it stood. -/
def holding (s : Sink) (z : Codec) (n : Node) (size l offset : Nat) (isLeaf : Bool) : Sink :=
  { s with
    file := s.file ++ image z n
    nodes := linkAt l (s.nodes.length - 1) s.nodes ++ [(l, n)]
    stats := { s.stats with
      compressedSize := s.stats.compressedSize + size
      uncompressedSize := s.stats.uncompressedSize + nodeSize
      totalNodes := s.stats.totalNodes + 1
      leafNodes := s.stats.leafNodes + isLeaf.toNat }
    begins := s.begins ++ [offset] }

/-- The size of the first node is kept, for the header. -/
def first (z : Codec) (n : Node) (size : Nat) : Sink :=
  holding { firstNodeSize := sizeField size true } z n size (0 <<< 16 ||| sizeField size true) 0 true

/-- The size of any other node stands before it. -/
def behind (s : Sink) (z : Codec) (n : Node) (size offset : Nat) (isLeaf : Bool) : Sink :=
  holding { s with file := s.file ++ littleEndian 2 (sizeField size isLeaf) } z n size
    (offset <<< 16 ||| sizeField size isLeaf) offset isLeaf

/-- The sink with a mark that no node follows. -/
def marked (s : Sink) : Sink := { s with file := s.file ++ littleEndian 2 invalidSize }

def ended (s : Sink) (i : Nat) : Sink :=
  { s.marked with nodes := linkAt invalidSize (s.nodes.length - 1) (linkAt invalidSize i s.nodes) }

theorem length_behind (s : Sink) (z : Codec) (n : Node) (size offset : Nat) (isLeaf : Bool) :
    (s.behind z n size offset isLeaf).file.length = s.file.length + 6 + (packed z n).length := by
  simp only [behind, holding, List.length_append, length_littleEndian, length_image]
  omega

theorem length_marked (s : Sink) : s.marked.file.length = s.file.length + 2 := by
  rw [marked, List.length_append, length_littleEndian]

end Sink

/-- An open node, the node that is stored of it and the size that this has. -/
structure Packs (z : Codec) (b : OpenNode) (n : Node) (size : Nat) : Prop where
  node_eq : storedNode { node := some b } = n
  size_eq : (packed z n).length = size
  pos : 0 < size
  le : size ≤ nodePageSize

section Store

variable {z : Codec} {s s' : Sink} {b : OpenNode} {n : Node} {size : Nat}

theorem write_returns {bytes : List Byte} (h : s.file.length + bytes.length < Storage.maxFileSize) :
    s.write bytes = .ok { s with file := s.file ++ bytes } := by
  rw [Sink.write, require_of h]
  rfl

theorem setNextAt_eq {next : Nat} (h : next ≠ 0) (i : Nat) (nodes : List (Nat × Node)) :
    setNextAt next i nodes = .ok (linkAt next i nodes) := by
  induction nodes generalizing i with
  | nil => cases i <;> rfl
  | cons p nodes ih =>
      cases i with
      | zero =>
          rw [setNextAt, Node.setNext, if_neg h]
          rfl
      | succ i =>
          rw [setNextAt, ih]
          rfl

theorem store_eq {isLeaf : Bool} {l : Nat} (h : Packs z b n size) (hwrite : s.writeSize size isLeaf = .ok s')
    (hlocation : location s'.size size isLeaf = .ok l) (hne : l ≠ 0)
    (hroom : s'.file.length + 4 + size < Storage.maxFileSize) :
    s.store z { node := some b } isLeaf = .ok (s'.holding z n size l s'.file.length isLeaf, {}, l) := by
  obtain ⟨rfl, hsize, hpos, hle⟩ := h
  have hmax : maxSize = 2 ^ 15 - 1 := rfl
  have hpage : nodePageSize = 8192 := rfl
  have hcrc := length_littleEndian 4 (z.crc32c (packed z (storedNode { node := some b }))).val
  have hbytes : packed z (storedNode { node := some b }) ≠ [] := List.ne_nil_of_length_pos (by omega)
  have hsize' : (z.compress ({ node := some b } : NodeWriter).flush.data.bytes).length = size := hsize
  rw [Sink.store, require_of ⟨hbytes, by omega⟩, ok_bind, require_of (by omega), ok_bind]
  simp only [hsize', hwrite, ok_bind, hlocation]
  rw [write_returns (by rw [length_littleEndian]; omega), ok_bind,
    write_returns (by rw [List.length_append, length_littleEndian]; omega), ok_bind]
  simp only [setNextAt_eq hne, ok_bind, NodeWriter.reset, List.append_assoc]
  rfl

theorem location_short {offset size : Nat} (isLeaf : Bool) (ho : offset < 2 ^ 16) (hs : size ≤ nodePageSize) :
    location (offset % 2 ^ 32) size isLeaf = .ok (offset <<< 16 ||| sizeField size isLeaf) := by
  have hmax : maxSize = 2 ^ 15 - 1 := rfl
  have hoffset : maxOffset = 2 ^ 48 := rfl
  have hpage : nodePageSize = 8192 := rfl
  have hmod : offset % 2 ^ 32 = offset := Nat.mod_eq_of_lt (by omega)
  rw [location, hmod, if_pos ⟨by omega, by omega⟩]

theorem location_ne_zero {offset size : Nat} (isLeaf : Bool) (h : 0 < size) (hs : size ≤ nodePageSize) :
    offset <<< 16 ||| sizeField size isLeaf ≠ 0 := by
  have hpage : nodePageSize = 8192 := rfl
  intro hzero
  have hfield := (Nat.or_eq_zero_iff.mp hzero).2
  rw [sizeField_eq (by omega)] at hfield
  omega

theorem length_addPadding (s : Sink) : s.file.length ≤ s.addPadding.file.length ∧
    s.addPadding.file.length < s.file.length + Storage.pageSize := by
  have hpage : Storage.pageSize = 4096 := rfl
  simp only [Sink.addPadding, List.length_append, Storage.padding, List.length_replicate, hpage]
  omega

theorem store_first (h : Packs z b n size) :
    ({} : Sink).store z { node := some b } true = .ok (Sink.first z n size, {}, 0 <<< 16 ||| sizeField size true) := by
  have hpage : nodePageSize = 8192 := rfl
  have hmax : 2 ^ 32 < Storage.maxFileSize := by decide
  have hle := h.le
  exact @store_eq z {} { firstNodeSize := sizeField size true } b n size true _ h rfl
    (location_short true (show 0 < 2 ^ 16 by decide) hle) (location_ne_zero true h.pos hle)
    (by simp only [List.length_nil]; omega)

theorem store_behind {isLeaf : Bool} {offset : Nat} (h : Packs z b n size) (hfirst : s.firstNodeSize ≠ invalidSize)
    (hoffset : s.file.length + 2 = offset) (hshort : offset < 2 ^ 16) :
    s.store z { node := some b } isLeaf =
      .ok (s.behind z n size offset isLeaf, {}, offset <<< 16 ||| sizeField size isLeaf) := by
  have hmax : 2 ^ 32 < Storage.maxFileSize := by decide
  have hpage : nodePageSize = 8192 := rfl
  have hle := h.le
  have hlen : (s.file ++ littleEndian 2 (sizeField size isLeaf)).length = offset := by
    rw [List.length_append, length_littleEndian, hoffset]
  have hwrite : s.writeSize size isLeaf =
      .ok { s with file := s.file ++ littleEndian 2 (sizeField size isLeaf) } := by
    rw [Sink.writeSize, if_pos hfirst, write_returns (by rw [length_littleEndian]; omega)]
  have hstore := @store_eq z s { s with file := s.file ++ littleEndian 2 (sizeField size isLeaf) } b n size isLeaf _ h
    hwrite (by rw [Sink.size, hlen]; exact location_short isLeaf hshort hle) (location_ne_zero isLeaf h.pos hle)
    (by rw [hlen]; omega)
  rw [hstore, hlen]
  rfl

theorem endChains_eq (i : Nat) (hroom : s.file.length + 2 < Storage.maxFileSize) :
    s.endChains i = .ok (s.ended i) := by
  have hne : invalidSize ≠ 0 := by decide
  rw [Sink.endChains, setNextAt_eq hne, ok_bind]
  simp only [setNextAt_eq hne, ok_bind, linkAt, List.length_modify]
  rw [write_returns (by rw [length_littleEndian]; exact hroom)]
  rfl

end Store

theorem length_header_page (w : SliceWriter) : w.header.length = headerSize := by
  simp only [SliceWriter.header, List.length_append, length_littleEndian]
  rfl

namespace SliceWriter

section Loop

variable {z : Codec} {p : Part} {newKey : Bool} {rounds : Nat} {w : SliceWriter} {value : List Byte}

theorem add_eq (hidx : p.idx < maxIdx) (hcheck : w.check p = .ok newKey) : w.add z rounds p =
      addLoop z p newKey rounds (if newKey = true ∧ w.firstKey = [] then { w with firstKey := p.key } else w) p.value
        >>= fun w' => .ok { w' with lastKey := p.key, lastEor := p.eor, keyCount := w'.keyCount + 1 } := by
  rw [add, require_of hidx, ok_bind, hcheck, ok_bind]
  rfl

theorem addLoop_whole {node : NodeWriter}
    (hadd : w.node.add p.key value p.eor p.deleted p.idx false = .ok (node, some value.length)) :
    addLoop z p newKey (rounds + 1) w value = .ok { w with node := node } := by
  rw [addLoop, hadd, ok_bind]
  simp only [Option.isSome_some, Option.getD_some, List.drop_length, and_self, if_true]

theorem addLoop_more {node : NodeWriter} {res : Option Nat}
    (hadd : w.node.add p.key value p.eor p.deleted p.idx false = .ok (node, res))
    (hmore : ¬ (res.isSome ∧ value.drop (res.getD 0) = [])) :
    addLoop z p newKey (rounds + 1) w value = nextLeaf z rounds { w with node := node } p.key newKey >>=
      fun w' => addLoop z p newKey rounds w' (value.drop (res.getD 0)) := by
  rw [addLoop, hadd, ok_bind]
  simp only [if_neg hmore]

theorem indexAdd_whole {s : Sink} {level : IndexLevel} {levels : List IndexLevel} {minKey maxKey : Key}
    {location : Nat} {node : NodeWriter}
    (hadd : level.node.add minKey maxKey true false location true = .ok (node, some maxKey.length)) :
    indexAdd z (rounds + 1) s (level :: levels) minKey maxKey location = .ok
      (s, ⟨node, if level.firstKey = [] then minKey else level.firstKey, maxKey⟩ :: levels) := by
  rw [indexAdd]
  simp only [List.headD_cons, hadd, ok_bind]
  rw [require_of trivial]
  rfl

theorem add_of {w' : SliceWriter} (hidx : p.idx < maxIdx) (hcheck : w.check p = .ok newKey)
    (hloop : addLoop z p newKey rounds
      (if newKey = true ∧ w.firstKey = [] then { w with firstKey := p.key } else w) p.value = .ok w') :
    w.add z rounds p = .ok { w' with lastKey := p.key, lastEor := p.eor, keyCount := w'.keyCount + 1 } := by
  rw [add, require_of hidx, ok_bind, hcheck, ok_bind]
  change (addLoop z p newKey rounds (if newKey = true ∧ w.firstKey = [] then _ else w) p.value >>= _) = _
  rw [hloop]
  rfl

/-- What a flush ends with: the header, with a page to itself. -/
def withHeader (w : SliceWriter) : SliceWriter :=
  let w₁ := { w with sink := w.sink.addPadding }
  { w₁ with sink := ({ w₁.sink with file := w₁.sink.file ++ w₁.header } : Sink).addPadding }

/-- The step of a full leaf, whose node was stored, over an index node that has
space for its keys. -/
theorem nextLeaf_stored {key : Key} {sink : Sink} {level : IndexLevel} {levels : List IndexLevel} {location : Nat}
    {node : NodeWriter} (hstore : w.sink.store z w.node true = .ok (sink, {}, location)) (hfirst : w.firstKey ≠ [])
    (hindex : w.index = level :: levels)
    (hadd : level.node.add w.firstKey w.lastKey true false location true = .ok (node, some w.lastKey.length)) :
    nextLeaf z (rounds + 1) w key newKey = .ok { w with
      sink := sink
      node := {}
      index := ⟨node, if level.firstKey = [] then w.firstKey else level.firstKey, w.lastKey⟩ :: levels
      firstKey := if newKey then key else []
      handed := w.handed ++ [⟨w.firstKey, w.lastKey, location⟩] } := by
  rw [nextLeaf, hstore, ok_bind]
  simp only [if_neg hfirst, handToIndex, hindex, indexAdd_whole hadd, ok_bind]
  rfl

/-- A writer with one level of index after its flush: the last leaf is stored, and
the index node behind it. -/
def closed (w : SliceWriter) (z : Codec) (level : IndexLevel) (n root : Node) (size offset rootSize rootOffset : Nat) :
    SliceWriter :=
  withHeader { w with
    sink := ((w.sink.behind z n size offset true).marked.behind z root rootSize rootOffset false).ended w.sink.nodes.length
    node := {}
    index := [level]
    root := rootOffset <<< 16 ||| sizeField rootSize false
    handed := w.handed ++ [⟨w.firstKey, w.lastKey, offset <<< 16 ||| sizeField size true⟩] }

theorem flush_closed {level : IndexLevel} {b c : OpenNode} {n root : Node} {size offset rootSize rootOffset : Nat}
    (hnode : w.node = { node := some b }) (hleaf : Packs z b n size) (hfirst : w.firstKey ≠ []) (heor : w.lastEor = true)
    (hbegun : w.sink.firstNodeSize ≠ invalidSize) (hoffset : w.sink.file.length + 2 = offset) (hindex : w.index = [level])
    (hadd : level.node.add w.firstKey w.lastKey true false (offset <<< 16 ||| sizeField size true) true =
      .ok ({ node := some c }, some w.lastKey.length))
    (hroot : Packs z c root rootSize) (hend : offset + size + 8 = rootOffset) (hshort : rootOffset < 2 ^ 16) :
    w.flush z (rounds + 1) = .ok (w.closed z
      ⟨{ node := some c }, if level.firstKey = [] then w.firstKey else level.firstKey, w.lastKey⟩ n root size offset
      rootSize rootOffset) := by
  have hmax : 2 ^ 32 < Storage.maxFileSize := by decide
  have hpage : Storage.pageSize = 4096 := rfl
  have hheader : headerSize = 58 := rfl
  have hnodePage : nodePageSize = 8192 := rfl
  have hrootLe := hroot.le
  let stored := w.sink.behind z n size offset true
  let rooted := stored.marked.behind z root rootSize rootOffset false
  have hstore : w.sink.store z w.node true = .ok (stored, {}, offset <<< 16 ||| sizeField size true) := by
    rw [hnode]
    exact store_behind hleaf hbegun hoffset (by omega)
  have hlen : stored.marked.file.length = offset + size + 6 := by
    rw [Sink.length_marked, Sink.length_behind, hleaf.size_eq]
    omega
  have hlen' : rooted.file.length = rootOffset + 4 + rootSize := by
    rw [Sink.length_behind, hlen, hroot.size_eq]
    omega
  have hrootStore : stored.marked.store z { node := some c } false =
      .ok (rooted, {}, rootOffset <<< 16 ||| sizeField rootSize false) :=
    store_behind hroot hbegun (by omega) hshort
  have hlast : stored.marked.nodes.length - 1 = w.sink.nodes.length := by
    simp only [stored, Sink.marked, Sink.behind, Sink.holding, List.length_append, List.length_singleton, linkAt,
      List.length_modify]
    omega
  have hends : rooted.endChains w.sink.nodes.length = .ok (rooted.ended w.sink.nodes.length) :=
    endChains_eq _ (by omega)
  have hpad := (length_addPadding (rooted.ended w.sink.nodes.length)).2
  have hmarked : (rooted.ended w.sink.nodes.length).file.length = rooted.file.length + 2 := Sink.length_marked rooted
  have hflush : indexFlush z (rounds + 1) stored.marked
      [⟨{ node := some c }, if level.firstKey = [] then w.firstKey else level.firstKey, w.lastKey⟩] =
        .ok (rooted, rootOffset <<< 16 ||| sizeField rootSize false) := by
    rw [indexFlush]
    simp only [List.headD_cons, hrootStore, ok_bind, List.tail_cons, if_true]
  have hwrite : stored.write (littleEndian 2 invalidSize) = .ok stored.marked :=
    write_returns (by rw [length_littleEndian, ← Sink.length_marked, hlen]; omega)
  rw [SliceWriter.flush, require_of heor, ok_bind, hstore, ok_bind]
  simp only [hwrite, ok_bind, if_neg hfirst, handToIndex, hindex, indexAdd_whole hadd, pure, Except.pure, hflush, hlast,
    hends]
  rw [write_returns (by rw [length_header_page]; omega)]
  rfl

theorem length_withHeader_le (w : SliceWriter) :
    w.withHeader.sink.file.length ≤ w.sink.file.length + 2 * Storage.pageSize + headerSize := by
  have hpad := (length_addPadding w.sink).2
  have hpad' := (length_addPadding { w.sink.addPadding with file := w.sink.addPadding.file ++
    ({ w with sink := w.sink.addPadding } : SliceWriter).header }).2
  simp only [List.length_append, length_header_page] at hpad'
  simp only [withHeader]
  omega

/-- The most that closing adds to the file. -/
theorem length_closed_le (w : SliceWriter) (z : Codec) (level : IndexLevel) (n root : Node)
    (size offset rootSize rootOffset : Nat) :
    (w.closed z level n root size offset rootSize rootOffset).sink.file.length ≤
      w.sink.file.length + (packed z n).length + (packed z root).length + 16 + 2 * Storage.pageSize + headerSize := by
  refine (length_withHeader_le _).trans ?_
  simp only [Sink.ended, Sink.length_marked, Sink.length_behind]
  omega

end Loop

end SliceWriter

end Tyrdbs.Slices
