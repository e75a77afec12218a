import Tyrdbs.Slices.RoundTrip

namespace Tyrdbs.Slices

open Bytes Outcome Runs

section Returns

variable {z : Codec} {s : Sink} {w : NodeWriter} {isLeaf : Bool}

theorem writeSize_returns {size : Nat} (hfirst : s.firstNodeSize ≠ invalidSize ∨ isLeaf = true)
    (hroom : s.file.length + 2 < Storage.maxFileSize) :
    ∃ s', s.writeSize size isLeaf = .ok s' ∧ s'.file.length ≤ s.file.length + 2 := by
  rw [Sink.writeSize]
  by_cases hne : s.firstNodeSize ≠ invalidSize
  · rw [if_pos hne, write_returns (by rw [length_littleEndian]; exact hroom)]
    refine ⟨_, rfl, ?_⟩
    rw [List.length_append, length_littleEndian]
  · rw [if_neg hne, require_of (hfirst.resolve_left hne)]
    exact ⟨_, rfl, Nat.le_add_right _ 2⟩

theorem location_returns {offset size : Nat} (ho : offset < maxOffset) (h1 : 1 ≤ size) (hs : size < maxSize) :
    ∃ l, location offset size isLeaf = .ok l ∧ l ≠ 0 := by
  have hmax : maxSize = 2 ^ 15 - 1 := rfl
  rw [location, if_pos ⟨ho, hs⟩]
  refine ⟨_, rfl, fun hzero => ?_⟩
  have hfield := (Nat.or_eq_zero_iff.mp hzero).2
  rw [sizeField_eq (by omega)] at hfield
  omega

theorem store_returns (hz : z.Bounded) (hfirst : s.firstNodeSize ≠ invalidSize ∨ isLeaf = true)
    (hroom : s.file.length + nodePageSize < Storage.maxFileSize) :
    ∃ s' location, s.store z w isLeaf = .ok (s', {}, location) ∧ Stores z s w isLeaf s' location := by
  have hpage : nodePageSize = 8192 := rfl
  have hbound : compressBound nodeSize = 8175 := rfl
  have hmax : maxSize = 2 ^ 15 - 1 := rfl
  have hoffset : maxOffset = 2 ^ 48 := rfl
  obtain ⟨hpos, hle⟩ := hz w.flush.data
  have hne : z.compress w.flush.data.bytes ≠ [] := List.ne_nil_of_length_pos hpos
  obtain ⟨s₁, hs₁, hlen⟩ := @writeSize_returns s isLeaf (z.compress w.flush.data.bytes).length hfirst (by omega)
  obtain ⟨l, hl, hzero⟩ := @location_returns isLeaf s₁.size (z.compress w.flush.data.bytes).length
    (by rw [Sink.size]; omega) hpos (by omega)
  have hcrc := length_littleEndian 4 (z.crc32c (z.compress w.flush.data.bytes)).val
  have hok : ∃ r, s.store z w isLeaf = .ok r := by
    rw [Sink.store, require_of ⟨hne, by omega⟩, ok_bind, require_of (by omega), ok_bind]
    simp only [hs₁, ok_bind, hl]
    rw [write_returns (by omega), ok_bind, write_returns (by rw [List.length_append]; omega), ok_bind]
    simp only [setNextAt_eq hzero, ok_bind, NodeWriter.reset]
    exact ⟨_, rfl⟩
  obtain ⟨⟨s', w', location⟩, hr⟩ := hok
  obtain ⟨hst, hw'⟩ := (store_yields z s w isLeaf).of_ok hr
  have hw' : w' = {} := hw'
  exact ⟨s', location, by rw [hr, hw'], hst⟩

theorem Stores.length_lt {s' : Sink} {location : Nat} (hz : z.Bounded) (h : Stores z s w isLeaf s' location) :
    s.file.length < s'.file.length ∧ s'.file.length < s.file.length + nodePageSize := by
  have hpage : nodePageSize = 8192 := rfl
  have hbound : compressBound nodeSize = 8175 := rfl
  have hle := (hz w.flush.data).2
  have hpart : (sizePart z s w isLeaf).length ≤ 2 := by
    rw [sizePart]
    split
    · rw [length_littleEndian]
    · exact Nat.zero_le 2
  have himage := length_image z (storedNode w)
  have hpacked : (packed z (storedNode w)).length = (z.compress w.flush.data.bytes).length := rfl
  rw [h.file_eq, List.length_append, List.length_append]
  omega

theorem Stores.first_ne {s' : Sink} {location : Nat} (h : Stores z s w isLeaf s' location) :
    s'.firstNodeSize ≠ invalidSize := by
  rw [h.first_eq]
  split
  · assumption
  · exact sizeField_ne_invalid h.size_lt isLeaf

end Returns

def wholeLeaf (eor : Bool) : Part := ⟨[97], List.replicate 8111 98, eor, false, 1⟩

theorem length_wholeLeaf (eor : Bool) : (wholeLeaf eor).value.length = 8111 := List.length_replicate

theorem wholeLeaf_space (b : OpenNode) (eor : Bool) :
    b.hasEnoughSpace (wholeLeaf eor).key (wholeLeaf eor).value false = decide (b.entryOffset + 1028 ≤ b.dataOffset) := by
  have hsize : (entrySize + 1 + attributesSize + max 16 (8111 >>> 3)) % 2 ^ 16 = 1028 := by decide
  simp only [OpenNode.hasEnoughSpace, length_wholeLeaf, Bool.false_eq_true, if_false]
  change decide (b.entryOffset + (entrySize + 1 + attributesSize + max 16 (8111 >>> 3)) % 2 ^ 16 ≤ _) = _
  rw [hsize]

def NodeWriter.Full (w : NodeWriter) : Prop := w.opened.entryOffset = 8 ∧ w.opened.dataOffset = 8

namespace SliceWriter

variable {z : Codec} {w : SliceWriter}

theorem addLoop_fits (eor newKey : Bool) (rounds : Nat) (hnode : w.node = {}) :
    ∃ b, addLoop z (wholeLeaf eor) newKey (rounds + 1) w (wholeLeaf eor).value =
      .ok { w with node := { node := some b } } ∧ NodeWriter.Full { node := some b } := by
  have hentry : w.node.opened.entryOffset = 2 := by
    rw [hnode]
    rfl
  have hdata : w.node.opened.dataOffset = 8128 := by
    rw [hnode]
    rfl
  have hlen := length_wholeLeaf eor
  have hkey : (wholeLeaf eor).key.length = 1 := rfl
  have hsix : entrySize = 6 := rfl
  have hattr : attributesSize = 8 := rfl
  have hmax : maxKeySize = 1024 := rfl
  have hspace : w.node.opened.hasEnoughSpace (wholeLeaf eor).key (wholeLeaf eor).value false = true := by
    rw [wholeLeaf_space, hentry, hdata]
    decide
  obtain ⟨b, hadd, hentry', hdata'⟩ := @NodeWriter.add_whole (wholeLeaf eor).key (wholeLeaf eor).value
    (wholeLeaf eor).eor (wholeLeaf eor).deleted false (wholeLeaf eor).idx w.node (List.cons_ne_nil _ _)
    (by omega) hspace hdata.le (by omega)
  refine ⟨b, ?_, hentry'.trans (by omega), hdata'.trans (by omega)⟩
  exact addLoop_whole hadd

theorem add_full_none (eor : Bool) (hfull : w.node.Full) :
    w.node.add (wholeLeaf eor).key (wholeLeaf eor).value (wholeLeaf eor).eor (wholeLeaf eor).deleted
      (wholeLeaf eor).idx false = .ok ({ node := some w.node.opened }, none) := by
  have hkey : (wholeLeaf eor).key.length = 1 := rfl
  have hmax : maxKeySize = 1024 := rfl
  refine NodeWriter.add_none (List.cons_ne_nil _ _) (by omega) ?_
  rw [wholeLeaf_space, hfull.1, hfull.2]
  decide

theorem addLoop_full (eor newKey : Bool) (rounds : Nat) (hfull : w.node.Full) :
    addLoop z (wholeLeaf eor) newKey (rounds + 1) w (wholeLeaf eor).value =
      nextLeaf z rounds { w with node := { node := some w.node.opened } } [97] newKey
        >>= fun w' => addLoop z (wholeLeaf eor) newKey rounds w' (wholeLeaf eor).value := by
  rw [addLoop, add_full_none eor hfull, ok_bind]
  simp only [Option.isSome_none, Bool.false_eq_true, false_and, if_false, Option.getD_none, List.drop_zero]
  rfl

theorem nextLeaf_returns (hz : z.Bounded) (hroom : w.sink.file.length + nodePageSize < Storage.maxFileSize)
    (rounds : Nat) (key : Key) (newKey : Bool) (hfirst : w.firstKey = []) :
    ∃ sink location, w.nextLeaf z rounds key newKey = .ok { w with sink := sink, node := {} } ∧
      Stores z w.sink w.node true sink location := by
  obtain ⟨sink, location, hstore, hst⟩ := @store_returns z w.sink w.node true hz (Or.inr rfl) hroom
  refine ⟨sink, location, ?_, hst⟩
  rw [nextLeaf, hstore, ok_bind]
  simp only [hfirst, if_true]

theorem check_wholeLeaf (eor : Bool) (hlast : w.lastKey = [97]) (heor : w.lastEor = false) :
    w.check (wholeLeaf eor) = .ok false := by
  have hkey : (wholeLeaf eor).key = [97] := rfl
  have hdeleted : (wholeLeaf eor).deleted = false := rfl
  simp [check, hkey, hdeleted, hlast, heor, require, maxKeySize, ok_bind]

structure Streaming (w : SliceWriter) : Prop where
  full : w.node.Full
  firstKey : w.firstKey = []
  index : w.index.tail = []
  lastKey : w.lastKey = [97]
  begun : w.sink.firstNodeSize ≠ invalidSize

theorem addLoop_again (hz : z.Bounded) (hfull : w.node.Full) (hfirst : w.firstKey = [])
    (hroom : w.sink.file.length + nodePageSize < Storage.maxFileSize) (eor : Bool) :
    ∃ sink b location, addLoop z (wholeLeaf eor) false 2 w (wholeLeaf eor).value =
      .ok { w with sink := sink, node := { node := some b } } ∧ NodeWriter.Full { node := some b } ∧
        Stores z w.sink { node := some w.node.opened } true sink location := by
  obtain ⟨sink, location, hnext, hst⟩ := @nextLeaf_returns z { w with node := { node := some w.node.opened } }
    hz hroom 1 [97] false hfirst
  obtain ⟨b, hloop, hb⟩ := @addLoop_fits z { w with sink := sink, node := {} } eor false 0 rfl
  refine ⟨sink, b, location, ?_, hb, hst⟩
  rw [addLoop_full eor false 1 hfull, hnext, ok_bind]
  exact hloop

theorem Streaming.add (hz : z.Bounded) (h : Streaming w) (heor : w.lastEor = false)
    (hroom : w.sink.file.length + nodePageSize < Storage.maxFileSize) (eor : Bool) :
    ∃ w', Adds z w (wholeLeaf eor) w' ∧ Streaming w' ∧ w'.lastEor = eor ∧
      w.sink.file.length < w'.sink.file.length ∧ w'.sink.file.length < w.sink.file.length + nodePageSize := by
  obtain ⟨sink, b, location, hloop, hb, hst⟩ := addLoop_again hz h.full h.firstKey hroom eor
  have hidx : (wholeLeaf eor).idx < maxIdx := show 1 < maxIdx by decide
  refine ⟨{ w with
    sink := sink
    node := { node := some b }
    lastKey := [97]
    lastEor := eor
    keyCount := w.keyCount + 1 }, ⟨2, ?_⟩, ⟨hb, h.firstKey, h.index, rfl, hst.first_ne⟩, rfl, hst.length_lt hz⟩
  rw [add_eq hidx (check_wholeLeaf eor h.lastKey heor), if_neg (fun hboth => Bool.false_ne_true hboth.1), hloop,
    ok_bind]
  rfl

theorem add_first : ∃ b, ({} : SliceWriter).add z 1 (wholeLeaf false) = .ok { ({} : SliceWriter) with
    node := { node := some b }, firstKey := [97], lastKey := [97], lastEor := false, keyCount := 1 } ∧
      NodeWriter.Full { node := some b } := by
  obtain ⟨b, hloop, hb⟩ := @addLoop_fits z { ({} : SliceWriter) with firstKey := [97] } false true 0 rfl
  have hidx : (wholeLeaf false).idx < maxIdx := show 1 < maxIdx by decide
  have hcheck : ({} : SliceWriter).check (wholeLeaf false) = .ok true := by
    have hkey : (wholeLeaf false).key = [97] := rfl
    have hdeleted : (wholeLeaf false).deleted = false := rfl
    simp [check, hkey, hdeleted, require, maxKeySize, ok_bind]
  refine ⟨b, ?_, hb⟩
  rw [add_eq hidx hcheck, if_pos ⟨rfl, rfl⟩]
  change (addLoop z (wholeLeaf false) true 1 { ({} : SliceWriter) with firstKey := [97] } _ >>= _) = _
  rw [hloop, ok_bind]
  rfl

theorem handToIndex_first {location : Nat} (hfirst : w.firstKey = [97]) (hlast : w.lastKey = [97])
    (hindex : w.index = [{}]) :
    ∃ level, w.handToIndex z 1 location =
      .ok { w with index := [level], handed := w.handed ++ [⟨w.firstKey, w.lastKey, location⟩] } := by
  obtain ⟨b, hadd, -⟩ := @NodeWriter.add_whole [97] [97] true false true location {} (List.cons_ne_nil _ _)
    (by decide) (by decide) (by decide) (by decide)
  refine ⟨⟨{ node := some b }, [97], [97]⟩, ?_⟩
  rw [handToIndex, hindex, hfirst, hlast, indexAdd]
  simp only [List.headD_cons, List.tail_cons, if_true, hadd, ok_bind]
  rfl

theorem add_second (hz : z.Bounded) {b : OpenNode} (hb : NodeWriter.Full { node := some b }) :
    ∃ w', Adds z { ({} : SliceWriter) with
        node := { node := some b }, firstKey := [97], lastKey := [97], lastEor := false, keyCount := 1 }
      (wholeLeaf false) w' ∧ Streaming w' ∧ w'.lastEor = false ∧ w'.sink.file.length < nodePageSize := by
  obtain ⟨sink, location, hstore, hst⟩ := @store_returns z {} { node := some b } true hz (Or.inr rfl) (by decide)
  obtain ⟨level, hhand⟩ := @handToIndex_first z { ({} : SliceWriter) with
    sink := sink, node := {}, firstKey := [97], lastKey := [97], lastEor := false, keyCount := 1 } location rfl rfl rfl
  obtain ⟨b', hloop, hb'⟩ := @addLoop_fits z { ({} : SliceWriter) with
    sink := sink, node := {}, index := [level], lastKey := [97], lastEor := false, keyCount := 1,
    handed := [⟨[97], [97], location⟩] } false false 0 rfl
  have hidx : (wholeLeaf false).idx < maxIdx := show 1 < maxIdx by decide
  have hlen := (hst.length_lt hz).2
  refine ⟨{ ({} : SliceWriter) with
    sink := sink, node := { node := some b' }, index := [level], lastKey := [97], lastEor := false, keyCount := 2,
    handed := [⟨[97], [97], location⟩] }, ⟨2, ?_⟩, ⟨hb', rfl, rfl, rfl, hst.first_ne⟩, rfl, hlen⟩
  have hnext : nextLeaf z 1 { ({} : SliceWriter) with
      node := { node := some b }, firstKey := [97], lastKey := [97], lastEor := false, keyCount := 1 } [97] false =
      .ok { ({} : SliceWriter) with
        sink := sink, node := {}, index := [level], lastKey := [97], lastEor := false, keyCount := 1,
        handed := [⟨[97], [97], location⟩] } := by
    rw [nextLeaf, hstore, ok_bind]
    simp only [List.cons_ne_nil, if_false, hhand, ok_bind]
    rfl
  rw [add_eq hidx (check_wholeLeaf false rfl rfl), if_neg (fun hboth => Bool.false_ne_true hboth.1),
    addLoop_full false false 1 hb]
  change (nextLeaf z 1 { ({} : SliceWriter) with
    node := { node := some b }, firstKey := [97], lastKey := [97], lastEor := false, keyCount := 1 } [97] false
      >>= _) >>= _ = _
  rw [hnext, ok_bind, hloop, ok_bind]
  rfl

theorem Streaming.flush (hz : z.Bounded) (h : Streaming w) (heor : w.lastEor = true)
    (hroom : w.sink.file.length + 5 * nodePageSize < Storage.maxFileSize) :
    ∃ w', Flushes z w w' ∧ w.sink.file.length ≤ w'.sink.file.length ∧
      w'.sink.file.length < w.sink.file.length + 5 * nodePageSize := by
  have hpage : Storage.pageSize = 4096 := rfl
  have hnode : nodePageSize = 8192 := rfl
  have hheader : headerSize = 58 := rfl
  have hlen := length_littleEndian 2 invalidSize
  obtain ⟨s₁, l₁, hs₁, hst₁⟩ := @store_returns z w.sink w.node true hz (Or.inr rfl) (by omega)
  obtain ⟨hlow₁, hhigh₁⟩ := hst₁.length_lt hz
  obtain ⟨s₂, hs₂, hlen₂⟩ : ∃ s₂ : Sink, s₂ = { s₁ with file := s₁.file ++ littleEndian 2 invalidSize } ∧
      s₂.file.length = s₁.file.length + 2 := ⟨_, rfl, by simp only [List.length_append, hlen]⟩
  have hfirst : s₂.firstNodeSize ≠ invalidSize := by
    rw [hs₂]
    exact hst₁.first_ne
  obtain ⟨s₃, root, hs₃, hst₃⟩ := @store_returns z s₂ (w.index.headD {}).node false hz (Or.inl hfirst) (by omega)
  obtain ⟨hlow₃, hhigh₃⟩ := hst₃.length_lt hz
  obtain ⟨s₄, hs₄, hlen₄⟩ : ∃ s₄, s₃.endChains (s₂.nodes.length - 1) = .ok s₄ ∧ s₄.file.length = s₃.file.length + 2 :=
    ⟨_, endChains_eq _ (by omega), Sink.length_marked s₃⟩
  obtain ⟨hlow₅, hhigh₅⟩ := length_addPadding s₄
  have hflush : indexFlush z 1 s₂ w.index = .ok (s₃, root) := by
    rw [indexFlush, hs₃, ok_bind]
    simp only [h.index, if_true]
  have hwrite : s₄.addPadding.write
      ({ w with sink := s₄.addPadding, node := {}, root := root } : SliceWriter).header =
      .ok { s₄.addPadding with file := s₄.addPadding.file ++
        ({ w with sink := s₄.addPadding, node := {}, root := root } : SliceWriter).header } :=
    write_returns (by rw [length_header_page]; omega)
  obtain ⟨hlow₆, hhigh₆⟩ := length_addPadding { s₄.addPadding with file := s₄.addPadding.file ++
    ({ w with sink := s₄.addPadding, node := {}, root := root } : SliceWriter).header }
  simp only [List.length_append, length_header_page] at hlow₆ hhigh₆
  refine ⟨{ w with
    sink := ({ s₄.addPadding with file := s₄.addPadding.file ++
      ({ w with sink := s₄.addPadding, node := {}, root := root } : SliceWriter).header } : Sink).addPadding
    node := {}
    root := root }, ⟨1, ?_⟩, by simp only; omega, by simp only; omega⟩
  rw [SliceWriter.flush, require_of heor, ok_bind, hs₁, ok_bind]
  simp only
  rw [write_returns (by rw [hlen]; omega), ok_bind, ← hs₂]
  simp only [h.firstKey] at hwrite ⊢
  simp only [if_true, ok_bind, hflush, hs₄, hwrite]
  rfl

theorem exists_streaming (hz : z.Bounded) : ∃ ts w, Run (Adds z) {} ts w ∧ Streaming w ∧ w.lastEor = false ∧
    w.sink.file.length < nodePageSize := by
  obtain ⟨b, hfirst, hb⟩ := @add_first z
  obtain ⟨w, hsecond, hw, heor, hlen⟩ := add_second hz hb
  exact ⟨_, w, Run.tail (Run.tail Run.refl ⟨1, hfirst⟩) hsecond, hw, heor, hlen⟩

theorem exists_long (hz : z.Bounded) {size : Nat} (hsize : nodePageSize ≤ size)
    (hroom : size + nodePageSize < Storage.maxFileSize) :
    ∃ ts w, Run (Adds z) {} ts w ∧ Streaming w ∧ w.lastEor = false ∧ size ≤ w.sink.file.length ∧
      w.sink.file.length < size + nodePageSize := by
  have hreach : ∀ n, ∃ ts w, Run (Adds z) {} ts w ∧ Streaming w ∧ w.lastEor = false ∧
      (size ≤ w.sink.file.length ∧ w.sink.file.length < size + nodePageSize ∨
        n ≤ w.sink.file.length ∧ w.sink.file.length < size) := by
    intro n
    induction n with
    | zero =>
        obtain ⟨ts, w, hrun, hw, heor, hlen⟩ := exists_streaming hz
        exact ⟨ts, w, hrun, hw, heor, Or.inr ⟨Nat.zero_le _, lt_of_lt_of_le hlen hsize⟩⟩
    | succ n ih =>
        obtain ⟨ts, w, hrun, hw, heor, hdone | ⟨hn, hlt⟩⟩ := ih
        · exact ⟨ts, w, hrun, hw, heor, Or.inl hdone⟩
        · obtain ⟨w', hadd, hw', heor', hlow, hhigh⟩ := hw.add hz heor (by omega) false
          refine ⟨_, w', Run.tail hrun hadd, hw', heor', ?_⟩
          by_cases hreached : size ≤ w'.sink.file.length
          · exact Or.inl ⟨hreached, by omega⟩
          · exact Or.inr ⟨by omega, by omega⟩
  obtain ⟨ts, w, hrun, hw, heor, hdone | ⟨hn, hlt⟩⟩ := hreach size
  · exact ⟨ts, w, hrun, hw, heor, hdone⟩
  · omega

theorem exists_written (hz : z.Bounded) {size : Nat} (hsize : nodePageSize ≤ size)
    (hroom : size + 7 * nodePageSize < Storage.maxFileSize) :
    ∃ ts w w', Run (Adds z) {} ts w ∧ Flushes z w w' ∧ size ≤ w'.sink.file.length ∧
      w'.sink.file.length < size + 7 * nodePageSize := by
  obtain ⟨ts, w, hrun, hw, heor, hlow, hhigh⟩ := exists_long hz hsize (by omega)
  obtain ⟨w₁, hadd, hw₁, heor₁, hlow₁, hhigh₁⟩ := hw.add hz heor (by omega) true
  obtain ⟨w₂, hflush, hlow₂, hhigh₂⟩ := hw₁.flush hz heor₁ (by omega)
  exact ⟨_, w₁, w₂, Run.tail hrun hadd, hflush, by omega, by omega⟩

end SliceWriter

end Tyrdbs.Slices
