import Tyrdbs.Slices.Views
import Tyrdbs.Slices.Lz4RoundTrip
import Tyrdbs.Slices.SmallNodes

namespace Tyrdbs.Slices

open Bytes Outcome SpanTree Runs

/-- slice::begin, and what its iterator yields until it ends. -/
def Slice.scan (z : Codec) (t : Slice) (rounds : Nat) : Except Fault (List Part) := do
  let it ← t.begin z
  match it with
  | none => .ok []
  | some it => it.drain z t rounds rounds

section Header

variable {z : Codec} {w w' : SliceWriter} {leaves : List (Nat × List Entry)} {cur : List Entry}

theorem Flushed.length_eq (h : Flushed z w w' leaves cur) :
    ∃ file : List Byte, file ≠ [] ∧ file.length % Storage.pageSize = 0 ∧
      w'.sink.file.length = file.length + Storage.pageSize ∧
      slice w'.sink.file file.length headerSize = w'.header := by
  obtain ⟨file, hmod, hne, heq⟩ := h.page
  have hlen := length_header_page w'
  have hsize : headerSize = 58 := rfl
  have hpage : Storage.pageSize = 4096 := rfl
  refine ⟨file, hne, hmod, ?_, ?_⟩
  · have hpad : (Storage.padding (file ++ w'.header)).length = 4038 := by
      rw [Storage.padding, List.length_replicate, List.length_append, hlen, hsize, hpage]
      rw [hpage] at hmod
      omega
    rw [heq, List.length_append, List.length_append, hpad, hlen, hsize, hpage]
  · have hwhole := slice_zero_length w'.header
    rw [hlen] at hwhole
    rw [heq, List.append_assoc, slice_append_right le_rfl, Nat.sub_self, slice_append_left (by omega), hwhole]

theorem slice_header (w : SliceWriter) (hk : w.keyCount < 2 ^ 64) (hr : w.root < 2 ^ 64)
    (hf : w.sink.firstNodeSize < 2 ^ 16) :
    fromLittleEndian (slice w.header 0 8) = signature ∧ fromLittleEndian (slice w.header 8 8) = w.root ∧
      fromLittleEndian (slice w.header 16 2) = w.sink.firstNodeSize ∧
      fromLittleEndian (slice w.header 18 8) = w.keyCount := by
  have hwhole : ∀ n v, slice (littleEndian n v) 0 n = littleEndian n v := fun n v => by
    have hz := slice_zero_length (littleEndian n v)
    rwa [length_littleEndian] at hz
  simp only [SliceWriter.header, List.append_assoc]
  refine ⟨?_, ?_, ?_, ?_⟩
  · rw [slice_append_left (by simp), hwhole]
    exact fromLittleEndian_littleEndian 8 _ (by decide)
  · rw [slice_append_right (by simp), slice_append_left (by simp), length_littleEndian, hwhole]
    exact fromLittleEndian_littleEndian 8 _ hr
  · rw [slice_append_right (by simp), slice_append_right (by simp), slice_append_left (by simp)]
    simp only [length_littleEndian]
    rw [hwhole]
    exact fromLittleEndian_littleEndian 2 _ (by omega)
  · rw [slice_append_right (by simp), slice_append_right (by simp), slice_append_right (by simp),
      slice_append_left (by simp)]
    simp only [length_littleEndian]
    rw [hwhole]
    exact fromLittleEndian_littleEndian 8 _ hk

theorem ofFile_commit (h : Flushed z w w' leaves cur) (hsmall : w'.sink.file.length < 2 ^ 32)
    (hk : w'.keyCount < 2 ^ 64) (hf : w'.sink.firstNodeSize < 2 ^ 16) (cached : Nat → Option Node)
    (stale : Nat → List Byte) :
    Slice.ofFile w'.sink.file cached stale = .ok (w'.commit cached stale) := by
  obtain ⟨file, hne, hmod, hlen, hslice⟩ := h.length_eq
  have hpage : Storage.pageSize = 4096 := rfl
  have hpos : 0 < file.length := List.length_pos_iff.mpr hne
  have hsize : w'.sink.file.length % 2 ^ 32 = w'.sink.file.length := Nat.mod_eq_of_lt hsmall
  have hoff : Slice.headerOffset w'.sink.file = file.length := by
    rw [Slice.headerOffset, hsize, hlen, Nat.add_sub_cancel]
  have haligned : w'.sink.file.length % Storage.pageSize = 0 := by
    rw [hlen, Nat.add_mod_right, hmod]
  have hread : pread w'.sink.file file.length headerSize = .ok w'.header := by
    rw [pread, if_pos (by omega), hslice]
  obtain ⟨hsig, hroot, hfirst, hcount⟩ := slice_header w' hk h.root.1 hf
  rw [Slice.ofFile, hsize, hoff, require_of haligned, require_of (by omega), hread]
  simp only [bind, Except.bind]
  rw [require_of hsig, hroot, hfirst, hcount]
  rfl

end Header

section Sizes

variable {z : Codec} {s : Sink}

theorem length_entries_lt (h : Laid z s) {p : Nat × Node} (hp : p ∈ s.nodes) :
    p.2.entries.length < 2 ^ 16 := by
  rw [p.2.length_entries, ← (h.imaged p hp).keyCount_eq, Data.u16At]
  exact (fromLittleEndian_lt _).trans_le (Nat.pow_le_pow_right (by decide) (length_slice_le _ 0 2))

theorem length_leaves_le (h : Laid z s) :
    ((leavesOf s.nodes).flatMap Prod.snd).length ≤ s.file.length * 2 ^ 16 := by
  rw [List.length_flatMap]
  have hsum := List.sum_le_card_nsmul ((leavesOf s.nodes).map (fun p => p.2.length)) (2 ^ 16) ?_
  · rw [List.length_map, nsmul_eq_mul, Nat.cast_id] at hsum
    refine hsum.trans (Nat.mul_le_mul_right _ ((List.length_filter_le _ _).trans ?_))
    rw [contents, List.length_map]
    exact h.length_le
  · intro n hn
    obtain ⟨q, hq, rfl⟩ := List.mem_map.mp hn
    obtain ⟨p, hp, rfl⟩ := List.mem_map.mp (List.mem_filter.mp hq).1
    exact (length_entries_lt h hp).le

theorem Cut.length_le {parts out : List Part} (h : Cut parts out) : parts.length ≤ out.length := by
  obtain ⟨cs, rfl, hcs, rfl⟩ := h
  induction cs with
  | nil => exact le_rfl
  | cons c cs ih =>
      have hpieces : ∀ vs, (pieces c.1 vs).length = vs.length := fun vs => by
        induction vs with
        | nil => rfl
        | cons v vs ih => rw [pieces, List.length_cons, ih, List.length_cons]
      have hpos := List.length_pos_iff.mpr (hcs c (List.mem_cons_self ..)).1
      have hrest := ih (fun c hc => hcs c (List.mem_cons_of_mem _ hc))
      rw [List.map_cons, List.length_cons, List.flatMap_cons, List.length_append, hpieces]
      omega

end Sizes

section Scan

variable {z : Codec} {w w' : SliceWriter} {parts : List Part} {leaves : List (Nat × List Entry)}
  {cur : List Entry} {t : Slice} (hz : z.Lossless)

theorem Flushed.firstNodeSize_lt (h : Flushed z w w' leaves cur) (hsmall : w'.sink.file.length < 2 ^ 32) :
    w'.sink.firstNodeSize < 2 ^ 16 := by
  obtain ⟨data, index, hfinished, -⟩ := h.finished hsmall
  obtain ⟨p, rest, rfl⟩ := List.exists_cons_of_ne_nil hfinished.data_ne
  exact (hfinished.head p rfl).size_lt

variable (hold : Holding z w parts leaves cur) (hflush : Flushed z w w' leaves cur)

include hold hflush

theorem leaves_full (hne : parts ≠ []) : ∀ q ∈ leavesOf w'.sink.nodes, q.2 ≠ [] := by
  obtain ⟨location, hleaves, -⟩ := hflush.last
  rw [hleaves]
  exact List.forall_mem_append.mpr ⟨hold.full, List.forall_mem_singleton.mpr (hold.cur_ne hne)⟩

variable (hsmall : w'.sink.file.length < 2 ^ 32)

include hsmall

theorem keyCount_lt : w'.keyCount < 2 ^ 64 := by
  obtain ⟨data, index, hfinished, -⟩ := hflush.finished hsmall
  obtain ⟨location, hleaves, -⟩ := hflush.last
  have hcut := hold.cut.length_le
  have hlen := length_leaves_le hfinished.toLaid
  rw [hleaves, List.flatMap_append, List.flatMap_singleton] at hlen
  rw [stream, List.length_map] at hcut
  simp only at hlen
  rw [hflush.keyCount_eq, hold.keyCount_eq]
  omega

include hz

theorem scan_stream (hne : parts ≠ []) (hv : Views z w' t)
    (hfit : ∀ p ∈ w'.sink.nodes, (packed z p.2).length ≤ nodeSize) :
    ∃ bound, ∀ rounds ≥ bound, t.scan z rounds = .ok (stream leaves cur) := by
  obtain ⟨data, index, hfinished, hdata, -⟩ := hflush.finished hsmall
  obtain ⟨location, hleaves, -⟩ := hflush.last
  have hfull : ∀ q ∈ leavesOf data, q.2 ≠ [] := hdata ▸ leaves_full hold hflush hne
  have hchained := chained_data hz hfinished hsmall hfit hv
  obtain ⟨p, rest, rfl⟩ := List.exists_cons_of_ne_nil hfinished.data_ne
  have hhead := hfinished.head p rfl
  obtain ⟨⟨n, hload, hentries, hnext⟩, hrest⟩ := id hchained
  have hmem : ∀ q ∈ contents (p :: rest), isLeafFrom q.1 = true → q.2 ≠ [] := fun q hq hl =>
    hfull q (List.mem_filter.mpr ⟨hq, hl⟩)
  have hfirst : p.2.entries ≠ [] := hmem (p.1, p.2.entries) (List.mem_cons_self ..) hhead.leaf
  have hall : p.2.entries.drop 0 ++ leafEntries (contents rest) = leaves.flatMap Prod.snd ++ cur := by
    rw [List.drop_zero]
    have hcons := @leafEntries_cons (p.1, p.2.entries) (contents rest) hhead.leaf
    rw [← hcons]
    show (leavesOf (p :: rest)).flatMap Prod.snd = _
    rw [hdata, hleaves, List.flatMap_append, List.flatMap_singleton]
  have hcount : t.keyCount ≠ 0 := by
    rw [hv.keyCount_eq, hflush.keyCount_eq, hold.keyCount_eq]
    exact fun h => hne (List.length_eq_zero_iff.mp h)
  have hlocation : locationAt 0 t.firstNodeSize = .ok p.1 := by
    rw [hv.firstNodeSize_eq, locationAt, if_pos (by decide), Nat.zero_shiftLeft, Nat.zero_or,
      hhead.location_eq]
  refine ⟨(contents rest).length + (leaves.flatMap Prod.snd ++ cur).length + 1, fun rounds hr => ?_⟩
  obtain ⟨it, hit, hdrain⟩ := @drain_iteratorAt z t n (p.1, p.2.entries) (contents rest) rounds rounds 0 (by omega)
    hchained hload (fun q hq => hmem q (List.mem_cons_of_mem _ hq)) (List.length_pos_iff.mpr hfirst)
    (by rw [hall]; omega)
  have hbegin : t.begin z = .ok (some it) := by
    rw [Slice.begin, if_neg hcount, hlocation]
    simp only [bind, Except.bind, hload, hit]
    rfl
  rw [Slice.scan, hbegin]
  simp only [bind, Except.bind]
  rw [hdrain, hall, stream]

end Scan

section Records

variable {z : Codec} {w w' : SliceWriter} {ts : List (SliceWriter × Part × SliceWriter)}

/-- What a committed slice needs of its codec and its sizes to be read. -/
structure Readable (z : Codec) (s : Sink) : Prop where
  lossless : z.Lossless
  small : s.file.length < 2 ^ 32
  fits : ∀ p ∈ s.nodes, (packed z p.2).length ≤ nodeSize

/-- A cache that keeps what the writer's stores put there, or what was loaded. -/
def Admits (z : Codec) (s : Sink) (cached : Nat → Option Node) (stale : Nat → List Byte) : Prop :=
  ∀ l n, cached l = some n → (l, n) ∈ s.nodes ∨ loadNode z s.file (stale l) l = .ok n

/-- What was added are the parts of records; a scan of the slice, committed or
re-opened, shows the same records, perhaps cut into other parts. -/
theorem slice_round_trip (hrun : Run (SliceWriter.Adds z) {} ts w) (hflush : SliceWriter.Flushes z w w')
    (hidx : ∀ p ∈ calls ts, ∀ q ∈ calls ts, p.key = q.key → p.idx = q.idx) (hread : Readable z w'.sink) :
    ∃ ws rs : List Record, calls ts = ws.flatMap Record.parts ∧
      ws.Pairwise (fun w w' => w.key < w'.key) ∧ rs.map Record.version = ws.map Record.version ∧
      ∀ cached stale, Admits z w'.sink cached stale →
        Slice.ofFile w'.sink.file cached stale = .ok (w'.commit cached stale) ∧
        ∃ bound, ∀ rounds ≥ bound,
          (w'.commit cached stale).scan z rounds = .ok (rs.flatMap Record.parts) := by
  obtain ⟨leaves, cur, hold⟩ := run_holding hrun
  obtain ⟨rounds, hok⟩ := hflush
  have hf := (hold.flush rounds).of_ok hok
  obtain ⟨cs, hcs, hpieces, hstream⟩ := hold.cut
  have haccepted := hold.accepted
  rw [← hcs] at haccepted
  have hgroup := (grouped_of_accepted haccepted hf.lastEor_eq hpieces (fun c hc c' hc' =>
    hidx c.1 (hcs ▸ List.mem_map_of_mem hc) c'.1 (hcs ▸ List.mem_map_of_mem hc'))).1 rfl
  rw [hcs, ← hstream] at hgroup
  obtain ⟨ws, rs, hws, hrs, hversions, hsorted, -⟩ := hgroup
  refine ⟨ws, rs, hws, hsorted, hversions, fun cached stale hadmits => ⟨?_, ?_⟩⟩
  · exact ofFile_commit hf hread.small (keyCount_lt hold hf hread.small) (hf.firstNodeSize_lt hread.small) _ _
  rw [← hrs]
  by_cases hne : calls ts = []
  · have hnone : cs = [] := List.map_eq_nil_iff.mp (hcs.trans hne)
    have hcount : w'.keyCount = 0 := by rw [hf.keyCount_eq, hold.keyCount_eq, hne, List.length_nil]
    refine ⟨0, fun rounds _ => ?_⟩
    rw [Slice.scan, Slice.begin, if_pos (show (w'.commit cached stale).keyCount = 0 from hcount), hstream, hnone]
    rfl
  · exact scan_stream hread.lossless hold hf hread.small hne (views_commit w' stale hadmits) hread.fits

theorem Laid.readable {s : Sink} (h : Laid z s) (hz : z.Lossless) (hsmall : s.file.length < 2 ^ 32)
    (hs : ∀ p ∈ s.nodes, sizeFrom p.1 ≤ nodeSize) : Readable z s := by
  refine ⟨hz, hsmall, fun p hp => ?_⟩
  have hmax : maxSize = 2 ^ 15 - 1 := rfl
  have hlt := (h.imaged p hp).size_lt
  obtain ⟨isLeaf, hloc⟩ := (h.imaged p hp).location_eq
  have hle := hs p hp
  rwa [hloc, sizeFrom_or _ (by omega)] at hle

def Sink.cache (s : Sink) (l : Nat) : Option Node := (s.nodes.find? (fun p => p.1 = l)).map Prod.snd

theorem admits_cache (z : Codec) (s : Sink) (stale : Nat → List Byte) : Admits z s s.cache stale := by
  intro l n h
  obtain ⟨p, hp, rfl⟩ := Option.map_eq_some_iff.mp h
  have hl : p.1 = l := by simpa using List.find?_some hp
  left
  rw [← hl]
  exact List.mem_of_find?_eq_some hp

def twoLeaves : List Part :=
  [⟨[97], List.replicate 8000 98, true, false, 1⟩, ⟨[99], List.replicate 8000 100, true, false, 1⟩]

def oneAdded (v : List Byte) (hv : v.length ≤ 8111) : SliceWriter where
  node := { node := some (alone 1 v hv 97 true) }
  firstKey := [97]
  lastKey := [97]
  keyCount := 1

def closedTwo (z : Codec) (v v' : List Byte) (hv : v.length ≤ 8111) (hv' : v'.length ≤ 8111) : SliceWriter :=
  SliceWriter.closed (.inSecond z (aloneNode 1 v hv 97 true (2 ^ 64 - 1)) 59 (alone 1 v' hv' 99 true) [97] (by decide) 99 2)
    z ⟨{ node := some (SliceWriter.pair 32827 4292667 [97] (by decide) 99) }, [97], [99]⟩
    (aloneNode 1 v' hv' 99 true (2 ^ 64 - 1)) (SliceWriter.pairNode 32827 4292667 [97] (by decide) 99 (2 ^ 64 - 1))
    59 65 70 132

section Two

variable {v v' : List Byte} (hv : v.length = 8000) (hv' : v'.length = 8000)

include hv

theorem length_le_leaf : v.length ≤ 8111 := by omega

theorem fits_reset (key : Byte) : TakesWhole OpenNode.internalReset ⟨[key], v, true, false, 1⟩ := by
  refine ⟨?_, ?_⟩
  · simp only [OpenNode.hasEnoughSpace, hv, List.length_singleton]
    decide
  · simp only [NodeWriter.partOf, hv, List.length_singleton]
    decide

theorem add_leaf (key : Byte) : NodeWriter.add {} [key] v true false 1 false =
    .ok ({ node := some (alone 1 v (length_le_leaf hv) key true) }, some v.length) :=
  @add_alone v v key 1 false true true (fits_reset hv key).1 (by rw [hv]; rfl) (List.take_length ..) (by omega)
    (by rw [decide_eq_true rfl]; rfl)

include hv'

theorem full_leaf : (alone 1 v (length_le_leaf hv) 97 true).hasEnoughSpace [99] v' false = false := by
  have hback := SliceWriter.length_aloneBack 1 v 97
  simp only [OpenNode.hasEnoughSpace, alone, OpenNode.ofPage, hback, hv, hv']
  decide

theorem two_leaves
    (h₁ : (packed z (aloneNode 1 v (length_le_leaf hv) 97 true (2 ^ 64 - 1))).length = 59)
    (h₂ : (packed z (aloneNode 1 v' (length_le_leaf hv') 99 true (2 ^ 64 - 1))).length = 59)
    (h₃ : (packed z (SliceWriter.pairNode 32827 4292667 [97] (by decide) 99 (2 ^ 64 - 1))).length = 70) :
    ∃ ts w, Run (SliceWriter.Adds z) {} ts w ∧
      calls ts = [⟨[97], v, true, false, 1⟩, ⟨[99], v', true, false, 1⟩] ∧
      SliceWriter.Flushes z w (closedTwo z v v' (length_le_leaf hv) (length_le_leaf hv')) ∧
      ∀ t ∈ ts, t.1.Whole t.2.1 := by
  have hfirst : ({} : SliceWriter).add z 8 ⟨[97], v, true, false, 1⟩ = .ok (oneAdded v (length_le_leaf hv)) := by
    have hcheck : ({} : SliceWriter).check ⟨[97], v, true, false, 1⟩ = .ok true := by
      simp [SliceWriter.check, require, maxKeySize, ok_bind]
    exact SliceWriter.add_of (show 1 < maxIdx by decide) hcheck (SliceWriter.addLoop_whole (add_leaf hv 97))
  have hcheck : (oneAdded v (length_le_leaf hv)).check ⟨[99], v', true, false, 1⟩ = .ok true := by
    simp [oneAdded, SliceWriter.check, require, maxKeySize, ok_bind]
    decide
  have hnone := @NodeWriter.add_none [99] v' true false false 1 (oneAdded v (length_le_leaf hv)).node
    (List.cons_ne_nil _ _) (show 1 < maxKeySize by decide) (full_leaf hv hv')
  have hleaf : Packs z (alone 1 v (length_le_leaf hv) 97 true) _ 59 :=
    ⟨storedNode_alone (length_le_leaf hv) 97 true, h₁, by decide, by decide⟩
  have hnext := @SliceWriter.nextLeaf_first z _ (alone 1 v (length_le_leaf hv) 97 true) [97] 99 59 2
    (oneAdded v (length_le_leaf hv)) 6 (by decide) rfl rfl rfl rfl rfl rfl hleaf
  have hloop : SliceWriter.addLoop z ⟨[99], v', true, false, 1⟩ true 8 (oneAdded v (length_le_leaf hv)) v' = .ok
      { SliceWriter.inSecond z (aloneNode 1 v (length_le_leaf hv) 97 true (2 ^ 64 - 1)) 59
        (alone 1 v' (length_le_leaf hv') 99 true) [97] (by decide) 99 2 with lastKey := [97], keyCount := 1 } := by
    refine (SliceWriter.addLoop_more hnone (by simp)).trans ?_
    change SliceWriter.nextLeaf z (6 + 1) (oneAdded v (length_le_leaf hv)) [99] true >>= _ = _
    rw [hnext, ok_bind]
    exact SliceWriter.addLoop_whole (add_leaf hv' 99)
  have hsecond := SliceWriter.add_of (show 1 < maxIdx by decide) hcheck hloop
  have hflush := @SliceWriter.flush_inSecond z _ [97] 99 59 59 70 2 (by decide) _ (alone 1 v' (length_le_leaf hv') 99 true)
    _ hleaf ⟨storedNode_alone (length_le_leaf hv') 99 true, h₂, by decide, by decide⟩ h₃ (by decide) (by decide)
  refine ⟨_, _, Run.tail (Run.tail Run.refl ⟨8, hfirst⟩) ⟨8, hsecond⟩, rfl, ⟨8, hflush⟩, ?_⟩
  intro t ht
  simp only [List.nil_append, List.mem_append, List.mem_singleton] at ht
  rcases ht with rfl | rfl
  · exact fun _ => Or.inl (fits_reset hv 97)
  · exact fun _ => Or.inr ⟨full_leaf hv hv', List.cons_ne_nil _ _, fits_reset hv' 99⟩

end Two

theorem length_closedTwo (z : Codec) {v v' : List Byte} (hv : v.length ≤ 8111) (hv' : v'.length ≤ 8111) :
    (closedTwo z v v' hv hv').sink.file.length ≤ (packed z (aloneNode 1 v hv 97 true (2 ^ 64 - 1))).length +
      (packed z (aloneNode 1 v' hv' 99 true (2 ^ 64 - 1))).length +
        (packed z (SliceWriter.pairNode 32827 4292667 [97] (by decide) 99 (2 ^ 64 - 1))).length + 20 +
          2 * Storage.pageSize + headerSize := by
  refine (SliceWriter.length_closed_le ..).trans (Nat.le_of_eq ?_)
  simp only [SliceWriter.inSecond, Sink.first, Sink.holding, List.nil_append, length_image]
  omega

theorem length_long (b : Byte) : (List.replicate 8000 b).length = 8000 := List.length_replicate

theorem packed_twoLeaves :
    (packed lz4 (aloneNode 1 (List.replicate 8000 98) (length_le_leaf (length_long 98)) 97 true
      (2 ^ 64 - 1))).length = 59 ∧
    (packed lz4 (aloneNode 1 (List.replicate 8000 100) (length_le_leaf (length_long 100)) 99 true
      (2 ^ 64 - 1))).length = 59 ∧
    (packed lz4 (SliceWriter.pairNode 32827 4292667 [97] (by decide) 99 (2 ^ 64 - 1))).length = 70 := by
  refine ⟨?_, ?_, ?_⟩ <;> decide +kernel

theorem returns_twoLeaves : (fun w : SliceWriter =>
    w.sink.nodes.all (fun p => decide (sizeFrom p.1 ≤ nodeSize)) &&
      w.handed.all (fun sp => (w.sink.cache sp.target).any (fun n =>
        n.entries.all (fun e => decide (sp.first ≤ e.key ∧ e.key ≤ sp.last)) && decide (n.keyCount = 1))) &&
      returns Option.isNone ((w.commit w.sink.cache fun _ => []).range lz4 8 [98] [99]))
    (closedTwo lz4 (List.replicate 8000 98) (List.replicate 8000 100) (length_le_leaf (length_long 98))
      (length_le_leaf (length_long 100))) = true := by
  decide +kernel

theorem written_twoLeaves : ∃ ts w w', Run (SliceWriter.Adds lz4) {} ts w ∧ calls ts = twoLeaves ∧
    SliceWriter.Flushes lz4 w w' ∧ Readable lz4 w'.sink ∧ (∀ t ∈ ts, t.1.Whole t.2.1) ∧
    (∀ sp ∈ w'.handed, ∃ n, w'.sink.cache sp.target = some n ∧
      (∀ e ∈ n.entries, sp.first ≤ e.key ∧ e.key ≤ sp.last) ∧ n.keyCount = 1) ∧
    (w'.commit w'.sink.cache fun _ => []).range lz4 8 [98] [99] = .ok none := by
  obtain ⟨hfirst, hsecond, hroot⟩ := packed_twoLeaves
  obtain ⟨ts, w, hrun, hcalls, hflush, hwhole⟩ := two_leaves (length_long 98) (length_long 100) hfirst hsecond hroot
  obtain ⟨w', hw'⟩ : ∃ w', w' = closedTwo lz4 (List.replicate 8000 98) (List.replicate 8000 100)
    (length_le_leaf (length_long 98)) (length_le_leaf (length_long 100)) := ⟨_, rfl⟩
  have htest := returns_twoLeaves
  have hsmall : w'.sink.file.length < 2 ^ 32 := by
    have hlen := length_closedTwo lz4 (length_le_leaf (length_long 98)) (length_le_leaf (length_long 100))
    rw [← hw', hfirst, hsecond, hroot] at hlen
    exact lt_of_le_of_lt hlen (by decide)
  rw [← hw'] at hflush htest
  simp only [Bool.and_eq_true, decide_eq_true_eq, List.all_eq_true] at htest
  obtain ⟨⟨hsizes, hinside⟩, hrange⟩ := htest
  obtain ⟨leaves, cur, hold⟩ := run_holding hrun
  obtain ⟨rounds, hflushed⟩ := id hflush
  obtain ⟨data, index, hfinished, -⟩ := ((hold.flush rounds).of_ok hflushed).finished hsmall
  obtain ⟨it, hit, hnone⟩ := exists_of_returns hrange
  rw [Option.isNone_iff_eq_none.mp hnone] at hit
  refine ⟨ts, w, w', hrun, hcalls, hflush, hfinished.toLaid.readable lz4_lossless hsmall hsizes, hwhole,
    fun sp hsp => ?_, hit⟩
  obtain ⟨n, hn, hentries⟩ := (Option.any_eq_true _ _).mp (hinside sp hsp)
  simp only [Bool.and_eq_true, List.all_eq_true, decide_eq_true_eq] at hentries
  exact ⟨n, hn, hentries⟩

theorem slice_round_trip_twoLeaves : ∃ ts w w', Run (SliceWriter.Adds lz4) {} ts w ∧
    calls ts = twoLeaves ∧ SliceWriter.Flushes lz4 w w' ∧
    ∃ ws rs : List Record, calls ts = ws.flatMap Record.parts ∧
      ws.Pairwise (fun w w' => w.key < w'.key) ∧ rs.map Record.version = ws.map Record.version ∧
      ∀ cached stale, Admits lz4 w'.sink cached stale →
        Slice.ofFile w'.sink.file cached stale = .ok (w'.commit cached stale) ∧
        ∃ bound, ∀ rounds ≥ bound,
          (w'.commit cached stale).scan lz4 rounds = .ok (rs.flatMap Record.parts) := by
  obtain ⟨ts, w, w', hrun, hcalls, hflush, hread, -⟩ := written_twoLeaves
  refine ⟨ts, w, w', hrun, hcalls, hflush, slice_round_trip hrun hflush ?_ hread⟩
  rw [hcalls]
  intro p hp q hq _
  simp only [twoLeaves, List.mem_cons, List.not_mem_nil, or_false] at hp hq
  rcases hp with rfl | rfl <;> rcases hq with rfl | rfl <;> rfl

end Records

end Tyrdbs.Slices
