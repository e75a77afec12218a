import Tyrdbs.Slices.Records
import Tyrdbs.Library.Runs

namespace Tyrdbs.Slices

open Bytes Outcome SpanTree Runs

namespace SliceWriter

/-- The add returns, after however many rounds. -/
def Adds (z : Codec) (w : SliceWriter) (p : Part) (w' : SliceWriter) : Prop :=
  ∃ rounds, w.add z rounds p = .ok w'

def Flushes (z : Codec) (w w' : SliceWriter) : Prop := ∃ rounds, w.flush z rounds = .ok w'

end SliceWriter

def calls (ts : List (SliceWriter × Part × SliceWriter)) : List Part := ts.map (fun t => t.2.1)

theorem check_yields (w : SliceWriter) (p : Part) :
    Yields (fun _ => True)
      (fun newKey => newKey = decide (p.key ≠ w.lastKey) ∧ Accepts (w.lastKey, w.lastEor) p) (w.check p) := by
  rw [SliceWriter.check]
  refine (require_yields _ _).bind (fun _ hne => ?_)
  refine (require_yields _ _).bind (fun _ hfits => ?_)
  refine (require_yields _ _).bind (fun _ hsorted => ?_)
  refine (require_yields _ _).bind (fun _ hduplicate => ?_)
  refine (require_yields _ _).bind (fun _ hcomplete => ?_)
  refine (require_yields _ _).bind (fun _ htombstone => ?_)
  have hne : p.key ≠ [] := fun h => hne (by rw [h]; rfl)
  exact ⟨by simp, hne, hfits, hsorted, hduplicate, hcomplete, htombstone⟩

/-- A writer between two adds, with the parts that were added so far. -/
structure Holding (z : Codec) (w : SliceWriter) (parts : List Part) (leaves : List (Nat × List Entry))
    (cur : List Entry) : Prop where
  writing : Writing z w leaves cur
  cut : Cut parts (stream leaves cur)
  accepted : Accepted ([], true) parts (w.lastKey, w.lastEor)
  full : ∀ q ∈ leaves, q.2 ≠ []
  cur_ne : parts ≠ [] → cur ≠ []
  targets : Targets w leaves
  begun : parts ≠ [] → Begun w
  keyCount_eq : w.keyCount = parts.length

theorem holding_empty (z : Codec) : Holding z {} [] [] [] where
  writing := by
    refine ⟨⟨fun _ => growing_empty z, rfl⟩, internalReset_filled, ?_, by decide, by decide⟩
    exact ⟨[], [], levelHolds_idle {} 0, rfl, rfl, fun h => absurd rfl h⟩
  cut := cut_nil
  accepted := .nil _
  full := by simp
  cur_ne h := absurd rfl h
  targets sp hsp := absurd hsp (by simp)
  begun h := absurd rfl h
  keyCount_eq := rfl

theorem maxIdx_lt {idx : Nat} (h : idx < maxIdx) : idx < 2 ^ 64 := by
  have hmax : maxIdx = 2 ^ 48 := rfl
  omega

theorem Writing.started {z : Codec} {w : SliceWriter} {leaves : List (Nat × List Entry)} {cur : List Entry}
    (h : Writing z w leaves cur) {key : Key} (hk : key.length < maxKeySize) (c : Prop) [Decidable c] :
    Writing z (if c then { w with firstKey := key } else w) leaves cur := by
  split
  · exact ⟨h.collects, h.filled, h.tree, hk, h.lastKey_fits⟩
  · exact h

theorem Holding.lastKey_eq {z : Codec} {w : SliceWriter} {parts : List Part}
    {leaves : List (Nat × List Entry)} {cur : List Entry} (h : Holding z w parts leaves cur)
    (hempty : parts = []) : w.lastKey = [] := by
  have haccepted := h.accepted
  rw [hempty] at haccepted
  generalize hlast : (w.lastKey, w.lastEor) = last at haccepted
  cases haccepted
  exact congrArg Prod.fst hlast

theorem Holding.add {z : Codec} {w : SliceWriter} {parts : List Part} {leaves : List (Nat × List Entry)}
    {cur : List Entry} (h : Holding z w parts leaves cur) (rounds : Nat) (p : Part) :
    Yields (fun _ => True) (fun w' => ∃ leaves' cur', Holding z w' (parts ++ [p]) leaves' cur')
      (w.add z rounds p) := by
  rw [SliceWriter.add]
  refine (require_yields _ _).bind (fun _ hidx => ?_)
  refine (check_yields w p).bind ?_
  rintro newKey ⟨hnew, hp⟩
  have hstart := h.writing.started hp.key_fits (newKey = true ∧ w.firstKey = [])
  refine (addLoop_writing hp.key_fits (maxIdx_lt hidx) newKey rounds hstart).bind ?_
  rintro w' ⟨leaves', cur', vs, hw', hvs, hflat, hstream, hcur', hfull, htargets, hbegun, hcount, -⟩
  have hsame : (if newKey = true ∧ w.firstKey = [] then { w with firstKey := p.key } else w).keyCount =
      w.keyCount := by split <;> rfl
  refine ⟨leaves', cur', ⟨⟨hw'.collects, hw'.filled, hw'.tree, hw'.firstKey_fits, hp.key_fits⟩, ?_, ?_,
    hfull h.full, fun _ => hcur', htargets ?_, fun _ => hbegun ?_, ?_⟩⟩
  · rw [hstream]
    exact h.cut.snoc hvs hflat
  · exact h.accepted.snoc hp
  · intro sp hsp
    refine h.targets sp ?_
    split at hsp <;> exact hsp
  · by_cases hfirst : newKey = true ∧ w.firstKey = []
    · rw [if_pos hfirst]
      exact fun hnil => absurd hnil hp.key_ne
    · rw [if_neg hfirst]
      intro hnil
      refine h.begun (fun hempty => hfirst ⟨?_, hnil⟩) hnil
      rw [hnew, h.lastKey_eq hempty]
      exact decide_eq_true hp.key_ne
  · simp only
    rw [hcount, hsame, h.keyCount_eq, List.length_append, List.length_singleton]

theorem run_holding {z : Codec} {ts : List (SliceWriter × Part × SliceWriter)} {w : SliceWriter}
    (h : Run (SliceWriter.Adds z) {} ts w) : ∃ leaves cur, Holding z w (calls ts) leaves cur := by
  induction h with
  | refl => exact ⟨[], [], holding_empty z⟩
  | tail _ hs ih =>
      obtain ⟨leaves, cur, hold⟩ := ih
      obtain ⟨rounds, hadd⟩ := hs
      rw [calls, List.map_append, List.map_singleton]
      exact (hold.add rounds _).of_ok hadd

/-- A flushed writer: its finished file, the index over it, and the page that
describes both. -/
structure Flushed (z : Codec) (w w' : SliceWriter) (leaves : List (Nat × List Entry)) (cur : List Entry) :
    Prop where
  finished : w'.sink.file.length < 2 ^ 32 → ∃ data index, Finished z w'.sink data index ∧
    leavesOf data = leavesOf w'.sink.nodes ∧
    ∃ q, (contents data).getLast? = some q ∧ isLeafFrom q.1 = true
  last : ∃ location, leavesOf w'.sink.nodes = leaves ++ [(location, cur)] ∧
    w'.handed = if w.firstKey = [] then w.handed else w.handed ++ [⟨w.firstKey, w.lastKey, location⟩]
  tree : w'.handed ≠ [] → ∃ top, Spans w'.sink.Holds Leaf top w'.root w'.handed
  root : Roots w'.sink w'.root
  keyCount_eq : w'.keyCount = w.keyCount
  lastEor_eq : w.lastEor = true
  page : ∃ file, file.length % Storage.pageSize = 0 ∧ file ≠ [] ∧
    w'.sink.file = file ++ w'.header ++ Storage.padding (file ++ w'.header)

theorem length_padding (file : List Byte) :
    (file ++ Storage.padding file).length % Storage.pageSize = 0 := by
  have hpage : Storage.pageSize = 4096 := rfl
  rw [List.length_append, Storage.padding, List.length_replicate, hpage]
  omega

/-- A sink whose data is closed, as long as its file has offsets of 32 bits. -/
def Indexes (z : Codec) (held : List (Nat × List Entry)) (s : Sink) : Prop :=
  (s.file.length < 2 ^ 32 → ∃ data index, Closed z s data index ∧ contents data = held) ∧
    leavesOf s.nodes = held.filter (fun p => isLeafFrom p.1)

/-- The same after a store, so that the index is not empty. -/
def Indexed (z : Codec) (held : List (Nat × List Entry)) (s : Sink) : Prop :=
  (s.file.length < 2 ^ 32 → ∃ data index, Closed z s data index ∧ contents data = held ∧ index ≠ []) ∧
    leavesOf s.nodes = held.filter (fun p => isLeafFrom p.1)

section Indexes

variable {z : Codec} {held : List (Nat × List Entry)} {s s' : Sink} {w : NodeWriter} {location : Nat}

theorem Indexes.store (h : Indexes z held s) (hst : Stores z s w false s' location) : Indexed z held s' := by
  refine ⟨fun hsmall => ?_, by simpa [h.2] using leavesOf_store hst⟩
  obtain ⟨data, index, hclosed, hheld⟩ := h.1 (lt_of_le_of_lt hst.length_le hsmall)
  obtain ⟨data', index', hclosed', hcontents, -, hne⟩ := hclosed.store hst hsmall
  exact ⟨data', index', hclosed', hcontents.trans hheld, hne⟩

theorem Indexed.weaken (h : Indexed z held s) : Indexes z held s := by
  refine ⟨fun hsmall => ?_, h.2⟩
  obtain ⟨data, index, hclosed, hheld, -⟩ := h.1 hsmall
  exact ⟨data, index, hclosed, hheld⟩

end Indexes

theorem endChains_yields {z : Codec} {held : List (Nat × List Entry)} {s : Sink} (h : Indexed z held s) :
    Yields (fun _ => True)
      (fun s' => contents s'.nodes = contents s.nodes ∧ s'.firstNodeSize = s.firstNodeSize ∧ s'.file ≠ [] ∧
        (s'.file.length < 2 ^ 32 → ∃ data index, Finished z s' data index ∧ contents data = held))
      (s.endChains (held.length - 1)) := by
  rw [Sink.endChains]
  by_cases hsmall : s.file.length < 2 ^ 32
  · obtain ⟨data, index, hclosed, rfl, hne⟩ := h.1 hsmall
    obtain ⟨a, p, rfl⟩ := (List.eq_nil_or_concat' data).resolve_left hclosed.data_ne
    obtain ⟨b, r, rfl⟩ := (List.eq_nil_or_concat' index).resolve_left hne
    have hpos : (contents (a ++ [p])).length - 1 = a.length := by
      rw [contents, List.length_map, List.length_append, List.length_singleton, Nat.add_sub_cancel]
    have hnodes : s.nodes = a ++ p :: (b ++ [r]) := by
      rw [hclosed.nodes_eq, List.append_assoc]
      rfl
    rw [hpos, hnodes]
    refine (setNextAt_yields invalidSize a p (b ++ [r])).bind ?_
    rintro _ rfl
    have hlast : (a ++ (p.1, { p.2 with next := invalidSize }) :: (b ++ [r])).length - 1 =
        (a ++ (p.1, { p.2 with next := invalidSize }) :: b).length := by simp
    have hsplit : a ++ (p.1, { p.2 with next := invalidSize }) :: (b ++ [r]) =
        (a ++ (p.1, { p.2 with next := invalidSize }) :: b) ++ r :: [] := by simp
    rw [hlast, hsplit]
    refine (setNextAt_yields invalidSize _ r []).bind ?_
    rintro _ rfl
    refine (write_yields _ _).mono ?_
    rintro _ rfl
    have hfinished := hclosed.finish
    have hp : Relinked p (p.1, { p.2 with next := invalidSize }) := ⟨invalidSize, rfl⟩
    have hr : Relinked r (r.1, { r.2 with next := invalidSize }) := ⟨invalidSize, rfl⟩
    refine ⟨?_, rfl, by simp [littleEndian], fun _ => ⟨a ++ [(p.1, { p.2 with next := invalidSize })],
      b ++ [(r.1, { r.2 with next := invalidSize })], ?_, ?_⟩⟩
    · simp only
      rw [contents_relink hr, ← hsplit, contents_relink hp]
    · simpa only [List.append_assoc, List.cons_append, List.nil_append] using hfinished
    · exact contents_relink hp
  · refine (setNextAt_contents _ _ _).bind (fun nodes₁ h₁ => ?_)
    refine (setNextAt_contents _ _ _).bind (fun nodes₂ h₂ => ?_)
    refine (write_yields _ _).mono ?_
    rintro _ rfl
    refine ⟨h₂.trans h₁, rfl, by simp [littleEndian], fun habs => ?_⟩
    rw [List.length_append] at habs
    exact absurd (lt_of_le_of_lt (Nat.le_add_right _ _) habs) hsmall

theorem Collects.close {z : Codec} {leaves : List (Nat × List Entry)} {s : Sink} (h : Collects z leaves s)
    (hne : s.nodes ≠ []) :
    Indexes z (contents s.nodes) { s with file := s.file ++ littleEndian 2 invalidSize } := by
  refine ⟨fun hsmall => ?_, rfl⟩
  have hgrowing := h.1 (lt_of_le_of_lt (by simp) hsmall)
  exact ⟨s.nodes, [], hgrowing.close hne, rfl⟩

/-- The last leaf is handed to the index unless it goes on with a record. -/
theorem handLast_yields {z : Codec} {w : SliceWriter} {held : List (Nat × List Entry)} {sink : Sink}
    {location : Nat} (hindexes : Indexes z held sink) (htree : Levels sink 0 w.index w.handed)
    (hleaf : isLeafFrom location = true)
    (hfits : w.firstKey ≠ [] → Fits ⟨w.firstKey, w.lastKey, location⟩) (rounds : Nat) :
    Yields (fun _ => True)
      (fun w₁ => Indexes z held w₁.sink ∧ Levels w₁.sink 0 w₁.index w₁.handed ∧ w₁.keyCount = w.keyCount ∧
        w₁.handed = if w.firstKey = [] then w.handed else w.handed ++ [⟨w.firstKey, w.lastKey, location⟩])
      (if w.firstKey = [] then .ok { w with sink := sink, node := {} }
        else { w with sink := sink, node := {} }.handToIndex z rounds location) := by
  by_cases hkey : w.firstKey = []
  · simp only [if_pos hkey]
    exact ⟨hindexes, htree, rfl, rfl⟩
  · simp only [if_neg hkey]
    refine (handToIndex_keeps (P := Indexes z held) (fun s s' w₀ l hs hst => (hs.store hst).weaken) rounds
      (w := { w with sink := sink, node := {} }) hindexes htree hleaf (hfits hkey)).mono ?_
    rintro _ ⟨hsink, hlevels, sink', index, rfl⟩
    exact ⟨hsink, hlevels, rfl, rfl⟩

theorem indexFlush_indexed {z : Codec} {w : SliceWriter} {held : List (Nat × List Entry)}
    (hsink : Indexes z held w.sink) (hlevels : Levels w.sink 0 w.index w.handed) (rounds : Nat) :
    Yields (fun _ => True)
      (fun r => Indexed z held r.1 ∧ (w.handed ≠ [] → ∃ top, Spans r.1.Holds Leaf top r.2 w.handed) ∧
        Roots r.1 r.2)
      (indexFlush z rounds w.sink w.index) := by
  have hkeeps := indexFlush_keeps (Q := Indexed z held)
    (fun s s' w₀ l hs hst => Indexes.store hs hst) (fun s s' w₀ l hs hst => hs.weaken.store hst) rounds hsink
    w.index
  have hspans : Yields (fun _ => True) (fun r => w.handed ≠ [] → ∃ top, Spans r.1.Holds Leaf top r.2 w.handed)
      (indexFlush z rounds w.sink w.index) := by
    by_cases hne : w.handed = []
    · exact (yields_true _).mono (fun _ _ habs => absurd hne habs)
    · exact (indexFlush_spans z rounds hlevels hne).mono (fun _ hr _ => hr.2)
  exact hkeeps.and (hspans.and (indexFlush_root z rounds w.sink w.index))

theorem Holding.flush {z : Codec} {w : SliceWriter} {parts : List Part} {leaves : List (Nat × List Entry)}
    {cur : List Entry} (h : Holding z w parts leaves cur) (rounds : Nat) :
    Yields (fun _ => True) (fun w' => Flushed z w w' leaves cur) (w.flush z rounds) := by
  rw [SliceWriter.flush]
  refine (require_yields _ _).bind (fun _ heor => ?_)
  refine (store_yields z w.sink w.node true).bind ?_
  rintro ⟨sink, node, location⟩ ⟨hst, rfl⟩
  have hcollects := h.writing.collects.store hst
  rw [if_pos rfl, contents_stored h.writing.filled] at hcollects
  refine (write_yields _ _).bind ?_
  rintro _ rfl
  have hnodes : sink.nodes ≠ [] := fun hnil => by
    have hc := hst.contents_eq
    rw [hnil] at hc
    simp [contents] at hc
  have hgrow : contents w.sink.nodes <+:
      contents ({ sink with file := sink.file ++ littleEndian 2 invalidSize } : Sink).nodes :=
    ⟨_, hst.contents_eq.symm⟩
  refine (handLast_yields (hcollects.close hnodes) (h.writing.tree.mono hgrow) hst.isLeafFrom_eq
    (fun hkey => ⟨hkey, h.writing.firstKey_fits, h.writing.lastKey_fits, hst.location_lt⟩) rounds).bind ?_
  rintro w₁ ⟨hsink, hlevels, hcount, hhanded⟩
  refine (indexFlush_indexed hsink hlevels rounds).bind ?_
  rintro ⟨sink₂, root⟩ ⟨hsink₂, hroot, hlast⟩
  have hlength : sink.nodes.length - 1 = (contents sink.nodes).length - 1 := by rw [contents, List.length_map]
  simp only [hlength]
  refine (endChains_yields hsink₂).bind ?_
  rintro sink₃ ⟨hcontents, -, hne, hfinished⟩
  refine (write_yields _ _).bind ?_
  rintro _ rfl
  have hleaves : leavesOf sink₃.nodes = leaves ++ [(location, cur)] := by
    rw [leavesOf, hcontents]
    exact hsink₂.2.trans hcollects.2
  refine ⟨fun hsmall => ?_, ⟨location, hleaves, hhanded⟩, fun hne' => ?_,
    ⟨hlast.1, hlast.2.1, hcontents ▸ hlast.2.2⟩, hcount, heor, ?_⟩
  · have hsmall₃ : sink₃.file.length < 2 ^ 32 := by
      refine lt_of_le_of_lt ?_ hsmall
      simp only [Sink.addPadding, List.length_append]
      omega
    obtain ⟨data, index, hf, hd⟩ := hfinished hsmall₃
    refine ⟨data, index, ((hf.append _).append _).append _, ?_, (location, cur), ?_, hst.isLeafFrom_eq⟩
    · rw [leavesOf, hd]
      exact hcollects.2.trans hleaves.symm
    · rw [hd, hst.contents_eq, contents_stored h.writing.filled, List.getLast?_append]
      rfl
  · obtain ⟨top, hspans⟩ := hroot hne'
    refine ⟨top, hspans.mono (fun l es hh => ?_)⟩
    obtain ⟨es', hmem, heq⟩ := hh
    exact ⟨es', hcontents ▸ hmem, heq⟩
  · refine ⟨(Sink.addPadding sink₃).file, length_padding _, ?_, rfl⟩
    simp only [Sink.addPadding]
    exact fun hnil => hne (List.append_eq_nil_iff.mp hnil).1

end Tyrdbs.Slices
