import Tyrdbs.Slices.Layout
import Tyrdbs.Slices.IndexTree
import Tyrdbs.Slices.Scan

namespace Tyrdbs.Slices

open Bytes Outcome SpanTree

def leavesOf (nodes : List (Nat × Node)) : List (Nat × List Entry) :=
  (contents nodes).filter (fun p => isLeafFrom p.1)

/-- What an add or a flush of the index does to the sink beside the tree: it
stores nodes that are no leaves. -/
theorem indexAdd_keeps {z : Codec} {P : Sink → Prop}
    (hP : ∀ s s' w location, P s → Stores z s w false s' location → P s') (rounds : Nat) {s : Sink}
    (h : P s) (levels : List IndexLevel) (minKey maxKey : Key) (location : Nat) :
    Yields (fun _ => True) (fun r => P r.1) (indexAdd z rounds s levels minKey maxKey location) := by
  induction rounds generalizing s levels minKey maxKey location with
  | zero => trivial
  | succ rounds ih =>
      rw [indexAdd]
      refine (yields_true _).bind ?_
      rintro ⟨node, res⟩ -
      cases res with
      | some size => exact (require_yields _ _).bind (fun _ _ => h)
      | none =>
          refine (store_yields z s node false).bind ?_
          rintro ⟨s₁, node₁, stored⟩ ⟨hst, -⟩
          refine (yields_true _).bind ?_
          rintro ⟨node₂, _⟩ -
          refine (ih (hP _ _ _ _ h hst) _ _ _ _).bind ?_
          rintro ⟨s₂, higher⟩ hs₂
          exact hs₂

theorem indexFlush_keeps {z : Codec} {P Q : Sink → Prop}
    (hP : ∀ s s' w location, P s → Stores z s w false s' location → Q s')
    (hQ : ∀ s s' w location, Q s → Stores z s w false s' location → Q s') (rounds : Nat) {s : Sink}
    (h : P s) (levels : List IndexLevel) :
    Yields (fun _ => True) (fun r => Q r.1) (indexFlush z rounds s levels) := by
  induction rounds generalizing P s levels with
  | zero => trivial
  | succ rounds ih =>
      rw [indexFlush]
      refine (store_yields z s _ false).bind ?_
      rintro ⟨s₁, node₁, location⟩ ⟨hst, -⟩
      have hs₁ := hP _ _ _ _ h hst
      by_cases htop : levels.tail = []
      · simp only [if_pos htop]
        exact hs₁
      · simp only [if_neg htop]
        refine (indexAdd_keeps hQ rounds hs₁ _ _ _ _).bind ?_
        rintro ⟨s₂, higher⟩ hs₂
        exact ih hQ hs₂ higher

/-- The root is the last node, and no leaf. -/
def Roots (s : Sink) (root : Nat) : Prop :=
  root < 2 ^ 64 ∧ isLeafFrom root = false ∧ ∃ es, (contents s.nodes).getLast? = some (root, es)

theorem indexFlush_root (z : Codec) (rounds : Nat) (s : Sink) (levels : List IndexLevel) :
    Yields (fun _ => True) (fun r => Roots r.1 r.2) (indexFlush z rounds s levels) := by
  induction rounds generalizing s levels with
  | zero => trivial
  | succ rounds ih =>
      rw [indexFlush]
      refine (store_yields z s _ false).bind ?_
      rintro ⟨s₁, node₁, location⟩ ⟨hst, -⟩
      by_cases htop : levels.tail = []
      · simp only [if_pos htop]
        refine ⟨hst.location_lt, hst.isLeafFrom_eq, (storedNode (levels.headD {}).node).entries, ?_⟩
        rw [hst.contents_eq, List.getLast?_append]
        rfl
      · simp only [if_neg htop]
        exact (yields_true _).bind (fun r _ => ih r.1 r.2)

/-- A sink that grows, as long as its file has offsets of 32 bits, with the
leaves stored in it. -/
def Collects (z : Codec) (leaves : List (Nat × List Entry)) (s : Sink) : Prop :=
  (s.file.length < 2 ^ 32 → Growing z s) ∧ leavesOf s.nodes = leaves

theorem leavesOf_store {z : Codec} {s s' : Sink} {w : NodeWriter} {isLeaf : Bool} {location : Nat}
    (h : Stores z s w isLeaf s' location) :
    leavesOf s'.nodes = leavesOf s.nodes ++ (if isLeaf then [(location, (storedNode w).entries)] else []) := by
  rw [leavesOf, h.contents_eq, List.filter_append, List.filter_singleton, h.isLeafFrom_eq]
  cases isLeaf <;> rfl

theorem Collects.store {z : Codec} {leaves : List (Nat × List Entry)} {s s' : Sink} {w : NodeWriter}
    {isLeaf : Bool} {location : Nat} (h : Collects z leaves s) (hst : Stores z s w isLeaf s' location) :
    Collects z (leaves ++ if isLeaf then [(location, (storedNode w).entries)] else []) s' := by
  refine ⟨fun hsmall => ?_, by rw [leavesOf_store hst, h.2]⟩
  exact (h.1 (lt_of_le_of_lt hst.length_le hsmall)).store hst hsmall

theorem handToIndex_keeps {z : Codec} {P : Sink → Prop}
    (hP : ∀ s s' w location, P s → Stores z s w false s' location → P s') (rounds : Nat) {w : SliceWriter}
    (h : P w.sink) (htree : Levels w.sink 0 w.index w.handed) {location : Nat}
    (hleaf : isLeafFrom location = true) (hfits : Fits ⟨w.firstKey, w.lastKey, location⟩) :
    Yields (fun _ => True)
      (fun w' => P w'.sink ∧ Levels w'.sink 0 w'.index w'.handed ∧ ∃ sink index, w' = { w with
        sink := sink
        index := index
        handed := w.handed ++ [⟨w.firstKey, w.lastKey, location⟩] })
      (w.handToIndex z rounds location) := by
  have hlevels := indexAdd_levels z rounds htree
    (Or.inl ⟨hleaf, rfl⟩ : Below w.sink.Holds Leaf 0 ⟨w.firstKey, w.lastKey, location⟩ [_]) hfits
  have hkeeps := indexAdd_keeps hP rounds h w.index w.firstKey w.lastKey location
  refine (hlevels.and hkeeps).bind ?_
  rintro ⟨sink, index⟩ ⟨⟨-, htree'⟩, hsink⟩
  exact ⟨hsink, htree', sink, index, rfl⟩

/-- A writer with the leaves it stored and what its open leaf holds. -/
structure Writing (z : Codec) (w : SliceWriter) (leaves : List (Nat × List Entry)) (cur : List Entry) :
    Prop where
  collects : Collects z leaves w.sink
  filled : Filled w.node.opened cur
  tree : Levels w.sink 0 w.index w.handed
  firstKey_fits : w.firstKey.length < maxKeySize
  lastKey_fits : w.lastKey.length < maxKeySize

namespace Writing

variable {z : Codec} {w : SliceWriter} {leaves : List (Nat × List Entry)} {cur : List Entry}

theorem handToIndex (h : Writing z w leaves cur) (rounds : Nat) {location : Nat}
    (hleaf : isLeafFrom location = true) (hlt : location < 2 ^ 64) (hkey : w.firstKey ≠ []) :
    Yields (fun _ => True)
      (fun w' => Writing z w' leaves cur ∧ ∃ sink index, w' = { w with
        sink := sink
        index := index
        handed := w.handed ++ [⟨w.firstKey, w.lastKey, location⟩] })
      (w.handToIndex z rounds location) := by
  refine (handToIndex_keeps (P := Collects z leaves)
    (fun s s' w location hs hst => by simpa using hs.store hst) rounds h.collects h.tree hleaf
    ⟨hkey, h.firstKey_fits, h.lastKey_fits, hlt⟩).mono ?_
  rintro _ ⟨hcollects, htree, sink, index, rfl⟩
  exact ⟨⟨hcollects, h.filled, htree, h.firstKey_fits, h.lastKey_fits⟩, sink, index, rfl⟩

theorem nextLeaf (h : Writing z w leaves cur) (rounds : Nat) {key : Key} (hk : key.length < maxKeySize)
    (newKey : Bool) :
    Yields (fun _ => True)
      (fun w' => ∃ location, Writing z w' (leaves ++ [(location, cur)]) [] ∧
        ∃ sink node index, w' = { w with
          sink := sink
          node := node
          index := index
          firstKey := if w.firstKey = [] then [] else if newKey then key else []
          handed := if w.firstKey = [] then w.handed
            else w.handed ++ [⟨w.firstKey, w.lastKey, location⟩] })
      (w.nextLeaf z rounds key newKey) := by
  rw [SliceWriter.nextLeaf]
  refine (store_yields z w.sink w.node true).bind ?_
  rintro ⟨sink, node, location⟩ ⟨hst, rfl⟩
  have hcollects := h.collects.store hst
  rw [if_pos rfl, contents_stored h.filled] at hcollects
  have hgrow : contents w.sink.nodes <+: contents sink.nodes := ⟨_, hst.contents_eq.symm⟩
  have hw : Writing z { w with sink := sink, node := {} } (leaves ++ [(location, cur)]) [] :=
    ⟨hcollects, internalReset_filled, h.tree.mono hgrow, h.firstKey_fits, h.lastKey_fits⟩
  by_cases hkey : w.firstKey = []
  · simp only [if_pos hkey]
    refine ⟨location, hw, sink, {}, w.index, ?_⟩
    rw [← hkey]
  · simp only [if_neg hkey]
    refine (hw.handToIndex rounds hst.isLeafFrom_eq hst.location_lt hkey).bind ?_
    rintro _ ⟨hw', sink', index, rfl⟩
    refine ⟨location, ⟨hw'.collects, hw'.filled, hw'.tree, ?_, hw'.lastKey_fits⟩, sink', {}, index, rfl⟩
    simp only
    split
    · exact hk
    · decide

end Writing

/-- A value cut into parts; the last one carries the mark of the whole. -/
def pieces (p : Part) : List (List Byte) → List Part
  | [] => []
  | v :: vs => { p with value := v, eor := p.eor && vs.isEmpty } :: pieces p vs

def stream (leaves : List (Nat × List Entry)) (cur : List Entry) : List Part :=
  (leaves.flatMap Prod.snd ++ cur).map Entry.part

theorem stream_next (leaves : List (Nat × List Entry)) (location : Nat) (cur : List Entry) :
    stream (leaves ++ [(location, cur)]) [] = stream leaves cur := by
  simp [stream]

theorem stream_push (leaves : List (Nat × List Entry)) (cur : List Entry) (e : Entry) :
    stream leaves (cur ++ [e]) = stream leaves cur ++ [e.part] := by
  simp [stream]

theorem hasEnoughSpace_empty {b b' : OpenNode} (h : Filled b []) (h' : Filled b' []) (key value : List Byte)
    (noSplit : Bool) : b.hasEnoughSpace key value noSplit = b'.hasEnoughSpace key value noSplit := by
  simp only [OpenNode.hasEnoughSpace, h.entryOffset_eq, h'.entryOffset_eq, h.empty rfl, h'.empty rfl]

section AddLoop

variable {z : Codec} {p : Part}

theorem addLoop_stuck (hp : p.key.length < maxKeySize) (hi : p.idx < 2 ^ 64) (newKey : Bool) (rounds : Nat)
    {w : SliceWriter} {leaves : List (Nat × List Entry)} {value : List Byte} (h : Writing z w leaves [])
    (hspace : w.node.opened.hasEnoughSpace p.key value false = false) :
    Yields (fun _ => True) (fun _ => False) (SliceWriter.addLoop z p newKey rounds w value) := by
  induction rounds generalizing w leaves with
  | zero => trivial
  | succ rounds ih =>
      rw [SliceWriter.addLoop]
      refine (NodeWriter.add_filled h.filled p.key value p.eor p.deleted hi false).bind ?_
      rintro ⟨node, res⟩ (⟨rfl, -, hnode⟩ | ⟨size, -, henough, -⟩)
      · simp only [Option.isSome_none, Bool.false_eq_true, false_and, if_false, Option.getD_none,
          List.drop_zero]
        have hnode : node.node = some w.node.opened := hnode
        have hopened : node.opened = w.node.opened := by rw [NodeWriter.opened, hnode, Option.getD_some]
        have hw : Writing z { w with node := node } leaves [] :=
          ⟨h.collects, hopened ▸ h.filled, h.tree, h.firstKey_fits, h.lastKey_fits⟩
        refine (hw.nextLeaf rounds hp newKey).bind ?_
        rintro w' ⟨location, hw', -⟩
        exact ih hw' ((hasEnoughSpace_empty hw'.filled h.filled ..).trans hspace)
      · rw [hspace] at henough
        exact absurd henough (by decide)

/-- The entries handed to the index lead to stored leaves. -/
def Targets (w : SliceWriter) (leaves : List (Nat × List Entry)) : Prop :=
  ∀ sp ∈ w.handed, ∃ es, (sp.target, es) ∈ leaves

/-- A key stands in the open leaf's entry, or was handed to the index. -/
def Begun (w : SliceWriter) : Prop := w.firstKey = [] → w.handed ≠ []

/-- The node has space for the key, and for the whole of the value. -/
def TakesWhole (b : OpenNode) (p : Part) : Prop :=
  b.hasEnoughSpace p.key p.value false = true ∧ NodeWriter.partOf b p.key p.value = p.value.length

/-- What begins a new key goes whole into the open leaf; or it goes whole into
the next leaf, and the open one holds the first part of some key. -/
def SliceWriter.Whole (w : SliceWriter) (p : Part) : Prop :=
  p.key ≠ w.lastKey → TakesWhole w.node.opened p ∨
    w.node.opened.hasEnoughSpace p.key p.value false = false ∧ w.firstKey ≠ [] ∧
      TakesWhole OpenNode.internalReset p

instance (b : OpenNode) (p : Part) : Decidable (TakesWhole b p) :=
  inferInstanceAs (Decidable (_ ∧ _))

instance (w : SliceWriter) (p : Part) : Decidable (w.Whole p) :=
  inferInstanceAs (Decidable (_ → _))

theorem Targets.nextLeaf {w : SliceWriter} {leaves : List (Nat × List Entry)} {cur : List Entry}
    (h : Targets w leaves) (location : Nat) :
    ∀ sp ∈ (if w.firstKey = [] then w.handed else w.handed ++ [⟨w.firstKey, w.lastKey, location⟩]),
      ∃ es, (sp.target, es) ∈ leaves ++ [(location, cur)] := by
  intro sp hsp
  split at hsp
  · obtain ⟨es, hes⟩ := h sp hsp
    exact ⟨es, List.mem_append_left _ hes⟩
  · rcases List.mem_append.mp hsp with hsp | hsp
    · obtain ⟨es, hes⟩ := h sp hsp
      exact ⟨es, List.mem_append_left _ hes⟩
    · rw [List.mem_singleton.mp hsp]
      exact ⟨cur, by simp⟩

theorem Begun.nextLeaf {w : SliceWriter} (h : Begun w) (location : Nat) :
    (if w.firstKey = [] then w.handed else w.handed ++ [⟨w.firstKey, w.lastKey, location⟩]) ≠ [] := by
  split
  · rename_i hkey
    exact h hkey
  · simp

theorem addLoop_writing (hp : p.key.length < maxKeySize) (hi : p.idx < 2 ^ 64) (newKey : Bool)
    (rounds : Nat) {w : SliceWriter} {leaves : List (Nat × List Entry)} {cur : List Entry} {value : List Byte}
    (h : Writing z w leaves cur) :
    Yields (fun _ => True)
      (fun w' => ∃ leaves' cur' vs, Writing z w' leaves' cur' ∧ vs ≠ [] ∧ vs.flatten = value ∧
        stream leaves' cur' = stream leaves cur ++ pieces p vs ∧ cur' ≠ [] ∧
        ((∀ q ∈ leaves, q.2 ≠ []) → ∀ q ∈ leaves', q.2 ≠ []) ∧
        (Targets w leaves → Targets w' leaves') ∧ (Begun w → Begun w') ∧
        w'.keyCount = w.keyCount ∧ w'.root = w.root)
      (SliceWriter.addLoop z p newKey rounds w value) := by
  induction rounds generalizing w leaves cur value with
  | zero => trivial
  | succ rounds ih =>
      rw [SliceWriter.addLoop]
      refine (NodeWriter.add_filled h.filled p.key value p.eor p.deleted hi false).bind ?_
      rintro ⟨node, res⟩ (⟨rfl, hspace, hnode⟩ | ⟨size, rfl, -, hsize, hfilled⟩)
      · simp only [Option.isSome_none, Bool.false_eq_true, false_and, if_false, Option.getD_none,
          List.drop_zero]
        have hnode : node.node = some w.node.opened := hnode
        have hopened : node.opened = w.node.opened := by rw [NodeWriter.opened, hnode, Option.getD_some]
        have hw : Writing z { w with node := node } leaves cur :=
          ⟨h.collects, hopened ▸ h.filled, h.tree, h.firstKey_fits, h.lastKey_fits⟩
        refine (hw.nextLeaf rounds hp newKey).bind ?_
        rintro w' ⟨location, hw', sink, node', index, rfl⟩
        by_cases hcur : cur = []
        · subst hcur
          have hstuck := (hasEnoughSpace_empty hw'.filled h.filled ..).trans hspace
          exact (addLoop_stuck hp hi newKey rounds hw' hstuck).mono (fun _ hf => hf.elim)
        · refine (ih hw').mono ?_
          rintro w'' ⟨leaves', cur', vs, hw'', hvs, hflat, hstream, hcur', hne, htargets, hbegun, hcount, hroot⟩
          rw [stream_next] at hstream
          refine ⟨leaves', cur', vs, hw'', hvs, hflat, hstream, hcur', fun hl => hne ?_,
            fun ht => htargets (ht.nextLeaf location), fun hb => hbegun (fun _ => hb.nextLeaf location),
            hcount, hroot⟩
          exact List.forall_mem_append.mpr ⟨hl, List.forall_mem_singleton.mpr hcur⟩
      · have hw : Writing z { w with node := node } leaves
            (cur ++ [NodeWriter.entryFor p.key value p.eor p.deleted p.idx size]) :=
          ⟨h.collects, hfilled, h.tree, h.firstKey_fits, h.lastKey_fits⟩
        have hle : size ≤ value.length := by
          rw [hsize]
          exact Nat.min_le_right _ _
        simp only [Option.isSome_some, true_and, Option.getD_some]
        by_cases hrest : value.drop size = []
        · rw [if_pos hrest]
          have hwhole : size = value.length := le_antisymm hle (List.drop_eq_nil_iff.mp hrest)
          refine ⟨leaves, _, [value], hw, by simp, by simp, ?_, by simp, id, id, id, rfl, rfl⟩
          rw [stream_push, hwhole, NodeWriter.entryFor, List.take_length]
          simp [pieces, Entry.part]
        · rw [if_neg hrest]
          have hpart : size ≠ value.length := fun heq => hrest (List.drop_eq_nil_of_le heq.ge)
          refine (hw.nextLeaf rounds hp newKey).bind ?_
          rintro w' ⟨location, hw', sink, node', index, rfl⟩
          refine (ih hw').mono ?_
          rintro w'' ⟨leaves', cur', vs, hw'', hvs, hflat, hstream, hcur', hne, htargets, hbegun, hcount, hroot⟩
          rw [stream_next, stream_push] at hstream
          refine ⟨leaves', cur', value.take size :: vs, hw'', by simp, ?_, ?_, hcur', fun hl => hne ?_,
            fun ht => htargets (ht.nextLeaf location), fun hb => hbegun (fun _ => hb.nextLeaf location),
            hcount, hroot⟩
          · rw [List.flatten_cons, hflat, List.take_append_drop]
          · have hempty : vs.isEmpty = false := by simpa using hvs
            rw [hstream, pieces, hempty]
            simp [NodeWriter.entryFor, Entry.part, hpart]
          · exact List.forall_mem_append.mpr ⟨hl, List.forall_mem_singleton.mpr (by simp)⟩

end AddLoop

end Tyrdbs.Slices
