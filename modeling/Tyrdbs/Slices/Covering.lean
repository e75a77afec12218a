import Tyrdbs.Slices.Caching

namespace Tyrdbs.Slices

open Bytes Outcome SpanTree Runs

def FirstLeaf (leaves : List (Nat × List Entry)) (key : Key) (location : Nat) : Prop :=
  ∃ before es after, leaves = before ++ (location, es) :: after ∧ (∃ e ∈ es, e.key = key) ∧
    ∀ q ∈ before, ∀ e ∈ q.2, e.key ≠ key

/-- An entry of the index covers the key and leads to its first leaf. -/
def Covered (handed : List (Span Key Nat)) (leaves : List (Nat × List Entry)) (key : Key) : Prop :=
  ∃ sp ∈ handed, sp.first ≤ key ∧ key ≤ sp.last ∧ FirstLeaf leaves key sp.target

/-- The index between two adds: it covers what the stored leaves hold; what the
open leaf holds it covers as well, or will with the entry that is pending. -/
structure Covering (handed : List (Span Key Nat)) (firstKey lastKey : Key) (leaves : List (Nat × List Entry))
    (cur : List Entry) : Prop where
  ordered : Ordered handed
  below : ∀ sp ∈ handed, sp.last ≤ lastKey ∧ (firstKey ≠ [] → sp.last < firstKey)
  first_le : firstKey ≤ lastKey
  stored : ∀ q ∈ leaves, ∀ e ∈ q.2, e.key ≤ lastKey ∧ Covered handed leaves e.key
  pending : ∀ e ∈ cur, e.key ≤ lastKey ∧ (Covered handed leaves e.key ∨
    firstKey ≠ [] ∧ firstKey ≤ e.key ∧ ∀ q ∈ leaves, ∀ e' ∈ q.2, e'.key ≠ e.key)
  last : lastKey ≠ [] → (∃ q ∈ leaves, ∃ e ∈ q.2, e.key = lastKey) ∨ ∃ e ∈ cur, e.key = lastKey

theorem covering_empty : Covering [] [] [] [] [] where
  ordered := ⟨fun sp hsp => absurd hsp (by simp), List.Pairwise.nil⟩
  below sp hsp := absurd hsp (by simp)
  first_le := le_rfl
  stored q hq := absurd hq (by simp)
  pending e he := absurd he (by simp)
  last h := absurd rfl h

theorem FirstLeaf.snoc {leaves : List (Nat × List Entry)} {key : Key} {location : Nat}
    (h : FirstLeaf leaves key location) (q : Nat × List Entry) : FirstLeaf (leaves ++ [q]) key location := by
  obtain ⟨before, es, after, rfl, hes, hbefore⟩ := h
  exact ⟨before, es, after ++ [q], by simp, hes, hbefore⟩

namespace Covering

variable {handed : List (Span Key Nat)} {firstKey lastKey : Key} {leaves : List (Nat × List Entry)}
  {cur : List Entry} (h : Covering handed firstKey lastKey leaves cur)

include h

theorem next (location : Nat) :
    Covering (if firstKey = [] then handed else handed ++ [⟨firstKey, lastKey, location⟩]) [] lastKey
      (leaves ++ [(location, cur)]) [] := by
  have hmem : ∀ sp ∈ handed, sp ∈ if firstKey = [] then handed else handed ++ [⟨firstKey, lastKey, location⟩] := by
    intro sp hsp
    split
    · exact hsp
    · exact List.mem_append_left _ hsp
  have hmono : ∀ key, Covered handed leaves key →
      Covered (if firstKey = [] then handed else handed ++ [⟨firstKey, lastKey, location⟩])
        (leaves ++ [(location, cur)]) key := by
    rintro key ⟨sp, hsp, hfirst, hlast, hleaf⟩
    exact ⟨sp, hmem sp hsp, hfirst, hlast, hleaf.snoc _⟩
  refine ⟨?_, ?_, not_lt.mp (List.not_lt_nil _), ?_, fun e he => absurd he (by simp), fun hne => ?_⟩
  · split
    · exact h.ordered
    · rename_i hkey
      refine Ordered.append.mpr ⟨h.ordered, ⟨?_, List.pairwise_singleton _ _⟩, ?_⟩
      · exact List.forall_mem_singleton.mpr h.first_le
      · exact fun sp hsp => List.forall_mem_singleton.mpr ((h.below sp hsp).2 hkey)
  · intro sp hsp
    refine ⟨?_, fun habs => absurd rfl habs⟩
    split at hsp
    · exact (h.below sp hsp).1
    · rcases List.mem_append.mp hsp with hsp | hsp
      · exact (h.below sp hsp).1
      · rw [List.mem_singleton.mp hsp]
  · intro q hq e he
    rcases List.mem_append.mp hq with hq | hq
    · exact ⟨(h.stored q hq e he).1, hmono _ (h.stored q hq e he).2⟩
    · rw [List.mem_singleton.mp hq] at he
      obtain ⟨hle, hcovered | ⟨hkey, hfirst, hnew⟩⟩ := h.pending e he
      · exact ⟨hle, hmono _ hcovered⟩
      · refine ⟨hle, ⟨firstKey, lastKey, location⟩, ?_, hfirst, hle, leaves, cur, [], rfl, ⟨e, he, rfl⟩, hnew⟩
        rw [if_neg hkey]
        simp
  · rcases h.last hne with ⟨q, hq, e, he, hkey⟩ | ⟨e, he, hkey⟩
    · exact Or.inl ⟨q, List.mem_append_left _ hq, e, he, hkey⟩
    · exact Or.inl ⟨(location, cur), by simp, e, he, hkey⟩

theorem push (hne : lastKey ≠ []) {e : Entry} (he : e.key = lastKey) :
    Covering handed firstKey lastKey leaves (cur ++ [e]) := by
  refine ⟨h.ordered, h.below, h.first_le, h.stored, List.forall_mem_append.mpr ⟨h.pending, ?_⟩, fun _ => ?_⟩
  · refine List.forall_mem_singleton.mpr ⟨he.le, ?_⟩
    rcases h.last hne with ⟨q, hq, e', he', hkey⟩ | ⟨e', he', hkey⟩
    · rw [he, ← hkey]
      exact Or.inl (h.stored q hq e' he').2
    · rw [he, ← hkey]
      exact (h.pending e' he').2
  · exact Or.inr ⟨e, by simp, he⟩

theorem pushNew {key : Key} (hlt : lastKey < key) {e : Entry} (he : e.key = key) :
    Covering handed (if firstKey = [] then key else firstKey) key leaves (cur ++ [e]) := by
  have hkey : key ≠ [] := fun hnil => absurd (hnil ▸ hlt) (List.not_lt_nil _)
  have hfirst : (if firstKey = [] then key else firstKey) ≤ key := by
    split
    · exact le_rfl
    · exact h.first_le.trans hlt.le
  refine ⟨h.ordered, fun sp hsp => ⟨(h.below sp hsp).1.trans hlt.le, fun _ => ?_⟩, hfirst,
    fun q hq e he => ⟨(h.stored q hq e he).1.trans hlt.le, (h.stored q hq e he).2⟩,
    List.forall_mem_append.mpr ⟨fun e he => ?_, List.forall_mem_singleton.mpr ⟨he.le, Or.inr ⟨?_, ?_, ?_⟩⟩⟩,
    fun _ => Or.inr ⟨e, by simp, he⟩⟩
  · split
    · exact (h.below sp hsp).1.trans_lt hlt
    · rename_i hne
      exact (h.below sp hsp).2 hne
  · obtain ⟨hle, hcovered | ⟨hne, hfirst, hnew⟩⟩ := h.pending e he
    · exact ⟨hle.trans hlt.le, Or.inl hcovered⟩
    · refine ⟨hle.trans hlt.le, Or.inr ⟨?_, ?_, hnew⟩⟩
      · rw [if_neg hne]
        exact hne
      · rw [if_neg hne]
        exact hfirst
  · split
    · exact hkey
    · assumption
  · rw [he]
    exact hfirst
  · intro q hq e' he'
    rw [he]
    exact ((h.stored q hq e' he').1.trans_lt hlt).ne

end Covering

theorem takesWhole_empty {b b' : OpenNode} (h : Filled b []) (h' : Filled b' []) {p : Part}
    (hp : TakesWhole b p) : TakesWhole b' p := by
  refine ⟨(hasEnoughSpace_empty h' h ..).trans hp.1, ?_⟩
  have hpart := hp.2
  rw [NodeWriter.partOf, h.entryOffset_eq, h.empty rfl] at hpart
  rwa [NodeWriter.partOf, h'.entryOffset_eq, h'.empty rfl]

section Steps

variable {z : Codec} {w : SliceWriter} {leaves : List (Nat × List Entry)} {cur : List Entry} {p : Part}

theorem addLoop_covering (hp : p.key.length < maxKeySize) (hi : p.idx < 2 ^ 64) (rounds : Nat)
    {value : List Byte} (h : Writing z w leaves cur)
    (hc : Covering w.handed w.firstKey w.lastKey leaves cur) (hkey : p.key = w.lastKey) (hne : p.key ≠ []) :
    Yields (fun _ => True)
      (fun w' => ∃ leaves' cur', Writing z w' leaves' cur' ∧
        Covering w'.handed w'.firstKey p.key leaves' cur')
      (SliceWriter.addLoop z p false rounds w value) := by
  induction rounds generalizing w leaves cur value with
  | zero => trivial
  | succ rounds ih =>
      have hnext : ∀ {w : SliceWriter} {cur : List Entry} {rest : List Byte}, Writing z w leaves cur →
          Covering w.handed w.firstKey w.lastKey leaves cur → p.key = w.lastKey →
          Yields (fun _ => True)
            (fun w' => ∃ leaves' cur', Writing z w' leaves' cur' ∧
              Covering w'.handed w'.firstKey p.key leaves' cur')
            (w.nextLeaf z rounds p.key false >>= fun w => SliceWriter.addLoop z p false rounds w rest) := by
        intro w cur rest hw hc hkey
        refine (hw.nextLeaf rounds hp false).bind ?_
        rintro w' ⟨location, hw', sink, node, index, rfl⟩
        refine ih hw' ?_ hkey
        have hcovering := hc.next location
        simpa using hcovering
      rw [SliceWriter.addLoop]
      refine (NodeWriter.add_filled h.filled p.key value p.eor p.deleted hi false).bind ?_
      rintro ⟨node, res⟩ (⟨rfl, -, hnode⟩ | ⟨size, rfl, -, -, hfilled⟩)
      · simp only [Option.isSome_none, Bool.false_eq_true, false_and, if_false]
        have hnode : node.node = some w.node.opened := hnode
        have hopened : node.opened = w.node.opened := by rw [NodeWriter.opened, hnode, Option.getD_some]
        exact hnext (w := { w with node := node })
          ⟨h.collects, hopened ▸ h.filled, h.tree, h.firstKey_fits, h.lastKey_fits⟩ hc hkey
      · have hw : Writing z { w with node := node } leaves
            (cur ++ [NodeWriter.entryFor p.key value p.eor p.deleted p.idx size]) :=
          ⟨h.collects, hfilled, h.tree, h.firstKey_fits, h.lastKey_fits⟩
        have hcovering := hc.push (hkey ▸ hne) (e := NodeWriter.entryFor p.key value p.eor p.deleted p.idx size)
          (by rw [← hkey]; rfl)
        by_cases hrest : value.drop size = []
        · simp only [Option.isSome_some, true_and, Option.getD_some, if_pos hrest]
          exact ⟨leaves, _, hw, hkey ▸ hcovering⟩
        · simp only [Option.isSome_some, true_and, Option.getD_some, if_neg hrest]
          exact hnext hw hcovering hkey

theorem addLoop_whole (hi : p.idx < 2 ^ 64) (newKey : Bool) (rounds : Nat) (h : Writing z w leaves cur)
    (hw : TakesWhole w.node.opened p) :
    Yields (fun _ => True)
      (fun w' => ∃ node e, w' = { w with node := node } ∧ e.key = p.key ∧
        Writing z { w with node := node } leaves (cur ++ [e]))
      (SliceWriter.addLoop z p newKey rounds w p.value) := by
  cases rounds with
  | zero => trivial
  | succ rounds =>
      rw [SliceWriter.addLoop]
      refine (NodeWriter.add_filled h.filled p.key p.value p.eor p.deleted hi false).bind ?_
      rintro ⟨node, res⟩ (⟨-, hspace, -⟩ | ⟨size, rfl, -, hsize, hfilled⟩)
      · rw [hw.1] at hspace
        exact absurd hspace (by decide)
      · have hrest : p.value.drop size = [] := List.drop_eq_nil_of_le (by rw [hsize, hw.2])
        simp only [Option.isSome_some, true_and, Option.getD_some, if_pos hrest]
        exact ⟨node, _, rfl, rfl, h.collects, hfilled, h.tree, h.firstKey_fits, h.lastKey_fits⟩

theorem addLoop_full (hp : p.key.length < maxKeySize) (hi : p.idx < 2 ^ 64) (rounds : Nat)
    (h : Writing z w leaves cur) (hfull : w.node.opened.hasEnoughSpace p.key p.value false = false)
    (hkey : w.firstKey ≠ []) (hw : TakesWhole OpenNode.internalReset p) :
    Yields (fun _ => True)
      (fun w' => ∃ location e, e.key = p.key ∧ Writing z w' (leaves ++ [(location, cur)]) [e] ∧
        w'.firstKey = p.key ∧ w'.handed = w.handed ++ [⟨w.firstKey, w.lastKey, location⟩])
      (SliceWriter.addLoop z p true rounds w p.value) := by
  cases rounds with
  | zero => trivial
  | succ rounds =>
      rw [SliceWriter.addLoop]
      refine (NodeWriter.add_filled h.filled p.key p.value p.eor p.deleted hi false).bind ?_
      rintro ⟨node, res⟩ (⟨rfl, -, hnode⟩ | ⟨size, -, hspace, -⟩)
      · simp only [Option.isSome_none, Bool.false_eq_true, false_and, if_false, Option.getD_none, List.drop_zero]
        have hnode : node.node = some w.node.opened := hnode
        have hopened : node.opened = w.node.opened := by rw [NodeWriter.opened, hnode, Option.getD_some]
        have hwriting : Writing z { w with node := node } leaves cur :=
          ⟨h.collects, hopened ▸ h.filled, h.tree, h.firstKey_fits, h.lastKey_fits⟩
        refine (hwriting.nextLeaf rounds hp true).bind ?_
        rintro w' ⟨location, hw', sink, node', index, rfl⟩
        refine (addLoop_whole hi true rounds hw' (takesWhole_empty internalReset_filled hw'.filled hw)).mono ?_
        rintro _ ⟨node'', e, rfl, he, hlast⟩
        refine ⟨location, e, he, hlast, ?_, ?_⟩
        · simp only [if_neg hkey, if_true]
        · simp only [if_neg hkey]
      · rw [hfull] at hspace
        exact absurd hspace (by decide)

theorem Accepts.lt_key {last : Key × Bool} (h : Accepts last p) (hne : p.key ≠ last.1) : last.1 < p.key := by
  rcases h.sorted with hnil | hle
  · rw [hnil]
    exact lt_of_le_of_ne (not_lt.mp (List.not_lt_nil _)) h.key_ne.symm
  · exact lt_of_le_of_ne (not_lt.mp hle) hne.symm

theorem add_covering (h : Writing z w leaves cur) (hc : Covering w.handed w.firstKey w.lastKey leaves cur)
    (rounds : Nat) (hwhole : w.Whole p) :
    Yields (fun _ => True)
      (fun w' => ∃ leaves' cur', Writing z w' leaves' cur' ∧
        Covering w'.handed w'.firstKey w'.lastKey leaves' cur')
      (w.add z rounds p) := by
  rw [SliceWriter.add]
  refine (require_yields _ _).bind (fun _ hidx => ?_)
  refine (check_yields w p).bind ?_
  rintro newKey ⟨hnew, hp⟩
  have hi := maxIdx_lt hidx
  have hdone : ∀ {w' : SliceWriter} {leaves' : List (Nat × List Entry)} {cur' : List Entry},
      Writing z w' leaves' cur' →
      Writing z { w' with lastKey := p.key, lastEor := p.eor, keyCount := w'.keyCount + 1 } leaves' cur' :=
    fun hw => ⟨hw.collects, hw.filled, hw.tree, hw.firstKey_fits, hp.key_fits⟩
  by_cases hsame : p.key = w.lastKey
  · have hfalse : newKey = false := by rw [hnew]; exact decide_eq_false (not_not.mpr hsame)
    subst hfalse
    simp only [Bool.false_eq_true, false_and, if_false]
    refine (addLoop_covering hp.key_fits hi rounds h hc hsame hp.key_ne).bind ?_
    rintro w' ⟨leaves', cur', hw', hc'⟩
    exact ⟨leaves', cur', hdone hw', hc'⟩
  · have htrue : newKey = true := by rw [hnew]; exact decide_eq_true hsame
    subst htrue
    have hlt := hp.lt_key hsame
    rcases hwhole hsame with hfits | ⟨hfull, hkey, hfits⟩
    · have hstart := h.started hp.key_fits (true = true ∧ w.firstKey = [])
      refine (addLoop_whole hi true rounds hstart (by split <;> exact hfits)).bind ?_
      rintro _ ⟨node, e, rfl, he, hw'⟩
      have hcovering := hc.pushNew hlt he
      refine ⟨leaves, cur ++ [e], hdone hw', ?_⟩
      by_cases hfirst : w.firstKey = []
      · simpa [hfirst] using hcovering
      · simpa [hfirst] using hcovering
    · simp only [hkey, and_false, if_false]
      refine (addLoop_full hp.key_fits hi rounds h hfull hkey hfits).bind ?_
      rintro w' ⟨location, e, he, hw', hfirst, hhanded⟩
      refine ⟨_, _, hdone hw', ?_⟩
      have hcovering := (hc.next location).pushNew hlt he
      rw [if_neg hkey] at hcovering
      simpa [hfirst, hhanded] using hcovering

end Steps

section Runs

variable {z : Codec} {w w' : SliceWriter} {parts : List Part} {leaves leaves' : List (Nat × List Entry)}
  {cur cur' : List Entry} {ts : List (SliceWriter × Part × SliceWriter)}

theorem Filled.unique {b : OpenNode} {es es' : List Entry} (h : Filled b es) (h' : Filled b es') : es = es' :=
  (h.entries (n := ⟨b.data, b.keyCount.val, 0⟩) rfl rfl).symm.trans (h'.entries rfl rfl)

theorem Writing.unique (h : Writing z w leaves cur) (h' : Writing z w leaves' cur') :
    leaves = leaves' ∧ cur = cur' :=
  ⟨h.collects.2.symm.trans h'.collects.2, h.filled.unique h'.filled⟩

theorem run_covering (hrun : Run (SliceWriter.Adds z) {} ts w) (hwhole : ∀ t ∈ ts, t.1.Whole t.2.1) :
    ∃ leaves cur, Holding z w (calls ts) leaves cur ∧
      Covering w.handed w.firstKey w.lastKey leaves cur := by
  induction hrun with
  | refl => exact ⟨[], [], holding_empty z, covering_empty⟩
  | tail hrun hs ih =>
      obtain ⟨leaves, cur, hold, hc⟩ := ih (fun t ht => hwhole t (by simp [ht]))
      obtain ⟨rounds, hadd⟩ := hs
      have hlast := hwhole _ (List.mem_append_right _ (List.mem_singleton_self _))
      obtain ⟨leaves', cur', hw', hc'⟩ := (add_covering hold.writing hc rounds hlast).of_ok hadd
      obtain ⟨leaves'', cur'', hold'⟩ := (hold.add rounds _).of_ok hadd
      obtain ⟨rfl, rfl⟩ := hw'.unique hold'.writing
      refine ⟨leaves', cur', ?_, hc'⟩
      rw [calls, List.map_append, List.map_singleton]
      exact hold'

theorem Flushed.covering (hf : Flushed z w w' leaves cur)
    (hc : Covering w.handed w.firstKey w.lastKey leaves cur) :
    Covering w'.handed [] w.lastKey (leavesOf w'.sink.nodes) [] := by
  obtain ⟨location, hleaves, hhanded⟩ := hf.last
  rw [hleaves, hhanded]
  exact hc.next location

def storedParts (w : SliceWriter) : List Part := ((leavesOf w.sink.nodes).flatMap Prod.snd).map Entry.part

theorem Flushed.storedParts_eq (hf : Flushed z w w' leaves cur) : storedParts w' = stream leaves cur := by
  obtain ⟨location, hleaves, -⟩ := hf.last
  rw [storedParts, hleaves, stream, List.flatMap_append, List.flatMap_singleton]

theorem pieces_key {p q : Part} {vs : List (List Byte)} (hq : q ∈ pieces p vs) : q.key = p.key := by
  induction vs with
  | nil => exact absurd hq (by simp [pieces])
  | cons v vs ih =>
      rw [pieces] at hq
      rcases List.mem_cons.mp hq with rfl | hq
      · rfl
      · exact ih hq

theorem Accepted.sorted {last last' : Key × Bool} {ps : List Part} (h : Accepted last ps last') :
    (∀ p ∈ ps, last.1 ≤ p.key) ∧ ps.Pairwise (fun p q => p.key ≤ q.key) := by
  induction h with
  | nil last => exact ⟨fun p hp => absurd hp (by simp), List.Pairwise.nil⟩
  | @cons last last' p ps hp _ ih =>
      have hle : last.1 ≤ p.key := by
        rcases hp.sorted with hnil | hle
        · rw [hnil]
          exact not_lt.mp (List.not_lt_nil _)
        · exact not_lt.mp hle
      exact ⟨List.forall_mem_cons.mpr ⟨hle, fun q hq => hle.trans (ih.1 q hq)⟩, List.pairwise_cons.mpr ih⟩

theorem Cut.sorted {out : List Part} (h : Cut parts out) (hs : parts.Pairwise (fun p q => p.key ≤ q.key)) :
    out.Pairwise (fun p q => p.key ≤ q.key) := by
  obtain ⟨cs, rfl, -, rfl⟩ := h
  refine List.pairwise_flatMap.mpr ⟨fun c _ => ?_, (List.pairwise_map.mp hs).imp (fun hle p hp q hq => ?_)⟩
  · exact List.pairwise_iff_forall_sublist.mpr (fun {p q} hpq => by
      have hp := pieces_key (hpq.subset (show p ∈ [p, q] by simp))
      have hq := pieces_key (hpq.subset (show q ∈ [p, q] by simp))
      exact (hp.trans hq.symm).le)
  · rwa [pieces_key hp, pieces_key hq]

theorem Cut.mem {out : List Part} (h : Cut parts out) {p : Part} (hp : p ∈ parts) :
    ∃ q ∈ out, q.key = p.key := by
  obtain ⟨cs, rfl, hcs, rfl⟩ := h
  obtain ⟨c, hc, rfl⟩ := List.mem_map.mp hp
  obtain ⟨v, vs, hvs⟩ := List.exists_cons_of_ne_nil (hcs c hc).1
  have hmem : ({ c.1 with value := v, eor := c.1.eor && vs.isEmpty } : Part) ∈ pieces c.1 c.2 := by
    rw [hvs, pieces]
    exact List.mem_cons_self ..
  exact ⟨_, List.mem_flatMap.mpr ⟨c, hc, hmem⟩, rfl⟩

theorem Flushed.covered (hf : Flushed z w w' leaves cur) (hold : Holding z w parts leaves cur)
    (hc : Covering w.handed w.firstKey w.lastKey leaves cur) {p : Part} (hp : p ∈ parts) :
    Covered w'.handed (leavesOf w'.sink.nodes) p.key := by
  obtain ⟨q, hq, hkey⟩ := hold.cut.mem hp
  rw [← hf.storedParts_eq] at hq
  obtain ⟨e, he, rfl⟩ := List.mem_map.mp hq
  obtain ⟨leaf, hleaf, he⟩ := List.mem_flatMap.mp he
  rw [← hkey]
  exact ((hf.covering hc).stored leaf hleaf e he).2

def valueOf (key : Key) (parts : List Part) : List Byte :=
  (parts.filter (fun p => p.key = key)).flatMap Part.value

theorem valueOf_append (key : Key) (ps qs : List Part) :
    valueOf key (ps ++ qs) = valueOf key ps ++ valueOf key qs := by
  rw [valueOf, List.filter_append, List.flatMap_append, valueOf, valueOf]

theorem valueOf_pieces (key : Key) (p : Part) (vs : List (List Byte)) :
    valueOf key (pieces p vs) = if p.key = key then vs.flatten else [] := by
  induction vs with
  | nil => simp [pieces, valueOf]
  | cons v vs ih =>
      rw [pieces, ← List.singleton_append, valueOf_append, ih, valueOf]
      by_cases hkey : p.key = key <;> simp [hkey]

theorem Cut.valueOf_eq {out : List Part} (h : Cut parts out) (key : Key) :
    valueOf key out = valueOf key parts := by
  obtain ⟨cs, rfl, hcs, rfl⟩ := h
  induction cs with
  | nil => rfl
  | cons c cs ih =>
      have hrest := ih (fun c hc => hcs c (List.mem_cons_of_mem _ hc))
      rw [List.flatMap_cons, valueOf_append, hrest, List.map_cons, ← List.singleton_append, valueOf_append,
        valueOf_pieces, (hcs c (List.mem_cons_self ..)).2]
      by_cases hkey : c.1.key = key <;> simp [valueOf, hkey]

end Runs

section Range

variable {z : Codec} {w w' : SliceWriter} {parts : List Part} {leaves : List (Nat × List Entry)}
  {cur : List Entry} {t : Slice} {data index : List (Nat × Node)}

theorem Views.holds (hread : Readable z w'.sink) (hfinished : Finished z w'.sink data index)
    (hv : Views z w' t) {l : Nat} {spans : List (Span Key Nat)} (h : w'.sink.Holds l spans) :
    t.Holds z l spans := by
  obtain ⟨es, hmem, rfl⟩ := h
  obtain ⟨p, hp, heq⟩ := List.mem_map.mp hmem
  obtain ⟨rfl, rfl⟩ := Prod.mk.inj heq
  obtain ⟨n, hn, hagree⟩ := load_agree hread.lossless hfinished hread.small hread.fits hv hp
  exact ⟨n, hn, by rw [n.spans_eq, hagree.entries_eq]⟩

theorem Imaged.isValid_eq {file : List Byte} {p : Nat × Node} (h : Imaged z file p) : isValid p.1 = true := by
  have hmax : maxSize = 2 ^ 15 - 1 := rfl
  have hlt := h.size_lt
  obtain ⟨isLeaf, hloc⟩ := h.location_eq
  rw [hloc, isValid_or _ (sizeField_lt (by omega) isLeaf)]
  exact decide_eq_true (sizeField_ne_invalid hlt isLeaf)

/-- The iterator for a key that a leaf is found for stands in that leaf, at the
first entry from the key on. -/
theorem range_drain (hread : Readable z w'.sink) (hfinished : Finished z w'.sink data index)
    (hv : Views z w' t) (hfull : ∀ q ∈ leavesOf data, q.2 ≠ []) {key : Key} {l height : Nat}
    (hcount : t.keyCount ≠ 0) (hfind : ∀ rounds ≥ height, t.findNodeFor z key key rounds t.root = .ok l)
    {before after : List (Nat × List Entry)} {es : List Entry}
    (hsplit : leavesOf data = before ++ (l, es) :: after)
    (hs : es.Pairwise (fun e e' => e.key ≤ e'.key)) (hkey : ∃ e ∈ es, e.key = key) :
    ∃ lower upper, es = lower ++ upper ∧ (∀ e ∈ lower, e.key < key) ∧ (∀ e ∈ upper, key ≤ e.key) ∧
      ∀ rounds > height + (contents data).length + (upper ++ after.flatMap Prod.snd).length,
        ∃ it, t.range z rounds key key = .ok (some it) ∧
          it.drain z t rounds rounds = .ok ((upper ++ after.flatMap Prod.snd).map Entry.part) := by
  obtain ⟨front, rest, hcontents, -, hrest⟩ := List.filter_eq_append_iff.mp hsplit
  obtain ⟨skipped, back, hskip, -, hleaf, hback⟩ := List.filter_eq_cons_iff.mp hrest
  have hchained := chained_data hread.lossless hfinished hread.small hread.fits hv
  rw [hcontents, hskip] at hchained
  have hchained : Chained z t ((l, es) :: back) := hchained.tail.tail
  obtain ⟨⟨n, hload, hentries, hnext⟩, -⟩ := id hchained
  have hvalid : isValid l = true := by
    have hmem : (l, es) ∈ contents data := by rw [hcontents, hskip]; simp
    obtain ⟨p, hp, heq⟩ := List.mem_map.mp hmem
    rw [← (Prod.mk.inj heq).1]
    exact (hfinished.imaged p (hfinished.nodes_eq ▸ List.mem_append_left _ hp)).isValid_eq
  simp only at hentries
  subst hentries
  have hlt := (@Slice.lowerBound_lt_iff key n hs).mpr (by
    obtain ⟨e, he, rfl⟩ := hkey
    exact ⟨e, he, le_rfl⟩)
  refine ⟨n.entries.take (n.lowerBound key), n.entries.drop (n.lowerBound key),
    (List.take_append_drop _ _).symm, fun e he => Node.lt_of_mem_take hs key he,
    fun e he => Node.le_of_mem_drop hs key he, fun rounds hr => ?_⟩
  have hlen : (contents data).length = front.length + (skipped.length + (back.length + 1)) := by
    rw [hcontents, hskip, List.length_append, List.length_append, List.length_cons]
  have hafter : leafEntries back = after.flatMap Prod.snd := by rw [leafEntries, hback]
  obtain ⟨it, hit, hdrain⟩ := @drain_iteratorAt z t n (l, n.entries) back rounds rounds (n.lowerBound key) (by omega)
    hchained hload
    (fun q hq hl => hfull q (by rw [hsplit, ← hback]; simp [hq, hl])) (by rw [n.length_entries]; exact hlt)
    (by
      rw [hafter]
      show (n.entries.drop (n.lowerBound key) ++ after.flatMap Prod.snd).length < rounds
      omega)
  refine ⟨it, ?_, by rw [hdrain, hafter]⟩
  rw [Slice.range, if_neg hcount, require_of le_rfl, hfind rounds (by omega)]
  simp only [bind, Except.bind]
  rw [if_neg (not_not.mpr hvalid), hload]
  simp only [hit]
  rfl

end Range

section Index

variable {z : Codec} {w w' : SliceWriter} {ts : List (SliceWriter × Part × SliceWriter)}

theorem pairwise_append_lt {lower upper : List Part} {key : Key}
    (hs : (lower ++ upper).Pairwise (fun p q => p.key ≤ q.key)) (hne : ∀ p ∈ lower, p.key ≠ key)
    (hkey : ∃ q ∈ upper, q.key = key) : ∀ p ∈ lower, p.key < key := by
  obtain ⟨q, hq, rfl⟩ := hkey
  exact fun p hp => lt_of_le_of_ne ((List.pairwise_append.mp hs).2.2 p hp q hq) (hne p hp)

/-- Where each new key goes whole into a leaf, the index leads every key to the
leaf that holds its first part, and a range for the key stands on that part. -/
theorem index_leads_to_first_parts (hrun : Run (SliceWriter.Adds z) {} ts w)
    (hflush : SliceWriter.Flushes z w w') (hwhole : ∀ t ∈ ts, t.1.Whole t.2.1) :
    Ordered w'.handed ∧
    (∀ p ∈ calls ts, ∃ sp ∈ w'.handed, sp.first ≤ p.key ∧ p.key ≤ sp.last ∧
      FirstLeaf (leavesOf w'.sink.nodes) p.key sp.target ∧
      ∀ sp' ∈ w'.handed, sp'.first ≤ p.key → p.key ≤ sp'.last → sp' = sp) ∧
    (Readable z w'.sink → ∀ cached stale, Admits z w'.sink cached stale → ∀ p ∈ calls ts,
      ∃ lower q upper bound, storedParts w' = lower ++ q :: upper ∧ (∀ r ∈ lower, r.key < p.key) ∧
        q.key = p.key ∧ valueOf p.key (q :: upper) = valueOf p.key (calls ts) ∧
        ∀ rounds ≥ bound, ∃ it, (w'.commit cached stale).range z rounds p.key p.key = .ok (some it) ∧
          it.drain z (w'.commit cached stale) rounds rounds = .ok (q :: upper)) := by
  obtain ⟨leaves, cur, hold, hc⟩ := run_covering hrun hwhole
  obtain ⟨rounds, hok⟩ := hflush
  have hf := (hold.flush rounds).of_ok hok
  have hcovering := hf.covering hc
  have hstored := hf.storedParts_eq
  have hsorted := hold.cut.sorted hold.accepted.sorted.2
  rw [← hstored] at hsorted
  refine ⟨hcovering.ordered, fun p hp => ?_, fun hread cached stale hadmits p hp => ?_⟩
  · obtain ⟨sp, hsp, hfirst, hlast, hleaf⟩ := hf.covered hold hc hp
    refine ⟨sp, hsp, hfirst, hlast, hleaf, fun sp' hsp' hfirst' hlast' => ?_⟩
    exact (chosen_of_mem hcovering.ordered hsp' hfirst' hlast').unique hcovering.ordered
      (chosen_of_mem hcovering.ordered hsp hfirst hlast)
  · obtain ⟨sp, hsp, hfirst, hlast, before, es, after, hsplit, hes, hbefore⟩ := hf.covered hold hc hp
    obtain ⟨data, index, hfinished, hdata, -⟩ := hf.finished hread.small
    have hv := views_commit w' stale hadmits
    have hne : calls ts ≠ [] := List.ne_nil_of_mem hp
    have hcount : (w'.commit cached stale).keyCount ≠ 0 := by
      rw [hv.keyCount_eq, hf.keyCount_eq, hold.keyCount_eq]
      exact fun hzero => hne (List.length_eq_zero_iff.mp hzero)
    obtain ⟨top, htree⟩ := hf.tree (List.ne_nil_of_mem hsp)
    have htree := htree.mono (fun l spans hl => hv.holds hread hfinished hl)
    have hfind : ∀ rounds ≥ top, (w'.commit cached stale).findNodeFor z p.key p.key rounds w'.root =
        .ok sp.target := by
      intro rounds hr
      obtain ⟨sp', hchosen, -, heq⟩ := Slice.findNodeFor_spans p.key p.key hr hcovering.ordered htree
      obtain rfl := hchosen.unique hcovering.ordered (chosen_of_mem hcovering.ordered hsp hfirst hlast)
      rw [heq, if_neg (not_or.mpr ⟨not_lt.mpr hlast, not_lt.mpr hfirst⟩)]
    have hparts : storedParts w' = (before.flatMap Prod.snd).map Entry.part ++
        (es.map Entry.part ++ (after.flatMap Prod.snd).map Entry.part) := by
      rw [storedParts, hsplit, List.flatMap_append, List.flatMap_cons, List.map_append, List.map_append]
    have hes_sorted : es.Pairwise (fun e e' => e.key ≤ e'.key) := by
      rw [hparts] at hsorted
      have hes_parts := (List.pairwise_append.mp (List.pairwise_append.mp hsorted).2.1).1
      exact (List.pairwise_map.mp hes_parts).imp id
    have hfull : ∀ q ∈ leavesOf data, q.2 ≠ [] := hdata ▸ leaves_full hold hf hne
    rw [← hdata] at hsplit
    obtain ⟨lower, upper, rfl, hlower, hupper, hdrain⟩ :=
      range_drain hread hfinished hv hfull hcount hfind hsplit hes_sorted hes
    obtain ⟨e, he, hkey⟩ := hes
    have hin : e ∈ upper := (List.mem_append.mp he).resolve_left (fun hlow => (hlower e hlow).ne hkey)
    obtain ⟨u, us, rfl⟩ := List.exists_cons_of_ne_nil (List.ne_nil_of_mem hin)
    have hu : u.key = p.key := by
      refine le_antisymm ?_ (hupper u (List.mem_cons_self ..))
      rcases List.mem_cons.mp hin with rfl | hin
      · exact hkey.le
      · rw [← hkey]
        exact (List.pairwise_cons.mp (List.pairwise_append.mp hes_sorted).2.1).1 e hin
    have hsplitparts : storedParts w' = ((before.flatMap Prod.snd).map Entry.part ++ lower.map Entry.part) ++
        u.part :: (us.map Entry.part ++ (after.flatMap Prod.snd).map Entry.part) := by
      rw [hparts]
      simp
    have hbelow : ∀ r ∈ (before.flatMap Prod.snd).map Entry.part ++ lower.map Entry.part, r.key < p.key := by
      rw [hsplitparts] at hsorted
      refine pairwise_append_lt hsorted (fun r hr => ?_) ⟨u.part, List.mem_cons_self .., hu⟩
      rcases List.mem_append.mp hr with hr | hr
      · obtain ⟨e', he', rfl⟩ := List.mem_map.mp hr
        obtain ⟨leaf, hleaf, he'⟩ := List.mem_flatMap.mp he'
        exact hbefore leaf hleaf e' he'
      · obtain ⟨e', he', rfl⟩ := List.mem_map.mp hr
        exact (hlower e' he').ne
    refine ⟨_, _, _, top + (contents data).length + (u :: us ++ after.flatMap Prod.snd).length + 1, hsplitparts,
      hbelow, hu, ?_, fun rounds hr => ?_⟩
    · have hnone : valueOf p.key ((before.flatMap Prod.snd).map Entry.part ++ lower.map Entry.part) = [] := by
        rw [valueOf, List.filter_eq_nil_iff.mpr (fun r hr => by simpa using (hbelow r hr).ne)]
        rfl
      have hvalue := hold.cut.valueOf_eq p.key
      rwa [← hstored, hsplitparts, valueOf_append, hnone, List.nil_append] at hvalue
    · obtain ⟨it, hrange, hit⟩ := hdrain rounds hr
      refine ⟨it, hrange, ?_⟩
      rw [hit, List.cons_append, List.map_cons, List.map_append]

theorem index_leads_to_first_parts_twoLeaves : ∃ ts w w', Run (SliceWriter.Adds lz4) {} ts w ∧
    calls ts = twoLeaves ∧ SliceWriter.Flushes lz4 w w' ∧ Ordered w'.handed ∧
    (∀ p ∈ calls ts, ∃ sp ∈ w'.handed, sp.first ≤ p.key ∧ p.key ≤ sp.last ∧
      FirstLeaf (leavesOf w'.sink.nodes) p.key sp.target ∧
      ∀ sp' ∈ w'.handed, sp'.first ≤ p.key → p.key ≤ sp'.last → sp' = sp) := by
  obtain ⟨ts, w, w', hrun, hcalls, hflush, -, hwhole, -⟩ := written_twoLeaves
  obtain ⟨hordered, hleads, -⟩ := index_leads_to_first_parts hrun hflush hwhole
  exact ⟨ts, w, w', hrun, hcalls, hflush, hordered, hleads⟩

def splitRecord : List Part := [⟨[97], List.replicate 10000 98, true, false, 1⟩]

def closedSplit (z : Codec) (v v' : List Byte) (hv : v.length ≤ 8111) (hv' : v'.length ≤ 8111) : SliceWriter :=
  SliceWriter.closed (.inSecond z (aloneNode 1 v hv 97 false (2 ^ 64 - 1)) 55 (alone 1 v' hv' 97 true) [] (by decide) 97 1)
    z ⟨{ node := some (SliceWriter.pair 32823 4030523 [] (by decide) 97) }, [97], [97]⟩
    (aloneNode 1 v' hv' 97 true (2 ^ 64 - 1)) (SliceWriter.pairNode 32823 4030523 [] (by decide) 97 (2 ^ 64 - 1))
    59 61 69 128

section Split

variable {z : Codec} {v v' : List Byte} (hv : v.length = 8111) (hv' : v'.length = 1889)

include hv hv'

theorem split_leaves
    (h₁ : (packed z (aloneNode 1 v hv.le 97 false (2 ^ 64 - 1))).length = 55)
    (h₂ : (packed z (aloneNode 1 v' (hv'.le.trans (by decide)) 97 true (2 ^ 64 - 1))).length = 59)
    (h₃ : (packed z (SliceWriter.pairNode 32823 4030523 [] (by decide) 97 (2 ^ 64 - 1))).length = 69) :
    ∃ ts w, Run (SliceWriter.Adds z) {} ts w ∧ calls ts = [⟨[97], v ++ v', true, false, 1⟩] ∧
      SliceWriter.Flushes z w (closedSplit z v v' hv.le (hv'.le.trans (by decide))) := by
  have hlen : (v ++ v').length = 10000 := by rw [List.length_append, hv, hv']
  have hcheck : ({} : SliceWriter).check ⟨[97], v ++ v', true, false, 1⟩ = .ok true := by
    simp [SliceWriter.check, require, maxKeySize, ok_bind]
  have hspace : OpenNode.internalReset.hasEnoughSpace [97] (v ++ v') false = true := by
    simp only [OpenNode.hasEnoughSpace, hlen]
    decide
  have hfirst := @add_alone (v ++ v') v 97 1 false true false hspace (by rw [hlen, hv]; rfl)
    (List.take_left ..) (by omega) (by rw [hlen, hv]; decide)
  have hspace' : OpenNode.internalReset.hasEnoughSpace [97] v' false = true := by
    simp only [OpenNode.hasEnoughSpace, hv']
    decide
  have hsecond := @add_alone v' v' 97 1 false true true hspace' (by rw [hv']; rfl)
    (List.take_length ..) (by omega) (by rw [decide_eq_true rfl]; rfl)
  have hleaf : Packs z (alone 1 v hv.le 97 false) _ 55 := ⟨storedNode_alone hv.le 97 false, h₁, by decide, by decide⟩
  have hnext := @SliceWriter.nextLeaf_first z _ (alone 1 v hv.le 97 false) [] 97 55 1
    { node := { node := some (alone 1 v hv.le 97 false) }, firstKey := [97] } 6 (by decide) rfl rfl rfl rfl rfl rfl
    hleaf
  have hloop : SliceWriter.addLoop z ⟨[97], v ++ v', true, false, 1⟩ true 8 { firstKey := [97] } (v ++ v') = .ok
      { SliceWriter.inSecond z (aloneNode 1 v hv.le 97 false (2 ^ 64 - 1)) 55
        (alone 1 v' (hv'.le.trans (by decide)) 97 true) [] (by decide) 97 1 with lastKey := [], keyCount := 0 } := by
    refine (SliceWriter.addLoop_more hfirst ?_).trans ?_
    · simp only [Option.getD_some, List.drop_left, Option.isSome_some, true_and]
      exact List.ne_nil_of_length_pos (by omega)
    · change SliceWriter.nextLeaf z (6 + 1) { node := { node := some (alone 1 v hv.le 97 false) }, firstKey := [97] }
        [97] true >>= _ = _
      rw [hnext, ok_bind, Option.getD_some, List.drop_left]
      exact SliceWriter.addLoop_whole hsecond
  have hadd := SliceWriter.add_of (show 1 < maxIdx by decide) hcheck hloop
  have hflush := @SliceWriter.flush_inSecond z _ [] 97 55 59 69 1 (by decide) _
    (alone 1 v' (hv'.le.trans (by decide)) 97 true) _ hleaf
    ⟨storedNode_alone (hv'.le.trans (by decide)) 97 true, h₂, by decide, by decide⟩ h₃ (by decide) (by decide)
  exact ⟨_, _, Run.tail Run.refl ⟨8, hadd⟩, rfl, ⟨8, hflush⟩⟩

end Split

theorem packed_splitRecord :
    (packed lz4 (aloneNode 1 (List.replicate 8111 98) List.length_replicate.le 97 false
      (2 ^ 64 - 1))).length = 55 ∧
    (packed lz4 (aloneNode 1 (List.replicate 1889 98) (List.length_replicate.le.trans (by decide)) 97 true
      (2 ^ 64 - 1))).length = 59 ∧
    (packed lz4 (SliceWriter.pairNode 32823 4030523 [] (by decide) 97 (2 ^ 64 - 1))).length = 69 := by
  refine ⟨?_, ?_, ?_⟩ <;> decide +kernel

theorem returns_splitRecord : (fun w : SliceWriter => w.handed.any (fun sp => decide (sp.last < sp.first)) &&
      returns Option.isNone ((w.commit w.sink.cache fun _ => []).range lz4 8 [97] [97]))
    (closedSplit lz4 (List.replicate 8111 98) (List.replicate 1889 98) List.length_replicate.le
      (List.length_replicate.le.trans (by decide))) = true := by
  decide +kernel

/-- Its first leaf is handed to the index with an empty last key, and no range
finds it. -/
theorem index_misses_splitRecord : ∃ ts w w', Run (SliceWriter.Adds lz4) {} ts w ∧
    calls ts = splitRecord ∧ SliceWriter.Flushes lz4 w w' ∧ ¬ Ordered w'.handed ∧
    (w'.commit w'.sink.cache fun _ => []).range lz4 8 [97] [97] = .ok none := by
  obtain ⟨hfirst, hsecond, hroot⟩ := packed_splitRecord
  obtain ⟨ts, w, hrun, hcalls, hflush⟩ := split_leaves List.length_replicate List.length_replicate hfirst
    hsecond hroot
  obtain ⟨w', hw'⟩ : ∃ w', w' = closedSplit lz4 (List.replicate 8111 98) (List.replicate 1889 98)
    List.length_replicate.le (List.length_replicate.le.trans (by decide)) := ⟨_, rfl⟩
  have htest := returns_splitRecord
  rw [← hw'] at hflush htest
  rw [List.replicate_append_replicate] at hcalls
  simp only [Bool.and_eq_true, List.any_eq_true, decide_eq_true_eq] at htest
  obtain ⟨⟨sp, hsp, hlt⟩, hrange⟩ := htest
  obtain ⟨it, hit, hnone⟩ := exists_of_returns hrange
  rw [Option.isNone_iff_eq_none.mp hnone] at hit
  exact ⟨ts, w, w', hrun, hcalls, hflush, fun ho => absurd hlt (not_lt.mpr (ho.1 sp hsp)), hit⟩

end Index

end Tyrdbs.Slices
