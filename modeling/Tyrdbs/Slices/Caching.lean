import Tyrdbs.Slices.RoundTrip
import Tyrdbs.Slices.Search

namespace Tyrdbs.Slices

open Bytes Outcome SpanTree Runs

theorem Node.spans_eq (n : Node) : n.spans = n.entries.map Entry.span := by
  rw [spans, entries, List.map_map]
  refine List.map_congr_left (fun ndx _ => ?_)
  simp only [spanAt, Function.comp_apply, Entry.span, entryAt]

section Agree

variable {n m : Node} (h : Agree n m)

include h

theorem Agree.narrow_eq (key : Key) (rounds first last : Nat) :
    n.narrow key rounds first last = m.narrow key rounds first last := by
  have hkey : n.keyAt = m.keyAt := by
    funext ndx
    exact congrArg Entry.key (congrFun h.entryAt_eq ndx)
  induction rounds generalizing first last with
  | zero => rfl
  | succ rounds ih => simp only [Node.narrow, hkey, ih]

theorem Agree.scan_eq (key : Key) (count first : Nat) : n.scan key count first = m.scan key count first := by
  have hkey : n.keyAt = m.keyAt := by
    funext ndx
    exact congrArg Entry.key (congrFun h.entryAt_eq ndx)
  induction count generalizing first with
  | zero => rfl
  | succ count ih => simp only [Node.scan, hkey, ih]

theorem Agree.lowerBound_eq (key : Key) : n.lowerBound key = m.lowerBound key := by
  simp only [Node.lowerBound, h.narrow_eq, h.scan_eq, h.keyCount_eq]

theorem Agree.spanAt_eq (ndx : Nat) : n.spanAt ndx = m.spanAt ndx := by
  obtain ⟨d, k, x⟩ := n
  obtain ⟨d', k', x'⟩ := m
  obtain ⟨rfl, rfl, -⟩ := h
  rfl

theorem Agree.childFor_eq (key : Key) : Slice.childFor n key = Slice.childFor m key := by
  have hkey : ∀ ndx, n.keyAt ndx = m.keyAt ndx := fun ndx => congrArg Span.first (h.spanAt_eq ndx)
  simp only [Slice.childFor, h.lowerBound_eq, h.keyCount_eq, hkey]

end Agree

/-- Two slices that load agreeing nodes wherever a reader gets to: in the tree
of the index, and along the chain of the data. -/
structure Coincide (z : Codec) (t u : Slice) (tree data : Nat → Prop) : Prop where
  keyCount_eq : t.keyCount = u.keyCount
  root_eq : t.root = u.root
  firstNodeSize_eq : t.firstNodeSize = u.firstNodeSize
  load : ∀ l, tree l ∨ data l → ∃ n m, t.load z l = .ok n ∧ u.load z l = .ok m ∧ Agree n m
  next : ∀ l n, data l → t.load z l = .ok n → isValid n.next = true → data n.next
  child : ∀ l n, tree l → t.load z l = .ok n → n.keyCount ≠ 0 ∧ ∀ ndx < n.keyCount,
    (isLeafFrom (n.spanAt ndx).target = true → data (n.spanAt ndx).target) ∧
      (¬ isLeafFrom (n.spanAt ndx).target = true → tree (n.spanAt ndx).target)
  first : t.keyCount ≠ 0 → data t.firstNodeSize
  root : t.keyCount ≠ 0 → tree t.root

theorem childFor_yields {n : Node} (hn : n.keyCount ≠ 0) (key : Key) :
    Yields (fun _ => True) (fun ndx => ndx < n.keyCount) (Slice.childFor n key) := by
  have hle : n.lowerBound key ≤ n.keyCount := n.lowerBound_le key
  rw [Slice.childFor]
  split
  · rename_i hend
    rw [hend, if_neg hn]
    exact Nat.sub_lt (Nat.pos_of_ne_zero hn) Nat.one_pos
  · rename_i hend
    split
    · trivial
    · split
      · show n.lowerBound key - 1 < n.keyCount
        omega
      · show n.lowerBound key < n.keyCount
        omega

/-- Two iterators that stand at the same entry of agreeing nodes. -/
structure Beside (data : Nat → Prop) (it ju : SliceIterator) : Prop where
  agree : Agree it.node ju.node
  linked : isValid it.node.next = true → data it.node.next
  ndx_eq : it.ndx = ju.ndx
  started_eq : it.started = ju.started
  ended_eq : it.ended = ju.ended

namespace Coincide

variable {z : Codec} {t u : Slice} {tree data : Nat → Prop} (h : Coincide z t u tree data)

include h

theorem load_alike {l : Nat} (hl : tree l ∨ data l) :
    Alike (fun n m => Agree n m ∧ t.load z l = .ok n) (t.load z l) (u.load z l) := by
  obtain ⟨n, m, hn, hm, hagree⟩ := h.load l hl
  rw [hn, hm]
  exact ⟨hagree, rfl⟩

theorem findNodeFor_alike (minKey maxKey : Key) (rounds : Nat) {l : Nat} (hl : tree l) :
    Alike (fun r r' => r = r' ∧ (isValid r = true → data r)) (t.findNodeFor z minKey maxKey rounds l)
      (u.findNodeFor z minKey maxKey rounds l) := by
  induction rounds generalizing l with
  | zero => rfl
  | succ rounds ih =>
      rw [Slice.findNodeFor, Slice.findNodeFor]
      refine (h.load_alike (Or.inl hl)).bind ?_
      rintro n m ⟨hagree, hn⟩
      obtain ⟨hcount, hchild⟩ := h.child l n hl hn
      rw [← hagree.childFor_eq]
      have hyields := childFor_yields hcount minKey
      cases hc : Slice.childFor n minKey with
      | error e => rfl
      | ok ndx =>
          rw [hc] at hyields
          have hndx := hchild ndx hyields
          have hspan := hagree.spanAt_eq ndx
          simp only [Node.spanAt, Span.mk.injEq] at hspan hndx
          obtain ⟨hkey, hvalue, hattributes⟩ := hspan
          simp only [bind, Except.bind, ← hvalue, ← hkey, ← hattributes]
          by_cases hout : n.valueAt ndx < minKey ∨ maxKey < n.keyAt ndx
          · rw [if_pos hout, if_pos hout]
            exact ⟨rfl, fun hvalid => absurd hvalid (by decide)⟩
          · rw [if_neg hout, if_neg hout]
            by_cases hleaf : isLeafFrom (n.attributesAt ndx) = true
            · rw [if_pos hleaf, if_pos hleaf]
              exact ⟨rfl, fun _ => hndx.1 hleaf⟩
            · rw [if_neg hleaf, if_neg hleaf]
              exact ih (hndx.2 hleaf)

theorem iteratorAt_alike {l : Nat} {n m : Node} (hl : data l) (hn : t.load z l = .ok n) (hagree : Agree n m)
    (ndx : Nat) : Alike (Beside data) (Slice.iteratorAt n ndx) (Slice.iteratorAt m ndx) := by
  rw [Slice.iteratorAt, Slice.iteratorAt, ← hagree.keyCount_eq]
  by_cases hlt : ndx < n.keyCount
  · rw [if_pos hlt, if_pos hlt]
    exact ⟨hagree, h.next l n hl hn, rfl, rfl, rfl⟩
  · rw [if_neg hlt, if_neg hlt]
    rfl

theorem loadNext_alike (rounds : Nat) {n m : Node} (hagree : Agree n m)
    (hlinked : isValid n.next = true → data n.next) :
    Alike (fun r r' => (r = none ∧ r' = none) ∨ ∃ n' m', r = some n' ∧ r' = some m' ∧ Agree n' m' ∧
        (isValid n'.next = true → data n'.next))
      (SliceIterator.loadNext z t rounds n) (SliceIterator.loadNext z u rounds m) := by
  induction rounds generalizing n m with
  | zero => rfl
  | succ rounds ih =>
      rw [SliceIterator.loadNext, SliceIterator.loadNext]
      rcases hagree.next_eq with hnext | ⟨hn, hm⟩
      · rw [← hnext]
        by_cases hvalid : isValid n.next = true
        · rw [if_neg (not_not.mpr hvalid), if_neg (not_not.mpr hvalid)]
          have hdata := hlinked hvalid
          refine (h.load_alike (Or.inr hdata)).bind ?_
          rintro n' m' ⟨hagree', hn'⟩
          have hlinked' := h.next _ n' hdata hn'
          by_cases hleaf : isLeafFrom n.next = true
          · rw [if_pos hleaf, if_pos hleaf]
            exact Or.inr ⟨n', m', rfl, rfl, hagree', hlinked'⟩
          · rw [if_neg hleaf, if_neg hleaf]
            exact ih hagree' hlinked'
        · rw [if_pos hvalid, if_pos hvalid]
          exact Or.inl ⟨rfl, rfl⟩
      · rw [if_pos (by rw [hn]; decide), if_pos (by rw [hm]; decide)]
        exact Or.inl ⟨rfl, rfl⟩

theorem next_alike (rounds : Nat) {it ju : SliceIterator} (hb : Beside data it ju) :
    Alike (fun r r' => r.1 = r'.1 ∧ Beside data r.2 r'.2) (it.next z t rounds) (ju.next z u rounds) := by
  rw [SliceIterator.next, SliceIterator.next, ← hb.ended_eq, ← hb.started_eq, ← hb.ndx_eq,
    ← hb.agree.keyCount_eq]
  by_cases hended : it.ended = true
  · rw [if_pos hended, if_pos hended]
    exact ⟨rfl, hb⟩
  rw [if_neg hended, if_neg hended]
  by_cases hstarted : ¬ it.started = true
  · rw [if_pos hstarted, if_pos hstarted]
    exact ⟨rfl, hb.agree, hb.linked, rfl, rfl, rfl⟩
  rw [if_neg hstarted, if_neg hstarted]
  by_cases hlast : it.ndx + 1 = it.node.keyCount
  · rw [if_pos hlast, if_pos hlast]
    refine (h.loadNext_alike rounds hb.agree hb.linked).bind ?_
    rintro _ _ (⟨rfl, rfl⟩ | ⟨n, m, rfl, rfl, hagree, hlinked⟩)
    · exact ⟨rfl, hb.agree, hb.linked, rfl, rfl, rfl⟩
    · exact ⟨rfl, hagree, hlinked, rfl, rfl, rfl⟩
  · rw [if_neg hlast, if_neg hlast]
    exact ⟨rfl, hb.agree, hb.linked, rfl, rfl, rfl⟩

theorem drain_eq (rounds calls : Nat) {it ju : SliceIterator} (hb : Beside data it ju) :
    it.drain z t rounds calls = ju.drain z u rounds calls := by
  refine Alike.eq ?_
  induction calls generalizing it ju with
  | zero => rfl
  | succ calls ih =>
      rw [SliceIterator.drain, SliceIterator.drain]
      refine (h.next_alike rounds hb).bind ?_
      rintro ⟨hasNext, it'⟩ ⟨hasNext', ju'⟩ ⟨rfl, hb'⟩
      cases hasNext with
      | false => exact rfl
      | true =>
          have hcurrent : it'.current = ju'.current := by
            rw [it'.current_eq, ju'.current_eq, hb'.agree.entryAt_eq, hb'.ndx_eq]
          simp only [if_true, hcurrent]
          exact (ih hb').bind (fun a b hab => congrArg _ hab)

end Coincide

def Slice.shown (z : Codec) (t : Slice) (rounds calls : Nat) (x : Except Fault (Option SliceIterator)) :
    Except Fault (Option (List Part)) := do
  match ← x with
  | none => .ok none
  | some it => some <$> it.drain z t rounds calls

namespace Coincide

variable {z : Codec} {t u : Slice} {tree data : Nat → Prop} (h : Coincide z t u tree data)

include h

theorem shown_eq (rounds calls : Nat) {x y : Except Fault (Option SliceIterator)}
    (hxy : Alike (fun r r' => (r = none ∧ r' = none) ∨ ∃ it ju, r = some it ∧ r' = some ju ∧ Beside data it ju)
      x y) : t.shown z rounds calls x = u.shown z rounds calls y := by
  refine Alike.eq (hxy.bind ?_)
  rintro _ _ (⟨rfl, rfl⟩ | ⟨it, ju, rfl, rfl, hb⟩)
  · rfl
  · simp only [h.drain_eq rounds calls hb]
    exact alike_refl (fun _ => rfl) _

theorem some_iteratorAt_alike {l : Nat} {n m : Node} (hl : data l) (hn : t.load z l = .ok n)
    (hagree : Agree n m) (ndx : Nat) :
    Alike (fun r r' => (r = none ∧ r' = none) ∨ ∃ it ju, r = some it ∧ r' = some ju ∧ Beside data it ju)
      (some <$> Slice.iteratorAt n ndx) (some <$> Slice.iteratorAt m ndx) :=
  (h.iteratorAt_alike hl hn hagree ndx).bind (fun it ju hb => Or.inr ⟨it, ju, rfl, rfl, hb⟩)

theorem begin_shown (rounds calls : Nat) :
    t.shown z rounds calls (t.begin z) = u.shown z rounds calls (u.begin z) := by
  refine h.shown_eq rounds calls ?_
  rw [Slice.begin, Slice.begin, ← h.keyCount_eq, ← h.firstNodeSize_eq]
  by_cases hempty : t.keyCount = 0
  · rw [if_pos hempty, if_pos hempty]
    exact Or.inl ⟨rfl, rfl⟩
  have hfirst := h.first hempty
  have hlocation : locationAt 0 t.firstNodeSize = .ok t.firstNodeSize := by
    rw [locationAt, if_pos (by decide), Nat.zero_shiftLeft, Nat.zero_or]
  rw [if_neg hempty, if_neg hempty, hlocation]
  simp only [bind, Except.bind]
  refine (h.load_alike (Or.inr hfirst)).bind ?_
  rintro n m ⟨hagree, hn⟩
  exact h.some_iteratorAt_alike hfirst hn hagree 0

theorem range_shown (rounds calls : Nat) (minKey maxKey : Key) :
    t.shown z rounds calls (t.range z rounds minKey maxKey) =
      u.shown z rounds calls (u.range z rounds minKey maxKey) := by
  refine h.shown_eq rounds calls ?_
  rw [Slice.range, Slice.range, ← h.keyCount_eq, ← h.root_eq]
  by_cases hempty : t.keyCount = 0
  · rw [if_pos hempty, if_pos hempty]
    exact Or.inl ⟨rfl, rfl⟩
  rw [if_neg hempty, if_neg hempty]
  refine (alike_refl (fun _ => rfl) (require (minKey ≤ maxKey) Fault.assertion)).bind (fun _ _ _ => ?_)
  refine (h.findNodeFor_alike minKey maxKey rounds (h.root hempty)).bind ?_
  rintro l _ ⟨rfl, hl⟩
  by_cases hvalid : isValid l = true
  · rw [if_neg (not_not.mpr hvalid), if_neg (not_not.mpr hvalid)]
    refine (h.load_alike (Or.inr (hl hvalid))).bind ?_
    rintro n m ⟨hagree, hn⟩
    rw [← hagree.lowerBound_eq]
    exact h.some_iteratorAt_alike (hl hvalid) hn hagree _
  · rw [if_pos hvalid, if_pos hvalid]
    exact Or.inl ⟨rfl, rfl⟩

end Coincide

section Flushed

variable {z : Codec} {w w' : SliceWriter} {parts : List Part} {leaves : List (Nat × List Entry)}
  {cur : List Entry} {ts : List (SliceWriter × Part × SliceWriter)}

theorem Flushed.targets (h : Flushed z w w' leaves cur) (ht : Targets w leaves) :
    Targets w' (leavesOf w'.sink.nodes) := by
  obtain ⟨location, hleaves, hhanded⟩ := h.last
  rw [hleaves, Targets, hhanded]
  exact ht.nextLeaf location

theorem Flushed.handed_ne (h : Flushed z w w' leaves cur) (hb : Begun w) : w'.handed ≠ [] := by
  obtain ⟨location, -, hhanded⟩ := h.last
  rw [hhanded]
  exact hb.nextLeaf location

theorem next_of_chain {file : List Byte} {nodes : List (Nat × Node)} (h : nodes.IsChain (Followed z file))
    (he : ∀ p, nodes.getLast? = some p → Ends z file p) {p : Nat × Node} (hp : p ∈ nodes) :
    (∃ q ∈ nodes, p.2.next = q.1) ∨ p.2.next = invalidSize := by
  obtain ⟨a, b, rfl⟩ := List.append_of_mem hp
  cases b with
  | nil => exact Or.inr (he p (by rw [List.getLast?_append]; rfl)).next_eq
  | cons q b => exact Or.inl ⟨q, by simp, (List.isChain_append_cons_cons.mp h).2.1.next_eq⟩

/-- Whatever their caches hold, two views of a written slice coincide. -/
theorem coincide_views (hold : Holding z w parts leaves cur) (hflush : Flushed z w w' leaves cur)
    (hread : Readable z w'.sink) {t u : Slice} (ht : Views z w' t) (hu : Views z w' u) :
    ∃ tree data, Coincide z t u tree data := by
  obtain ⟨data, index, hfinished, hdata, -⟩ := hflush.finished hread.small
  have hload : ∀ {v : Slice}, Views z w' v → ∀ p ∈ w'.sink.nodes, ∃ n, v.load z p.1 = .ok n ∧ Agree n p.2 :=
    fun hv p hp => load_agree hread.lossless hfinished hread.small hread.fits hv hp
  have hsub : ∀ p ∈ data, p ∈ w'.sink.nodes := fun p hp => hfinished.nodes_eq ▸ List.mem_append_left _ hp
  have hnode : ∀ {l es}, (l, es) ∈ contents w'.sink.nodes → ∃ p ∈ w'.sink.nodes, p.1 = l ∧ p.2.entries = es := by
    intro l es hmem
    obtain ⟨p, hp, heq⟩ := List.mem_map.mp hmem
    obtain ⟨rfl, rfl⟩ := Prod.mk.inj heq
    exact ⟨p, hp, rfl, rfl⟩
  refine ⟨fun l => ∃ height spans, Spans w'.sink.Holds Leaf height l spans ∧
      ∀ sp ∈ spans, ∃ p ∈ data, p.1 = sp.target, fun l => ∃ p ∈ data, p.1 = l, ?_⟩
  refine ⟨ht.keyCount_eq.trans hu.keyCount_eq.symm, ht.root_eq.trans hu.root_eq.symm,
    ht.firstNodeSize_eq.trans hu.firstNodeSize_eq.symm, ?_, ?_, ?_, fun _ => ?_, fun hcount => ?_⟩
  · intro l hl
    obtain ⟨p, hp, rfl⟩ : ∃ p ∈ w'.sink.nodes, p.1 = l := by
      rcases hl with ⟨height, spans, htree, -⟩ | ⟨p, hp, rfl⟩
      · cases height with
        | zero => exact htree.elim
        | succ height =>
            obtain ⟨_, -, ⟨es, hmem, -⟩, -⟩ := htree.parts
            obtain ⟨p, hp, hl, -⟩ := hnode hmem
            exact ⟨p, hp, hl⟩
      · exact ⟨p, hsub p hp, rfl⟩
    obtain ⟨n, hn, hagree⟩ := hload ht p hp
    obtain ⟨m, hm, hagree'⟩ := hload hu p hp
    exact ⟨n, m, hn, hm, hagree.join hagree'⟩
  · rintro _ n ⟨p, hp, rfl⟩ hn hvalid
    obtain ⟨n', hn', hagree⟩ := hload ht p (hsub p hp)
    obtain rfl : n = n' := Except.ok.inj (hn.symm.trans hn')
    rcases hagree.next_eq with hnext | ⟨hinvalid, -⟩
    · rcases next_of_chain hfinished.chain hfinished.ends hp with ⟨q, hq, heq⟩ | hend
      · exact ⟨q, hq, (hnext.trans heq).symm⟩
      · rw [hnext, hend] at hvalid
        exact absurd hvalid (by decide)
    · rw [hinvalid] at hvalid
      exact absurd hvalid (by decide)
  · rintro l n ⟨height, spans, htree, hspan⟩ hn
    cases height with
    | zero => exact htree.elim
    | succ height =>
        obtain ⟨parts, hne, ⟨es, hmem, hes⟩, rfl, hb⟩ := htree.parts
        obtain ⟨p, hp, rfl, rfl⟩ := hnode hmem
        obtain ⟨n', hn', hagree⟩ := hload ht p hp
        obtain rfl : n = n' := Except.ok.inj (hn.symm.trans hn')
        have hparts : n.spans = parts.map Prod.fst := by rw [n.spans_eq, hagree.entries_eq, hes]
        refine ⟨fun hzero => hne ?_, fun ndx hndx => ?_⟩
        · rw [← List.map_eq_nil_iff, ← hparts, ← List.length_eq_zero_iff, n.length_spans, hzero]
        · have hin : n.spanAt ndx ∈ parts.map Prod.fst := by
            rw [← hparts, Node.spans]
            exact List.mem_map_of_mem (List.mem_range.mpr hndx)
          obtain ⟨q, hq, hspanAt⟩ := List.mem_map.mp hin
          rw [← hspanAt]
          have hmem : ∀ sp ∈ q.2, sp ∈ parts.flatMap Prod.snd := fun sp hsp =>
            List.mem_flatMap.mpr ⟨q, hq, hsp⟩
          rcases hb q hq with ⟨hleaf, hq2⟩ | ⟨hnoleaf, -, hsubtree⟩
          · exact ⟨fun _ => hspan _ (hmem _ (by rw [hq2]; simp)), fun habs => absurd hleaf habs⟩
          · exact ⟨fun habs => absurd habs hnoleaf,
              fun _ => ⟨height, q.2, hsubtree, fun sp hsp => hspan sp (hmem sp hsp)⟩⟩
  · obtain ⟨p, rest, hcons⟩ := List.exists_cons_of_ne_nil hfinished.data_ne
    have hhead := hfinished.head p (by rw [hcons]; rfl)
    exact ⟨p, by rw [hcons]; simp, by rw [ht.firstNodeSize_eq, hhead.location_eq]⟩
  · have hne : parts ≠ [] := fun hnil => hcount (by
      rw [ht.keyCount_eq, hflush.keyCount_eq, hold.keyCount_eq, hnil, List.length_nil])
    obtain ⟨top, htree⟩ := hflush.tree (hflush.handed_ne (hold.begun hne))
    refine ⟨top, w'.handed, by rw [ht.root_eq]; exact htree, fun sp hsp => ?_⟩
    obtain ⟨es, hes⟩ := hflush.targets hold.targets sp hsp
    rw [← hdata] at hes
    obtain ⟨p, hp, heq⟩ := List.mem_map.mp (List.mem_filter.mp hes).1
    exact ⟨p, hp, congrArg Prod.fst heq⟩

theorem Flushed.root_invalid (hflush : Flushed z w w' leaves cur) (hsmall : w'.sink.file.length < 2 ^ 32)
    {p : Nat × Node} (hp : p ∈ w'.sink.nodes) (hroot : p.1 = w'.root) : isValid p.2.next = false := by
  obtain ⟨data, index, hfinished, -⟩ := hflush.finished hsmall
  obtain ⟨b, r, rfl⟩ := (List.eq_nil_or_concat' index).resolve_left hfinished.index_ne
  obtain ⟨-, -, es, hlast⟩ := hflush.root
  have hr : r ∈ w'.sink.nodes := by rw [hfinished.nodes_eq]; simp
  rw [hfinished.nodes_eq, contents, List.getLast?_map, ← List.append_assoc, List.getLast?_append] at hlast
  have heq : p.2 = r.2 := hfinished.node_eq hr (by
    rw [show r.1 = p.1 from (congrArg Prod.fst (Option.some.inj hlast)).trans hroot.symm]
    exact hp)
  rw [heq, (hfinished.indexEnds r (by rw [List.getLast?_append]; rfl)).next_eq]
  decide

theorem Flushed.lastLeaf_invalid (hflush : Flushed z w w' leaves cur) (hsmall : w'.sink.file.length < 2 ^ 32)
    {p : Nat × Node} (hlast : (w'.sink.nodes.filter (fun p => isLeafFrom p.1)).getLast? = some p) :
    isValid p.2.next = false := by
  obtain ⟨data, index, hfinished, hdata, q, hq, hleaf⟩ := hflush.finished hsmall
  obtain ⟨a, r, rfl⟩ := (List.eq_nil_or_concat' data).resolve_left hfinished.data_ne
  rw [contents, List.getLast?_map, List.getLast?_append] at hq
  have hrleaf : isLeafFrom r.1 = true := by
    rw [show r.1 = q.1 from congrArg Prod.fst (Option.some.inj hq)]
    exact hleaf
  have hnone : index.filter (fun p => isLeafFrom p.1) = [] := by
    have happend : ∀ l : List (Nat × Node), leavesOf (l ++ index) = leavesOf l ++ leavesOf index := fun l => by
      rw [leavesOf, contents, List.map_append, List.filter_append]
      rfl
    rw [hfinished.nodes_eq, happend, List.self_eq_append_right, leavesOf, contents, List.filter_map] at hdata
    exact List.map_eq_nil_iff.mp hdata
  rw [hfinished.nodes_eq, List.filter_append, hnone, List.append_nil, List.filter_append,
    List.filter_singleton, hrleaf, List.getLast?_append] at hlast
  obtain rfl : r = p := Option.some.inj hlast
  rw [(hfinished.ends r (by rw [List.getLast?_append]; rfl)).next_eq]
  decide

/-- What store put into the cache is what is loaded from the file, and the last
leaf and the root end their chains; a reader cannot tell which nodes are cached. -/
theorem cached_nodes_agree (hrun : Run (SliceWriter.Adds z) {} ts w) (hflush : SliceWriter.Flushes z w w')
    (hread : Readable z w'.sink) :
    (∀ p ∈ w'.sink.nodes, ∀ stale, ∃ n, loadNode z w'.sink.file stale p.1 = .ok n ∧ Agree n p.2) ∧
    (∀ p, (w'.sink.nodes.filter (fun p => isLeafFrom p.1)).getLast? = some p → isValid p.2.next = false) ∧
    (∀ p ∈ w'.sink.nodes, p.1 = w'.root → isValid p.2.next = false) ∧
    ∀ cached stale cached' stale', Admits z w'.sink cached stale → Admits z w'.sink cached' stale' →
      ∀ rounds calls,
        (w'.commit cached stale).shown z rounds calls ((w'.commit cached stale).begin z) =
          (w'.commit cached' stale').shown z rounds calls ((w'.commit cached' stale').begin z) ∧
        ∀ minKey maxKey,
          (w'.commit cached stale).shown z rounds calls ((w'.commit cached stale).range z rounds minKey maxKey) =
            (w'.commit cached' stale').shown z rounds calls
              ((w'.commit cached' stale').range z rounds minKey maxKey) := by
  obtain ⟨leaves, cur, hold⟩ := run_holding hrun
  obtain ⟨rounds, hok⟩ := hflush
  have hf := (hold.flush rounds).of_ok hok
  obtain ⟨data, index, hfinished, -⟩ := hf.finished hread.small
  refine ⟨fun p hp stale => hfinished.loadNode hread.lossless hp (hread.fits p hp) hread.small stale,
    fun p hp => hf.lastLeaf_invalid hread.small hp, fun p hp hroot => hf.root_invalid hread.small hp hroot, ?_⟩
  intro cached stale cached' stale' hadmits hadmits' rounds calls
  obtain ⟨tree, data, hcoincide⟩ := coincide_views hold hf hread (views_commit w' stale hadmits)
    (views_commit w' stale' hadmits')
  exact ⟨hcoincide.begin_shown rounds calls, hcoincide.range_shown rounds calls⟩

theorem cached_nodes_agree_twoLeaves : ∃ ts w w', Run (SliceWriter.Adds lz4) {} ts w ∧
    calls ts = twoLeaves ∧ SliceWriter.Flushes lz4 w w' ∧
    (∀ p ∈ w'.sink.nodes, ∀ stale,
      ∃ n, loadNode lz4 w'.sink.file stale p.1 = .ok n ∧ Agree n p.2) := by
  obtain ⟨ts, w, w', hrun, hcalls, hflush, hread, -⟩ := written_twoLeaves
  exact ⟨ts, w, w', hrun, hcalls, hflush, (cached_nodes_agree hrun hflush hread).1⟩

end Flushed

end Tyrdbs.Slices
