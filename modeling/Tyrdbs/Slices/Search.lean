import Tyrdbs.Slices.Reader
import Tyrdbs.Library.SpanTree

namespace Tyrdbs.Slices

open SpanTree

namespace Node

def spanAt (n : Node) (ndx : Nat) : Span Key Nat := ⟨n.keyAt ndx, n.valueAt ndx, n.attributesAt ndx⟩

def spans (n : Node) : List (Span Key Nat) := (List.range n.keyCount).map n.spanAt

@[simp] theorem length_spans (n : Node) : n.spans.length = n.keyCount := by
  rw [spans, List.length_map, List.length_range]

theorem getElem_spans (n : Node) {i : Nat} (h : i < n.spans.length) : n.spans[i] = n.spanAt i := by
  simp only [spans, List.getElem_map, List.getElem_range]

theorem entries_sorted {n : Node} (h : Ordered n.spans) :
    n.entries.Pairwise (fun e e' => e.key ≤ e'.key) := by
  refine List.pairwise_iff_getElem.mpr (fun i j hi hj hij => ?_)
  rw [length_entries] at hi hj
  have hlt := List.pairwise_iff_getElem.mp h.2 i j (by simpa) (by simpa) hij
  rw [getElem_spans, getElem_spans] at hlt
  have hle := h.1 (n.spanAt i) (by simp only [spans]; exact List.mem_map_of_mem (List.mem_range.mpr hi))
  rw [getElem_entries, getElem_entries]
  exact hle.trans hlt.le

theorem chosen_spanAt {n : Node} {key : Key} {i : Nat} (hi : i < n.keyCount)
    (hle : i = 0 ∨ n.keyAt i ≤ key) (hlt : ∀ j, i < j → j < n.keyCount → key < n.keyAt j) :
    Chosen key n.spans (n.spanAt i) := by
  have hi' : i < n.spans.length := by simpa
  refine ⟨n.spans.take i, n.spans.drop (i + 1), ?_, ?_, ?_⟩
  · rw [← getElem_spans n hi', ← List.drop_eq_getElem_cons hi', List.take_append_drop]
  · exact hle.imp_left (fun h => by rw [h, List.take_zero])
  · intro t ht
    obtain ⟨j, hj, rfl⟩ := List.mem_iff_getElem.mp ht
    rw [List.length_drop, length_spans] at hj
    rw [List.getElem_drop, getElem_spans]
    exact hlt _ (by omega) (by omega)

end Node

namespace Slice

variable {z : Codec} {s : Slice}

theorem childFor_chosen {n : Node} (hne : n.spans ≠ []) (ho : Ordered n.spans) (key : Key) :
    ∃ ndx, childFor n key = .ok ndx ∧ Chosen key n.spans (n.spanAt ndx) := by
  have hs := n.entries_sorted ho
  have hpos : 0 < n.keyCount := by
    rw [← n.length_spans]
    exact List.length_pos_iff.mpr hne
  obtain ⟨-, hle, hbelow, habove⟩ := Node.lowerBound_brackets hs key
  have hstrict : ∀ i j, i < j → j < n.keyCount → n.keyAt i < n.keyAt j := by
    intro i j hij hj
    have hlt := List.pairwise_iff_getElem.mp ho.2 i j (by simp; omega) (by simpa) hij
    have hfirst := ho.1 _ (List.getElem_mem (l := n.spans) (by simp; omega : i < n.spans.length))
    rw [Node.getElem_spans, Node.getElem_spans] at hlt
    rw [Node.getElem_spans] at hfirst
    exact lt_of_le_of_lt hfirst hlt
  rw [childFor]
  by_cases hend : n.lowerBound key = n.keyCount
  · rw [if_pos hend, hend, if_neg (by omega)]
    refine ⟨_, rfl, Node.chosen_spanAt (by omega) (Or.inr ?_) (fun j hj hjc => absurd hj (by omega))⟩
    exact (hbelow _ (by omega)).le
  · have hkey := habove _ le_rfl (by omega)
    rw [if_neg hend, if_neg (not_lt.mpr hkey)]
    by_cases hback : key < n.keyAt (n.lowerBound key) ∧ n.lowerBound key ≠ 0
    · rw [if_pos hback]
      refine ⟨_, rfl, Node.chosen_spanAt (by omega) (Or.inr (hbelow _ (by omega)).le) (fun j hj hjc => ?_)⟩
      exact hback.1.trans_le (Node.keyAt_mono hs (by omega) hjc)
    · rw [if_neg hback]
      refine ⟨_, rfl, Node.chosen_spanAt (by omega) ?_ (fun j hj hjc => ?_)⟩
      · by_cases hzero : n.lowerBound key = 0
        · exact Or.inl hzero
        · exact Or.inr (le_of_not_gt (fun hlt => hback ⟨hlt, hzero⟩))
      · exact hkey.trans_lt (hstrict _ _ hj hjc)

/-- The spans that an index node holds where the slice finds it. -/
def Holds (z : Codec) (s : Slice) (location : Nat) (spans : List (Span Key Nat)) : Prop :=
  ∃ n, s.load z location = .ok n ∧ n.spans = spans

/-- The descent ends at the chosen leaf, unless the range lies outside its
span. -/
theorem findNodeFor_spans (minKey maxKey : Key) {height rounds location : Nat}
    {spans : List (Span Key Nat)} (hr : height ≤ rounds) (ho : Ordered spans)
    (h : Spans (s.Holds z) (isLeafFrom · = true) height location spans) :
    ∃ sp, Chosen minKey spans sp ∧ isLeafFrom sp.target = true ∧
      s.findNodeFor z minKey maxKey rounds location =
        .ok (if sp.last < minKey ∨ maxKey < sp.first then invalidLocation else sp.target) := by
  induction rounds generalizing height location spans with
  | zero =>
      rw [Nat.le_zero.mp hr] at h
      exact h.elim
  | succ rounds ih =>
      cases height with
      | zero => exact h.elim
      | succ height =>
          obtain ⟨parts, hne, ⟨n, hload, hspans⟩, rfl, hb⟩ := h.parts
          have hon : Ordered n.spans := hspans ▸ ordered_of_parts hb ho
          obtain ⟨ndx, hchild, hchosen⟩ := childFor_chosen
            (hspans ▸ (List.map_eq_nil_iff.not.mpr hne)) hon minKey
          obtain ⟨sub, hbelow, hosub, hall⟩ := (hspans ▸ hchosen).below hb ho
          rw [findNodeFor, hload]
          simp only [bind, Except.bind, hchild]
          rcases hbelow with ⟨hleaf, rfl⟩ | ⟨hnode, hhull, htree⟩
          · refine ⟨n.spanAt ndx, hall _ ⟨[], [], rfl, Or.inl rfl, by simp⟩, hleaf, ?_⟩
            simp only [Node.spanAt] at hleaf ⊢
            rw [if_pos hleaf]
            exact (apply_ite _ _ _ _).symm
          · obtain ⟨sp, hsp, hleaf, hfind⟩ := ih (Nat.le_of_succ_le_succ hr) hosub htree
            refine ⟨sp, hall sp hsp, hleaf, ?_⟩
            simp only [Node.spanAt] at hnode hfind
            have hfirst : n.keyAt ndx ≤ sp.first := hhull.first_le hosub hsp.mem
            have hlast : sp.last ≤ n.valueAt ndx := hhull.last_le hosub hsp.mem
            rw [if_neg hnode]
            by_cases hout : n.valueAt ndx < minKey ∨ maxKey < n.keyAt ndx
            · rw [if_pos hout, if_pos]
              exact hout.imp (lt_of_le_of_lt hlast) (fun h => lt_of_lt_of_le h hfirst)
            · rw [if_neg hout]
              exact hfind

/-- Index nodes over leaves, which hold sorted keys inside their spans. -/
structure WellFormed (z : Codec) (s : Slice) (height : Nat) (spans : List (Span Key Nat)) : Prop where
  tree : s.keyCount ≠ 0 → Spans (s.Holds z) (isLeafFrom · = true) height s.root spans
  empty : s.keyCount = 0 → spans = []
  ordered : Ordered spans
  leaves : ∀ sp ∈ spans, isValid sp.target = true ∧ ∃ n, s.load z sp.target = .ok n ∧
    n.entries.Pairwise (fun e e' => e.key ≤ e'.key) ∧
    ∀ e ∈ n.entries, sp.first ≤ e.key ∧ e.key ≤ sp.last

def Stored (z : Codec) (s : Slice) (spans : List (Span Key Nat)) (key : Key) : Prop :=
  ∃ sp ∈ spans, ∃ n, s.load z sp.target = .ok n ∧ ∃ e ∈ n.entries, e.key = key

/-- Where the range holds a key, the iterator's first next stands on the
smallest key from the minimum on; there is none only for an empty range. -/
def FindsRange (z : Codec) (s : Slice) (spans : List (Span Key Nat)) (rounds : Nat) (minKey maxKey : Key) :
    Prop :=
  ((∃ key, s.Stored z spans key ∧ minKey ≤ key ∧ key ≤ maxKey) →
    ∃ it it', s.range z rounds minKey maxKey = .ok (some it) ∧ it.next z s rounds = .ok (true, it') ∧
      s.Stored z spans it'.current.key ∧ minKey ≤ it'.current.key ∧
      ∀ key, s.Stored z spans key → minKey ≤ key → it'.current.key ≤ key) ∧
  (s.range z rounds minKey maxKey = .ok none → ∀ key, s.Stored z spans key → ¬ (minKey ≤ key ∧ key ≤ maxKey))

/-- The leaf that is searched holds a key from the minimum on. -/
def LeafReaches (z : Codec) (s : Slice) (spans : List (Span Key Nat)) (minKey : Key) : Prop :=
  ∃ sp n, Chosen minKey spans sp ∧ s.load z sp.target = .ok n ∧ ∃ e ∈ n.entries, minKey ≤ e.key

section Range

variable {height rounds : Nat} {spans : List (Span Key Nat)} {minKey maxKey : Key}

theorem range_eq (h : s.WellFormed z height spans) (hk : s.keyCount ≠ 0) (hle : minKey ≤ maxKey)
    (hr : height ≤ rounds) :
    ∃ sp n, Chosen minKey spans sp ∧ s.load z sp.target = .ok n ∧
      s.range z rounds minKey maxKey =
        if sp.last < minKey ∨ maxKey < sp.first then .ok none
        else some <$> iteratorAt n (n.lowerBound minKey) := by
  obtain ⟨sp, hchosen, hleaf, hfind⟩ := findNodeFor_spans minKey maxKey hr
    h.ordered (h.tree hk)
  obtain ⟨hvalid, n, hload, -⟩ := h.leaves sp hchosen.mem
  refine ⟨sp, n, hchosen, hload, ?_⟩
  rw [range, if_neg hk, require_of hle, hfind]
  simp only [bind, Except.bind]
  by_cases hout : sp.last < minKey ∨ maxKey < sp.first
  · have hinvalid : isValid invalidLocation = false := by decide
    rw [if_pos hout, if_pos hout, if_pos (by rw [hinvalid]; decide)]
  · rw [if_neg hout, if_neg hout, if_neg (not_not.mpr hvalid), hload]

theorem lowerBound_lt_iff {n : Node} (hs : n.entries.Pairwise (fun e e' => e.key ≤ e'.key)) :
    n.lowerBound minKey < n.keyCount ↔ ∃ e ∈ n.entries, minKey ≤ e.key := by
  obtain ⟨-, hle, hbelow, habove⟩ := Node.lowerBound_brackets hs minKey
  constructor
  · intro hlt
    refine ⟨n.entryAt (n.lowerBound minKey), ?_, habove _ le_rfl hlt⟩
    exact List.mem_map_of_mem (List.mem_range.mpr hlt)
  · rintro ⟨e, he, hkey⟩
    obtain ⟨i, hi, rfl⟩ := List.mem_map.mp he
    have hi := List.mem_range.mp hi
    by_contra hend
    exact absurd hkey (not_le.mpr (hbelow i (by omega)))

theorem lowerBound_least {n : Node} (hs : n.entries.Pairwise (fun e e' => e.key ≤ e'.key))
    {e : Entry} (he : e ∈ n.entries) (hkey : minKey ≤ e.key) : n.keyAt (n.lowerBound minKey) ≤ e.key := by
  obtain ⟨-, hle, hbelow, habove⟩ := Node.lowerBound_brackets hs minKey
  obtain ⟨i, hi, rfl⟩ := List.mem_map.mp he
  have hi := List.mem_range.mp hi
  refine Node.keyAt_mono hs (not_lt.mp (fun hlt => ?_)) hi
  exact absurd hkey (not_le.mpr (hbelow i hlt))

theorem range_of_leafReaches (h : s.WellFormed z height spans) (hle : minKey ≤ maxKey)
    (hr : height ≤ rounds) (hreach : s.LeafReaches z spans minKey)
    (hkey : ∃ key, s.Stored z spans key ∧ minKey ≤ key ∧ key ≤ maxKey) :
    ∃ it it', s.range z rounds minKey maxKey = .ok (some it) ∧ it.next z s rounds = .ok (true, it') ∧
      s.Stored z spans it'.current.key ∧ minKey ≤ it'.current.key ∧
      ∀ key, s.Stored z spans key → minKey ≤ key → it'.current.key ≤ key := by
  obtain ⟨sp', n', hchosen', hload', e, he, hme⟩ := hreach
  have hk : s.keyCount ≠ 0 := fun hz => by
    have hmem := hchosen'.mem
    rw [h.empty hz] at hmem
    exact absurd hmem (by simp)
  obtain ⟨sp, n, hchosen, hload, hrange⟩ := range_eq h hk hle hr
  obtain rfl := hchosen.unique h.ordered hchosen'
  obtain ⟨hvalid, n'', hload'', hs, hin⟩ := h.leaves sp hchosen.mem
  obtain rfl : n = n' := Except.ok.inj (hload.symm.trans hload')
  obtain rfl : n = n'' := Except.ok.inj (hload.symm.trans hload'')
  have hlt := (lowerBound_lt_iff hs).mpr ⟨e, he, hme⟩
  have hbound := (Node.lowerBound_brackets hs minKey).2.2.2 _ le_rfl hlt
  have hmem : n.entryAt (n.lowerBound minKey) ∈ n.entries :=
    List.mem_map_of_mem (List.mem_range.mpr hlt)
  have hstay : ¬ (sp.last < minKey ∨ maxKey < sp.first) := by
    rintro (hout | hout)
    · exact absurd (hout.trans_le hme) (not_lt.mpr (hin e he).2)
    · obtain ⟨key, ⟨t, ht, m, hm, e', he', rfl⟩, -, hmax⟩ := hkey
      obtain ⟨-, m', hm', -, hin'⟩ := h.leaves t ht
      obtain rfl : m = m' := Except.ok.inj (hm.symm.trans hm')
      have hleast := hchosen.least h.ordered ht (hle.trans_lt hout)
      exact absurd (hleast.trans ((hin' e' he').1.trans hmax)) (not_le.mpr hout)
  refine ⟨{ node := n, ndx := n.lowerBound minKey },
    { node := n, ndx := n.lowerBound minKey, started := true }, ?_, rfl, ?_, hbound, ?_⟩
  · rw [hrange, if_neg hstay, iteratorAt, if_pos hlt]
    rfl
  · exact ⟨sp, hchosen.mem, n, hload, _, hmem, rfl⟩
  · rintro key ⟨t, ht, m, hm, e', he', rfl⟩ hmin
    obtain ⟨-, m', hm', -, hin'⟩ := h.leaves t ht
    obtain rfl : m = m' := Except.ok.inj (hm.symm.trans hm')
    rcases eq_or_ne t sp with rfl | hne
    · obtain rfl : m = n := Except.ok.inj (hm.symm.trans hload)
      exact lowerBound_least hs he' hmin
    · have hsplit := h.ordered
      obtain ⟨below, above, rfl, -, -⟩ := id hchosen
      rcases List.mem_append.mp ht with ht' | ht'
      · -- a span below the chosen one ends below the minimum
        have hlast := (List.pairwise_append.mp hsplit.2).2.2 t ht' sp (List.mem_cons_self ..)
        have hlow : e'.key < sp.first := (hin' e' he').2.trans_lt hlast
        have hmsp : minKey < sp.first := hmin.trans_lt hlow
        exact absurd (hchosen.least hsplit ht hmsp) (not_le.mpr (hsplit.first_lt ht'))
      · have ht' : t ∈ above := (List.mem_cons.mp ht').resolve_left hne
        have hlast := (List.pairwise_cons.mp (List.pairwise_append.mp hsplit.2).2.1).1 t ht'
        exact ((hin _ hmem).2.trans_lt hlast).le.trans (hin' e' he').1

end Range

end Slice

end Tyrdbs.Slices
