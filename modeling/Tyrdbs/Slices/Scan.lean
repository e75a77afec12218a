import Tyrdbs.Slices.Reader

namespace Tyrdbs.Slices

def Entry.part (e : Entry) : Part := ⟨e.key, e.value, e.eor, e.deleted, e.attributes⟩

/-- The entries of the leaves among a file's nodes, in their order. -/
def leafEntries (chain : List (Nat × List Entry)) : List Entry :=
  (chain.filter (fun p => isLeafFrom p.1)).flatMap Prod.snd

theorem SliceIterator.current_eq (it : SliceIterator) : it.current = (it.node.entryAt it.ndx).part := by
  rw [current, Entry.part, Node.entryAt]

def LeadsTo (next : Nat) : List (Nat × List Entry) → Prop
  | [] => isValid next = false
  | p :: _ => next = p.1 ∧ isValid p.1 = true

/-- Nodes that the slice finds one behind the other, up to the last one. -/
def Chained (z : Codec) (s : Slice) : List (Nat × List Entry) → Prop
  | [] => True
  | p :: chain =>
      (∃ n, s.load z p.1 = .ok n ∧ n.entries = p.2 ∧ LeadsTo n.next chain) ∧ Chained z s chain

theorem leafEntries_skip {chain rest : List (Nat × List Entry)} (h : ∀ p ∈ chain, isLeafFrom p.1 = false) :
    leafEntries (chain ++ rest) = leafEntries rest := by
  have hnone : chain.filter (fun p => isLeafFrom p.1) = [] := by
    rw [List.filter_eq_nil_iff]
    intro p hp
    rw [h p hp]
    decide
  rw [leafEntries, List.filter_append, hnone, List.nil_append, leafEntries]

theorem leafEntries_cons {p : Nat × List Entry} {chain : List (Nat × List Entry)}
    (h : isLeafFrom p.1 = true) : leafEntries (p :: chain) = p.2 ++ leafEntries chain := by
  rw [leafEntries, List.filter_cons, if_pos h, List.flatMap_cons, leafEntries]

section Chain

variable {z : Codec} {s : Slice}

theorem Chained.tail {a b : List (Nat × List Entry)} (h : Chained z s (a ++ b)) : Chained z s b := by
  induction a with
  | nil => exact h
  | cons p a ih => exact ih h.2

theorem loadNext_chained {n : Node} {chain : List (Nat × List Entry)} {rounds : Nat}
    (hr : chain.length < rounds) (hc : Chained z s chain)
    (hn : LeadsTo n.next chain) :
    (SliceIterator.loadNext z s rounds n = .ok none ∧ ∀ p ∈ chain, isLeafFrom p.1 = false) ∨
      ∃ skipped p rest n', chain = skipped ++ p :: rest ∧ (∀ q ∈ skipped, isLeafFrom q.1 = false) ∧
        isLeafFrom p.1 = true ∧ SliceIterator.loadNext z s rounds n = .ok (some n') ∧
        n'.entries = p.2 ∧ s.load z p.1 = .ok n' := by
  induction chain generalizing n rounds with
  | nil =>
      obtain ⟨rounds, rfl⟩ : ∃ k, rounds = k + 1 := ⟨rounds - 1, by omega⟩
      refine Or.inl ⟨?_, fun p hp => absurd hp (by simp)⟩
      have hn : isValid n.next = false := hn
      rw [SliceIterator.loadNext, if_pos (by rw [hn]; decide)]
  | cons p chain ih =>
      obtain ⟨rounds, rfl⟩ : ∃ k, rounds = k + 1 := ⟨rounds - 1, by omega⟩
      obtain ⟨hnext, hvalid⟩ := hn
      obtain ⟨⟨n', hload, hentries, hn'⟩, hc⟩ := hc
      rw [SliceIterator.loadNext, hnext, if_neg (by rw [hvalid]; decide), hload]
      simp only [bind, Except.bind]
      by_cases hleaf : isLeafFrom p.1 = true
      · rw [if_pos hleaf]
        exact Or.inr ⟨[], p, chain, n', rfl, by simp, hleaf, rfl, hentries, hload⟩
      · rw [if_neg hleaf]
        have hleaf : isLeafFrom p.1 = false := Bool.eq_false_iff.mpr hleaf
        rcases ih (by simpa using hr) hc hn' with ⟨heq, hnone⟩ | ⟨skipped, q, rest, n'', rfl, hskip, hq, heq, he, hl⟩
        · exact Or.inl ⟨heq, List.forall_mem_cons.mpr ⟨hleaf, hnone⟩⟩
        · exact Or.inr ⟨p :: skipped, q, rest, n'', rfl, List.forall_mem_cons.mpr ⟨hleaf, hskip⟩, hq, heq, he, hl⟩

theorem drain_chained {n : Node} {p : Nat × List Entry} {chain : List (Nat × List Entry)}
    {rounds calls ndx : Nat} (hr : chain.length < rounds) (hc : Chained z s (p :: chain))
    (hload : s.load z p.1 = .ok n) (hne : ∀ q ∈ chain, isLeafFrom q.1 = true → q.2 ≠ [])
    (hndx : ndx < p.2.length) (hcalls : (p.2.drop (ndx + 1) ++ leafEntries chain).length < calls) :
    SliceIterator.drain z s rounds calls { node := n, ndx := ndx, started := true } =
      .ok ((p.2.drop (ndx + 1) ++ leafEntries chain).map Entry.part) := by
  induction calls generalizing n p chain ndx with
  | zero => omega
  | succ calls ih =>
      obtain ⟨⟨n', hload', hentries, hn⟩, hrest⟩ := id hc
      obtain rfl : n = n' := Except.ok.inj (hload.symm.trans hload')
      have hcount : n.keyCount = p.2.length := by rw [← hentries, n.length_entries]
      rw [SliceIterator.drain, SliceIterator.next]
      simp only [Bool.false_eq_true, if_false, not_true_eq_false]
      by_cases hlast : ndx + 1 = n.keyCount
      · rw [if_pos hlast]
        have hdrop : p.2.drop (ndx + 1) = [] := List.drop_eq_nil_of_le (by omega)
        rw [hdrop, List.nil_append] at hcalls ⊢
        rcases loadNext_chained hr hrest hn with
          ⟨heq, hnone⟩ | ⟨skipped, q, rest, n', rfl, hskip, hq, heq, he, hl⟩
        · have hempty : leafEntries chain = [] := by
            have hskip : leafEntries (chain ++ []) = leafEntries [] := leafEntries_skip hnone
            rwa [List.append_nil] at hskip
          rw [heq, hempty]
          rfl
        · rw [leafEntries_skip hskip, leafEntries_cons hq] at hcalls ⊢
          have hpos : 0 < q.2.length := List.length_pos_iff.mpr (hne q (by simp) hq)
          have hih := @ih n' q rest 0
            (by simp only [List.length_append, List.length_cons] at hr; omega) hrest.tail hl
            (fun q' hq' => hne q' (by simp [hq'])) hpos (by
              simp only [List.length_append, List.length_drop] at hcalls ⊢
              omega)
          rw [heq]
          simp only [bind, Except.bind, if_true]
          rw [hih]
          obtain ⟨e, es, hes⟩ := List.exists_cons_of_length_pos hpos
          have hfirst : n'.entryAt 0 = e := by
            have hget := n'.getElem_entries (i := 0) (by rw [he]; exact hpos)
            simp only [he, hes] at hget
            exact hget.symm
          simp only [Functor.map, Except.map, hes, List.drop_succ_cons, List.drop_zero, List.cons_append,
            List.map_cons, SliceIterator.current_eq, hfirst]
      · rw [if_neg hlast]
        have hlt : ndx + 1 < p.2.length := by omega
        rw [List.drop_eq_getElem_cons hlt, List.cons_append, List.length_cons] at hcalls
        rw [List.drop_eq_getElem_cons hlt]
        simp only [bind, Except.bind, if_true]
        rw [ih hr hc hload hne hlt (by omega)]
        have hget := n.getElem_entries (i := ndx + 1) (by rw [hentries]; exact hlt)
        simp only [hentries] at hget
        simp only [Functor.map, Except.map, List.cons_append, List.map_cons, SliceIterator.current_eq, hget]

theorem drain_iteratorAt {n : Node} {p : Nat × List Entry} {chain : List (Nat × List Entry)}
    {rounds calls ndx : Nat} (hr : chain.length < rounds) (hc : Chained z s (p :: chain))
    (hload : s.load z p.1 = .ok n) (hne : ∀ q ∈ chain, isLeafFrom q.1 = true → q.2 ≠ [])
    (hndx : ndx < p.2.length) (hcalls : (p.2.drop ndx ++ leafEntries chain).length < calls) :
    ∃ it, Slice.iteratorAt n ndx = .ok it ∧ it.drain z s rounds calls =
      .ok ((p.2.drop ndx ++ leafEntries chain).map Entry.part) := by
  obtain ⟨⟨n', hload', hentries, hn⟩, hrest⟩ := id hc
  obtain rfl : n = n' := Except.ok.inj (hload.symm.trans hload')
  have hcount : n.keyCount = p.2.length := by rw [← hentries, n.length_entries]
  refine ⟨{ node := n, ndx := ndx }, by rw [Slice.iteratorAt, if_pos (by omega)], ?_⟩
  obtain ⟨calls, rfl⟩ : ∃ k, calls = k + 1 := ⟨calls - 1, by omega⟩
  rw [List.drop_eq_getElem_cons hndx, List.cons_append, List.length_cons] at hcalls
  rw [SliceIterator.drain, SliceIterator.next]
  simp only [Bool.false_eq_true, if_false, not_false_eq_true, if_true, bind, Except.bind]
  rw [drain_chained hr hc hload hne hndx (by omega), List.drop_eq_getElem_cons hndx]
  have hget := n.getElem_entries (i := ndx) (by rw [hentries]; exact hndx)
  simp only [hentries] at hget
  simp only [Functor.map, Except.map, List.cons_append, List.map_cons, SliceIterator.current_eq, hget]

end Chain

end Tyrdbs.Slices
