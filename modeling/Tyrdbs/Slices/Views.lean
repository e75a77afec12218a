import Tyrdbs.Slices.WriterRuns

namespace Tyrdbs.Slices

open Bytes Outcome SpanTree

/-- A slice over a writer's file. The cache keeps what store put there or what
was read from the file. -/
structure Views (z : Codec) (w : SliceWriter) (t : Slice) : Prop where
  file_eq : t.file = w.sink.file
  keyCount_eq : t.keyCount = w.keyCount
  root_eq : t.root = w.root
  firstNodeSize_eq : t.firstNodeSize = w.sink.firstNodeSize
  cached : ∀ l n, t.cached l = some n → (l, n) ∈ w.sink.nodes ∨ loadNode z t.file (t.stale l) l = .ok n

theorem views_commit {z : Codec} (w : SliceWriter) {cached : Nat → Option Node} (stale : Nat → List Byte)
    (h : ∀ l n, cached l = some n → (l, n) ∈ w.sink.nodes ∨ loadNode z w.sink.file (stale l) l = .ok n) :
    Views z w (w.commit cached stale) :=
  ⟨rfl, rfl, rfl, rfl, h⟩

/-- The link that cache::load gives a node. -/
def fileNext (z : Codec) (file : List Byte) (p : Nat × Node) : Nat :=
  (endOf z p + 2) <<< 16 ||| fromLittleEndian (slice file (endOf z p) 2)

/-- Two nodes with the same entries and the same link, or both without one. -/
structure Agree (n n' : Node) : Prop where
  data_eq : n.data = n'.data
  keyCount_eq : n.keyCount = n'.keyCount
  next_eq : n.next = n'.next ∨ isValid n.next = false ∧ isValid n'.next = false

theorem Agree.refl (n : Node) : Agree n n := ⟨rfl, rfl, Or.inl rfl⟩

theorem Agree.join {n m p : Node} (hn : Agree n p) (hm : Agree m p) : Agree n m := by
  refine ⟨hn.data_eq.trans hm.data_eq.symm, hn.keyCount_eq.trans hm.keyCount_eq.symm, ?_⟩
  rcases hn.next_eq with h | ⟨h, hp⟩ <;> rcases hm.next_eq with h' | ⟨h', hp'⟩
  · exact Or.inl (h.trans h'.symm)
  · exact Or.inr ⟨h ▸ hp', h'⟩
  · exact Or.inr ⟨h, h' ▸ hp⟩
  · exact Or.inr ⟨h, h'⟩

theorem Agree.entryAt_eq {n n' : Node} (h : Agree n n') : n.entryAt = n'.entryAt := by
  obtain ⟨d, k, x⟩ := n
  obtain ⟨d', k', x'⟩ := n'
  obtain ⟨rfl, rfl, -⟩ := h
  rfl

theorem Agree.entries_eq {n n' : Node} (h : Agree n n') : n.entries = n'.entries := by
  rw [Node.entries, Node.entries, h.entryAt_eq, h.keyCount_eq]

section Finished

variable {z : Codec} {s : Sink} {data index : List (Nat × Node)}

theorem isValid_fileNext {file : List Byte} {p : Nat × Node} (h : Marked z file p) :
    isValid (fileNext z file p) = false := by
  rw [fileNext, h.2, isValid_or _ (by decide)]
  decide

theorem link_of_chain {file : List Byte} {nodes : List (Nat × Node)} (h : nodes.IsChain (Followed z file))
    (he : ∀ p, nodes.getLast? = some p → Ends z file p) {p : Nat × Node} (hp : p ∈ nodes) :
    endOf z p + 2 ≤ file.length ∧ (fileNext z file p = p.2.next ∨
      isValid (fileNext z file p) = false ∧ isValid p.2.next = false) := by
  obtain ⟨a, b, rfl⟩ := List.append_of_mem hp
  cases b with
  | nil =>
      have hend := he p (by rw [List.getLast?_append]; rfl)
      refine ⟨hend.marked.1, Or.inr ⟨isValid_fileNext hend.marked, ?_⟩⟩
      rw [hend.next_eq]
      decide
  | cons q b =>
      have hf := (List.isChain_append_cons_cons.mp h).2.1
      exact ⟨hf.end_le, Or.inl (hf.location_eq.symm.trans hf.next_eq.symm)⟩

theorem Finished.link (h : Finished z s data index) {p : Nat × Node} (hp : p ∈ s.nodes) :
    endOf z p + 2 ≤ s.file.length ∧ (fileNext z s.file p = p.2.next ∨
      isValid (fileNext z s.file p) = false ∧ isValid p.2.next = false) := by
  rw [h.nodes_eq] at hp
  rcases List.mem_append.mp hp with hp | hp
  · exact link_of_chain h.chain h.ends hp
  · exact link_of_chain h.indexChain h.indexEnds hp

/-- What cache::load makes of a stored node agrees with the node that store put
into the cache. -/
theorem Finished.loadNode (h : Finished z s data index) (hz : z.Lossless) {p : Nat × Node}
    (hp : p ∈ s.nodes) (hfit : (packed z p.2).length ≤ nodeSize) (hsmall : s.file.length < 2 ^ 32)
    (stale : List Byte) : ∃ n, loadNode z s.file stale p.1 = .ok n ∧ Agree n p.2 := by
  obtain ⟨hend, hlink⟩ := h.link hp
  have hmax : maxOffset = 2 ^ 48 := rfl
  refine ⟨_, loadNode_imaged hz (h.imaged p hp) hfit hend (by omega), rfl, rfl, hlink⟩

theorem Finished.node_eq (h : Finished z s data index) {p : Nat × Node} {n : Node} (hp : p ∈ s.nodes)
    (hn : (p.1, n) ∈ s.nodes) : n = p.2 :=
  congrArg Prod.snd (List.inj_on_of_nodup_map h.location_nodup hn hp rfl)

end Finished

section Load

variable {z : Codec} {w : SliceWriter} {t : Slice} {data index : List (Nat × Node)}
  (hz : z.Lossless) (h : Finished z w.sink data index) (hsmall : w.sink.file.length < 2 ^ 32)
  (hfit : ∀ p ∈ w.sink.nodes, (packed z p.2).length ≤ nodeSize) (hv : Views z w t)

include hz h hsmall hfit hv

theorem load_agree {p : Nat × Node} (hp : p ∈ w.sink.nodes) :
    ∃ n, t.load z p.1 = .ok n ∧ Agree n p.2 := by
  rw [Slice.load]
  cases hc : t.cached p.1 with
  | none =>
      rw [hv.file_eq]
      exact h.loadNode hz hp (hfit p hp) hsmall _
  | some n =>
      refine ⟨n, rfl, ?_⟩
      rcases hv.cached p.1 n hc with hmem | hload
      · rw [h.node_eq hp hmem]
        exact Agree.refl _
      · obtain ⟨n', hload', hagree⟩ := h.loadNode hz hp (hfit p hp) hsmall (t.stale p.1)
        rw [hv.file_eq, hload'] at hload
        rwa [← Except.ok.inj hload]

theorem chained_of_chain {nodes : List (Nat × Node)} (hsub : ∀ p ∈ nodes, p ∈ w.sink.nodes)
    (hc : nodes.IsChain (Followed z w.sink.file))
    (he : ∀ p, nodes.getLast? = some p → Ends z w.sink.file p) : Chained z t (contents nodes) := by
  induction nodes with
  | nil => trivial
  | cons p nodes ih =>
      obtain ⟨n, hload, hagree⟩ := load_agree hz h hsmall hfit hv (hsub p (List.mem_cons_self ..))
      refine ⟨⟨n, hload, hagree.entries_eq, ?_⟩, ih (fun q hq => hsub q (List.mem_cons_of_mem _ hq)) ?_ ?_⟩
      · cases nodes with
        | nil =>
            have hnext := (he p rfl).next_eq
            rcases hagree.next_eq with heq | ⟨hinvalid, -⟩
            · show isValid n.next = false
              rw [heq, hnext]
              decide
            · exact hinvalid
        | cons q nodes =>
            have hf := (List.isChain_cons_cons.mp hc).1
            refine ⟨?_, hf.valid⟩
            rcases hagree.next_eq with heq | ⟨-, hinvalid⟩
            · exact heq.trans hf.next_eq
            · rw [hf.next_eq, hf.valid] at hinvalid
              exact absurd hinvalid (by decide)
      · exact hc.tail
      · intro q hq
        refine he q ?_
        cases nodes with
        | nil => exact absurd hq (by simp)
        | cons r nodes => exact hq

theorem chained_data : Chained z t (contents data) :=
  chained_of_chain hz h hsmall hfit hv (fun _ hp => h.nodes_eq ▸ List.mem_append_left _ hp) h.chain h.ends

end Load

end Tyrdbs.Slices
