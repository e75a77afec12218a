import Tyrdbs.Slices.Store

namespace Tyrdbs.Slices

open Bytes Outcome

/-- Every node stands where its location says, behind the ones before it. -/
structure Laid (z : Codec) (s : Sink) : Prop where
  imaged : ∀ p ∈ s.nodes, Imaged z s.file p
  apart : s.nodes.Pairwise (fun p q => endOf z p ≤ offsetFrom q.1)
  begins_eq : s.nodes.map (fun p => offsetFrom p.1) = s.begins
  length_le : s.nodes.length ≤ s.file.length

section Laid

variable {z : Codec} {s s' : Sink} {w : NodeWriter} {isLeaf : Bool} {location : Nat}

theorem Laid.append (h : Laid z s) (more : List Byte) : Laid z { s with file := s.file ++ more } :=
  ⟨fun p hp => (h.imaged p hp).append more, h.apart, h.begins_eq, by
    rw [List.length_append]
    exact Nat.le_add_right_of_le h.length_le⟩

theorem endOf_relink (z : Codec) (p : Nat × Node) (next : Nat) :
    endOf z (p.1, { p.2 with next := next }) = endOf z p := rfl

theorem pairwise_relink {a b : List (Nat × Node)} {p : Nat × Node} (next : Nat)
    (h : (a ++ p :: b).Pairwise (fun p q => endOf z p ≤ offsetFrom q.1)) :
    (a ++ (p.1, { p.2 with next := next }) :: b).Pairwise (fun p q => endOf z p ≤ offsetFrom q.1) := by
  obtain ⟨ha, hb, hab⟩ := List.pairwise_append.mp h
  obtain ⟨hp, hb⟩ := List.pairwise_cons.mp hb
  refine List.pairwise_append.mpr ⟨ha, List.pairwise_cons.mpr ⟨hp, hb⟩, fun x hx y hy => ?_⟩
  rcases List.mem_cons.mp hy with rfl | hy
  · exact hab x hx p (List.mem_cons_self ..)
  · exact hab x hx y (List.mem_cons_of_mem _ hy)

theorem Laid.relink {a b : List (Nat × Node)} {p : Nat × Node} (h : Laid z s) (hs : s.nodes = a ++ p :: b)
    (next : Nat) : Laid z { s with nodes := a ++ (p.1, { p.2 with next := next }) :: b } := by
  refine ⟨fun q hq => ?_, ?_, ?_, ?_⟩
  · rcases List.mem_append.mp hq with hq | hq
    · exact h.imaged q (hs ▸ List.mem_append_left _ hq)
    · rcases List.mem_cons.mp hq with rfl | hq
      · exact (h.imaged p (hs ▸ by simp)).relink next
      · exact h.imaged q (hs ▸ by simp [hq])
  · have hap := h.apart
    rw [hs] at hap
    exact pairwise_relink next hap
  · have hb := h.begins_eq
    rw [hs, List.map_append, List.map_cons] at hb
    rwa [List.map_append, List.map_cons]
  · have hl := h.length_le
    rw [hs, List.length_append, List.length_cons] at hl
    rwa [List.length_append, List.length_cons]

theorem Laid.store (h : Laid z s) (hst : Stores z s w isLeaf s' location)
    (hsmall : s'.file.length < 2 ^ 32) : Laid z s' := by
  have hpush : ∀ front, Laid z { s with nodes := front } → s'.nodes = front ++ [(location, storedNode w)] →
      Laid z s' := by
    intro front hfront hs'
    have hoff := hst.offsetFrom_eq hsmall
    refine ⟨?_, ?_, ?_, ?_⟩
    · rw [hs']
      refine List.forall_mem_append.mpr ⟨fun p hp => ?_, List.forall_mem_singleton.mpr (hst.imaged hsmall)⟩
      rw [hst.file_eq, List.append_assoc]
      exact (hfront.imaged p hp).append _
    · rw [hs']
      refine List.pairwise_append.mpr ⟨hfront.apart, List.pairwise_singleton _ _, fun p hp q hq => ?_⟩
      rw [List.mem_singleton.mp hq, hoff, List.length_append]
      exact Nat.le_add_right_of_le (hfront.imaged p hp).end_le
    · have hb : front.map (fun p => offsetFrom p.1) = s.begins := hfront.begins_eq
      rw [hs', List.map_append, hb, hst.begins_eq, List.map_singleton, hoff]
    · have hl : front.length ≤ s.file.length := hfront.length_le
      have himage := length_image z (storedNode w)
      rw [hs', hst.file_eq]
      simp only [List.length_append, List.length_singleton]
      omega
  rcases List.eq_nil_or_concat' s.nodes with hnil | ⟨a, p, hsnoc⟩
  · refine hpush [] ?_ (hst.nodes_nil hnil)
    rw [← hnil]
    exact h
  · refine hpush _ (h.relink (b := []) hsnoc location) ?_
    rw [hst.nodes_snoc a p hsnoc, List.append_assoc]
    rfl

theorem Laid.location_nodup (h : Laid z s) : (s.nodes.map Prod.fst).Nodup := by
  refine List.pairwise_map.mpr (h.apart.imp (fun {p q} hle heq => ?_))
  have hlen := length_image z p.2
  rw [endOf, heq] at hle
  omega

end Laid

/-- The location of the first node is its size field. -/
structure Heads (s : Sink) (location : Nat) : Prop where
  location_eq : location = s.firstNodeSize
  ne_invalid : s.firstNodeSize ≠ invalidSize
  size_lt : s.firstNodeSize < 2 ^ 16
  leaf : isLeafFrom location = true

/-- The nodes written so far are linked up to the end of the file. -/
structure Growing (z : Codec) (s : Sink) : Prop extends Laid z s where
  chain : s.nodes.IsChain (Followed z s.file)
  empty : s.nodes = [] → s.file = [] ∧ s.firstNodeSize = invalidSize
  ends : ∀ p, s.nodes.getLast? = some p → endOf z p = s.file.length
  head : ∀ p, s.nodes.head? = some p → Heads s p.1

def Marked (z : Codec) (file : List Byte) (p : Nat × Node) : Prop :=
  endOf z p + 2 ≤ file.length ∧ fromLittleEndian (slice file (endOf z p) 2) = invalidSize

/-- The linked nodes of the data are closed by a mark; linked index nodes
follow up to the end of the file. -/
structure Closed (z : Codec) (s : Sink) (data index : List (Nat × Node)) : Prop extends Laid z s where
  nodes_eq : s.nodes = data ++ index
  data_ne : data ≠ []
  chain : data.IsChain (Followed z s.file)
  marked : ∀ p, data.getLast? = some p → Marked z s.file p
  indexChain : index.IsChain (Followed z s.file)
  indexEnds : ∀ p, index.getLast? = some p → endOf z p = s.file.length
  head : ∀ p, data.head? = some p → Heads s p.1

section Steps

variable {z : Codec} {s s' : Sink} {w : NodeWriter} {isLeaf : Bool} {location : Nat}

theorem Heads.congr {l : Nat} (h : Heads s l) (hs : s'.firstNodeSize = s.firstNodeSize) : Heads s' l :=
  ⟨h.location_eq.trans hs.symm, hs ▸ h.ne_invalid, hs ▸ h.size_lt, h.leaf⟩

theorem Marked.append {file : List Byte} {p : Nat × Node} (h : Marked z file p) (more : List Byte) :
    Marked z (file ++ more) p := by
  refine ⟨?_, ?_⟩
  · rw [List.length_append]
    exact Nat.le_add_right_of_le h.1
  · rw [slice_append_left h.1]
    exact h.2

theorem marked_of_ends {file : List Byte} {p : Nat × Node} (h : endOf z p = file.length) :
    Marked z (file ++ littleEndian 2 invalidSize) p := by
  have hread := slice_zero_length (littleEndian 2 invalidSize)
  rw [length_littleEndian] at hread
  rw [Marked, h]
  refine ⟨by rw [List.length_append, length_littleEndian], ?_⟩
  rw [slice_append_right le_rfl, Nat.sub_self, hread]
  exact fromLittleEndian_littleEndian 2 _ (by decide)

theorem chain_append {file : List Byte} {nodes : List (Nat × Node)} (h : nodes.IsChain (Followed z file))
    (more : List Byte) : nodes.IsChain (Followed z (file ++ more)) :=
  h.imp (fun _ _ hf => hf.append more)

theorem isChain_relink {file : List Byte} {a : List (Nat × Node)} {p : Nat × Node} (next : Nat)
    (h : (a ++ [p]).IsChain (Followed z file)) :
    (a ++ [(p.1, { p.2 with next := next })]).IsChain (Followed z file) := by
  rw [List.isChain_append] at h ⊢
  refine ⟨h.1, List.isChain_singleton _, fun x hx y hy => ?_⟩
  have hf := h.2.2 x hx p rfl
  obtain rfl := Option.some.inj hy
  exact ⟨hf.next_eq, hf.valid, hf.end_le, hf.location_eq⟩

theorem head?_relink {a b : List (Nat × Node)} {p : Nat × Node} (next : Nat) {P : Nat → Prop}
    (h : ∀ q, (a ++ p :: b).head? = some q → P q.1) :
    ∀ q, (a ++ (p.1, { p.2 with next := next }) :: b).head? = some q → P q.1 := by
  intro q hq
  cases a with
  | nil =>
      obtain rfl := Option.some.inj hq
      exact h p rfl
  | cons r a => exact h q hq

theorem getLast?_concat {a : List (Nat × Node)} {p q : Nat × Node} (h : (a ++ [p]).getLast? = some q) :
    q = p := by
  rw [List.getLast?_append] at h
  exact (Option.some.inj h).symm

theorem Stores.followed (hst : Stores z s w isLeaf s' location) (hsmall : s'.file.length < 2 ^ 32)
    {p : Nat × Node} (hend : endOf z p = s.file.length) (hfirst : s.firstNodeSize ≠ invalidSize) :
    Followed z s'.file (p.1, { p.2 with next := location }) (location, storedNode w) := by
  have hmax : maxSize = 2 ^ 15 - 1 := rfl
  have hlt := hst.size_lt
  have hpart : sizePart z s w isLeaf = littleEndian 2 (sizeField (packed z (storedNode w)).length isLeaf) :=
    if_pos hfirst
  refine ⟨rfl, hst.isValid_eq, ?_, ?_⟩
  · rw [endOf_relink, hend, hst.file_eq, hpart]
    simp only [List.length_append, length_littleEndian]
    omega
  · rw [endOf_relink, hend, hst.file_eq, List.append_assoc, slice_append_right le_rfl, Nat.sub_self,
      slice_append_left (by rw [hpart, length_littleEndian]), hpart]
    have hlen := length_littleEndian 2 (sizeField (packed z (storedNode w)).length isLeaf)
    have hfield := sizeField_lt (show (packed z (storedNode w)).length < 2 ^ 15 by omega) isLeaf
    have hread := slice_zero_length (littleEndian 2 (sizeField (packed z (storedNode w)).length isLeaf))
    rw [hlen] at hread
    rw [hread, fromLittleEndian_littleEndian 2 _ (by omega)]
    have hoff := hst.location_eq
    have hfile := congrArg List.length hst.file_eq
    rw [List.length_append] at hfile
    rw [Nat.mod_eq_of_lt (by omega), hpart, List.length_append, length_littleEndian] at hoff
    exact hoff

theorem Stores.chain (hst : Stores z s w isLeaf s' location) (hsmall : s'.file.length < 2 ^ 32)
    {a : List (Nat × Node)} {p : Nat × Node} (h : (a ++ [p]).IsChain (Followed z s.file))
    (hend : endOf z p = s.file.length) (hfirst : s.firstNodeSize ≠ invalidSize) :
    (a ++ [(p.1, { p.2 with next := location })] ++ [(location, storedNode w)]).IsChain
      (Followed z s'.file) := by
  have hold : (a ++ [p]).IsChain (Followed z s'.file) := by
    rw [hst.file_eq, List.append_assoc]
    exact chain_append h _
  refine (isChain_relink location hold).append (List.isChain_singleton _) (fun x hx y hy => ?_)
  obtain rfl := getLast?_concat hx
  obtain rfl := Option.some.inj hy
  exact hst.followed hsmall hend hfirst

theorem growing_empty (z : Codec) : Growing z {} where
  imaged p hp := absurd hp (by simp)
  apart := List.Pairwise.nil
  begins_eq := rfl
  length_le := le_rfl
  chain := List.isChain_nil
  empty _ := ⟨rfl, rfl⟩
  ends p hp := absurd hp (by simp)
  head p hp := absurd hp (by simp)

theorem Growing.store (h : Growing z s) (hst : Stores z s w isLeaf s' location)
    (hsmall : s'.file.length < 2 ^ 32) : Growing z s' := by
  have hlaid := h.toLaid.store hst hsmall
  rcases List.eq_nil_or_concat' s.nodes with hnil | ⟨a, p, hsnoc⟩
  · obtain ⟨hfile, hfirst⟩ := h.empty hnil
    have hs' := hst.nodes_nil hnil
    have hloc : location = s'.firstNodeSize := by
      have hpart : sizePart z s w isLeaf = [] := if_neg (not_not.mpr hfirst)
      rw [hst.first_eq, if_neg (not_not.mpr hfirst), hst.location_eq, hfile, hpart]
      simp
    refine { hlaid with chain := ?_, empty := ?_, ends := ?_, head := ?_ }
    · rw [hs']
      exact List.isChain_singleton _
    · intro hempty
      rw [hs'] at hempty
      exact absurd hempty (by simp)
    · intro q hq
      rw [hs'] at hq
      rw [← Option.some.inj hq]
      exact hst.endOf_eq hsmall
    · intro q hq
      rw [hs'] at hq
      rw [← Option.some.inj hq]
      have hsize : s'.firstNodeSize = sizeField (packed z (storedNode w)).length isLeaf := by
        rw [hst.first_eq, if_neg (not_not.mpr hfirst)]
      have hlt := hst.size_lt
      have hmax : maxSize = 2 ^ 15 - 1 := rfl
      refine ⟨hloc, ?_, ?_, hst.isLeafFrom_eq.trans (hst.first_leaf hfirst)⟩
      · rw [hsize]
        exact sizeField_ne_invalid hst.size_lt isLeaf
      · rw [hsize]
        exact sizeField_lt (by omega) isLeaf
  · have hs' := hst.nodes_snoc a p hsnoc
    rw [List.append_cons] at hs'
    have hfirst : s.firstNodeSize ≠ invalidSize := by
      obtain ⟨q, hq⟩ : ∃ q, s.nodes.head? = some q := by
        cases a with
        | nil => exact ⟨p, by rw [hsnoc]; rfl⟩
        | cons q a => exact ⟨q, by rw [hsnoc]; rfl⟩
      exact (h.head q hq).ne_invalid
    have hend : endOf z p = s.file.length := h.ends p (by rw [hsnoc, List.getLast?_append]; rfl)
    refine { hlaid with chain := ?_, empty := ?_, ends := ?_, head := ?_ }
    · rw [hs']
      exact hst.chain hsmall (hsnoc ▸ h.chain) hend hfirst
    · intro hempty
      rw [hs'] at hempty
      exact absurd hempty (by simp)
    · intro q hq
      rw [hs'] at hq
      obtain rfl := getLast?_concat hq
      exact hst.endOf_eq hsmall
    · have hsame : s'.firstNodeSize = s.firstNodeSize := by rw [hst.first_eq, if_pos hfirst]
      rw [hs', List.append_assoc]
      refine head?_relink (b := [(location, storedNode w)]) location (P := Heads s') ?_
      intro q hq
      refine (h.head q ?_).congr hsame
      rw [hsnoc]
      cases a with
      | nil => exact hq
      | cons r a => exact hq

theorem Growing.close (h : Growing z s) (hne : s.nodes ≠ []) :
    Closed z { s with file := s.file ++ littleEndian 2 invalidSize } s.nodes [] where
  toLaid := h.toLaid.append _
  nodes_eq := (List.append_nil _).symm
  data_ne := hne
  chain := chain_append h.chain _
  marked p hp := marked_of_ends (h.ends p hp)
  indexChain := List.isChain_nil
  indexEnds p hp := absurd hp (by simp)
  head q hq := (h.head q hq).congr rfl

section Closed

variable {data index : List (Nat × Node)}

theorem Closed.firstNodeSize_ne (h : Closed z s data index) : s.firstNodeSize ≠ invalidSize := by
  cases data with
  | nil => exact absurd rfl h.data_ne
  | cons q a => exact (h.head q rfl).ne_invalid

theorem Closed.store (h : Closed z s data index) (hst : Stores z s w isLeaf s' location)
    (hsmall : s'.file.length < 2 ^ 32) :
    ∃ data' index', Closed z s' data' index' ∧ contents data' = contents data ∧
      data'.length = data.length ∧ index' ≠ [] := by
  have hlaid := h.toLaid.store hst hsmall
  have hne := h.firstNodeSize_ne
  have hfirst : s'.firstNodeSize = s.firstNodeSize := by rw [hst.first_eq, if_pos hne]
  have hfile : s'.file = s.file ++ (sizePart z s w isLeaf ++ image z (storedNode w)) := by
    rw [hst.file_eq, List.append_assoc]
  have hchain : data.IsChain (Followed z s'.file) := hfile ▸ chain_append h.chain _
  have hmarked : ∀ p, data.getLast? = some p → Marked z s'.file p := fun p hp =>
    hfile ▸ (h.marked p hp).append _
  rcases List.eq_nil_or_concat' index with rfl | ⟨b, r, rfl⟩
  · obtain ⟨a, p, rfl⟩ := (List.eq_nil_or_concat' data).resolve_left h.data_ne
    have hs' := hst.nodes_snoc a p (by rw [h.nodes_eq, List.append_nil])
    refine ⟨a ++ [(p.1, { p.2 with next := location })], [(location, storedNode w)], { hlaid with
      nodes_eq := by rw [hs', List.append_assoc]; rfl
      data_ne := by simp
      chain := isChain_relink location hchain
      marked := fun q hq => ?_
      indexChain := List.isChain_singleton _
      indexEnds := fun q hq => ?_
      head := ?_ }, contents_relink ⟨location, rfl⟩, by simp, by simp⟩
    · obtain rfl := getLast?_concat hq
      exact hmarked p (by rw [List.getLast?_append]; rfl)
    · obtain rfl := Option.some.inj hq
      exact hst.endOf_eq hsmall
    · exact head?_relink location (P := Heads s') (fun q hq => (h.head q hq).congr hfirst)
  · have hs' := hst.nodes_snoc (data ++ b) r (by rw [h.nodes_eq, List.append_assoc])
    have hend := h.indexEnds r (by rw [List.getLast?_append]; rfl)
    refine ⟨data, b ++ [(r.1, { r.2 with next := location })] ++ [(location, storedNode w)], { hlaid with
      nodes_eq := by rw [hs']; simp only [List.append_assoc]; rfl
      data_ne := h.data_ne
      chain := hchain
      marked := hmarked
      indexChain := hst.chain hsmall h.indexChain hend hne
      indexEnds := fun q hq => ?_
      head := fun q hq => (h.head q hq).congr hfirst }, rfl, rfl, by simp⟩
    obtain rfl := getLast?_concat hq
    exact hst.endOf_eq hsmall

end Closed

/-- The last node of a chain, in the cache and in the file. -/
structure Ends (z : Codec) (file : List Byte) (p : Nat × Node) : Prop where
  marked : Marked z file p
  next_eq : p.2.next = invalidSize

/-- A finished file: the linked nodes of the data and those of the index. -/
structure Finished (z : Codec) (s : Sink) (data index : List (Nat × Node)) : Prop extends Laid z s where
  nodes_eq : s.nodes = data ++ index
  data_ne : data ≠ []
  index_ne : index ≠ []
  chain : data.IsChain (Followed z s.file)
  ends : ∀ p, data.getLast? = some p → Ends z s.file p
  indexChain : index.IsChain (Followed z s.file)
  indexEnds : ∀ p, index.getLast? = some p → Ends z s.file p
  head : ∀ p, data.head? = some p → Heads s p.1

theorem Finished.append {data index : List (Nat × Node)} (h : Finished z s data index) (more : List Byte) :
    Finished z { s with file := s.file ++ more } data index where
  toLaid := h.toLaid.append more
  nodes_eq := h.nodes_eq
  data_ne := h.data_ne
  index_ne := h.index_ne
  chain := chain_append h.chain more
  ends p hp := ⟨(h.ends p hp).marked.append more, (h.ends p hp).next_eq⟩
  indexChain := chain_append h.indexChain more
  indexEnds p hp := ⟨(h.indexEnds p hp).marked.append more, (h.indexEnds p hp).next_eq⟩
  head q hq := (h.head q hq).congr rfl

/-- The links of the last data node and of the last node are cut in the cache,
and a mark is written behind the last node. -/
theorem Closed.finish {a b : List (Nat × Node)} {p r : Nat × Node}
    (h : Closed z s (a ++ [p]) (b ++ [r])) :
    Finished z { s with
      file := s.file ++ littleEndian 2 invalidSize
      nodes := a ++ [(p.1, { p.2 with next := invalidSize })] ++
        (b ++ [(r.1, { r.2 with next := invalidSize })]) }
      (a ++ [(p.1, { p.2 with next := invalidSize })])
      (b ++ [(r.1, { r.2 with next := invalidSize })]) where
  toLaid := by
    have hdata := h.toLaid.relink (a := a) (p := p) (b := b ++ [r])
      (by rw [h.nodes_eq, List.append_assoc]; rfl) invalidSize
    have hindex := hdata.relink (a := a ++ [(p.1, { p.2 with next := invalidSize })] ++ b) (p := r) (b := [])
      (by simp) invalidSize
    have happend := hindex.append (littleEndian 2 invalidSize)
    simpa only [List.append_assoc] using happend
  nodes_eq := rfl
  data_ne := by simp
  index_ne := by simp
  chain := isChain_relink _ (chain_append h.chain _)
  ends q hq := by
    obtain rfl := getLast?_concat hq
    exact ⟨(h.marked p (by rw [List.getLast?_append]; rfl)).append _, rfl⟩
  indexChain := isChain_relink _ (chain_append h.indexChain _)
  indexEnds q hq := by
    obtain rfl := getLast?_concat hq
    exact ⟨marked_of_ends (h.indexEnds r (by rw [List.getLast?_append]; rfl)), rfl⟩
  head := head?_relink _ (P := Heads _) (fun q hq => (h.head q hq).congr rfl)

end Steps

end Tyrdbs.Slices
