import Mathlib.Order.Lattice
import Mathlib.Data.List.Pairwise

namespace Tyrdbs.SpanTree

/-- An interval of keys and where what lies in it is found. -/
structure Span (κ ν : Type) where
  first : κ
  last : κ
  target : ν
  deriving DecidableEq

variable {κ ν : Type}

def Hull (s : Span κ ν) (spans : List (Span κ ν)) : Prop :=
  (∃ t, spans.head? = some t ∧ t.first = s.first) ∧ ∃ t, spans.getLast? = some t ∧ t.last = s.last

variable (holds : ν → List (Span κ ν) → Prop) (isLeaf : ν → Prop)

/-- A tree of bounded height over leaves: what stands under a span of an inner
node is a leaf or a subtree that the span covers exactly. -/
def Spans : Nat → ν → List (Span κ ν) → Prop
  | 0, _, _ => False
  | height + 1, v, spans =>
      ∃ parts : List (Span κ ν × List (Span κ ν)), parts ≠ [] ∧ holds v (parts.map Prod.fst) ∧
        spans = parts.flatMap Prod.snd ∧
        ∀ p ∈ parts, isLeaf p.1.target ∧ p.2 = [p.1] ∨
          ¬ isLeaf p.1.target ∧ Hull p.1 p.2 ∧ Spans height p.1.target p.2

/-- What a span of an inner node stands for. -/
def Below (height : Nat) (s : Span κ ν) (spans : List (Span κ ν)) : Prop :=
  isLeaf s.target ∧ spans = [s] ∨
    ¬ isLeaf s.target ∧ Hull s spans ∧ Spans holds isLeaf height s.target spans

variable {holds isLeaf}

theorem Below.hull {height : Nat} {s : Span κ ν} {spans : List (Span κ ν)}
    (h : Below holds isLeaf height s spans) : Hull s spans := by
  rcases h with ⟨_, rfl⟩ | ⟨_, hull, _⟩
  · exact ⟨⟨s, rfl, rfl⟩, s, rfl, rfl⟩
  · exact hull

theorem Spans.parts {height : Nat} {v : ν} {spans : List (Span κ ν)}
    (h : Spans holds isLeaf (height + 1) v spans) :
    ∃ parts : List (Span κ ν × List (Span κ ν)), parts ≠ [] ∧ holds v (parts.map Prod.fst) ∧
      spans = parts.flatMap Prod.snd ∧ ∀ p ∈ parts, Below holds isLeaf height p.1 p.2 := h

theorem Spans.mono {holds' : ν → List (Span κ ν) → Prop} (hh : ∀ v es, holds v es → holds' v es)
    {height : Nat} {v : ν} {spans : List (Span κ ν)} (h : Spans holds isLeaf height v spans) :
    Spans holds' isLeaf height v spans := by
  induction height generalizing v spans with
  | zero => exact h
  | succ height ih =>
      obtain ⟨parts, hne, hholds, rfl, hb⟩ := h
      refine ⟨parts, hne, hh _ _ hholds, rfl, fun p hp => ?_⟩
      exact (hb p hp).imp_right (fun hsub => ⟨hsub.1, hsub.2.1, ih hsub.2.2⟩)

variable [LinearOrder κ]

/-- The intervals are not empty, and each lies above the ones before it. -/
def Ordered (spans : List (Span κ ν)) : Prop :=
  (∀ s ∈ spans, s.first ≤ s.last) ∧ spans.Pairwise (fun s t => s.last < t.first)

/-- The last span that begins at or below a key, or the first of all. -/
def Chosen (k : κ) (spans : List (Span κ ν)) (s : Span κ ν) : Prop :=
  ∃ below above, spans = below ++ s :: above ∧ (below = [] ∨ s.first ≤ k) ∧ ∀ t ∈ above, k < t.first

section Ordered

variable {spans : List (Span κ ν)}

theorem Ordered.append {spans' : List (Span κ ν)} :
    Ordered (spans ++ spans') ↔
      Ordered spans ∧ Ordered spans' ∧ ∀ s ∈ spans, ∀ t ∈ spans', s.last < t.first := by
  simp only [Ordered, List.mem_append, List.pairwise_append]
  constructor
  · rintro ⟨hle, hp, hp', hlt⟩
    exact ⟨⟨fun s hs => hle s (Or.inl hs), hp⟩, ⟨fun s hs => hle s (Or.inr hs), hp'⟩, hlt⟩
  · rintro ⟨⟨hle, hp⟩, ⟨hle', hp'⟩, hlt⟩
    exact ⟨fun s hs => hs.elim (hle s) (hle' s), hp, hp', hlt⟩

theorem Chosen.mem {k : κ} {s : Span κ ν} (h : Chosen k spans s) : s ∈ spans := by
  obtain ⟨below, above, rfl, _⟩ := h
  simp

theorem chosen_of_mem {k : κ} {s : Span κ ν} (h : Ordered spans) (hs : s ∈ spans)
    (hfirst : s.first ≤ k) (hlast : k ≤ s.last) : Chosen k spans s := by
  obtain ⟨below, above, rfl⟩ := List.append_of_mem hs
  refine ⟨below, above, rfl, Or.inr hfirst, fun t ht => hlast.trans_lt ?_⟩
  exact (List.pairwise_cons.mp (List.pairwise_append.mp h.2).2.1).1 t ht

theorem Ordered.first_lt {below above : List (Span κ ν)} {s t : Span κ ν}
    (h : Ordered (below ++ s :: above)) (ht : t ∈ below) : t.first < s.first :=
  (h.1 t (by simp [ht])).trans_lt ((List.pairwise_append.mp h.2).2.2 t ht s (List.mem_cons_self ..))

theorem Ordered.lt_first {below above : List (Span κ ν)} {s t : Span κ ν}
    (h : Ordered (below ++ s :: above)) (ht : t ∈ above) : s.first < t.first :=
  (h.1 s (by simp)).trans_lt ((List.pairwise_cons.mp (List.pairwise_append.mp h.2).2.1).1 t ht)

theorem Ordered.eq_of_first_eq {s t : Span κ ν} (h : Ordered spans) (hs : s ∈ spans) (ht : t ∈ spans)
    (hf : s.first = t.first) : s = t := by
  obtain ⟨below, above, rfl⟩ := List.append_of_mem hs
  rcases List.mem_append.mp ht with ht | ht
  · exact absurd hf (h.first_lt ht).ne'
  · rcases List.mem_cons.mp ht with rfl | ht
    · rfl
    · exact absurd hf (h.lt_first ht).ne

theorem Chosen.greatest {k : κ} {s t : Span κ ν} (h : Ordered spans) (hs : Chosen k spans s)
    (ht : t ∈ spans) (htk : t.first ≤ k) : t.first ≤ s.first := by
  obtain ⟨below, above, rfl, _, habove⟩ := hs
  rcases List.mem_append.mp ht with ht | ht
  · exact (h.first_lt ht).le
  · rcases List.mem_cons.mp ht with rfl | ht
    · exact le_rfl
    · exact absurd htk (not_le.mpr (habove t ht))

theorem Chosen.least {k : κ} {s t : Span κ ν} (h : Ordered spans) (hs : Chosen k spans s)
    (ht : t ∈ spans) (hk : k < s.first) : s.first ≤ t.first := by
  obtain ⟨below, above, rfl, hbelow, _⟩ := hs
  rcases hbelow with rfl | hle
  · rcases List.mem_cons.mp ht with rfl | ht
    · exact le_rfl
    · exact (h.lt_first ht).le
  · exact absurd hle (not_le.mpr hk)

theorem Chosen.unique {k : κ} {s t : Span κ ν} (h : Ordered spans) (hs : Chosen k spans s)
    (ht : Chosen k spans t) : s = t := by
  refine h.eq_of_first_eq hs.mem ht.mem ?_
  rcases le_or_gt s.first k with hsk | hsk <;> rcases le_or_gt t.first k with htk | htk
  · exact le_antisymm (ht.greatest h hs.mem hsk) (hs.greatest h ht.mem htk)
  · exact absurd (ht.least h hs.mem htk) (not_le.mpr (hsk.trans_lt htk))
  · exact absurd (hs.least h ht.mem hsk) (not_le.mpr (htk.trans_lt hsk))
  · exact le_antisymm (hs.least h ht.mem hsk) (ht.least h hs.mem htk)

end Ordered

theorem Hull.first_le {s t : Span κ ν} {spans : List (Span κ ν)} (h : Hull s spans)
    (ho : Ordered spans) (ht : t ∈ spans) : s.first ≤ t.first := by
  obtain ⟨⟨u, hu, hfirst⟩, _⟩ := h
  obtain ⟨rest, rfl⟩ := List.head?_eq_some_iff.mp hu
  rcases List.mem_cons.mp ht with rfl | ht
  · exact hfirst.ge
  · rw [← hfirst]
    exact (ho.1 u (List.mem_cons_self ..)).trans ((List.pairwise_cons.mp ho.2).1 t ht).le

theorem Hull.last_le {s t : Span κ ν} {spans : List (Span κ ν)} (h : Hull s spans)
    (ho : Ordered spans) (ht : t ∈ spans) : t.last ≤ s.last := by
  obtain ⟨_, u, hu, hlast⟩ := h
  obtain ⟨rest, rfl⟩ := List.getLast?_eq_some_iff.mp hu
  rcases List.mem_append.mp ht with ht | ht
  · rw [← hlast]
    have hlt := (List.pairwise_append.mp ho.2).2.2 t ht u (List.mem_singleton.mpr rfl)
    exact hlt.le.trans (ho.1 u (by simp))
  · rw [List.mem_singleton.mp ht, hlast]

theorem Hull.first_le_last {s : Span κ ν} {spans : List (Span κ ν)} (h : Hull s spans)
    (ho : Ordered spans) : s.first ≤ s.last := by
  obtain ⟨⟨t, ht, hfirst⟩, _⟩ := id h
  have hmem : t ∈ spans := List.mem_of_head? ht
  exact (hfirst.ge.trans (ho.1 t hmem)).trans (h.last_le ho hmem)

theorem ordered_of_parts {height : Nat} {parts : List (Span κ ν × List (Span κ ν))}
    (hb : ∀ p ∈ parts, Below holds isLeaf height p.1 p.2) (ho : Ordered (parts.flatMap Prod.snd)) :
    Ordered (parts.map Prod.fst) := by
  induction parts with
  | nil => exact ⟨fun s hs => absurd hs (by simp), List.Pairwise.nil⟩
  | cons p parts ih =>
      rw [List.flatMap_cons, Ordered.append] at ho
      obtain ⟨hop, horest, hlt⟩ := ho
      have hhull := (hb p (List.mem_cons_self ..)).hull
      have hrest := ih (fun q hq => hb q (List.mem_cons_of_mem _ hq)) horest
      refine ⟨?_, List.pairwise_cons.mpr ⟨fun t ht => ?_, hrest.2⟩⟩
      · rintro s (_ | ⟨_, hs⟩)
        · exact hhull.first_le_last hop
        · exact hrest.1 s hs
      · obtain ⟨q, hq, rfl⟩ := List.mem_map.mp ht
        obtain ⟨⟨u, hu, hufirst⟩, _⟩ := (hb q (List.mem_cons_of_mem _ hq)).hull
        obtain ⟨_, v, hv, hvlast⟩ := hhull
        rw [← hufirst, ← hvlast]
        exact hlt v (List.mem_of_getLast? hv) u (List.mem_flatMap.mpr ⟨q, hq, List.mem_of_head? hu⟩)

/-- Choosing in a node and then below the chosen span is choosing among all
the leaves. -/
theorem Chosen.below {height : Nat} {k : κ} {parts : List (Span κ ν × List (Span κ ν))} {s : Span κ ν}
    (hb : ∀ p ∈ parts, Below holds isLeaf height p.1 p.2) (ho : Ordered (parts.flatMap Prod.snd))
    (hc : Chosen k (parts.map Prod.fst) s) :
    ∃ sub, Below holds isLeaf height s sub ∧ Ordered sub ∧
      ∀ t, Chosen k sub t → Chosen k (parts.flatMap Prod.snd) t := by
  obtain ⟨below, above, hsplit, hbelow, habove⟩ := hc
  obtain ⟨lower, tail, rfl, rfl, htail⟩ := List.map_eq_append_iff.mp hsplit
  obtain ⟨p, upper, rfl, rfl, rfl⟩ := List.map_eq_cons_iff.mp htail
  rw [List.flatMap_append, List.flatMap_cons] at ho ⊢
  obtain ⟨_, ho, hlt⟩ := Ordered.append.mp ho
  obtain ⟨hop, hoabove, _⟩ := Ordered.append.mp ho
  have hbp := hb p (by simp)
  refine ⟨p.2, hbp, hop, ?_⟩
  rintro t ⟨below, after, ht, hbt, hat⟩
  refine ⟨lower.flatMap Prod.snd ++ below, after ++ upper.flatMap Prod.snd, ?_, ?_, ?_⟩
  · simp only [ht, List.append_assoc, List.cons_append]
  · rcases hbt with rfl | hbt
    · obtain ⟨⟨u, hu, hfirst⟩, _⟩ := hbp.hull
      rw [ht] at hu
      simp only [List.nil_append, List.head?_cons, Option.some.injEq] at hu
      rcases hbelow with hnil | hle
      · left
        rw [List.map_eq_nil_iff.mp hnil]
        rfl
      · right
        rwa [hu, hfirst]
    · exact Or.inr hbt
  · intro u hu
    rcases List.mem_append.mp hu with hu | hu
    · exact hat u hu
    · obtain ⟨q, hq, huq⟩ := List.mem_flatMap.mp hu
      have hoq : Ordered q.2 := by
        obtain ⟨a, b, rfl⟩ := List.append_of_mem hq
        rw [List.flatMap_append, List.flatMap_cons] at hoabove
        exact (Ordered.append.mp (Ordered.append.mp hoabove).2.1).1
      exact (habove q.1 (List.mem_map_of_mem hq)).trans_le
        ((hb q (by simp [hq])).hull.first_le hoq huq)

end Tyrdbs.SpanTree
