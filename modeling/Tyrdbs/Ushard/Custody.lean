import Tyrdbs.Ushard.Sharing

namespace Tyrdbs.Ushard.Sharing

open SharedPointers Unlinking Shelves

/-- How slices stand with those who hold them: a slice that is marked has its pages
freed when nobody holds it any more, and then only; what is not free are the pages of
the others, each in one slice. -/
structure Custody (u : Unlinking.State) (counts : Nat → Nat) (freed : List Nat) (held : Multiset Nat) : Prop where
  counted : counts = fun i => held.count i
  made : ∀ i ∈ held, i < u.next
  frees : ∀ i, i ∈ freed ↔ i < u.next ∧ (u.objects i).unlink = true ∧ i ∉ held
  once : freed.Nodup
  owned : ∀ p, p ∈ u.owned ↔ ∃ i < u.next, i ∉ freed ∧ p ∈ (u.objects i).pages
  apart : ∀ i < u.next, ∀ j < u.next, i ≠ j → i ∉ freed → j ∉ freed →
    Disjoint (u.objects i).pages (u.objects j).pages

variable {u u' : Unlinking.State} {counts : Nat → Nat} {freed : List Nat} {held held' : Multiset Nat}

theorem Custody.notFreed (h : Custody u counts freed held) {i : Nat} (hi : i ∈ held) : i ∉ freed :=
  fun hin => ((h.frees i).mp hin).2.2 hi

theorem Custody.readable (h : Custody u counts freed held) {i : Nat} (hi : i ∈ held) :
    (u.objects i).pages ⊆ u.owned :=
  fun p hp => (h.owned p).mpr ⟨i, h.made i hi, h.notFreed hi, hp⟩

theorem custody_tiers (h : Custody u counts freed held) (hobjects : u'.objects = u.objects) (hnext : u'.next = u.next)
    (howned : u'.owned = u.owned) : Custody u' counts freed held where
  counted := h.counted
  made := by rw [hnext]; exact h.made
  frees := by rw [hnext, hobjects]; exact h.frees
  once := h.once
  owned := by rw [hnext, hobjects, howned]; exact h.owned
  apart := by rw [hnext, hobjects]; exact h.apart

theorem custody_retain (h : Custody u counts freed held) {is : List Nat} (his : ∀ i ∈ is, i ∈ held) :
    Custody u (retain counts is) freed (held + (is : Multiset Nat)) := by
  have hmem : ∀ i, i ∈ held + (is : Multiset Nat) ↔ i ∈ held := by
    intro i
    rw [Multiset.mem_add, Multiset.mem_coe]
    exact ⟨fun hi => hi.elim id (his i), .inl⟩
  refine ⟨retain_eq h.counted is, fun i hi => h.made i ((hmem i).mp hi), fun i => ?_, h.once, h.owned, h.apart⟩
  rw [h.frees, hmem]

theorem custody_marked (h : Custody u counts freed held) {is : List Nat} (hmarked : Marked u is u')
    (his : ∀ i ∈ is, i ∈ held) : Custody u' counts freed held where
  counted := h.counted
  made := by rw [hmarked.next]; exact h.made
  frees i := by
    rw [h.frees, hmarked.next, hmarked.marks]
    constructor
    · exact fun ⟨hi, hmark, hout⟩ => ⟨hi, .inr hmark, hout⟩
    · exact fun ⟨hi, hmark, hout⟩ => ⟨hi, hmark.resolve_left fun hin => hout (his i hin), hout⟩
  once := h.once
  owned p := by
    rw [hmarked.owned, h.owned, hmarked.next]
    exact exists_congr fun i => by rw [(hmarked.same i).2]
  apart i hi j hj hne hfi hfj := by
    rw [hmarked.next] at hi hj
    rw [(hmarked.same i).2, (hmarked.same j).2]
    exact h.apart i hi j hj hne hfi hfj

theorem custody_add (h : Custody u counts freed held) (z : Nat) (out : Slice) {pages : Finset Nat}
    (hpages : Disjoint pages u.owned) :
    Custody (u.add z out pages) (retain counts [u.next]) freed (held + ([u.next] : List Nat)) := by
  have hnew : u.next ∉ held := fun hin => Nat.lt_irrefl _ (h.made _ hin)
  have hfreed : ∀ i ∈ freed, i < u.next := fun i hi => ((h.frees i).mp hi).1
  have hlast : (u.add z out pages).objects u.next = { slice := out, pages := pages } := Function.update_self ..
  have hold : ∀ i < u.next, (u.add z out pages).objects i = u.objects i :=
    fun i hi => Function.update_of_ne (Nat.ne_of_lt hi) _ _
  have hmem : ∀ i, i ∈ held + (([u.next] : List Nat) : Multiset Nat) ↔ i ∈ held ∨ i = u.next := by
    intro i
    rw [Multiset.mem_add, Multiset.mem_coe, List.mem_singleton]
  have hnext : (u.add z out pages).next = u.next + 1 := rfl
  have hcases : ∀ i < u.next + 1, i < u.next ∨ i = u.next := fun i hi => Nat.lt_or_eq_of_le (Nat.le_of_lt_succ hi)
  have hapart : ∀ i < u.next, i ∉ freed → Disjoint (u.objects i).pages pages := by
    refine fun i hi hfi => Finset.disjoint_left.mpr fun p hp hin => ?_
    exact Finset.disjoint_left.mp hpages hin ((h.owned p).mpr ⟨i, hi, hfi, hp⟩)
  refine ⟨retain_eq h.counted _, fun i hi => ?_, fun i => ?_, h.once, fun p => ?_, ?_⟩
  · rcases (hmem i).mp hi with hi | rfl
    · exact Nat.lt_succ_of_lt (h.made i hi)
    · exact Nat.lt_succ_self _
  · rw [h.frees, hmem, hnext]
    constructor
    · rintro ⟨hi, hmark, hout⟩
      rw [hold i hi]
      exact ⟨Nat.lt_succ_of_lt hi, hmark, fun hin => hin.elim hout (Nat.ne_of_lt hi)⟩
    · rintro ⟨hi, hmark, hout⟩
      rcases hcases i hi with hi | rfl
      · rw [hold i hi] at hmark
        exact ⟨hi, hmark, fun hin => hout (.inl hin)⟩
      · exact absurd (.inr rfl) hout
  · change p ∈ u.owned ∪ pages ↔ _
    rw [Finset.mem_union, h.owned, hnext]
    constructor
    · rintro (⟨i, hi, hfi, hp⟩ | hp)
      · exact ⟨i, Nat.lt_succ_of_lt hi, hfi, by rwa [hold i hi]⟩
      · exact ⟨u.next, Nat.lt_succ_self _, fun hin => Nat.lt_irrefl _ (hfreed _ hin), by rwa [hlast]⟩
    · rintro ⟨i, hi, hfi, hp⟩
      rcases hcases i hi with hi | rfl
      · rw [hold i hi] at hp
        exact .inl ⟨i, hi, hfi, hp⟩
      · rw [hlast] at hp
        exact .inr hp
  · intro i hi j hj hne hfi hfj
    rcases hcases i hi with hi | rfl
    · rcases hcases j hj with hj | rfl
      · rw [hold i hi, hold j hj]
        exact h.apart i hi j hj hne hfi hfj
      · rw [hold i hi, hlast]
        exact hapart i hi hfi
    · rcases hcases j hj with hj | rfl
      · rw [hlast, hold j hj]
        exact (hapart j hj hfj).symm
      · exact absurd rfl hne

/-- Of slices that are destroyed the marked ones lose their pages, and nothing else is changed. -/
theorem destroy_all (is : List Nat) : ∀ u : Unlinking.State, ∃ owned,
    is.foldl Unlinking.State.destroy u = { u with owned := owned } ∧
      ∀ p, p ∈ owned ↔ p ∈ u.owned ∧ ∀ i ∈ is, (u.objects i).unlink = true → p ∉ (u.objects i).pages := by
  induction is with
  | nil => exact fun u => ⟨u.owned, rfl, fun p => by simp⟩
  | cons j is ih =>
      intro u
      by_cases hmark : (u.objects j).unlink = true
      · have hdestroy : u.destroy j = { u with owned := u.owned \ (u.objects j).pages } := if_pos hmark
        obtain ⟨owned, hall, hmem⟩ := ih (u.destroy j)
        rw [hdestroy] at hall hmem
        refine ⟨owned, by rw [List.foldl_cons, hdestroy, hall], fun p => ?_⟩
        rw [hmem, Finset.mem_sdiff, List.forall_mem_cons]
        exact ⟨fun ⟨⟨hp, hj⟩, hrest⟩ => ⟨hp, fun _ => hj, hrest⟩, fun ⟨hp, hj, hrest⟩ => ⟨⟨hp, hj hmark⟩, hrest⟩⟩
      · have hdestroy : u.destroy j = u := if_neg hmark
        obtain ⟨owned, hall, hmem⟩ := ih u
        refine ⟨owned, by rw [List.foldl_cons, hdestroy, hall], fun p => ?_⟩
        rw [hmem, List.forall_mem_cons]
        exact ⟨fun ⟨hp, hrest⟩ => ⟨hp, fun hno => absurd hno hmark, hrest⟩, fun ⟨hp, _, hrest⟩ => ⟨hp, hrest⟩⟩

/-- Pointers that are given up were held; what was held by nobody else goes. -/
theorem custody_release (h : Custody u counts freed held) {is : List Nat} (his : (is : Multiset Nat) ≤ held) :
    Custody ((release counts is).2.foldl Unlinking.State.destroy u) (release counts is).1
      (freed ++ (release counts is).2.filter (fun i => (u.objects i).unlink)) (held - (is : Multiset Nat)) := by
  have hdead := mem_release is h.counted his
  obtain ⟨owned, hall, howned⟩ := destroy_all (release counts is).2 u
  have hin : ∀ i ∈ is, i ∈ held := fun i hi => Multiset.mem_of_le his hi
  have hless : ∀ i, i ∈ held - (is : Multiset Nat) → i ∈ held :=
    fun i hi => Multiset.mem_of_le (Multiset.sub_le_self _ _) hi
  have hfreed : ∀ i, i ∈ freed ++ (release counts is).2.filter (fun i => (u.objects i).unlink) ↔
      i ∈ freed ∨ (i ∈ is ∧ i ∉ held - (is : Multiset Nat)) ∧ (u.objects i).unlink = true := by
    intro i
    rw [List.mem_append, List.mem_filter, hdead]
  rw [hall]
  refine ⟨release_counts is h.counted, fun i hi => h.made i (hless i hi), fun i => ?_, ?_, fun p => ?_, ?_⟩
  · rw [hfreed]
    constructor
    · rintro (hi | ⟨⟨hi, hout⟩, hmark⟩)
      · obtain ⟨hi, hmark, hout⟩ := (h.frees i).mp hi
        exact ⟨hi, hmark, fun hno => hout (hless i hno)⟩
      · exact ⟨h.made i (hin i hi), hmark, hout⟩
    · rintro ⟨hi, hmark, hout⟩
      by_cases hheld : i ∈ held
      · refine .inr ⟨⟨?_, hout⟩, hmark⟩
        by_contra hno
        refine hout (Multiset.count_pos.mp ?_)
        rw [Multiset.count_sub, Multiset.coe_count, List.count_eq_zero_of_not_mem hno]
        exact Multiset.count_pos.mpr hheld
      · exact .inl ((h.frees i).mpr ⟨hi, hmark, hheld⟩)
  · refine List.nodup_append.mpr ⟨h.once, (nodup_release is h.counted his).filter _, fun i hi j hj heq => ?_⟩
    subst heq
    exact h.notFreed (hin i ((hdead i).mp (List.mem_filter.mp hj).1).1) hi
  · change p ∈ owned ↔ _
    rw [howned, h.owned]
    constructor
    · rintro ⟨⟨i, hi, hfi, hp⟩, hno⟩
      refine ⟨i, hi, fun hgone => ?_, hp⟩
      rcases (hfreed i).mp hgone with hgone | ⟨hgone, hmark⟩
      · exact hfi hgone
      · exact hno i ((hdead i).mpr hgone) hmark hp
    · rintro ⟨i, hi, hfi, hp⟩
      refine ⟨⟨i, hi, fun hgone => hfi ((hfreed i).mpr (.inl hgone)), hp⟩, fun j hj hmark hpj => ?_⟩
      have hjin := (hdead j).mp hj
      have hne : i ≠ j := by
        rintro rfl
        exact hfi ((hfreed i).mpr (.inr ⟨hjin, hmark⟩))
      exact Finset.disjoint_left.mp (h.apart i hi j (h.made j (hin j hjin.1)) hne
        (fun hgone => hfi ((hfreed i).mpr (.inl hgone))) (h.notFreed (hin j hjin.1))) hp hpj
  · intro i hi j hj hne hfi hfj
    exact h.apart i hi j hj hne (fun hgone => hfi ((hfreed i).mpr (.inl hgone)))
      fun hgone => hfj ((hfreed j).mpr (.inl hgone))

end Tyrdbs.Ushard.Sharing
