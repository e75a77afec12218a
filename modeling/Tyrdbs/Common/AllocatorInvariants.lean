import Tyrdbs.Common.Allocator

namespace Tyrdbs.Allocator

open OrderedSet Extents

theorem u32_of_lt {n : Nat} (h : n < 2 ^ 32) : u32 n = n := Nat.mod_eq_of_lt h

/-- The two sets describe the same extents, which lie apart below the
capacity and account for every page that is not in use. -/
structure Consistent (a : Allocator) : Prop where
  same : a.freeExtents = a.extents
  separated : Separated a.extents
  below : ∀ e ∈ a.extents, e.1 + e.2 ≤ a.maxIdx
  bounded : a.maxIdx < 2 ^ 32
  size_add_total : a.size + total a.extents = a.maxIdx

/-- The state of free between its joins: the range given back is still
outside the sets, and what was covered together with it does not change. -/
structure Pending (a : Allocator) (idx size bound : Nat) (cover : Finset Nat) (sum : Nat) : Prop where
  same : a.freeExtents = a.extents
  separated : Separated a.extents
  below : ∀ e ∈ a.extents, e.1 + e.2 ≤ bound
  bounded : bound < 2 ^ 32
  inside : idx + size ≤ bound
  apart : Disjoint (cells (idx, size)) (covered a.extents)
  cover_eq : cells (idx, size) ∪ covered a.extents = cover
  sum_eq : size + total a.extents = sum

theorem total_erase {E : Finset Extent} {e : Extent} (h : e ∈ E) :
    e.2 + total (E.erase e) = total E := Finset.add_sum_erase E Prod.snd h

theorem cells_union_of_touch (p q : Extent) (h : p.1 + p.2 = q.1) :
    cells p ∪ cells q = cells (p.1, p.2 + q.2) := by
  ext c
  simp only [Finset.mem_union, mem_cells]
  omega

section joins

variable {a : Allocator} {idx size bound sum : Nat} {cover : Finset Nat}

/-- Moving an extent that touches the range out of the sets and into the
range keeps the pending state. -/
theorem Pending.absorb (h : Pending a idx size bound cover sum) {it idx' size' : Nat}
    (hit : it ∈ a.idxSet) (hcells : cells (idx', size') = cells (idx, size) ∪ cells (high it, low it))
    (hsize : size' = size + low it) (hin : idx' + size' ≤ bound) :
    Pending (a.eraseExtent it) idx' size' bound cover sum := by
  have hmem := mem_extents hit
  have hhigh : high it < 2 ^ 32 := by
    have := h.below _ hmem
    have := h.bounded
    omega
  have hext := extents_eraseExtent a it
  have hcov := covered_erase h.separated hmem
  refine ⟨?_, ?_, ?_, h.bounded, hin, ?_, ?_, ?_⟩
  · rw [freeExtents_eraseExtent a hhigh, hext, h.same]
  · rw [hext]; exact h.separated.erase _
  · rw [hext]; exact fun e he => h.below e (Finset.mem_of_mem_erase he)
  · rw [hext, hcov, hcells, Finset.disjoint_union_left]
    exact ⟨h.apart.mono_right Finset.sdiff_subset, Finset.disjoint_sdiff⟩
  · have hsub : cells (high it, low it) ⊆ covered a.extents :=
      Finset.subset_biUnion_of_mem cells hmem
    rw [hext, hcov, hcells, Finset.union_assoc, Finset.union_sdiff_of_subset hsub, h.cover_eq]
  · have ht := total_erase hmem
    have := h.sum_eq
    rw [hext, hsize]
    simp only at ht
    omega

theorem joinPrev_cases (h : Pending a idx size bound cover sum) {prevIt : Option Nat}
    (hprev : ∀ it, prevIt = some it → it ∈ a.idxSet) :
    (∃ it, prevIt = some it ∧ high it + low it = idx ∧
      a.joinPrev prevIt idx size = (a.eraseExtent it, high it, size + low it)) ∨
    ((∀ it, prevIt = some it → high it + low it ≠ idx) ∧
      a.joinPrev prevIt idx size = (a, idx, size)) := by
  cases prevIt with
  | none => exact Or.inr ⟨by simp, rfl⟩
  | some it =>
      have hb := h.below _ (mem_extents (hprev it rfl))
      have := h.bounded
      have := h.inside
      simp only at hb
      by_cases htouch : high it + low it = idx
      · refine Or.inl ⟨it, rfl, htouch, ?_⟩
        rw [joinPrev, u32_of_lt (by omega), if_pos htouch, u32_of_lt (by omega)]
      · refine Or.inr ⟨by simpa using htouch, ?_⟩
        rw [joinPrev, u32_of_lt (by omega), if_neg htouch]

theorem joinNext_cases (h : Pending a idx size bound cover sum) {nextIt : Option Nat}
    (hnext : ∀ it, nextIt = some it → it ∈ a.idxSet) :
    (∃ it, nextIt = some it ∧ idx + size = high it ∧
      a.joinNext nextIt idx size = (a.eraseExtent it, size + low it)) ∨
    ((∀ it, nextIt = some it → idx + size ≠ high it) ∧ a.joinNext nextIt idx size = (a, size)) := by
  cases nextIt with
  | none => exact Or.inr ⟨by simp, rfl⟩
  | some it =>
      have hb := h.below _ (mem_extents (hnext it rfl))
      have := h.bounded
      have := h.inside
      simp only at hb
      by_cases htouch : idx + size = high it
      · refine Or.inl ⟨it, rfl, htouch, ?_⟩
        rw [joinNext, u32_of_lt (by omega), if_pos htouch, u32_of_lt (by omega)]
      · refine Or.inr ⟨by simpa using htouch, ?_⟩
        rw [joinNext, u32_of_lt (by omega), if_neg htouch]

theorem Pending.joinPrev (h : Pending a idx size bound cover sum) {prevIt : Option Nat}
    (hprev : ∀ it, prevIt = some it → it ∈ a.idxSet) :
    Pending (a.joinPrev prevIt idx size).1 (a.joinPrev prevIt idx size).2.1
      (a.joinPrev prevIt idx size).2.2 bound cover sum := by
  rcases joinPrev_cases h hprev with ⟨it, hp, htouch, hj⟩ | ⟨_, hj⟩
  · have hin := h.inside
    have hcells : cells (high it, size + low it) = cells (idx, size) ∪ cells (high it, low it) := by
      rw [Finset.union_comm, cells_union_of_touch _ _ htouch, Nat.add_comm]
    rw [hj]
    exact h.absorb (hprev it hp) hcells rfl (by simp only; omega)
  · rw [hj]; exact h

theorem Pending.joinNext (h : Pending a idx size bound cover sum) {nextIt : Option Nat}
    (hnext : ∀ it, nextIt = some it → it ∈ a.idxSet) :
    Pending (a.joinNext nextIt idx size).1 idx (a.joinNext nextIt idx size).2 bound cover sum := by
  rcases joinNext_cases h hnext with ⟨it, hn, htouch, hj⟩ | ⟨_, hj⟩
  · have hb := h.below _ (mem_extents (hnext it hn))
    have hcells : cells (idx, size + low it) = cells (idx, size) ∪ cells (high it, low it) :=
      (cells_union_of_touch (idx, size) (high it, low it) htouch).symm
    rw [hj]
    exact h.absorb (hnext it hn) hcells rfl (by simp only at hb ⊢; omega)
  · rw [hj]; exact h

end joins

theorem joinPrev_fields (a : Allocator) (prevIt : Option Nat) (idx size : Nat) :
    (a.joinPrev prevIt idx size).1.maxIdx = a.maxIdx ∧ (a.joinPrev prevIt idx size).1.size = a.size := by
  cases prevIt with
  | none => exact ⟨rfl, rfl⟩
  | some it => rw [joinPrev]; split <;> exact ⟨rfl, rfl⟩

theorem joinNext_fields (a : Allocator) (nextIt : Option Nat) (idx size : Nat) :
    (a.joinNext nextIt idx size).1.maxIdx = a.maxIdx ∧ (a.joinNext nextIt idx size).1.size = a.size := by
  cases nextIt with
  | none => exact ⟨rfl, rfl⟩
  | some it => rw [joinNext]; split <;> exact ⟨rfl, rfl⟩

theorem mem_joinPrev_idxSet {a : Allocator} {prevIt : Option Nat} {idx size x : Nat}
    (hx : x ∈ a.idxSet) (hne : ∀ it, prevIt = some it → x ≠ it) :
    x ∈ (a.joinPrev prevIt idx size).1.idxSet := by
  cases prevIt with
  | none => exact hx
  | some it =>
      rw [joinPrev]
      split
      next => exact Finset.mem_erase.mpr ⟨hne it rfl, hx⟩
      next => exact hx

theorem Pending.insert {a : Allocator} {idx size bound sum : Nat} {cover : Finset Nat}
    (h : Pending a idx size bound cover sum) :
    (a.insertExtent idx size).freeExtents = (a.insertExtent idx size).extents ∧
      Separated (a.insertExtent idx size).extents ∧
      (∀ e ∈ (a.insertExtent idx size).extents, e.1 + e.2 ≤ bound) ∧
      covered (a.insertExtent idx size).extents = cover ∧
      total (a.insertExtent idx size).extents = sum := by
  have := h.inside
  have := h.bounded
  rw [freeExtents_insertExtent a (by omega : idx < 2 ^ 32),
    extents_insertExtent a (by omega : size < 2 ^ 32)]
  refine ⟨by rw [h.same], h.separated.insert h.apart, ?_, ?_, ?_⟩
  · intro e he
    rcases Finset.mem_insert.mp he with rfl | he
    · exact h.inside
    · exact h.below e he
  · rw [covered_insert, h.cover_eq]
  · rw [← card_covered (h.separated.insert h.apart), covered_insert,
      Finset.card_union_of_disjoint h.apart, card_covered h.separated]
    simpa [cells] using h.sum_eq

theorem prev_mem (a : Allocator) (idx : Nat) :
    ∀ it, predecessor a.idxSet (lowerBound a.idxSet (pack idx 0)) = some it → it ∈ a.idxSet :=
  fun _ h => (predecessor_lowerBound_some h).1

theorem next_mem_joinPrev (a : Allocator) (idx size : Nat) :
    ∀ it, lowerBound a.idxSet (pack idx 0) = some it →
      it ∈ (a.joinPrev (predecessor a.idxSet (lowerBound a.idxSet (pack idx 0))) idx size).1.idxSet := by
  intro it h
  obtain ⟨hmem, hle, _⟩ := lowerBound_some h
  refine mem_joinPrev_idxSet hmem (fun p hp => ?_)
  exact ne_of_gt (lt_of_lt_of_le (predecessor_lowerBound_some hp).2.1 hle)

theorem Pending.joinBoth {a : Allocator} {idx size bound sum : Nat} {cover : Finset Nat}
    (h : Pending a idx size bound cover sum) :
    Pending (a.joinBoth idx size).1 (a.joinBoth idx size).2.1 (a.joinBoth idx size).2.2
      bound cover sum :=
  (h.joinPrev (prev_mem a idx)).joinNext (next_mem_joinPrev a idx size)

theorem joinBoth_fields (a : Allocator) (idx size : Nat) :
    (a.joinBoth idx size).1.maxIdx = a.maxIdx ∧ (a.joinBoth idx size).1.size = a.size := by
  simp only [joinBoth, (joinNext_fields _ _ _ _).1, (joinPrev_fields _ _ _ _).1,
    (joinNext_fields _ _ _ _).2, (joinPrev_fields _ _ _ _).2, and_self]

/-- Whatever it joins, free makes the range free as well and changes nothing
else. -/
theorem free_spec {a : Allocator} {idx size bound : Nat} (hsame : a.freeExtents = a.extents)
    (hsep : Separated a.extents) (hbelow : ∀ e ∈ a.extents, e.1 + e.2 ≤ bound)
    (hbound : bound < 2 ^ 32) (hin : idx + size ≤ bound)
    (hapart : Disjoint (cells (idx, size)) (covered a.extents)) :
    (a.free idx size).freeExtents = (a.free idx size).extents ∧
      Separated (a.free idx size).extents ∧
      (∀ e ∈ (a.free idx size).extents, e.1 + e.2 ≤ bound) ∧
      covered (a.free idx size).extents = cells (idx, size) ∪ covered a.extents ∧
      total (a.free idx size).extents = size + total a.extents ∧
      (a.free idx size).maxIdx = a.maxIdx ∧ (a.free idx size).size = a.size - size := by
  have hp : Pending { a with size := a.size - size } idx size bound
      (cells (idx, size) ∪ covered a.extents) (size + total a.extents) :=
    ⟨hsame, hsep, hbelow, hbound, hin, hapart, rfl, rfl⟩
  obtain ⟨h1, h2, h3, h4, h5⟩ := hp.joinBoth.insert
  rw [free_eq]
  exact ⟨h1, h2, h3, h4, h5, (joinBoth_fields _ _ _).1, (joinBoth_fields _ _ _).2⟩

theorem allocate_of_none {a : Allocator} {n : Nat} (h : lowerBound a.freeSet (pack n 0) = none) :
    a.allocate n = (invalidHandle, a) := by
  rw [allocate, h]

theorem lowerBound_freeSet_none {a : Allocator} (hsame : a.freeExtents = a.extents) (n : Nat) :
    lowerBound a.freeSet (pack n 0) = none ↔ ∀ e ∈ a.extents, e.2 < n := by
  rw [lowerBound_none, ← hsame]
  constructor
  · intro h e he
    obtain ⟨k, hk, rfl⟩ := Finset.mem_image.mp he
    by_contra hlt
    exact absurd (h k hk) (not_lt.mpr (pack_zero_le.mpr (not_lt.mp hlt)))
  · intro h k hk
    by_contra hlt
    have hhigh := pack_zero_le.mp (not_lt.mp hlt)
    exact absurd (h (low k, high k) (Finset.mem_image_of_mem _ hk)) (not_lt.mpr hhigh)

/-- The position that allocate takes is the best fit, and the extent found
there is the one the other set holds as well. -/
theorem lowerBound_freeSet_some {a : Allocator} (hsame : a.freeExtents = a.extents) {n it : Nat}
    (h : lowerBound a.freeSet (pack n 0) = some it) :
    (low it, high it) ∈ a.extents ∧ n ≤ high it ∧ ∀ f ∈ a.extents, n ≤ f.2 → high it ≤ f.2 := by
  obtain ⟨hmem, hle, hmin⟩ := lowerBound_some h
  refine ⟨?_, pack_zero_le.mp hle, ?_⟩
  · rw [← hsame]; exact Finset.mem_image_of_mem _ hmem
  · intro f hf hn
    rw [← hsame] at hf
    obtain ⟨k, hk, rfl⟩ := Finset.mem_image.mp hf
    have hik := hmin k hk (pack_zero_le.mpr hn)
    simp only [high_eq]
    exact Nat.div_le_div_right hik

theorem allocate_of_some {a : Allocator} (hc : Consistent a) {n it : Nat}
    (h : lowerBound a.freeSet (pack n 0) = some it) :
    (a.allocate n).1 = low it ∧ Consistent (a.allocate n).2 ∧
      (a.allocate n).2.maxIdx = a.maxIdx ∧
      (a.allocate n).2.extents =
        if n < high it then insert (low it + n, high it - n) (a.extents.erase (low it, high it))
        else a.extents.erase (low it, high it) := by
  obtain ⟨hmem, hn, _⟩ := lowerBound_freeSet_some hc.same h
  have hb := hc.below _ hmem
  have := hc.bounded
  have ht := total_erase hmem
  have hsz := hc.size_add_total
  simp only at hb ht
  let taken : Allocator :=
    { a with freeSet := a.freeSet.erase it, idxSet := a.idxSet.erase (pack (low it) (high it)) }
  have hidx : taken.extents = a.extents.erase (low it, high it) := by
    have he := Finset.image_erase decode_injective a.idxSet (pack (low it) (high it))
    rwa [high_pack (by omega : high it < 2 ^ 32), low_pack (by omega : high it < 2 ^ 32)] at he
  have hfree : taken.freeExtents = a.extents.erase (low it, high it) := by
    rw [← hc.same]; exact Finset.image_erase decode_swap_injective a.freeSet it
  have hsep := hc.separated.erase (low it, high it)
  have hbelow : ∀ e ∈ a.extents.erase (low it, high it), e.1 + e.2 ≤ a.maxIdx :=
    fun e he => hc.below e (Finset.mem_of_mem_erase he)
  have hval : a.allocate n = (low it, { (if high it > n
      then taken.insertExtent (u32 (low it + n)) (u32 (high it - n)) else taken) with
        size := u32 (a.size + n) }) := by
    rw [allocate, h]
  rw [hval, u32_of_lt (by omega : low it + n < 2 ^ 32), u32_of_lt (by omega : high it - n < 2 ^ 32),
    u32_of_lt (by omega : a.size + n < 2 ^ 32)]
  refine ⟨rfl, ?_⟩
  by_cases hlt : n < high it
  · rw [if_pos hlt, if_pos hlt]
    have hapart : Disjoint (cells (low it + n, high it - n))
        (covered (a.extents.erase (low it, high it))) := by
      rw [covered_erase hc.separated hmem]
      refine Disjoint.mono_left (fun p hp => ?_) Finset.disjoint_sdiff
      rw [mem_cells] at hp ⊢
      simp only at hp ⊢
      omega
    have he : (taken.insertExtent (low it + n) (high it - n)).extents =
        insert (low it + n, high it - n) (a.extents.erase (low it, high it)) := by
      rw [extents_insertExtent taken (by omega), hidx]
    have hf : (taken.insertExtent (low it + n) (high it - n)).freeExtents =
        insert (low it + n, high it - n) (a.extents.erase (low it, high it)) := by
      rw [freeExtents_insertExtent taken (by omega), hfree]
    refine ⟨⟨hf.trans he.symm, ?_, ?_, hc.bounded, ?_⟩, rfl, he⟩
    · change Separated (taken.insertExtent (low it + n) (high it - n)).extents
      rw [he]; exact hsep.insert hapart
    · change ∀ e ∈ (taken.insertExtent (low it + n) (high it - n)).extents, e.1 + e.2 ≤ a.maxIdx
      rw [he]
      intro e hmem'
      rcases Finset.mem_insert.mp hmem' with rfl | hmem'
      · simp only; omega
      · exact hbelow e hmem'
    · change a.size + n + total (taken.insertExtent (low it + n) (high it - n)).extents = a.maxIdx
      rw [he, ← card_covered (hsep.insert hapart), covered_insert,
        Finset.card_union_of_disjoint hapart, card_covered hsep]
      simp only [cells, Nat.card_Ico]
      omega
  · rw [if_neg hlt, if_neg hlt]
    refine ⟨⟨hfree.trans hidx.symm, ?_, ?_, hc.bounded, ?_⟩, rfl, hidx⟩
    · change Separated taken.extents
      rw [hidx]; exact hsep
    · change ∀ e ∈ taken.extents, e.1 + e.2 ≤ a.maxIdx
      rw [hidx]; exact hbelow
    · change a.size + n + total taken.extents = a.maxIdx
      rw [hidx]; omega

theorem extend_spec {a : Allocator} (hc : Consistent a) {n : Nat} (hn : a.maxIdx + n < 2 ^ 32) :
    Consistent (a.extend n) ∧ (a.extend n).maxIdx = a.maxIdx + n ∧ (a.extend n).size = a.size ∧
      covered (a.extend n).extents = cells (a.maxIdx, n) ∪ covered a.extents := by
  have hsz := hc.size_add_total
  have hbelow : ∀ e ∈ a.extents, e.1 + e.2 ≤ a.maxIdx + n :=
    fun e he => (hc.below e he).trans (Nat.le_add_right _ _)
  have hapart : Disjoint (cells (a.maxIdx, n)) (covered a.extents) := by
    rw [Finset.disjoint_left]
    intro p hp hcov
    obtain ⟨e, he, _, hlt⟩ := mem_covered.mp hcov
    have := hc.below e he
    have := (mem_cells.mp hp).1
    simp only at this
    omega
  let grown : Allocator := { a with size := u32 (a.size + n) }
  obtain ⟨h1, h2, h3, h4, h5, h6, h7⟩ := @free_spec grown a.maxIdx n (a.maxIdx + n)
    hc.same hc.separated hbelow hn le_rfl hapart
  have hmax : (a.extend n).maxIdx = a.maxIdx + n := by
    change u32 ((grown.free a.maxIdx n).maxIdx + n) = a.maxIdx + n
    rw [h6]
    exact u32_of_lt hn
  have hsize : (a.extend n).size = a.size := by
    change (grown.free a.maxIdx n).size = a.size
    rw [h7]
    change u32 (a.size + n) - n = a.size
    rw [u32_of_lt (by omega), Nat.add_sub_cancel]
  refine ⟨⟨h1, h2, ?_, ?_, ?_⟩, hmax, hsize, h4⟩
  · rw [hmax]; exact h3
  · rw [hmax]; exact hn
  · rw [hmax, hsize]
    change a.size + total (grown.free a.maxIdx n).extents = _
    rw [h5]
    change a.size + (n + total a.extents) = _
    omega

end Tyrdbs.Allocator
