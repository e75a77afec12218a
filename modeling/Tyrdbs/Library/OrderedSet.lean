import Mathlib.Data.Finset.Max

namespace Tyrdbs.OrderedSet

variable {α : Type} [LinearOrder α]

/-- The least element not below k; none is the end position. -/
def lowerBound (s : Finset α) (k : α) : Option α := (s.filter (k ≤ ·)).min

/-- The element just before a position, none when the position is the first. -/
def predecessor (s : Finset α) : Option α → Option α
  | none => s.max
  | some x => (s.filter (· < x)).max

theorem lowerBound_some {s : Finset α} {k x : α} (h : lowerBound s k = some x) :
    x ∈ s ∧ k ≤ x ∧ ∀ y ∈ s, k ≤ y → x ≤ y := by
  have hm := Finset.mem_filter.mp (Finset.mem_of_min h)
  refine ⟨hm.1, hm.2, fun y hy hk => ?_⟩
  exact Finset.min_le_of_eq (Finset.mem_filter.mpr ⟨hy, hk⟩) h

theorem lowerBound_none {s : Finset α} {k : α} : lowerBound s k = none ↔ ∀ y ∈ s, y < k := by
  have h : lowerBound s k = none ↔ s.filter (k ≤ ·) = ∅ := Finset.min_eq_top
  rw [h, Finset.filter_eq_empty_iff]
  simp

theorem lowerBound_eq_some {s : Finset α} {k x : α} (hx : x ∈ s) (hk : k ≤ x)
    (hmin : ∀ y ∈ s, k ≤ y → x ≤ y) : lowerBound s k = some x := by
  cases h : lowerBound s k with
  | none => exact absurd (lowerBound_none.mp h x hx) (not_lt.mpr hk)
  | some y =>
      obtain ⟨hy, hky, hle⟩ := lowerBound_some h
      rw [le_antisymm (hle x hx hk) (hmin y hy hky)]

/-- Seen from a lower bound, the predecessor is the greatest element below
the key that was searched. -/
theorem predecessor_lowerBound_some {s : Finset α} {k x : α}
    (h : predecessor s (lowerBound s k) = some x) :
    x ∈ s ∧ x < k ∧ ∀ y ∈ s, y < k → y ≤ x := by
  cases hb : lowerBound s k with
  | none =>
      rw [hb] at h
      have hlt := lowerBound_none.mp hb
      exact ⟨Finset.mem_of_max h, hlt x (Finset.mem_of_max h),
        fun y hy _ => Finset.le_max_of_eq hy h⟩
  | some b =>
      rw [hb] at h
      obtain ⟨_, hkb, hmin⟩ := lowerBound_some hb
      obtain ⟨hx, hxb⟩ := Finset.mem_filter.mp (Finset.mem_of_max h)
      refine ⟨hx, ?_, fun y hy hyk => ?_⟩
      · exact lt_of_not_ge (fun hk => absurd (hmin x hx hk) (not_le.mpr hxb))
      · have hyb : y < b := lt_of_lt_of_le hyk hkb
        exact Finset.le_max_of_eq (Finset.mem_filter.mpr ⟨hy, hyb⟩) h

theorem predecessor_lowerBound_none {s : Finset α} {k : α}
    (h : predecessor s (lowerBound s k) = none) : ∀ y ∈ s, k ≤ y := by
  intro y hy
  by_contra hlt
  have hlt := lt_of_not_ge hlt
  cases hb : lowerBound s k with
  | none =>
      rw [hb] at h
      have he : s = ∅ := Finset.max_eq_bot.mp h
      simp [he] at hy
  | some b =>
      rw [hb] at h
      obtain ⟨_, hkb, _⟩ := lowerBound_some hb
      have he : s.filter (· < b) = ∅ := Finset.max_eq_bot.mp h
      have hm : y ∈ s.filter (· < b) := Finset.mem_filter.mpr ⟨hy, lt_of_lt_of_le hlt hkb⟩
      simp [he] at hm

end Tyrdbs.OrderedSet
