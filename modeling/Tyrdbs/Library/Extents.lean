import Mathlib.Order.Interval.Finset.Nat
import Mathlib.Algebra.BigOperators.Group.Finset.Basic
import Mathlib.Algebra.Order.BigOperators.Group.Finset

namespace Tyrdbs.Extents

/-- A run of cells, given by its first cell and its length. -/
abbrev Extent := Nat × Nat

def cells (e : Extent) : Finset Nat := Finset.Ico e.1 (e.1 + e.2)

def covered (E : Finset Extent) : Finset Nat := E.biUnion cells

def total (E : Finset Extent) : Nat := E.sum Prod.snd

def Separated (E : Finset Extent) : Prop :=
  ∀ e ∈ E, ∀ f ∈ E, e ≠ f → Disjoint (cells e) (cells f)

/-- No extent begins where another one ends, empty extents included. -/
def Coalesced (E : Finset Extent) : Prop := ∀ e ∈ E, ∀ f ∈ E, e ≠ f → e.1 + e.2 ≠ f.1

theorem mem_cells {e : Extent} {p : Nat} : p ∈ cells e ↔ e.1 ≤ p ∧ p < e.1 + e.2 := by
  simp [cells]

theorem mem_covered {E : Finset Extent} {p : Nat} :
    p ∈ covered E ↔ ∃ e ∈ E, e.1 ≤ p ∧ p < e.1 + e.2 := by
  simp [covered, mem_cells]

theorem covered_insert (e : Extent) (E : Finset Extent) :
    covered (insert e E) = cells e ∪ covered E := by
  simp [covered, Finset.biUnion_insert]

theorem covered_erase {E : Finset Extent} (hs : Separated E) {e : Extent} (he : e ∈ E) :
    covered (E.erase e) = covered E \ cells e := by
  ext p
  simp only [covered, Finset.mem_biUnion, Finset.mem_erase, Finset.mem_sdiff]
  constructor
  · rintro ⟨f, ⟨hne, hf⟩, hp⟩
    refine ⟨⟨f, hf, hp⟩, fun hpe => ?_⟩
    exact Finset.disjoint_left.mp (hs f hf e he hne) hp hpe
  · rintro ⟨⟨f, hf, hp⟩, hpe⟩
    exact ⟨f, ⟨fun h => hpe (h ▸ hp), hf⟩, hp⟩

theorem Separated.erase {E : Finset Extent} (hs : Separated E) (e : Extent) :
    Separated (E.erase e) := fun f hf g hg hne =>
  hs f (Finset.mem_of_mem_erase hf) g (Finset.mem_of_mem_erase hg) hne

theorem Separated.insert {E : Finset Extent} (hs : Separated E) {e : Extent}
    (he : Disjoint (cells e) (covered E)) : Separated (insert e E) := by
  have hd : ∀ f ∈ E, Disjoint (cells e) (cells f) := fun f hf =>
    he.mono_right (Finset.subset_biUnion_of_mem cells hf)
  intro f hf g hg hne
  rcases Finset.mem_insert.mp hf with hfe | hfE <;> rcases Finset.mem_insert.mp hg with hge | hgE
  · exact absurd (hfe.trans hge.symm) hne
  · exact hfe ▸ hd g hgE
  · exact hge ▸ (hd f hfE).symm
  · exact hs f hfE g hgE hne

/-- Separated extents waste nothing: their lengths add up to the number of
cells they cover. -/
theorem card_covered {E : Finset Extent} (hs : Separated E) : (covered E).card = total E := by
  rw [covered, Finset.card_biUnion (fun e he f hf hne => hs e he f hf hne)]
  simp [total, cells]

theorem Separated.eq_of_mem {E : Finset Extent} (hs : Separated E) {e f : Extent}
    (he : e ∈ E) (hf : f ∈ E) {p : Nat} (hpe : p ∈ cells e) (hpf : p ∈ cells f) : e = f := by
  by_contra hne
  exact Finset.disjoint_left.mp (hs e he f hf hne) hpe hpf

theorem run_in_extent {E : Finset Extent} (hs : Separated E) (hc : Coalesced E) (s n : Nat)
    (hn : 0 < n) (hrun : ∀ i < n, s + i ∈ covered E) :
    ∃ e ∈ E, e.1 ≤ s ∧ s + n ≤ e.1 + e.2 := by
  induction n with
  | zero => omega
  | succ n ih =>
      rcases Nat.eq_zero_or_pos n with rfl | hpos
      · obtain ⟨e, he, hlo, hhi⟩ := mem_covered.mp (hrun 0 (by omega))
        exact ⟨e, he, by omega, by omega⟩
      · obtain ⟨e, he, hlo, hhi⟩ := ih hpos (fun i hi => hrun i (by omega))
        obtain ⟨f, hf, hflo, hfhi⟩ := mem_covered.mp (hrun n (by omega))
        refine ⟨e, he, hlo, ?_⟩
        by_contra hlt
        have hne : e ≠ f := fun h => by subst h; omega
        have hend : e.1 + e.2 = s + n := by omega
        rcases Nat.lt_or_ge f.1 (s + n) with hbefore | hat
        · have hmem : s + n - 1 ∈ cells e := mem_cells.mpr (by omega)
          exact hne (hs.eq_of_mem he hf hmem (mem_cells.mpr (by omega)))
        · exact hc e he f hf hne (by omega)

end Tyrdbs.Extents
