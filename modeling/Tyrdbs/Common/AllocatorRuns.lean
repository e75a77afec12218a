import Tyrdbs.Library.Runs
import Tyrdbs.Common.AllocatorInvariants

namespace Tyrdbs.Allocator

open OrderedSet Extents Runs

inductive Op
  | extend (n : Nat)
  | allocate (n : Nat)
  | free (idx n : Nat)

/-- An allocator and the pages its callers hold, which it does not record. -/
structure State where
  blocks : Allocator := {}
  live : Finset Nat := ∅

def State.apply (s : State) : Op → State
  | .extend n => { s with blocks := s.blocks.extend n }
  | .allocate n =>
      let r := s.blocks.allocate n
      ⟨r.2, if r.1 = invalidHandle then s.live else s.live ∪ cells (r.1, n)⟩
  | .free idx n => ⟨s.blocks.free idx n, s.live \ cells (idx, n)⟩

/-- Callers take at least one page and give back pages they hold; the page
indices stay within 32 bits. -/
def Op.Allowed (s : State) : Op → Prop
  | .extend n => s.blocks.capacity + n < 2 ^ 32
  | .allocate n => 0 < n ∧ n < 2 ^ 32
  | .free idx n => 0 < n ∧ cells (idx, n) ⊆ s.live

def Step (s : State) (op : Op) (s' : State) : Prop := op.Allowed s ∧ s' = s.apply op

instance (s : State) (op : Op) : Decidable (op.Allowed s) :=
  match op with
  | .extend n => (inferInstance : Decidable (s.blocks.capacity + n < 2 ^ 32))
  | .allocate n => (inferInstance : Decidable (0 < n ∧ n < 2 ^ 32))
  | .free idx n => (inferInstance : Decidable (0 < n ∧ cells (idx, n) ⊆ s.live))

structure Inv (s : State) : Prop where
  consistent : Consistent s.blocks
  live_eq : s.live = Finset.range s.blocks.maxIdx \ covered s.blocks.extents

theorem covered_subset_range {a : Allocator} (h : Consistent a) :
    covered a.extents ⊆ Finset.range a.maxIdx := by
  intro p hp
  obtain ⟨e, he, _, hlt⟩ := mem_covered.mp hp
  exact Finset.mem_range.mpr (hlt.trans_le (h.below e he))

theorem mem_live {s : State} (h : Inv s) {p : Nat} :
    p ∈ s.live ↔ p < s.blocks.maxIdx ∧ p ∉ covered s.blocks.extents := by
  rw [h.live_eq]; simp

theorem card_live {s : State} (h : Inv s) : s.live.card = s.blocks.size := by
  rw [h.live_eq, Finset.card_sdiff_of_subset (covered_subset_range h.consistent),
    card_covered h.consistent.separated, Finset.card_range]
  have := h.consistent.size_add_total
  omega

theorem inv_empty : Inv {} where
  consistent := ⟨rfl, by simp [Separated, extents], by simp [extents], by simp, by simp [extents, total]⟩
  live_eq := rfl

/-- What a caller gives back lies outside the free extents, below the
capacity, and within the count that free decreases. -/
theorem live_range {s : State} (h : Inv s) {idx n : Nat} (hn : 0 < n) (hsub : cells (idx, n) ⊆ s.live) :
    idx + n ≤ s.blocks.maxIdx ∧ Disjoint (cells (idx, n)) (covered s.blocks.extents) ∧
      n ≤ s.blocks.size := by
  refine ⟨?_, ?_, ?_⟩
  · have hlast : idx + n - 1 ∈ s.live := hsub (mem_cells.mpr (by simp only; omega))
    have := ((mem_live h).mp hlast).1
    omega
  · exact Finset.disjoint_left.mpr (fun p hp => ((mem_live h).mp (hsub hp)).2)
  · rw [← card_live h]
    simpa [cells] using Finset.card_le_card hsub

theorem inv_extend {s : State} (h : Inv s) {n : Nat} (hn : s.blocks.maxIdx + n < 2 ^ 32) :
    Inv (s.apply (.extend n)) := by
  obtain ⟨hc, hmax, _, hcov⟩ := extend_spec h.consistent hn
  refine ⟨hc, ?_⟩
  ext p
  change p ∈ s.live ↔ p ∈ Finset.range (s.blocks.extend n).maxIdx \ covered (s.blocks.extend n).extents
  rw [mem_live h, hmax, hcov, Finset.mem_sdiff, Finset.mem_union, mem_cells, Finset.mem_range]
  by_cases hp : p ∈ covered s.blocks.extents
  · simp [hp]
  · simp only [hp, not_false_eq_true, and_true, or_false]
    omega

theorem inv_free {s : State} (h : Inv s) {idx n : Nat} (hn : 0 < n) (hsub : cells (idx, n) ⊆ s.live) :
    Inv (s.apply (.free idx n)) := by
  have hc := h.consistent
  obtain ⟨hin, hapart, hsize⟩ := live_range h hn hsub
  obtain ⟨h1, h2, h3, h4, h5, h6, h7⟩ :=
    free_spec hc.same hc.separated hc.below hc.bounded hin hapart
  refine ⟨⟨h1, h2, ?_, ?_, ?_⟩, ?_⟩
  · change ∀ e ∈ (s.blocks.free idx n).extents, e.1 + e.2 ≤ (s.blocks.free idx n).maxIdx
    rw [h6]; exact h3
  · change (s.blocks.free idx n).maxIdx < 2 ^ 32
    rw [h6]; exact hc.bounded
  · change (s.blocks.free idx n).size + total (s.blocks.free idx n).extents = (s.blocks.free idx n).maxIdx
    have := hc.size_add_total
    rw [h5, h6, h7]; omega
  · ext p
    change p ∈ s.live \ cells (idx, n) ↔
      p ∈ Finset.range (s.blocks.free idx n).maxIdx \ covered (s.blocks.free idx n).extents
    rw [h6, h4, Finset.mem_sdiff, mem_live h, Finset.mem_sdiff, Finset.mem_union, Finset.mem_range]
    tauto

theorem allocate_cases {s : State} (h : Inv s) (n : Nat) (hn : 0 < n) :
    ((∀ e ∈ s.blocks.extents, e.2 < n) ∧ s.blocks.allocate n = (invalidHandle, s.blocks)) ∨
    (∃ e ∈ s.blocks.extents, n ≤ e.2 ∧ (∀ f ∈ s.blocks.extents, n ≤ f.2 → e.2 ≤ f.2) ∧
      (s.blocks.allocate n).1 = e.1 ∧ e.1 ≠ invalidHandle ∧ cells (e.1, n) ⊆ cells e ∧
      Inv (s.apply (.allocate n)) ∧ (s.apply (.allocate n)).live = s.live ∪ cells (e.1, n) ∧
      (s.blocks.allocate n).2.maxIdx = s.blocks.maxIdx ∧
      (s.blocks.allocate n).2.extents =
        if n < e.2 then insert (e.1 + n, e.2 - n) (s.blocks.extents.erase e)
        else s.blocks.extents.erase e) := by
  have hc := h.consistent
  cases hb : lowerBound s.blocks.freeSet (pack n 0) with
  | none => exact Or.inl ⟨(lowerBound_freeSet_none hc.same n).mp hb, allocate_of_none hb⟩
  | some it =>
      obtain ⟨hmem, hfit, hbest⟩ := lowerBound_freeSet_some hc.same hb
      obtain ⟨hidx, hcons, hmax, hext⟩ := allocate_of_some hc hb
      have hbelow := hc.below _ hmem
      have hbound := hc.bounded
      simp only at hbelow
      have hvalid : low it ≠ invalidHandle := by unfold invalidHandle; omega
      have hsub : cells (low it, n) ⊆ cells (low it, high it) :=
        Finset.Ico_subset_Ico_right (by simp only; omega)
      have hlive : (s.apply (.allocate n)).live = s.live ∪ cells (low it, n) := by
        simp only [State.apply, hidx, if_neg hvalid]
      refine Or.inr ⟨(low it, high it), hmem, hfit, hbest, hidx, hvalid, hsub, ⟨hcons, ?_⟩, hlive,
        hmax, hext⟩
      rw [hlive]
      ext p
      change p ∈ s.live ∪ cells (low it, n) ↔
        p ∈ Finset.range (s.blocks.allocate n).2.maxIdx \ covered (s.blocks.allocate n).2.extents
      have hcov : p ∈ covered (s.blocks.allocate n).2.extents ↔
          p ∈ covered s.blocks.extents ∧ p ∉ cells (low it, n) := by
        have herase := covered_erase hc.separated hmem
        have hfull : p ∈ cells (low it, high it) → p ∈ covered s.blocks.extents :=
          fun hp => Finset.subset_biUnion_of_mem cells hmem hp
        rw [hext]
        split
        next hlt =>
          rw [covered_insert, herase, Finset.mem_union, Finset.mem_sdiff]
          by_cases hp : p ∈ covered s.blocks.extents
          · simp only [hp, mem_cells, true_and]
            omega
          · have hno : p ∉ cells (low it, high it) := fun hmem => hp (hfull hmem)
            simp only [hp, mem_cells, false_and, or_false, iff_false] at hno ⊢
            omega
        next hlt =>
          have heq : high it = n := by omega
          rw [herase, Finset.mem_sdiff, heq]
      have hpage : p ∈ cells (low it, n) → p < s.blocks.maxIdx ∧ p ∈ covered s.blocks.extents :=
        fun hp => ⟨by have := (mem_cells.mp hp).2; simp only at this; omega,
          Finset.subset_biUnion_of_mem cells hmem (hsub hp)⟩
      rw [Finset.mem_union, mem_live h, Finset.mem_sdiff, Finset.mem_range, hmax, hcov]
      tauto

theorem inv_allocate {s : State} (h : Inv s) {n : Nat} (hn : 0 < n) : Inv (s.apply (.allocate n)) := by
  rcases allocate_cases h n hn with ⟨_, hv⟩ | ⟨e, _, _, _, _, _, _, hinv, _⟩
  · have hs : s.apply (.allocate n) = s := by simp [State.apply, hv]
    rw [hs]; exact h
  · exact hinv

theorem inv_step (s : State) (op : Op) (s' : State) (h : Inv s) (hs : Step s op s') : Inv s' := by
  obtain ⟨hop, rfl⟩ := hs
  cases op with
  | extend n => exact inv_extend h hop
  | allocate n => exact inv_allocate h hop.1
  | free idx n => exact inv_free h hop.1 hop.2

/-- In every run the two sets describe the same extents, apart and below the
capacity, and account for the pages in use. An allocation either fails and
changes nothing, or takes pages that nobody holds from a smallest sufficient
extent; what callers give back never exceeds the size that free asserts. -/
theorem runs_consistent {ts : List (State × Op × State)} {s : State} (h : Run Step {} ts s) :
    s.blocks.freeExtents = s.blocks.extents ∧ Separated s.blocks.extents ∧
    (∀ e ∈ s.blocks.extents, e.1 + e.2 ≤ s.blocks.capacity) ∧
    s.blocks.size + total s.blocks.extents = s.blocks.capacity ∧
    (∀ n, 0 < n → n < 2 ^ 32 →
      (s.blocks.allocate n = (invalidHandle, s.blocks) ∧ ∀ e ∈ s.blocks.extents, e.2 < n) ∨
      ∃ e ∈ s.blocks.extents, (s.blocks.allocate n).1 = e.1 ∧ e.1 ≠ invalidHandle ∧
        n ≤ e.2 ∧ (∀ f ∈ s.blocks.extents, n ≤ f.2 → e.2 ≤ f.2) ∧
        e.1 + n ≤ s.blocks.capacity ∧ Disjoint (cells (e.1, n)) s.live) ∧
    (∀ idx n, 0 < n → cells (idx, n) ⊆ s.live → n ≤ s.blocks.size) := by
  have hinv := h.invariant Inv inv_empty inv_step
  have hc := hinv.consistent
  refine ⟨hc.same, hc.separated, hc.below, hc.size_add_total, fun n hn _ => ?_,
    fun idx n hn hsub => (live_range hinv hn hsub).2.2⟩
  rcases allocate_cases hinv n hn with ⟨hfail, hv⟩ | ⟨e, he, hfit, hbest, hidx, hvalid, hsub, _⟩
  · exact Or.inl ⟨hv, hfail⟩
  · refine Or.inr ⟨e, he, hidx, hvalid, hfit, hbest, ?_, ?_⟩
    · have := hc.below e he
      rw [capacity]; omega
    · refine Finset.disjoint_left.mpr (fun p hp hlive => ?_)
      exact ((mem_live hinv).mp hlive).2 (Finset.subset_biUnion_of_mem cells he (hsub hp))

/-- Giving back the middle of an allocation: two of the five pages stay in
use, and the next three-page allocation takes the hole. -/
theorem runs_consistent_hole :
    let s := [Op.extend 5, .allocate 5, .free 1 3].foldl State.apply {}
    s.blocks.size + total s.blocks.extents = 5 ∧ s.live = {0, 4} ∧ (s.blocks.allocate 3).1 = 1 := by
  have hrun := run_of_allowed State.apply (fun s op => op.Allowed s) [Op.extend 5, .allocate 5, .free 1 3] {}
    (by decide)
  have h := runs_consistent hrun
  exact ⟨h.2.2.2.1, by decide, by decide⟩

end Tyrdbs.Allocator
