import Mathlib.Data.Multiset.AddSub
import Mathlib.Data.Multiset.UnionInter

namespace Tyrdbs.SharedPointers

variable {κ : Type} [DecidableEq κ] {counts : κ → Nat} {held : Multiset κ} {k : κ} {ks : List κ}

def retain (counts : κ → Nat) (ks : List κ) : κ → Nat := fun k => counts k + ks.count k

/-- Pointers are given up one after the other; with its last pointer an object
goes, and the objects that go are listed. -/
def release (counts : κ → Nat) : List κ → (κ → Nat) × List κ
  | [] => (counts, [])
  | k :: ks =>
      let rest := release (Function.update counts k (counts k - 1)) ks
      (rest.1, if counts k - 1 = 0 then k :: rest.2 else rest.2)

theorem retain_eq (h : counts = fun k => held.count k) (ks : List κ) :
    retain counts ks = fun k => (held + (ks : Multiset κ)).count k := by
  funext k
  rw [retain, h, Multiset.count_add, Multiset.coe_count]

theorem update_eq (h : counts = fun k => held.count k) (k : κ) :
    Function.update counts k (counts k - 1) = fun l => (held.erase k).count l := by
  funext l
  by_cases hl : l = k
  · subst hl
    rw [Function.update_self, h, Multiset.count_erase_self]
  · rw [Function.update_of_ne hl, h, Multiset.count_erase_of_ne hl]

theorem release_counts (ks : List κ) : ∀ {counts : κ → Nat} {held : Multiset κ}, (counts = fun k => held.count k) →
    (release counts ks).1 = fun k => (held - (ks : Multiset κ)).count k := by
  induction ks with
  | nil =>
      intro counts held h
      rw [release, h, Multiset.coe_nil, Multiset.sub_zero]
  | cons k ks ih =>
      intro counts held h
      rw [release, ← Multiset.cons_coe, Multiset.sub_cons]
      exact ih (update_eq h k)

/-- What goes is what was given up and has no pointer left. The induction is on the
pointers that are given up. -/
theorem mem_release (ks : List κ) : ∀ {counts : κ → Nat} {held : Multiset κ}, (counts = fun k => held.count k) →
    ↑ks ≤ held → ∀ k, k ∈ (release counts ks).2 ↔ k ∈ ks ∧ k ∉ held - (ks : Multiset κ) := by
  induction ks with
  | nil => exact fun _ _ k => by simp [release]
  | cons l ks ih =>
      intro counts held h hle k
      rw [← Multiset.cons_coe] at hle
      have hl : l ∈ held := Multiset.mem_of_le hle (Multiset.mem_cons_self l _)
      have hrest : (ks : Multiset κ) ≤ held.erase l := by
        rw [← Multiset.cons_le_cons_iff l, Multiset.cons_erase hl]
        exact hle
      have hmem := ih (update_eq h l) hrest k
      rw [← Multiset.cons_coe, Multiset.sub_cons]
      rw [release]
      by_cases hzero : counts l - 1 = 0
      · have hnone : l ∉ held.erase l := by
          rw [← Multiset.count_eq_zero, Multiset.count_erase_self]
          rw [h] at hzero
          exact hzero
        have hgone : l ∉ held.erase l - (ks : Multiset κ) :=
          fun hin => hnone (Multiset.mem_of_le (Multiset.sub_le_self _ _) hin)
        rw [if_pos hzero, List.mem_cons, List.mem_cons, hmem]
        constructor
        · rintro (rfl | ⟨hk, hlast⟩)
          · exact ⟨.inl rfl, hgone⟩
          · exact ⟨.inr hk, hlast⟩
        · rintro ⟨rfl | hk, hlast⟩
          · exact .inl rfl
          · exact .inr ⟨hk, hlast⟩
      · have hmore : l ∈ held.erase l := by
          rw [← Multiset.count_pos, Multiset.count_erase_self]
          rw [h] at hzero
          exact Nat.pos_of_ne_zero hzero
        rw [if_neg hzero, hmem, List.mem_cons]
        refine ⟨fun ⟨hk, hlast⟩ => ⟨.inr hk, hlast⟩, ?_⟩
        rintro ⟨rfl | hk, hlast⟩
        · by_contra hne
          have hout : k ∉ ks := fun hin => hne ⟨hin, hlast⟩
          refine hlast (Multiset.count_pos.mp ?_)
          rw [Multiset.count_sub, Multiset.coe_count, List.count_eq_zero_of_not_mem hout]
          exact Multiset.count_pos.mpr hmore
        · exact ⟨hk, hlast⟩

theorem nodup_release (ks : List κ) : ∀ {counts : κ → Nat} {held : Multiset κ}, (counts = fun k => held.count k) →
    ↑ks ≤ held → (release counts ks).2.Nodup := by
  induction ks with
  | nil => exact fun _ _ => List.nodup_nil
  | cons l ks ih =>
      intro counts held h hle
      rw [← Multiset.cons_coe] at hle
      have hl : l ∈ held := Multiset.mem_of_le hle (Multiset.mem_cons_self l _)
      have hrest : (ks : Multiset κ) ≤ held.erase l := by
        rw [← Multiset.cons_le_cons_iff l, Multiset.cons_erase hl]
        exact hle
      have hnodup := ih (update_eq h l) hrest
      rw [release]
      by_cases hzero : counts l - 1 = 0
      · have hnone : l ∉ held.erase l := by
          rw [← Multiset.count_eq_zero, Multiset.count_erase_self]
          rw [h] at hzero
          exact hzero
        rw [if_pos hzero]
        refine List.nodup_cons.mpr ⟨fun hin => ?_, hnodup⟩
        exact hnone (Multiset.mem_of_le hrest (((mem_release ks (update_eq h l) hrest) l).mp hin).1)
      · rwa [if_neg hzero]

end Tyrdbs.SharedPointers
