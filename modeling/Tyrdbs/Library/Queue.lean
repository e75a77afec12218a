import Mathlib.Data.List.TakeWhile

namespace Tyrdbs.Queue

variable {α : Type} [DecidableEq α] {q r : List α} {a b c : α}

/-- Who is served before somebody else, who may not be enqueued at all. -/
def Precedes (q : List α) (a b : α) : Prop := a ∈ q.takeWhile (· ≠ b)

theorem Precedes.enqueue (h : Precedes q a b) (hb : b ∈ q) (hr : q <+: r) : Precedes r a b := by
  obtain ⟨late, rfl⟩ := hr
  rw [Precedes, List.takeWhile_append]
  split
  case isTrue hall =>
    rw [← (List.takeWhile_prefix _).eq_of_length hall] at hb
    exact absurd (List.mem_takeWhile_imp hb) (by simp)
  case isFalse => exact h

theorem precedes_enqueued (ha : a ∈ q) (hb : b ∉ q) (hr : q <+: r) : Precedes r a b := by
  obtain ⟨late, rfl⟩ := hr
  have hsame : q.takeWhile (· ≠ b) = q :=
    List.takeWhile_eq_self_iff.mpr (fun x hx => decide_eq_true (fun heq => hb (heq ▸ hx)))
  rw [Precedes, List.takeWhile_append, if_pos (congrArg List.length hsame)]
  exact List.mem_append_left _ ha

theorem Precedes.not_head (h : Precedes (c :: q) a b) : c ≠ b := by
  rintro rfl
  rw [Precedes, List.takeWhile_cons_of_neg (by simp)] at h
  cases h

theorem Precedes.dequeue (h : Precedes (c :: q) a b) (hc : a ≠ c) : Precedes q a b := by
  have hne := h.not_head
  rw [Precedes, List.takeWhile_cons_of_pos (by simpa using hne)] at h
  exact (List.mem_cons.mp h).resolve_left hc

end Tyrdbs.Queue
