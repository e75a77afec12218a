import Mathlib.Algebra.BigOperators.Group.List.Basic
import Mathlib.Data.List.Basic
import Mathlib.Order.Nat

namespace Tyrdbs.Slots

variable {α : Type}

/-- One list is the other with a new value in one slot, possibly the slot
after the last. -/
structure Replaced (xs ys : List α) (i : Nat) (a : α) : Prop where
  get : ∀ j, ys[j]? = if j = i then some a else xs[j]?
  count : ∀ p : α → Bool, ys.countP p + xs[i]?.elim 0 (fun b => (p b).toNat) = xs.countP p + (p a).toNat

theorem replaced_append (xs : List α) (a : α) : Replaced xs (xs ++ [a]) xs.length a := by
  refine ⟨fun j => ?_, fun p => ?_⟩
  · by_cases hj : j < xs.length
    · rw [List.getElem?_append_left hj, if_neg hj.ne]
    · rw [List.getElem?_append_right (not_lt.mp hj)]
      by_cases heq : j = xs.length
      · rw [if_pos heq, heq, Nat.sub_self, List.getElem?_cons_zero]
      · have hpos : j - xs.length ≠ 0 := by omega
        rw [if_neg heq, List.getElem?_eq_none (not_lt.mp hj), List.getElem?_eq_none]
        rw [List.length_singleton]
        omega
  · cases hp : p a <;> simp [hp]

theorem replaced_set {xs : List α} {i : Nat} {b : α} (h : xs[i]? = some b) (a : α) :
    Replaced xs (xs.set i a) i a := by
  obtain ⟨hi, hb⟩ := List.getElem?_eq_some_iff.mp h
  refine ⟨fun j => ?_, fun p => ?_⟩
  · by_cases hj : j = i
    · rw [if_pos hj, hj, List.getElem?_set_self hi]
    · rw [if_neg hj, List.getElem?_set_ne (Ne.symm hj)]
  · have hpos : p b = true → 0 < xs.countP p :=
      fun hp => List.countP_pos_iff.mpr ⟨b, hb ▸ List.getElem_mem hi, hp⟩
    rw [h, Option.elim_some, List.countP_set hi, hb]
    cases hp : p b <;> cases hq : p a <;> simp only [hp, Bool.toNat_true, Bool.toNat_false, if_true, if_false,
      Bool.false_eq_true, true_imp_iff] at hpos ⊢ <;> omega

theorem replaced_modify {xs : List α} {i : Nat} {b : α} (h : xs[i]? = some b) (f : α → α) :
    Replaced xs (xs.modify i f) i (f b) := by
  have hset : xs.modify i f = xs.set i (f b) := by
    rw [List.modify_eq_set_getElem?, h]
    rfl
  rw [hset]
  exact replaced_set h (f b)

theorem replaced_self {xs : List α} {i : Nat} {a : α} (h : xs[i]? = some a) : Replaced xs xs i a := by
  refine ⟨fun j => ?_, fun p => ?_⟩
  · by_cases hj : j = i
    · rw [if_pos hj, hj, h]
    · rw [if_neg hj]
  · rw [h, Option.elim_some]

theorem Replaced.trans {xs ys zs : List α} {i : Nat} {a b : α} (h : Replaced xs ys i a)
    (h' : Replaced ys zs i b) : Replaced xs zs i b := by
  refine ⟨fun j => ?_, fun p => ?_⟩
  · rw [h'.get, h.get]
    by_cases hj : j = i
    · rw [if_pos hj, if_pos hj]
    · rw [if_neg hj, if_neg hj, if_neg hj]
  · have h1 := h.count p
    have h2 := h'.count p
    rw [h.get, if_pos rfl, Option.elim_some] at h2
    omega

variable {xs ys : List α} {i : Nat} {a : α}

theorem Replaced.get_self (h : Replaced xs ys i a) : ys[i]? = some a := by
  rw [h.get, if_pos rfl]

theorem Replaced.get_of_ne (h : Replaced xs ys i a) {j : Nat} (hj : j ≠ i) : ys[j]? = xs[j]? := by
  rw [h.get, if_neg hj]

section Sums

variable {M ι : Type} [AddCommMonoid M] [DecidableEq ι]

theorem sum_set (f : α → M) : ∀ {xs : List α} {i : Nat} {a : α}, xs[i]? = some a → ∀ b : α,
    ((xs.set i b).map f).sum + f a = (xs.map f).sum + f b
  | x :: xs, 0, a, h, b => by
      obtain rfl := Option.some.inj h
      rw [List.set_cons_zero, List.map_cons, List.map_cons, List.sum_cons, List.sum_cons]
      ac_rfl
  | x :: xs, i + 1, a, h, b => by
      have ih := sum_set f (i := i) h b
      rw [List.set_cons_succ, List.map_cons, List.map_cons, List.sum_cons, List.sum_cons, add_assoc, ih, add_assoc]

theorem sum_update (g g' : ι → M) {xs : List ι} (hnodup : xs.Nodup) {i : ι} (hi : i ∈ xs)
    (hg : ∀ j, j ≠ i → g' j = g j) : (xs.map g').sum + g i = (xs.map g).sum + g' i := by
  have hperm := (List.perm_cons_erase hi)
  have hrest : (xs.erase i).map g' = (xs.erase i).map g :=
    List.map_congr_left (fun j hj => hg j (fun heq => hnodup.not_mem_erase (heq ▸ hj)))
  rw [(hperm.map g').sum_eq, (hperm.map g).sum_eq, List.map_cons, List.map_cons, List.sum_cons, List.sum_cons, hrest]
  ac_rfl

end Sums

end Tyrdbs.Slots
