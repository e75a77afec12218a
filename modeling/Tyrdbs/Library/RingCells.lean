import Mathlib.Algebra.Order.Ring.Nat
import Mathlib.Data.List.Basic

namespace Tyrdbs.RingCells

variable {α : Type} {cells cells' xs : List α} {start : Nat} {x : α}

/-- The elements lie in a ring of cells, from a place on and past its end. -/
def Lies (cells : List α) (start : Nat) (xs : List α) : Prop :=
  ∀ i, i < xs.length → cells[(start + i) % cells.length]? = xs[i]?

theorem wrap_eq {n t i : Nat} (ht : t < n) (hi : i ≤ n) :
    (t + i) % n = if t + i < n then t + i else t + i - n := by
  by_cases hlt : t + i < n
  · rw [if_pos hlt, Nat.mod_eq_of_lt hlt]
  · rw [if_neg hlt, Nat.mod_eq_sub_mod (by omega), Nat.mod_eq_of_lt (by omega)]

theorem wrap_inj {n t i j : Nat} (ht : t < n) (hi : i < n) (hj : j < n) (h : (t + i) % n = (t + j) % n) : i = j := by
  rw [wrap_eq ht hi.le, wrap_eq ht hj.le] at h
  split_ifs at h <;> omega

theorem lies_nil : Lies cells start ([] : List α) := fun _ hi => absurd hi (Nat.not_lt_zero _)

theorem Lies.push (h : Lies cells start xs) (hstart : start < cells.length) (hlt : xs.length < cells.length) (x : α) :
    Lies (cells.set ((start + xs.length) % cells.length) x) start (xs ++ [x]) := by
  intro i hi
  rw [List.length_append, List.length_singleton] at hi
  rw [List.length_set]
  by_cases hlast : i = xs.length
  · rw [hlast, List.getElem?_set_self (Nat.mod_lt _ (Nat.zero_lt_of_lt hlt)), List.getElem?_concat_length]
  · have hold : i < xs.length := by omega
    have hne : (start + xs.length) % cells.length ≠ (start + i) % cells.length := fun heq =>
      hlast (wrap_inj hstart hlt (hold.trans hlt) heq).symm
    rw [List.getElem?_set_ne hne, List.getElem?_append_left hold]
    exact h i hold

theorem Lies.first (h : Lies cells start (x :: xs)) (hstart : start < cells.length) : cells[start]? = some x := by
  have hfirst := h 0 (by simp)
  rwa [Nat.add_zero, Nat.mod_eq_of_lt hstart, List.getElem?_cons_zero] at hfirst

theorem Lies.pop (h : Lies cells start (x :: xs)) (hstart : start < cells.length)
    (hlt : xs.length < cells.length) (y : α) : Lies (cells.set start y) ((start + 1) % cells.length) xs := by
  intro i hi
  have hnext : ((start + 1) % cells.length + i) % cells.length = (start + (i + 1)) % cells.length := by
    rw [Nat.mod_add_mod, Nat.add_assoc, Nat.add_comm 1 i]
  have hne : start ≠ (start + (i + 1)) % cells.length := by
    rw [wrap_eq hstart (by omega)]
    split_ifs <;> omega
  rw [List.length_set, hnext, List.getElem?_set_ne hne, h (i + 1) (by simpa using hi), List.getElem?_cons_succ]

theorem Lies.extend (h : Lies cells start xs) (hle : start + xs.length ≤ cells.length)
    (hsame : ∀ i, i < cells.length → cells'[i]? = cells[i]?) (hlength : cells.length ≤ cells'.length) :
    Lies cells' start xs := by
  intro i hi
  have hcell := h i hi
  rw [Nat.mod_eq_of_lt (by omega)] at hcell
  rw [Nat.mod_eq_of_lt (by omega), hsame _ (by omega)]
  exact hcell

theorem Lies.double (h : Lies cells start xs) (hstart : start < cells.length) (hle : xs.length ≤ cells.length)
    (hlength : cells'.length = 2 * cells.length)
    (hmoved : ∀ i, start ≤ i → i < cells.length → cells'[i + cells.length]? = cells[i]?)
    (hsame : ∀ i, i < start → cells'[i]? = cells[i]?) : Lies cells' (start + cells.length) xs := by
  intro i hi
  have hcell := h i hi
  rw [wrap_eq hstart (by omega)] at hcell
  rw [wrap_eq (by omega) (by omega), hlength]
  by_cases hlt : start + i < cells.length
  · rw [if_pos hlt] at hcell
    rw [if_pos (by omega), Nat.add_right_comm, hmoved _ (by omega) hlt]
    exact hcell
  · rw [if_neg hlt] at hcell
    have hwrapped : start + cells.length + i - 2 * cells.length = start + i - cells.length := by omega
    rw [if_neg (by omega), hwrapped, hsame _ (by omega)]
    exact hcell

end Tyrdbs.RingCells
