import Mathlib.Algebra.Order.Ring.Nat
import Mathlib.Data.List.Basic

namespace Tyrdbs.Buffers

structure Cells (α : Type) where
  get : Nat → α

instance {α : Type} : CoeFun (Cells α) (fun _ => Nat → α) := ⟨Cells.get⟩

variable {α : Type} {cells cells' cells'' : Cells α} {xs : List α} {pos d n m k : Nat}

def store (cells : Cells α) (pos : Nat) (xs : List α) : Cells α where
  get := fun i => if pos ≤ i then xs[i - pos]?.getD (cells i) else cells i

def copy (cells : Cells α) (d start n : Nat) : Cells α :=
  store cells d ((List.range n).map (fun i => cells (start + i)))

theorem store_before {i : Nat} (h : i < pos) : store cells pos xs i = cells i := if_neg (Nat.not_le_of_lt h)

theorem store_inside {i : Nat} (h : i < xs.length) : store cells pos xs (pos + i) = xs[i] := by
  change (if pos ≤ pos + i then xs[pos + i - pos]?.getD (cells (pos + i)) else cells (pos + i)) = xs[i]
  rw [if_pos (Nat.le_add_right _ _), Nat.add_sub_cancel_left, List.getElem?_eq_getElem h, Option.getD_some]

theorem copy_before {start i : Nat} (h : i < d) : copy cells d start n i = cells i := store_before h

theorem copy_inside {start i : Nat} (h : i < n) : copy cells d start n (d + i) = cells (start + i) := by
  rw [copy, store_inside (by rwa [List.length_map, List.length_range]), List.getElem_map, List.getElem_range]

/-- From d on n cells say what stands k cells before them; in front of them
nothing has changed. -/
structure Repeats (cells cells' : Cells α) (d n k : Nat) : Prop where
  before : ∀ i < d, cells' i = cells i
  back : ∀ i, d ≤ i → i < d + n → cells' i = cells' (i - k)

theorem repeats_copy (hn : n ≤ k) (hk : k ≤ d) : Repeats cells (copy cells d (d - k) n) d n k := by
  refine ⟨fun i hi => copy_before hi, fun i hd hlt => ?_⟩
  obtain ⟨j, rfl⟩ := Nat.exists_eq_add_of_le hd
  have hj : j < n := Nat.lt_of_add_lt_add_left hlt
  rw [copy_inside hj, copy_before (show d + j - k < d by omega)]
  exact congrArg cells (by omega)

theorem Repeats.trans (h : Repeats cells cells' d n k) (hk : 0 < k) (h' : Repeats cells' cells'' (d + n) m k) :
    Repeats cells cells'' d (n + m) k := by
  refine ⟨fun i hi => (h'.before i (by omega)).trans (h.before i hi), fun i hd hlt => ?_⟩
  by_cases hin : i < d + n
  · rw [h'.before i hin, h'.before (i - k) (by omega)]
    exact h.back i hd hin
  · exact h'.back i (Nat.le_of_not_lt hin) (by omega)

theorem Repeats.weaken (h : Repeats cells cells' d n k) (hle : m ≤ n) : Repeats cells cells' d m k :=
  ⟨h.before, fun i hd hlt => h.back i hd (by omega)⟩

/-- To repeat at a multiple of a distance is to repeat at the distance, once as
many cells as lie between repeat. The induction is on the cells. -/
theorem Repeats.multiple {q : Nat} (h : Repeats cells cells' d n k) (hk : 0 < k) (hq : q * k ≤ n)
    (h' : Repeats cells' cells'' (d + n) m ((q + 1) * k)) : Repeats cells cells'' d (n + m) k := by
  have hold : ∀ i, d ≤ i → i < d + n → cells'' i = cells'' (i - k) := by
    intro i hd hin
    rw [h'.before i hin, h'.before (i - k) (by omega)]
    exact h.back i hd hin
  refine ⟨fun i hi => (h'.before i (by omega)).trans (h.before i hi), fun i => ?_⟩
  induction i using Nat.strong_induction_on with
  | _ i ih =>
      intro hd hlt
      by_cases hin : i < d + n
      · exact hold i hd hin
      · have hsteps : ∀ r, r ≤ q → cells'' (i - k) = cells'' (i - k - r * k) := by
          intro r
          induction r with
          | zero => exact fun _ => by rw [Nat.zero_mul, Nat.sub_zero]
          | succ r ihr =>
              intro hr
              have hrq : r * k + k ≤ q * k := by
                rw [← Nat.succ_mul]
                exact Nat.mul_le_mul_right k hr
              rw [ihr (Nat.le_of_succ_le hr), ih (i - k - r * k) (by omega) (by omega) (by omega), Nat.succ_mul]
              exact congrArg cells'' (by omega)
        rw [h'.back i (Nat.le_of_not_lt hin) (by omega), hsteps q (Nat.le_refl q), Nat.succ_mul]
        exact congrArg cells'' (by omega)

theorem Repeats.shows {text : Nat → α} (h : Repeats cells cells' d n k) (hk : 0 < k) (hkd : k ≤ d)
    (hold : ∀ i < d, cells i = text i) (htext : ∀ i, d ≤ i → i < d + n → text i = text (i - k)) :
    ∀ i < d + n, cells' i = text i := by
  intro i
  induction i using Nat.strong_induction_on with
  | _ i ih =>
      intro hlt
      by_cases hi : i < d
      · rw [h.before i hi, hold i hi]
      · rw [h.back i (Nat.le_of_not_lt hi) hlt, htext i (Nat.le_of_not_lt hi) hlt, ih (i - k) (by omega) (by omega)]

end Tyrdbs.Buffers
