import Tyrdbs.Slices.Node

namespace Tyrdbs.Slices.Node

open Bytes

def firstFrom (n : Node) (key : List Byte) : Nat :=
  ((List.range n.keyCount).find? (fun i => decide (key ≤ n.keyAt i))).getD n.keyCount

/-- The range gets smaller in each round of the first loop, and the loop ends
with eight keys or fewer. -/
theorem narrow_ends (n : Node) (key : List Byte) (rounds : Nat) {first last : Nat} (h : last - first ≤ rounds) :
    (n.narrow key rounds first last).2 - (n.narrow key rounds first last).1 ≤ 8 ∧
      ∀ more, n.narrow key (rounds + more) first last = n.narrow key rounds first last := by
  induction rounds generalizing first last with
  | zero =>
      refine ⟨by rw [narrow]; omega, fun more => ?_⟩
      cases more with
      | zero => rfl
      | succ more =>
          rw [Nat.zero_add]
          exact if_neg (by omega)
  | succ rounds ih =>
      have hhalf : (last - first) >>> 1 = (last - first) / 2 := Nat.shiftRight_eq_div_pow _ 1
      by_cases hfar : last - first > 8
      · by_cases hk : key ≤ n.keyAt ((last - first) >>> 1 + first)
        · have hstep : ∀ r, n.narrow key (r + 1) first last = n.narrow key r first ((last - first) >>> 1 + first) := by
            intro r
            rw [narrow, if_pos hfar]
            exact if_pos hk
          obtain ⟨hfew, hmore⟩ := @ih first ((last - first) >>> 1 + first) (by omega)
          refine ⟨(hstep rounds).symm ▸ hfew, fun more => ?_⟩
          rw [Nat.add_right_comm, hstep, hstep, hmore]
        · have hstep : ∀ r, n.narrow key (r + 1) first last = n.narrow key r ((last - first) >>> 1 + first) last := by
            intro r
            rw [narrow, if_pos hfar]
            exact if_neg hk
          obtain ⟨hfew, hmore⟩ := @ih ((last - first) >>> 1 + first) last (by omega)
          refine ⟨(hstep rounds).symm ▸ hfew, fun more => ?_⟩
          rw [Nat.add_right_comm, hstep, hstep, hmore]
      · have hstop : ∀ r, n.narrow key (r + 1) first last = (first, last) := fun r => if_neg hfar
        refine ⟨?_, fun more => ?_⟩
        · rw [hstop]
          exact Nat.le_of_not_gt hfar
        · rw [Nat.add_right_comm, hstop, hstop]

theorem firstFrom_eq {n : Node} {key : List Byte} {ndx : Nat} (hle : ndx ≤ n.keyCount)
    (hbelow : ∀ i < ndx, n.keyAt i < key) (hat : ndx < n.keyCount → key ≤ n.keyAt ndx) :
    n.firstFrom key = ndx := by
  rcases hle.lt_or_eq with hlt | rfl
  · have hfind : (List.range n.keyCount).find? (fun i => decide (key ≤ n.keyAt i)) = some ndx := by
      rw [List.find?_range_eq_some]
      refine ⟨decide_eq_true (hat hlt), List.mem_range.mpr hlt, fun j hj => ?_⟩
      rw [Bool.not_eq_true', decide_eq_false_iff_not]
      exact not_le_of_gt (hbelow j hj)
    rw [firstFrom, hfind, Option.getD_some]
  · have hfind : (List.range n.keyCount).find? (fun i => decide (key ≤ n.keyAt i)) = none := by
      rw [List.find?_range_eq_none]
      intro j hj
      rw [Bool.not_eq_true', decide_eq_false_iff_not]
      exact not_le_of_gt (hbelow j hj)
    rw [firstFrom, hfind, Option.getD_none]

/-- Both loops of lower_bound end, and where the keys are sorted it finds the
first one that is not below the search key. -/
theorem lowerBound_eq_firstFrom (n : Node) (key : List Byte) :
    (∀ rounds, n.keyCount ≤ rounds → n.narrow key rounds 0 n.keyCount = n.narrow key n.keyCount 0 n.keyCount ∧
      (n.narrow key rounds 0 n.keyCount).2 - (n.narrow key rounds 0 n.keyCount).1 ≤ 8) ∧
      (n.entries.Pairwise (fun e e' => e.key ≤ e'.key) → n.lowerBound key = n.firstFrom key) := by
  refine ⟨fun rounds hrounds => ?_, fun hs => ?_⟩
  · obtain ⟨hfew, hmore⟩ := n.narrow_ends key n.keyCount (Nat.sub_le n.keyCount 0)
    have hsame := hmore (rounds - n.keyCount)
    rw [Nat.add_sub_cancel' hrounds] at hsame
    rw [hsame]
    exact ⟨rfl, hfew⟩
  · obtain ⟨_, hle, hbelow, habove⟩ := lowerBound_brackets hs key
    exact (firstFrom_eq hle hbelow (fun hlt => habove _ le_rfl hlt)).symm

def repeatedFront : List Byte :=
  List.replicate 32 0 ++ (List.replicate 5 [0, 0, 100, 0, 1, 0]).flatten ++ List.replicate 38 0 ++ [7]

theorem length_repeated : (repeatedFront ++ List.replicate (nodeSize - 101) 0).length = nodeSize := by
  rw [List.length_append, List.length_replicate]
  rfl

def repeated : Node where
  data := ⟨repeatedFront ++ List.replicate (nodeSize - 101) 0, length_repeated⟩
  keyCount := 10

theorem repeated_sorted : repeated.entries.Pairwise (fun e e' => e.key ≤ e'.key) := by decide

theorem lowerBound_repeated : repeated.lowerBound [7] = repeated.firstFrom [7] ∧ repeated.firstFrom [7] = 5 :=
  ⟨(lowerBound_eq_firstFrom repeated [7]).2 repeated_sorted, by decide⟩

end Tyrdbs.Slices.Node
