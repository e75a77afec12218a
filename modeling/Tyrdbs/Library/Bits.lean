import Mathlib.Data.List.Basic
import Mathlib.Data.Nat.Bitwise

namespace Tyrdbs.Bits

/-- The n low bits of a number, the most significant first. -/
def bitsOf : Nat → Nat → List Bool
  | 0, _ => []
  | n + 1, v => v.testBit n :: bitsOf n v

def valueOf : List Bool → Nat
  | [] => 0
  | b :: bs => b.toNat * 2 ^ bs.length + valueOf bs

@[simp] theorem length_bitsOf (n v : Nat) : (bitsOf n v).length = n := by
  induction n with
  | zero => rfl
  | succ n ih => rw [bitsOf, List.length_cons, ih]

theorem bitsOf_add (m n v : Nat) : bitsOf (m + n) v = bitsOf m (v >>> n) ++ bitsOf n v := by
  induction m with
  | zero => rw [Nat.zero_add, bitsOf, List.nil_append]
  | succ m ih =>
      rw [Nat.succ_add, bitsOf, bitsOf, ih, Nat.testBit_shiftRight, Nat.add_comm n m, List.cons_append]

theorem bitsOf_congr {n v w : Nat} (h : ∀ i < n, v.testBit i = w.testBit i) : bitsOf n v = bitsOf n w := by
  induction n with
  | zero => rfl
  | succ n ih => rw [bitsOf, bitsOf, h n (Nat.lt_succ_self n), ih (fun i hi => h i (Nat.lt_succ_of_lt hi))]

theorem bitsOf_mod (n v : Nat) : bitsOf n (v % 2 ^ n) = bitsOf n v := by
  apply bitsOf_congr
  intro i hi
  rw [Nat.testBit_mod_two_pow, decide_eq_true hi, Bool.true_and]

theorem valueOf_bitsOf (n v : Nat) : valueOf (bitsOf n v) = v % 2 ^ n := by
  induction n with
  | zero => rw [Nat.pow_zero, Nat.mod_one]; rfl
  | succ n ih =>
      rw [bitsOf, valueOf, length_bitsOf, ih, Nat.pow_succ, Nat.mod_mul, Nat.testBit_eq_decide_div_mod_eq]
      have hbit := Nat.mod_two_eq_zero_or_one (v / 2 ^ n)
      rcases hbit with h | h
      · simp [h]
      · simp [h]
        omega

theorem valueOf_append (a b : List Bool) : valueOf (a ++ b) = valueOf a * 2 ^ b.length + valueOf b := by
  induction a with
  | nil => simp [valueOf]
  | cons x a ih =>
      rw [List.cons_append, valueOf, valueOf, ih, List.length_append, Nat.pow_add, Nat.add_mul,
        Nat.mul_assoc, Nat.add_assoc]

theorem valueOf_lt (bs : List Bool) : valueOf bs < 2 ^ bs.length := by
  induction bs with
  | nil => exact Nat.one_pos
  | cons b bs ih =>
      rw [valueOf, List.length_cons, Nat.pow_succ]
      cases b <;> simp <;> omega

theorem bitsOf_concat {m n v w : Nat} (hw : w < 2 ^ n) :
    bitsOf (m + n) (v <<< n ||| w) = bitsOf m v ++ bitsOf n w := by
  have hor := Nat.shiftLeft_add_eq_or_of_lt hw v
  rw [bitsOf_add, ← hor, Nat.shiftRight_eq_div_pow, Nat.shiftLeft_eq,
    Nat.mul_comm, Nat.mul_add_div (Nat.two_pow_pos n), Nat.div_eq_of_lt hw, Nat.add_zero]
  congr 1
  rw [← bitsOf_mod n, Nat.mul_add_mod, Nat.mod_eq_of_lt hw]

end Tyrdbs.Bits
