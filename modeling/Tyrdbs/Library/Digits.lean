import Mathlib.Data.Nat.Bitwise
import Mathlib.Algebra.Order.Ring.Nat
import Mathlib.Data.Nat.Digits.Defs

namespace Tyrdbs.Digits

variable {b : Nat}

def digit (b k n : Nat) : Nat := n / b ^ k % b

theorem digit_lt (hb : 0 < b) (k n : Nat) : digit b k n < b := Nat.mod_lt _ hb

theorem add_pow_div_self (hb : 0 < b) (j n : Nat) : (n + b ^ j) / b ^ j = n / b ^ j + 1 :=
  Nat.add_div_right n (Nat.pow_pos hb)

theorem succ_div_of_room {q : Nat} (h : q % b + 1 < b) : (q + 1) / b = q / b := by
  have hmod : (q + 1) % b = q % b + 1 := by
    rw [Nat.add_mod, Nat.mod_eq_of_lt (Nat.lt_of_le_of_lt (Nat.le_add_left 1 _) h), Nat.mod_eq_of_lt h]
  have hndvd : ¬ b ∣ q + 1 := fun hd => by
    rw [Nat.mod_eq_zero_of_dvd hd] at hmod
    exact absurd hmod (Nat.succ_ne_zero _).symm
  rw [Nat.succ_div, if_neg hndvd, Nat.add_zero]

theorem add_pow_div (hb : 0 < b) {j k n : Nat} (h : digit b j n + 1 < b) (hjk : j < k) :
    (n + b ^ j) / b ^ k = n / b ^ k := by
  obtain ⟨e, rfl⟩ := Nat.exists_eq_add_of_lt hjk
  have hpow : b ^ (j + e + 1) = b ^ j * b * b ^ e := by ring
  rw [hpow, ← Nat.div_div_eq_div_mul, ← Nat.div_div_eq_div_mul, ← Nat.div_div_eq_div_mul,
    ← Nat.div_div_eq_div_mul, add_pow_div_self hb, succ_div_of_room h]

theorem digit_add_pow (hb : 0 < b) {j n : Nat} (h : digit b j n + 1 < b) (k : Nat) :
    digit b k (n + b ^ j) = digit b k n + if k = j then 1 else 0 := by
  rcases Nat.lt_trichotomy k j with hlt | rfl | hgt
  · obtain ⟨e, rfl⟩ := Nat.exists_eq_add_of_lt hlt
    have hpow : b ^ (k + e + 1) = b ^ k * (b * b ^ e) := by ring
    rw [digit, digit, hpow, Nat.add_mul_div_left _ _ (Nat.pow_pos hb), Nat.add_mul_mod_self_left,
      if_neg hlt.ne, Nat.add_zero]
  · rw [digit, add_pow_div_self hb, if_pos rfl, Nat.add_mod,
      Nat.mod_eq_of_lt (Nat.lt_of_le_of_lt (Nat.le_add_left 1 _) h)]
    exact Nat.mod_eq_of_lt h
  · rw [digit, add_pow_div hb h hgt, if_neg hgt.ne', Nat.add_zero, digit]

theorem add_pow_lt (hb : 0 < b) {j m n : Nat} (hj : j < m) (hn : n < b ^ m) (h : digit b j n + 1 < b) :
    n + b ^ j < b ^ m := by
  have hzero : (n + b ^ j) / b ^ m = 0 := (add_pow_div hb h hj).trans (Nat.div_eq_of_lt hn)
  exact (Nat.div_eq_zero_iff.mp hzero).resolve_left (Nat.pow_pos hb).ne'

theorem mod_pow_eq_iff {d : Nat} (hd : d < b) (m n : Nat) :
    n % b ^ (m + 1) = d ↔ digit b 0 n = d ∧ ∀ k, 0 < k → k ≤ m → digit b k n = 0 := by
  induction m with
  | zero =>
      rw [digit, Nat.pow_zero, Nat.div_one, Nat.pow_one]
      exact ⟨fun h => ⟨h, fun k hk hle => absurd hk (Nat.not_lt.mpr hle)⟩, fun h => h.1⟩
  | succ m ih =>
      have hpow : d < b ^ (m + 1) := lt_of_lt_of_le hd (Nat.le_self_pow (Nat.succ_ne_zero m) b)
      have hsplit : n % b ^ (m + 1 + 1) = n % b ^ (m + 1) + b ^ (m + 1) * digit b (m + 1) n := Nat.mod_pow_succ
      rw [hsplit]
      constructor
      · intro h
        have htop : digit b (m + 1) n = 0 := by
          by_contra hne
          have hle := Nat.le_mul_of_pos_right (b ^ (m + 1)) (Nat.pos_of_ne_zero hne)
          exact absurd (h ▸ hle.trans (Nat.le_add_left _ _)) (Nat.not_le.mpr hpow)
        rw [htop, Nat.mul_zero, Nat.add_zero] at h
        refine ⟨(ih.mp h).1, fun k hk hle => ?_⟩
        rcases Nat.lt_or_eq_of_le hle with hlt | rfl
        · exact (ih.mp h).2 k hk (Nat.le_of_lt_succ hlt)
        · exact htop
      · rintro ⟨hlow, hzero⟩
        rw [hzero (m + 1) (Nat.succ_pos m) (Nat.le_refl _), Nat.mul_zero, Nat.add_zero]
        exact ih.mpr ⟨hlow, fun k hk hle => hzero k hk (Nat.le_succ_of_le hle)⟩

theorem digit_div_pow (b i k n : Nat) : digit b k (n / b ^ i) = digit b (i + k) n := by
  rw [digit, digit, Nat.div_div_eq_div_mul, Nat.pow_add]

theorem div_mod_pow_eq_iff {d : Nat} (hd : d < b) (i m n : Nat) :
    n / b ^ i % b ^ (m + 1) = d ↔ digit b i n = d ∧ ∀ k, i < k → k ≤ i + m → digit b k n = 0 := by
  rw [mod_pow_eq_iff hd, digit_div_pow, Nat.add_zero]
  refine and_congr_right (fun _ => ⟨fun h k hk hle => ?_, fun h k hk hle => ?_⟩)
  · obtain ⟨e, rfl⟩ := Nat.exists_eq_add_of_lt hk
    have hz := h (e + 1) (Nat.succ_pos e) (by omega)
    rwa [digit_div_pow] at hz
  · rw [digit_div_pow]
    exact h (i + k) (by omega) (by omega)

end Tyrdbs.Digits
