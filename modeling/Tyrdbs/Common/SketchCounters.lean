import Tyrdbs.Common.Wtinylfu
import Tyrdbs.Library.Digits

namespace Tyrdbs.FrequencySketch

open Digits

def cell (s : FrequencySketch) (r k : Nat) : Nat := digit 16 k (s.table.getD r 0).toNat

/-- The first of the four positions that a hash may raise. -/
def startOf (hash : UInt32) : Nat := hash.toNat % 4 * 4

def counter (s : FrequencySketch) (hash : UInt32) (i : Nat) : Nat :=
  s.cell (s.indexOf hash i) (startOf hash + i)

/-- What the i-th turn of frequency compares with the least count so far. -/
def countRead (s : FrequencySketch) (hash : UInt32) (i : Nat) : UInt32 :=
  let counters := s.table.getD (s.indexOf hash i) 0
  (counters >>> ((((hash &&& 3) <<< 2 + UInt32.ofNat i) <<< 2) &&& 0x0f).toUInt64).toUInt32

variable {s : FrequencySketch} {hash : UInt32} {i : Nat}

theorem frequency_eq (s : FrequencySketch) (hash : UInt32) : s.frequency hash =
    min (min (min (min 0xffffffff (s.countRead hash 0)) (s.countRead hash 1)) (s.countRead hash 2))
      (s.countRead hash 3) := rfl

theorem start_toNat (hash : UInt32) : ((hash &&& 3) <<< 2 : UInt32).toNat = startOf hash := by
  have hand : (hash &&& 3).toNat = hash.toNat % 4 := by
    rw [UInt32.toNat_and]
    exact Nat.and_two_pow_sub_one_eq_mod hash.toNat 2
  rw [UInt32.toNat_shiftLeft, hand, startOf, Nat.shiftLeft_eq]
  have : hash.toNat % 4 < 4 := Nat.mod_lt _ (by decide)
  exact Nat.mod_eq_of_lt (by simp; omega)

theorem position_toNat (hash : UInt32) (hi : i < 4) :
    ((hash &&& 3) <<< 2 + UInt32.ofNat i : UInt32).toNat = startOf hash + i := by
  have : hash.toNat % 4 < 4 := Nat.mod_lt _ (by decide)
  rw [UInt32.toNat_add, start_toNat, UInt32.toNat_ofNat', startOf]
  omega

/-- Whatever the hash, frequency reads from the i-th counter of a word on. -/
theorem countRead_toNat (s : FrequencySketch) (hash : UInt32) (hi : i < 4) :
    (s.countRead hash i).toNat = (s.table.getD (s.indexOf hash i) 0).toNat / 16 ^ i % 16 ^ 8 := by
  have hshift : ((((hash &&& 3) <<< 2 + UInt32.ofNat i) <<< 2) &&& 0x0f : UInt32).toUInt64.toNat = 4 * i := by
    rw [UInt32.toNat_toUInt64, UInt32.toNat_and, UInt32.toNat_shiftLeft, position_toNat hash hi, startOf]
    rw [show (0x0f : UInt32).toNat = 2 ^ 4 - 1 from rfl, Nat.and_two_pow_sub_one_eq_mod, Nat.shiftLeft_eq]
    have : (2 : UInt32).toNat % 32 = 2 := rfl
    rw [this]
    omega
  rw [countRead, UInt64.toNat_toUInt32, UInt64.toNat_shiftRight, hshift, Nat.shiftRight_eq_div_pow]
  rw [Nat.mod_eq_of_lt (by omega : 4 * i < 64), Nat.pow_mul]
  rfl

theorem and_shiftLeft (w n : Nat) : w &&& 15 <<< n = (w / 2 ^ n % 16) <<< n := by
  have hlow : w / 2 ^ n % 16 = w >>> n &&& 15 := by
    rw [Nat.shiftRight_eq_div_pow]
    exact (Nat.and_two_pow_sub_one_eq_mod _ 4).symm
  refine Nat.eq_of_testBit_eq (fun m => ?_)
  rw [hlow, Nat.testBit_and, Nat.testBit_shiftLeft, Nat.testBit_shiftLeft, Nat.testBit_and,
    Nat.testBit_shiftRight]
  by_cases hm : n ≤ m
  · simp [hm]
  · simp [hm]

/-- The test of increment_at: the counter is not full yet. -/
theorem and_mask_eq_iff (w : UInt64) {offset : UInt64} {j : Nat} (hj : j < 16) (ho : offset.toNat = 4 * j) :
    w &&& (0x0f <<< offset) = 0x0f <<< offset ↔ digit 16 j w.toNat = 15 := by
  have hpow : (2 : Nat) ^ (4 * j) = 16 ^ j := Nat.pow_mul 2 4 j
  have hle : (16 : Nat) ^ j ≤ 16 ^ 15 := Nat.pow_le_pow_right (by decide) (by omega)
  have hmask : ((0x0f : UInt64) <<< offset).toNat = 15 <<< (4 * j) := by
    rw [UInt64.toNat_shiftLeft, ho, Nat.mod_eq_of_lt (by omega : 4 * j < 64)]
    refine Nat.mod_eq_of_lt ?_
    rw [Nat.shiftLeft_eq, hpow]
    exact lt_of_le_of_lt (Nat.mul_le_mul_left 15 hle) (by decide)
  rw [← UInt64.toNat_inj, UInt64.toNat_and, hmask, and_shiftLeft, hpow, Nat.shiftLeft_eq, Nat.shiftLeft_eq]
  exact Nat.mul_left_inj (Nat.two_pow_pos _).ne'

theorem bump_toNat (w : UInt64) {offset : UInt64} {j : Nat} (hj : j < 16) (ho : offset.toNat = 4 * j)
    (hroom : digit 16 j w.toNat + 1 < 16) : (w + 1 <<< offset).toNat = w.toNat + 16 ^ j := by
  have hpow : (2 : Nat) ^ (4 * j) = 16 ^ j := Nat.pow_mul 2 4 j
  have hle : (16 : Nat) ^ j ≤ 16 ^ 15 := Nat.pow_le_pow_right (by decide) (by omega)
  have hfits := add_pow_lt (by decide) hj (show w.toNat < 16 ^ 16 from w.toNat_lt) hroom
  have hone : ((1 : UInt64) <<< offset).toNat = 16 ^ j := by
    rw [UInt64.toNat_shiftLeft, ho, Nat.mod_eq_of_lt (by omega : 4 * j < 64), Nat.shiftLeft_eq, hpow]
    rw [UInt64.toNat_one, Nat.one_mul]
    exact Nat.mod_eq_of_lt (lt_of_le_of_lt hle (by decide))
  rw [UInt64.toNat_add, hone]
  exact Nat.mod_eq_of_lt hfits

/-- increment_at raises one counter, unless it is full, and leaves all others. -/
theorem cell_incrementAt (s : FrequencySketch) {r : Nat} (hr : r < s.table.length) {j : UInt32}
    (hj : j.toNat < 16) (r' k : Nat) :
    (s.incrementAt r j).cell r' k =
      s.cell r' k + if r' = r ∧ k = j.toNat ∧ s.cell r k < 15 then 1 else 0 := by
  have ho : (j <<< 2).toUInt64.toNat = 4 * j.toNat := by
    rw [UInt32.toNat_toUInt64, UInt32.toNat_shiftLeft, Nat.shiftLeft_eq]
    have : (2 : UInt32).toNat % 32 = 2 := rfl
    rw [this]
    omega
  have hlt := digit_lt (b := 16) (by decide) j.toNat (s.table.getD r 0).toNat
  have hfull := and_mask_eq_iff (s.table.getD r 0) hj ho
  simp only [incrementAt, ne_eq, hfull]
  by_cases heq : digit 16 j.toNat (s.table.getD r 0).toNat = 15
  · rw [if_neg (not_not.mpr heq), if_neg, Nat.add_zero]
    rintro ⟨-, rfl, hlt⟩
    exact absurd heq hlt.ne
  · have hroom : digit 16 j.toNat (s.table.getD r 0).toNat + 1 < 16 := by omega
    rw [if_pos heq, cell, cell, cell, List.getD_eq_getElem?_getD, List.getElem?_set]
    by_cases hrow : r = r'
    · subst hrow
      rw [if_pos rfl, if_pos hr, Option.getD_some, bump_toNat _ hj ho hroom, digit_add_pow (by decide) hroom]
      by_cases hk : k = j.toNat
      · subst hk
        rw [if_pos rfl, if_pos ⟨rfl, rfl, by omega⟩]
      · rw [if_neg hk, if_neg (fun h => hk h.2.1)]
    · rw [if_neg hrow, if_neg (fun h => hrow h.1.symm), ← List.getD_eq_getElem?_getD, Nat.add_zero]

/-- The rows that a hash may have lie in the table. -/
def Indexed (s : FrequencySketch) : Prop := s.tableMask.toNat < s.table.length

theorem Indexed.indexOf_lt (h : s.Indexed) (hash : UInt32) (i : Nat) : s.indexOf hash i < s.table.length := by
  rw [indexOf, UInt64.toNat_and]
  exact Nat.lt_of_le_of_lt Nat.and_le_right h

/-- From s to t, counters were raised and nothing else was changed. -/
structure Raised (s t : FrequencySketch) : Prop where
  cell : ∀ r k, s.cell r k ≤ t.cell r k
  length : t.table.length = s.table.length
  mask : t.tableMask = s.tableMask
  samples : t.samples = s.samples
  maxSamples : t.maxSamples = s.maxSamples

theorem Raised.refl (s : FrequencySketch) : Raised s s := ⟨fun _ _ => le_refl _, rfl, rfl, rfl, rfl⟩

theorem Raised.trans {s t u : FrequencySketch} (h : Raised s t) (h' : Raised t u) : Raised s u where
  cell := fun r k => (h.cell r k).trans (h'.cell r k)
  length := h'.length.trans h.length
  mask := h'.mask.trans h.mask
  samples := h'.samples.trans h.samples
  maxSamples := h'.maxSamples.trans h.maxSamples

theorem Raised.indexed {t : FrequencySketch} (h : Raised s t) (hs : s.Indexed) : t.Indexed := by
  rw [Indexed, h.mask, h.length]
  exact hs

theorem indexOf_congr {t : FrequencySketch} (h : t.tableMask = s.tableMask) (hash : UInt32) (i : Nat) :
    t.indexOf hash i = s.indexOf hash i := by
  rw [indexOf, indexOf, h]

theorem Raised.counter {t : FrequencySketch} (h : Raised s t) (hash : UInt32) (i : Nat) :
    s.counter hash i ≤ t.counter hash i := by
  rw [FrequencySketch.counter, FrequencySketch.counter, indexOf_congr h.mask]
  exact h.cell _ _

theorem raised_incrementAt (hs : s.Indexed) (hash : UInt32) (hi : i < 4) :
    Raised s (s.incrementAt (s.indexOf hash i) ((hash &&& 3) <<< 2 + UInt32.ofNat i)) ∧
      min 15 (s.counter hash i + 1) ≤
        (s.incrementAt (s.indexOf hash i) ((hash &&& 3) <<< 2 + UInt32.ofNat i)).counter hash i := by
  have hpos := position_toNat hash hi
  have hlt : startOf hash + i < 16 := by
    have : hash.toNat % 4 < 4 := Nat.mod_lt _ (by decide)
    rw [startOf]
    omega
  have hcell := cell_incrementAt s (hs.indexOf_lt hash i) (hpos ▸ hlt)
  have hmask : ∀ r j, (s.incrementAt r j).tableMask = s.tableMask := fun r j => by
    simp only [incrementAt]
    split <;> rfl
  refine ⟨⟨fun r k => ?_, ?_, hmask _ _, ?_, ?_⟩, ?_⟩
  · rw [hcell]
    exact Nat.le_add_right _ _
  · simp only [incrementAt]
    split
    case isTrue => exact List.length_set
    case isFalse => rfl
  · simp only [incrementAt]
    split <;> rfl
  · simp only [incrementAt]
    split <;> rfl
  · rw [counter, counter, indexOf_congr (hmask _ _), hcell, hpos]
    by_cases hroom : s.cell (s.indexOf hash i) (startOf hash + i) < 15
    · rw [if_pos ⟨rfl, rfl, hroom⟩]
      exact Nat.min_le_right _ _
    · rw [if_neg (fun h => hroom h.2.2)]
      omega

/-- The turns of increment: each raises its counter, and none lowers one. -/
theorem raised_turns (hs : s.Indexed) (hash : UInt32) {n : Nat} (hn : n ≤ 4) :
    let t := (List.range n).foldl (fun (t : FrequencySketch) i =>
      t.incrementAt (t.indexOf hash i) ((hash &&& 3) <<< 2 + UInt32.ofNat i)) s
    Raised s t ∧ ∀ i < n, min 15 (s.counter hash i + 1) ≤ t.counter hash i := by
  induction n with
  | zero => exact ⟨Raised.refl s, fun i hi => absurd hi (Nat.not_lt_zero i)⟩
  | succ n ih =>
      obtain ⟨hraised, hturns⟩ := ih (Nat.le_of_succ_le hn)
      obtain ⟨hlast, hcount⟩ := raised_incrementAt (hraised.indexed hs) hash hn
      simp only [List.range_succ, List.foldl_append, List.foldl_cons, List.foldl_nil]
      refine ⟨hraised.trans hlast, fun i hi => ?_⟩
      rcases Nat.lt_or_eq_of_le (Nat.le_of_lt_succ hi) with hlt | rfl
      · exact (hturns i hlt).trans (hlast.counter hash i)
      · have := hraised.counter hash i
        exact le_trans (by omega) hcount

/-- The next sample is the one that halves the counters. -/
def Resets (s : FrequencySketch) : Prop := s.samples + 1 = s.maxSamples

instance (s : FrequencySketch) : Decidable s.Resets := inferInstanceAs (Decidable (_ = _))

def NoReset : FrequencySketch → List UInt32 → Prop
  | _, [] => True
  | s, hash :: hashes => ¬ s.Resets ∧ NoReset (s.increment hash) hashes

theorem increment_spec (hs : s.Indexed) (hash : UInt32) : ∃ t, Raised s t ∧
    (∀ i < 4, min 15 (s.counter hash i + 1) ≤ t.counter hash i) ∧
    s.increment hash =
      if s.Resets then { t with samples := s.samples + 1 }.reset else { t with samples := s.samples + 1 } := by
  obtain ⟨hraised, hturns⟩ := raised_turns hs hash (Nat.le_refl 4)
  refine ⟨_, hraised, hturns, ?_⟩
  rw [increment]
  simp only [hraised.samples, hraised.maxSamples]
  rfl

theorem Indexed.increment (hs : s.Indexed) (hash : UInt32) : (s.increment hash).Indexed := by
  obtain ⟨t, hraised, -, heq⟩ := increment_spec hs hash
  have ht := hraised.indexed hs
  rw [heq]
  split
  case isTrue =>
    rw [Indexed, reset]
    simpa using (show t.tableMask.toNat < t.table.length from ht)
  case isFalse => exact ht

theorem increment_raises (hs : s.Indexed) (hreset : ¬ s.Resets) (hash h : UInt32) (hi : i < 4) :
    min 15 (s.counter h i + if h = hash then 1 else 0) ≤ (s.increment hash).counter h i := by
  obtain ⟨t, hraised, hturns, heq⟩ := increment_spec hs hash
  rw [heq, if_neg hreset]
  change _ ≤ t.counter h i
  split
  case isTrue hsame => exact hsame ▸ hturns i hi
  case isFalse => exact (Nat.min_le_right _ _).trans (hraised.counter h i)

theorem increments_counted (hs : s.Indexed) (hashes : List UInt32) (hreset : s.NoReset hashes) (hash : UInt32)
    (hi : i < 4) :
    min 15 (s.counter hash i + hashes.count hash) ≤ (hashes.foldl increment s).counter hash i := by
  induction hashes generalizing s with
  | nil => exact Nat.min_le_right _ _
  | cons h hashes ih =>
      have hfirst := increment_raises hs hreset.1 h hash hi
      have hrest := ih (hs.increment h) hreset.2
      rw [List.foldl_cons, List.count_cons]
      refine le_trans ?_ hrest
      by_cases heq : hash = h
      · rw [if_pos heq] at hfirst
        rw [if_pos (by simp [heq])]
        omega
      · rw [if_neg heq] at hfirst
        rw [if_neg (by simpa using fun h => heq h.symm)]
        omega

theorem indexed_initialized (clzOfZero maxItems : UInt32) : (initialized clzOfZero maxItems).Indexed := by
  have hpos : ∀ n : UInt32, 0 < ((1 : UInt32) <<< n).toNat := fun n => by
    have hlt : n.toNat % 32 < 32 := Nat.mod_lt _ (by decide)
    rw [UInt32.toNat_shiftLeft, UInt32.toNat_one, Nat.one_shiftLeft,
      Nat.mod_eq_of_lt (Nat.pow_lt_pow_right (by decide) hlt)]
    exact Nat.two_pow_pos _
  simp only [Indexed, initialized, List.length_replicate]
  have hone : (1 : UInt64) ≤ ((1 : UInt32) <<< (32 - clz clzOfZero maxItems)).toUInt64 := by
    rw [UInt64.le_iff_toNat_le, UInt32.toNat_toUInt64]
    exact hpos _
  rw [UInt64.toNat_sub_of_le _ _ hone, UInt32.toNat_toUInt64]
  exact Nat.sub_lt (hpos _) (by decide)

/-- In the i-th row of the hash the seven counters above the i-th one are zero,
and that one shows the same as the counter that the hash raises. -/
def Clear (s : FrequencySketch) (hash : UInt32) : Prop :=
  ∀ i < 4, s.cell (s.indexOf hash i) i = s.cell (s.indexOf hash i) (startOf hash + i) ∧
    ∀ k, i < k → k ≤ i + 7 → s.cell (s.indexOf hash i) k = 0

theorem countRead_eq_iff (s : FrequencySketch) (hash : UInt32) (hi : i < 4) :
    (s.countRead hash i).toNat = s.counter hash i ↔
      s.cell (s.indexOf hash i) i = s.cell (s.indexOf hash i) (startOf hash + i) ∧
        ∀ k, i < k → k ≤ i + 7 → s.cell (s.indexOf hash i) k = 0 := by
  rw [countRead_toNat s hash hi]
  exact div_mod_pow_eq_iff (digit_lt (by decide) _ _) i 7 _

theorem toNat_min (a b : UInt32) : (min a b).toNat = min a.toNat b.toNat := by
  change (if a ≤ b then a else b).toNat = _
  split
  case isTrue h => exact (Nat.min_eq_left (UInt32.le_iff_toNat_le.mp h)).symm
  case isFalse h => exact (Nat.min_eq_right (UInt32.le_iff_toNat_le.mp (UInt32.le_of_lt (UInt32.not_le.mp h)))).symm

theorem frequency_toNat (s : FrequencySketch) (hash : UInt32) : (s.frequency hash).toNat =
    min (min (min (s.countRead hash 0).toNat (s.countRead hash 1).toNat) (s.countRead hash 2).toNat)
      (s.countRead hash 3).toNat := by
  have hmax : min (0xffffffff : UInt32).toNat (s.countRead hash 0).toNat = (s.countRead hash 0).toNat :=
    Nat.min_eq_right (Nat.le_of_lt_succ (s.countRead hash 0).toNat_lt)
  simp only [frequency_eq, toNat_min, hmax]

/-- After any increments of a sketch as initialised: the sketch reads for a
hash the four counters that it raises for it, so that the frequency is at most
15 and counts all increments up to that, before the first reset, if and only if
its rows are clear. -/
theorem count_min_iff (clzOfZero maxItems : UInt32) (hashes : List UInt32) (hash : UInt32) :
    let s := hashes.foldl increment (initialized clzOfZero maxItems)
    ((∀ i < 4, (s.countRead hash i).toNat = s.counter hash i) ∧ (s.frequency hash).toNat ≤ 15 ∧
      ((initialized clzOfZero maxItems).NoReset hashes →
        min 15 (hashes.count hash) ≤ (s.frequency hash).toNat)) ↔ s.Clear hash := by
  intro s
  have hreads : (∀ i < 4, (s.countRead hash i).toNat = s.counter hash i) ↔ s.Clear hash :=
    forall₂_congr (fun i hi => countRead_eq_iff s hash hi)
  refine ⟨fun h => hreads.mp h.1, fun h => ⟨hreads.mpr h, ?_, fun hreset => ?_⟩⟩
  · have hfirst : s.counter hash 0 < 16 := digit_lt (by decide) _ _
    rw [← hreads.mpr h 0 (by decide)] at hfirst
    rw [frequency_toNat]
    omega
  · have hcounted : ∀ i < 4, min 15 (hashes.count hash) ≤ (s.countRead hash i).toNat := by
      intro i hi
      have hall := increments_counted (indexed_initialized clzOfZero maxItems) hashes hreset hash hi
      rw [hreads.mpr h i hi]
      exact le_trans (by omega) hall
    rw [frequency_toNat]
    exact le_min (le_min (le_min (hcounted 0 (by decide)) (hcounted 1 (by decide))) (hcounted 2 (by decide)))
      (hcounted 3 (by decide))

/-- After one increment each, the counters of one hash make another number, and
those of the other are not seen at all. -/
theorem frequency_misreads :
    ((initialized 0 10).increment 1).frequency 1 = 65536 ∧ ((initialized 0 10).increment 2).frequency 2 = 0 ∧
      (initialized 0 10).NoReset [1] ∧ (initialized 0 10).NoReset [2] := by
  refine ⟨by decide, by decide, ⟨by decide, trivial⟩, ⟨by decide, trivial⟩⟩

end Tyrdbs.FrequencySketch
