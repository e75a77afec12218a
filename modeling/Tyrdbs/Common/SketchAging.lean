import Tyrdbs.Common.SketchCounters

namespace Tyrdbs.FrequencySketch

open Digits

/-- By how much the first turns of an increment raise a counter, the one of a word
at a place in it. -/
def raise (s : FrequencySketch) (hash : UInt32) (turns r k : Nat) : Nat :=
  (List.range turns).countP (fun i => r = s.indexOf hash i ∧ k = startOf hash + i ∧ s.cell r k < 15)

/-- How many counters are odd once those of a hash have been raised. -/
def oddAfter (s : FrequencySketch) (hash : UInt32) : Nat :=
  ((List.range s.table.length).map (fun r =>
    (List.range 16).countP (fun k => (s.cell r k + s.raise hash 4 r k) % 2 = 1))).sum

/-- A reset leaves at most half of the samples. -/
def Halves (s : FrequencySketch) (hash : UInt32) : Prop :=
  s.Resets → (s.increment hash).samples.toNat ≤ s.maxSamples.toNat / 2

/-- What is asked of a sketch while hashes are counted: fewer samples than would
halve the counters, and half of them left where they are halved. -/
def Ages : FrequencySketch → List UInt32 → Prop
  | s, [] => s.samples < s.maxSamples
  | s, hash :: hashes => s.samples < s.maxSamples ∧ s.Halves hash ∧ Ages (s.increment hash) hashes

instance (s : FrequencySketch) (hash : UInt32) : Decidable (s.Halves hash) := inferInstanceAs (Decidable (_ → _))

instance decidableAges : (s : FrequencySketch) → (hashes : List UInt32) → Decidable (s.Ages hashes)
  | s, [] => inferInstanceAs (Decidable (s.samples < s.maxSamples))
  | s, hash :: hashes =>
      have := decidableAges (s.increment hash) hashes
      inferInstanceAs (Decidable (_ ∧ _ ∧ _))

/-- Where the counters are about to be halved, a quarter of those that are odd
then, counted in 32 bits, is no more than half of the samples. -/
def FewOdd (s : FrequencySketch) (hash : UInt32) : Prop :=
  s.Resets → u32 (s.oddAfter hash) / 4 ≤ s.maxSamples.toNat / 2

def AlwaysFewOdd : FrequencySketch → List UInt32 → Prop
  | _, [] => True
  | s, hash :: hashes => s.FewOdd hash ∧ AlwaysFewOdd (s.increment hash) hashes

variable {s t : FrequencySketch} {hash : UInt32}

theorem testBit_four_mul (w k : Nat) : w.testBit (4 * k) = decide (digit 16 k w % 2 = 1) := by
  rw [Nat.testBit_eq_decide_div_mod_eq, digit, Nat.pow_mul]
  have hmod : w / 16 ^ k % 16 % 2 = w / 16 ^ k % 2 := Nat.mod_mod_of_dvd _ (by decide)
  rw [hmod]

theorem sum_indicator (p : Nat → Prop) [DecidablePred p] (l : List Nat) :
    (l.map (fun k => if p k then 1 else 0)).sum = l.countP (fun k => p k) := by
  induction l with
  | nil => rfl
  | cons k l ih =>
      rw [List.map_cons, List.sum_cons, ih, List.countP_cons, Nat.add_comm]
      simp only [decide_eq_true_eq]

/-- The mask of reset leaves the lowest bit of each counter. -/
theorem popcount_odd (w : UInt64) :
    popcount (w &&& 0x1111111111111111) = (List.range 16).countP (fun k => digit 16 k w.toNat % 2 = 1) := by
  have hsplit : List.range 64 = (List.range 16).flatMap (fun k => [4 * k, 4 * k + 1, 4 * k + 2, 4 * k + 3]) := by
    decide
  have hplace : ∀ k < 16, ∀ j < 4, (0x1111111111111111 : UInt64).toNat.testBit (4 * k + j) = decide (j = 0) := by
    decide
  have hfour : ∀ k < 16, [4 * k, 4 * k + 1, 4 * k + 2, 4 * k + 3].countP
      (fun i => (w &&& 0x1111111111111111).toNat.testBit i) = if digit 16 k w.toNat % 2 = 1 then 1 else 0 := by
    intro k hk
    have hfirst := hplace k hk 0 (by decide)
    rw [Nat.add_zero] at hfirst
    simp only [UInt64.toNat_and, Nat.testBit_and, List.countP_cons, List.countP_nil]
    rw [hplace k hk 1 (by decide), hplace k hk 2 (by decide), hplace k hk 3 (by decide), hfirst,
      testBit_four_mul]
    simp
  have hall : (List.range 16).map (List.countP (fun i => (w &&& 0x1111111111111111).toNat.testBit i) ∘
        (fun k => [4 * k, 4 * k + 1, 4 * k + 2, 4 * k + 3])) =
      (List.range 16).map (fun k => if digit 16 k w.toNat % 2 = 1 then 1 else 0) :=
    List.map_congr_left (fun k hk => hfour k (List.mem_range.mp hk))
  rw [popcount, hsplit, List.countP_flatMap, hall]
  exact sum_indicator _ _

theorem raise_succ (s : FrequencySketch) (hash : UInt32) (n r k : Nat) :
    s.raise hash (n + 1) r k = s.raise hash n r k +
      if r = s.indexOf hash n ∧ k = startOf hash + n ∧ s.cell r k < 15 then 1 else 0 := by
  rw [raise, List.range_succ, List.countP_append, List.countP_singleton]
  simp only [decide_eq_true_eq]
  rfl

theorem raise_own (s : FrequencySketch) (hash : UInt32) (n r : Nat) : s.raise hash n r (startOf hash + n) = 0 := by
  rw [raise, List.countP_eq_zero]
  intro i hi
  have hlt := List.mem_range.mp hi
  simp only [decide_eq_true_eq]
  rintro ⟨-, heq, -⟩
  omega

theorem cell_turns (hs : s.Indexed) (hash : UInt32) {n : Nat} (hn : n ≤ 4) (r k : Nat) :
    ((List.range n).foldl (fun (t : FrequencySketch) i =>
      t.incrementAt (t.indexOf hash i) ((hash &&& 3) <<< 2 + UInt32.ofNat i)) s).cell r k =
      s.cell r k + s.raise hash n r k := by
  induction n with
  | zero => rfl
  | succ n ih =>
      have hraised := (raised_turns hs hash (Nat.le_of_succ_le hn)).1
      have hlast := ih (Nat.le_of_succ_le hn)
      have hpos := position_toNat hash hn
      have hlt : startOf hash + n < 16 := by
        have : hash.toNat % 4 < 4 := Nat.mod_lt _ (by decide)
        rw [startOf]
        omega
      rw [List.range_succ, List.foldl_append, List.foldl_cons, List.foldl_nil]
      generalize (List.range n).foldl (fun (t : FrequencySketch) i =>
        t.incrementAt (t.indexOf hash i) ((hash &&& 3) <<< 2 + UInt32.ofNat i)) s = t at *
      rw [cell_incrementAt t ((hraised.indexed hs).indexOf_lt hash n) (hpos ▸ hlt), hpos,
        indexOf_congr hraised.mask, hlast, raise_succ, Nat.add_assoc]
      congr 2
      by_cases hplace : r = s.indexOf hash n ∧ k = startOf hash + n
      · obtain ⟨rfl, rfl⟩ := hplace
        rw [raise_own, Nat.add_zero] at hlast
        simp only [true_and, hlast]
      · rw [if_neg (fun h => hplace ⟨h.1, h.2.1⟩), if_neg (fun h => hplace ⟨h.1, h.2.1⟩)]

theorem increment_samples (hs : s.Indexed) (hash : UInt32) :
    (s.increment hash).maxSamples = s.maxSamples ∧ (s.increment hash).samples =
      if s.Resets then s.maxSamples >>> 1 - UInt32.ofNat (s.oddAfter hash) >>> 2 else s.samples + 1 := by
  have hraised := (raised_turns hs hash (Nat.le_refl 4)).1
  have hcells := cell_turns hs hash (Nat.le_refl 4)
  rw [increment]
  simp only
  generalize (List.range 4).foldl (fun (t : FrequencySketch) i =>
    t.incrementAt (t.indexOf hash i) ((hash &&& 3) <<< 2 + UInt32.ofNat i)) s = t at *
  have htable : t.table = (List.range s.table.length).map (fun r => t.table.getD r 0) := by
    rw [← hraised.length]
    refine List.ext_getElem (by simp) (fun i hi hi' => ?_)
    rw [List.getElem_map, List.getElem_range, List.getD_eq_getElem _ _ hi]
  have hodd : (t.table.map (fun (counters : UInt64) => popcount (counters &&& 0x1111111111111111))).sum =
      s.oddAfter hash := by
    rw [htable, List.map_map, oddAfter]
    refine congrArg List.sum (List.map_congr_left (fun r _ => ?_))
    rw [Function.comp_apply, popcount_odd]
    refine List.countP_congr (fun k _ => ?_)
    rw [← hcells r k, cell]
  rw [hraised.samples, hraised.maxSamples]
  by_cases hreset : s.Resets
  · have hmax : s.samples + 1 = s.maxSamples := hreset
    rw [if_pos hmax, if_pos hreset, reset]
    simp only [hodd, hmax, and_self]
  · have hmax : ¬ s.samples + 1 = s.maxSamples := hreset
    rw [if_neg hmax, if_neg hreset]
    exact ⟨rfl, rfl⟩

/-- The subtraction of a reset stays above zero if and only if few counters are
odd. -/
theorem halves_iff (hs : s.Indexed) (hash : UInt32) : s.Halves hash ↔ s.FewOdd hash := by
  refine imp_congr_right (fun hreset => ?_)
  rw [(increment_samples hs hash).2, if_pos hreset]
  have hhalf : (s.maxSamples >>> 1).toNat = s.maxSamples.toNat / 2 := by
    rw [UInt32.toNat_shiftRight]
    rfl
  have hquarter : (UInt32.ofNat (s.oddAfter hash) >>> 2).toNat = u32 (s.oddAfter hash) / 4 := by
    rw [UInt32.toNat_shiftRight, UInt32.toNat_ofNat']
    exact Nat.shiftRight_eq_div_pow _ 2
  have hlt : u32 (s.oddAfter hash) < 2 ^ 32 := Nat.mod_lt _ (by decide)
  have hmax := s.maxSamples.toNat_lt
  rw [UInt32.toNat_sub, hhalf, hquarter]
  omega

theorem ages_iff_of_lt (hs : s.Indexed) (hlt : s.samples < s.maxSamples) (hashes : List UInt32) :
    s.Ages hashes ↔ s.AlwaysFewOdd hashes := by
  induction hashes generalizing s with
  | nil => exact iff_of_true hlt trivial
  | cons hash hashes ih =>
      rw [Ages, AlwaysFewOdd, and_iff_right hlt, halves_iff hs]
      refine and_congr_right (fun hfew => ih (hs.increment hash) ?_)
      obtain ⟨hmax, hsamples⟩ := increment_samples hs hash
      have hhalves := (halves_iff hs hash).mpr hfew
      have hlt' := UInt32.lt_iff_toNat_lt.mp hlt
      rw [UInt32.lt_iff_toNat_lt, hmax]
      by_cases hreset : s.Resets
      · have := hhalves hreset
        omega
      · have hroom := s.maxSamples.toNat_lt
        have hne : (s.samples + 1).toNat ≠ s.maxSamples.toNat := fun h => hreset (UInt32.toNat_inj.mp h)
        rw [hsamples, if_neg hreset]
        rw [UInt32.toNat_add, UInt32.toNat_one] at hne ⊢
        omega

/-- Counting any hashes from the start: the samples stay below their limit and
are halved by every reset if and only if the limit is above zero and few
counters are odd at every reset. -/
theorem ages_iff (clzOfZero maxItems : UInt32) (hashes : List UInt32) :
    (initialized clzOfZero maxItems).Ages hashes ↔
      maxItems * 10 ≠ 0 ∧ (initialized clzOfZero maxItems).AlwaysFewOdd hashes := by
  have hindexed := indexed_initialized clzOfZero maxItems
  have hstart : (initialized clzOfZero maxItems).samples < (initialized clzOfZero maxItems).maxSamples ↔
      maxItems * 10 ≠ 0 := by
    change 0 < maxItems * 10 ↔ _
    exact UInt32.pos_iff_ne_zero
  by_cases hmax : maxItems * 10 ≠ 0
  · rw [and_iff_right hmax]
    exact ages_iff_of_lt hindexed (hstart.mpr hmax) hashes
  · refine iff_of_false (fun h => hmax (hstart.mp ?_)) (fun h => hmax h.1)
    cases hashes with
    | nil => exact h
    | cons hash hashes => exact h.1

/-- Ten hashes raise all counters of the two words that one item gets, eight of
them twice: the reset makes 2 ^ 32 - 1 of ten samples. -/
theorem not_ages : ¬ (initialized 0 1).Ages [0, 64, 21, 33, 2, 62, 3, 31, 0, 21] := by
  decide +kernel

theorem oddAfter_le (s : FrequencySketch) (hash : UInt32) : s.oddAfter hash ≤ 16 * s.table.length := by
  have hrow : ∀ r ∈ List.range s.table.length,
      (List.range 16).countP (fun k => (s.cell r k + s.raise hash 4 r k) % 2 = 1) ≤ 16 := by
    intro r _
    exact List.countP_le_length.trans (Nat.le_of_eq List.length_range)
  have hsum := List.sum_le_card_nsmul (List.map (fun r =>
    (List.range 16).countP (fun k => (s.cell r k + s.raise hash 4 r k) % 2 = 1)) (List.range s.table.length)) 16
    (fun x hx => by
      obtain ⟨r, hr, rfl⟩ := List.mem_map.mp hx
      exact hrow r hr)
  rw [List.length_map, List.length_range] at hsum
  exact hsum.trans (Nat.le_of_eq (Nat.mul_comm _ _))

theorem length_increment (hs : s.Indexed) (hash : UInt32) : (s.increment hash).table.length = s.table.length := by
  obtain ⟨t, hraised, -, heq⟩ := increment_spec hs hash
  rw [heq]
  split
  case isTrue => rw [reset, List.length_map, hraised.length]
  case isFalse => exact hraised.length

/-- A table with few words for its samples has few odd counters, whatever is
counted. -/
theorem alwaysFewOdd_of_table (hs : s.Indexed) (htable : 8 * s.table.length ≤ s.maxSamples.toNat)
    (hashes : List UInt32) : s.AlwaysFewOdd hashes := by
  induction hashes generalizing s with
  | nil => trivial
  | cons hash hashes ih =>
      refine ⟨fun _ => ?_, ih (hs.increment hash) ?_⟩
      · have hodd := oddAfter_le s hash
        have hmod : u32 (s.oddAfter hash) ≤ s.oddAfter hash := Nat.mod_le _ _
        omega
      · rwa [length_increment hs, (increment_samples hs hash).1]

/-- The table of a sketch has the next power of two above its items as its
length, unless there are none. -/
theorem length_initialized (clzOfZero : UInt32) {maxItems : UInt32} (hpos : maxItems ≠ 0)
    (hlt : maxItems.toNat < 2 ^ 31) :
    (initialized clzOfZero maxItems).table.length = 2 ^ (maxItems.toNat.log2 + 1) := by
  have hne : maxItems.toNat ≠ 0 := fun h => hpos (UInt32.toNat_inj.mp h)
  have hlog : maxItems.toNat.log2 < 31 := (Nat.log2_lt hne).mpr hlt
  have hclz : (clz clzOfZero maxItems).toNat = 31 - maxItems.toNat.log2 := by
    rw [clz, if_neg hpos, UInt32.toNat_ofNat']
    exact Nat.mod_eq_of_lt (by omega)
  have hshift : (32 - clz clzOfZero maxItems : UInt32).toNat = maxItems.toNat.log2 + 1 := by
    have hle : clz clzOfZero maxItems ≤ 32 := by
      rw [UInt32.le_iff_toNat_le, hclz]
      exact Nat.le_trans (Nat.sub_le _ _) (by decide)
    rw [UInt32.toNat_sub_of_le _ _ hle, hclz]
    have : (32 : UInt32).toNat = 32 := rfl
    omega
  rw [initialized, List.length_replicate, UInt32.toNat_shiftLeft, hshift, UInt32.toNat_one, Nat.one_shiftLeft,
    Nat.mod_eq_of_lt (by omega : maxItems.toNat.log2 + 1 < 32)]
  exact Nat.mod_eq_of_lt (Nat.pow_lt_pow_right (by decide) (by omega))

/-- Sketches whose items nearly fill their table age without a wrap. -/
theorem ages_of_full_table (clzOfZero : UInt32) {maxItems : UInt32} (hpos : maxItems ≠ 0)
    (hlt : maxItems.toNat < 2 ^ 28) (hfull : 8 * 2 ^ maxItems.toNat.log2 ≤ 5 * maxItems.toNat)
    (hashes : List UInt32) : (initialized clzOfZero maxItems).Ages hashes := by
  have hten : (maxItems * 10).toNat = maxItems.toNat * 10 := by
    rw [UInt32.toNat_mul]
    exact Nat.mod_eq_of_lt (by simp; omega)
  have hne : maxItems.toNat ≠ 0 := fun h => hpos (UInt32.toNat_inj.mp h)
  have hindexed := indexed_initialized clzOfZero maxItems
  refine (ages_iff_of_lt hindexed ?_ hashes).mpr (alwaysFewOdd_of_table hindexed ?_ hashes)
  · change 0 < maxItems * 10
    rw [UInt32.lt_iff_toNat_lt, hten]
    exact Nat.mul_pos (Nat.pos_of_ne_zero hne) (by decide)
  · rw [length_initialized clzOfZero hpos (hlt.trans (by decide))]
    change 8 * 2 ^ (maxItems.toNat.log2 + 1) ≤ (maxItems * 10).toNat
    rw [hten, Nat.pow_succ]
    omega

end Tyrdbs.FrequencySketch

namespace Tyrdbs.Wtinylfu

open FrequencySketch

variable {Key Item : Type}

/-- What is asked of the sketches of a cache: whatever __builtin_clz makes of zero
has no part in them, they have samples to count, their tables have the length of
a power of two, and every access of a key is inside its table. -/
structure SketchesSound (hash : Key → UInt64) (maxItems : UInt32) (emptyItem : Item) : Prop where
  defined : ∀ z z' group, (construct z maxItems.toNat emptyItem : Wtinylfu Key Item).counters group =
    (construct z' maxItems.toNat emptyItem : Wtinylfu Key Item).counters group
  samples : ∀ z group, 0 < ((construct z maxItems.toNat emptyItem : Wtinylfu Key Item).counters group).maxSamples
  power : ∀ z group, ∃ k,
    ((construct z maxItems.toNat emptyItem : Wtinylfu Key Item).counters group).table.length = 2 ^ k
  inBounds : ∀ z (keys : List Key) key i, i < 4 →
    let c := keys.foldl (increment hash) (construct z maxItems.toNat emptyItem : Wtinylfu Key Item)
    let s := c.counters (hash key &&& 0xfff).toNat
    s.indexOf (hash key >>> 12).toUInt32 i < s.table.length

theorem indexed_construct (hash : Key → UInt64) (z : UInt32) (maxItems : Nat) (emptyItem : Item) (keys : List Key)
    (group : Nat) :
    ((keys.foldl (increment hash) (construct z maxItems emptyItem : Wtinylfu Key Item)).counters group).Indexed := by
  have hall : ∀ (c : Wtinylfu Key Item), (∀ group, (c.counters group).Indexed) →
      ((keys.foldl (increment hash) c).counters group).Indexed := by
    induction keys with
    | nil => exact fun c h => h group
    | cons key keys ih =>
        intro c h
        refine ih (c.increment hash key) (fun group => ?_)
        change (Function.update c.counters _ _ group).Indexed
        rw [Function.update_apply]
        split
        case isTrue => exact (h _).increment _
        case isFalse => exact h group
  exact hall _ (fun _ => indexed_initialized _ _)

/-- The constructor divides its items among 4096 sketches: they are sound if and
only if each gets at least one. -/
theorem sketches_sound_iff (hash : Key → UInt64) (maxItems : UInt32) (emptyItem : Item) :
    SketchesSound hash maxItems emptyItem ↔ 4096 ≤ maxItems.toNat := by
  have hshare : (UInt32.ofNat (maxItems.toNat / numCounters)).toNat = maxItems.toNat / 4096 := by
    rw [UInt32.toNat_ofNat']
    exact Nat.mod_eq_of_lt (lt_of_le_of_lt (Nat.div_le_self _ _) maxItems.toNat_lt)
  have hmax := maxItems.toNat_lt
  have hten : (UInt32.ofNat (maxItems.toNat / numCounters) * 10).toNat = maxItems.toNat / 4096 * 10 := by
    rw [UInt32.toNat_mul, hshare]
    exact Nat.mod_eq_of_lt (by simp; omega)
  have hsamples : 0 < UInt32.ofNat (maxItems.toNat / numCounters) * 10 ↔ 4096 ≤ maxItems.toNat := by
    rw [UInt32.lt_iff_toNat_lt, hten]
    change 0 < maxItems.toNat / 4096 * 10 ↔ _
    omega
  constructor
  · intro h
    exact hsamples.mp (h.samples 0 0)
  · intro hge
    have hpos : UInt32.ofNat (maxItems.toNat / numCounters) ≠ 0 := by
      intro hzero
      have := congrArg UInt32.toNat hzero
      rw [hshare, UInt32.toNat_zero] at this
      omega
    refine ⟨fun z z' group => ?_, fun z group => hsamples.mpr hge, fun z group => ?_, fun z keys key i _ => ?_⟩
    · simp only [construct, initialized, clz, if_neg hpos]
    · exact ⟨_, length_initialized z hpos (by rw [hshare]; omega)⟩
    · exact (indexed_construct hash z _ emptyItem keys _).indexOf_lt _ i

/-- For 100 items, the sketches are what __builtin_clz makes of zero. -/
theorem not_sketches_sound : ¬ SketchesSound (fun key : UInt64 => key) 100 () := by
  intro h
  exact absurd (h.samples 0 0) (by decide)

end Tyrdbs.Wtinylfu
