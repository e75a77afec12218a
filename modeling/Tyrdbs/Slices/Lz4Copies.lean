import Mathlib.Tactic.IntervalCases
import Tyrdbs.Slices.Lz4Decoder

namespace Tyrdbs.Slices.Lz4Decoder

open Outcome Buffers Bytes Lz4

variable {block bytes : List Byte} {capacity op ip src n k e d s width offset length : Nat} {dst u : Memory}

theorem fetch_eq (h : ip + n ≤ block.length) : fetch block ip n = .ok (slice block ip n) := by
  rw [fetch, check_of h]
  rfl

theorem write_eq (h : op + bytes.length ≤ capacity) : write capacity dst op bytes = .ok (store dst op bytes) := by
  rw [write, check_of h]
  rfl

theorem copyIn_eq (hin : ip + n ≤ block.length) (hout : op + n ≤ capacity) :
    copyIn block capacity dst op ip n = .ok (store dst op (slice block ip n)) := by
  rw [copyIn, fetch_eq hin, ok_bind, write_eq (by rwa [length_slice hin])]

theorem copyWithin_eq (hout : op + n ≤ capacity) (hn : n ≤ k) (hk : k ≤ op) :
    copyWithin capacity dst op (op - k) n = .ok (copy dst op (op - k) n) := by
  rw [copyWithin, check_of hout, ok_bind, check_of (by omega)]
  rfl

theorem copyWithin_repeats (dst : Memory) (n : Nat) (hout : op + n ≤ capacity) (hn : n ≤ k) (hk : src + k = op) :
    ∃ u, copyWithin capacity dst op src n = .ok u ∧ Repeats dst u op n k := by
  have hsrc : src = op - k := by omega
  subst hsrc
  exact ⟨_, copyWithin_eq hout hn (by omega), repeats_copy hn (by omega)⟩

theorem copyByte_repeats (dst : Memory) (hout : op < capacity) (hk : src + k = op) (hpos : 0 < k) :
    ∃ u, copyByte capacity dst op src = .ok u ∧ Repeats dst u op 1 k := by
  refine ⟨store dst op [dst src], ?_, fun i hi => store_before hi, fun i hd hlt => ?_⟩
  · rw [copyByte, check_of ⟨hout, by omega⟩]
    rfl
  · obtain rfl : i = op := by omega
    rw [store_before (show i - k < i by omega)]
    have hself : store dst i [dst src] (i + 0) = dst src := store_inside (by rw [List.length_singleton]; exact Nat.one_pos)
    rw [Nat.add_zero] at hself
    rw [hself]
    exact congrArg dst (by omega)

/-- The bytes of the block stand in the output, and what was in front of them
still does. -/
structure Reads (block : List Byte) (dst u : Memory) (op ip n : Nat) : Prop where
  before : ∀ i < op, u i = dst i
  bytes : ∀ i (h : ip + i < block.length), i < n → u (op + i) = block[ip + i]

theorem reads_store (h : ip + n ≤ block.length) : Reads block dst (store dst op (slice block ip n)) op ip n := by
  refine ⟨fun i hi => store_before hi, fun i hlt hi => ?_⟩
  rw [store_inside (by rwa [length_slice h])]
  simp [slice]

theorem Reads.weaken {m : Nat} (h : Reads block dst u op ip n) (hle : m ≤ n) : Reads block dst u op ip m :=
  ⟨h.before, fun i hlt hi => h.bytes i hlt (by omega)⟩

theorem Reads.trans {v : Memory} {m : Nat} (h : Reads block dst u op ip n) (h' : Reads block u v (op + n) (ip + n) m) :
    Reads block dst v op ip (n + m) := by
  refine ⟨fun i hi => (h'.before i (by omega)).trans (h.before i hi), fun i hlt hi => ?_⟩
  by_cases hin : i < n
  · rw [h'.before _ (by omega)]
    exact h.bytes i hlt hin
  · obtain ⟨j, rfl⟩ := Nat.exists_eq_add_of_le (Nat.le_of_not_lt hin)
    have hbytes := h'.bytes j (by omega) (by omega)
    rw [Nat.add_assoc] at hbytes
    rw [hbytes]
    congr 1
    omega

/-- The loop of a copy: what its steps keep holds where it ends, at the place where
it has to or behind. The induction is on the rounds. -/
theorem wildCopy_rule (step : Memory → Nat → Nat → Except Stop Memory) (width d s e : Nat) (P : Nat → Memory → Prop)
    (hstep : ∀ j u, P j u → (j = 0 ∨ d + j * width < e) →
      ∃ v, step u (d + j * width) (s + j * width) = .ok v ∧ P (j + 1) v) :
    ∀ rounds j u, P j u → (j = 0 ∨ d + j * width < e) → 0 < rounds → e ≤ d + (j + rounds) * width →
      ∃ v m, wildCopy step width e rounds u (d + j * width) (s + j * width) = .ok v ∧ P m v ∧ e ≤ d + m * width := by
  intro rounds
  induction rounds with
  | zero => exact fun _ _ _ _ hpos => absurd hpos (Nat.lt_irrefl 0)
  | succ rounds ih =>
      intro j u hu hj _ hfuel
      obtain ⟨v, hv, hP⟩ := hstep j u hu hj
      have hnext : d + j * width + width = d + (j + 1) * width := by rw [Nat.succ_mul, Nat.add_assoc]
      have hnext' : s + j * width + width = s + (j + 1) * width := by rw [Nat.succ_mul, Nat.add_assoc]
      rw [wildCopy, hv, ok_bind, hnext, hnext']
      by_cases hlt : d + (j + 1) * width < e
      · rw [if_pos hlt]
        refine ih (j + 1) v hP (.inr hlt) ?_ (hfuel.trans_eq ?_)
        · by_contra hzero
          obtain rfl : rounds = 0 := by omega
          rw [Nat.zero_add] at hfuel
          omega
        · rw [Nat.add_assoc, Nat.add_comm 1 rounds]
      · rw [if_neg hlt]
        exact ⟨v, j + 1, rfl, hP, Nat.le_of_not_lt hlt⟩

section Wild

variable {step : Memory → Nat → Nat → Except Stop Memory}

theorem wildCopy_repeats (hw : 0 < width)
    (hstep : ∀ u d s, s + k = d → d + width ≤ capacity → ∃ v, step u d s = .ok v ∧ Repeats u v d width k)
    (hk : s + k = d) (hpos : 0 < k) (hout : d + width ≤ capacity) (he : e + width ≤ capacity + 1) :
    ∃ v m, wildCopy step width e (capacity + 1) dst d s = .ok v ∧ Repeats dst v d m k ∧ e ≤ d + m := by
  have hrounds : capacity + 1 ≤ (capacity + 1) * width := Nat.le_mul_of_pos_right _ hw
  have hrule := wildCopy_rule step width d s e (fun j u => Repeats dst u d (j * width) k)
    (fun j u hu hj => by
      obtain ⟨v, hv, hrepeats⟩ := hstep u (d + j * width) (s + j * width) (by omega)
        (by rcases hj with rfl | hj <;> omega)
      refine ⟨v, hv, ?_⟩
      rw [Nat.succ_mul]
      exact hu.trans hpos hrepeats)
    (capacity + 1) 0 dst ⟨fun _ _ => rfl, fun i hd hlt => by omega⟩ (.inl rfl) (Nat.succ_pos _)
    (by rw [Nat.zero_add]; omega)
  rw [Nat.zero_mul, Nat.add_zero, Nat.add_zero] at hrule
  obtain ⟨v, m, hv, hP, hm⟩ := hrule
  exact ⟨v, m * width, hv, hP, hm⟩

theorem wildCopy_reads (hw : 0 < width)
    (hstep : ∀ u d s, s + width ≤ block.length → d + width ≤ capacity →
      ∃ v, step u d s = .ok v ∧ Reads block u v d s width)
    (hn : d + n = e) (hin : s + width ≤ block.length) (hin' : s + n + width ≤ block.length + 1)
    (hout : d + width ≤ capacity) (he : e + width ≤ capacity + 1) :
    ∃ v, wildCopy step width e (capacity + 1) dst d s = .ok v ∧ Reads block dst v d s n := by
  have hrounds : capacity + 1 ≤ (capacity + 1) * width := Nat.le_mul_of_pos_right _ hw
  have hrule := wildCopy_rule step width d s e (fun j u => Reads block dst u d s (j * width))
    (fun j u hu hj => by
      obtain ⟨v, hv, hreads⟩ := hstep u (d + j * width) (s + j * width) (by rcases hj with rfl | hj <;> omega)
        (by rcases hj with rfl | hj <;> omega)
      refine ⟨v, hv, ?_⟩
      rw [Nat.succ_mul]
      exact hu.trans hreads)
    (capacity + 1) 0 dst ⟨fun _ _ => rfl, fun i hlt hi => by omega⟩ (.inl rfl) (Nat.succ_pos _)
    (by rw [Nat.zero_add]; omega)
  rw [Nat.zero_mul, Nat.add_zero, Nat.add_zero] at hrule
  obtain ⟨v, m, hv, hP, hm⟩ := hrule
  exact ⟨v, hv, hP.weaken (by omega)⟩

end Wild

theorem wildCopy8_repeats (dst : Memory) (hk : s + k = d) (h8 : 8 ≤ k) (hout : d + 8 ≤ capacity) (he : e + 7 ≤ capacity) :
    ∃ v m, wildCopy8 capacity dst d s e = .ok v ∧ Repeats dst v d m k ∧ e ≤ d + m :=
  wildCopy_repeats (by decide) (fun u _ _ hk hout => copyWithin_repeats u 8 hout h8 hk) hk (by omega) hout (by omega)

theorem wildCopy32_repeats (dst : Memory) (hk : s + k = d) (h16 : 16 ≤ k) (hout : d + 32 ≤ capacity) (he : e + 31 ≤ capacity) :
    ∃ v m, wildCopy32 capacity dst d s e = .ok v ∧ Repeats dst v d m k ∧ e ≤ d + m := by
  refine wildCopy_repeats (by decide) (fun u d s hk hout => ?_) hk (by omega) hout (by omega)
  obtain ⟨v, hv, hfirst⟩ := copyWithin_repeats u 16 (show d + 16 ≤ capacity by omega) h16 hk
  obtain ⟨w, hw, hsecond⟩ := copyWithin_repeats v 16 (show d + 16 + 16 ≤ capacity by omega) h16
    (show s + 16 + k = d + 16 by omega)
  refine ⟨w, ?_, hfirst.trans (by omega) hsecond⟩
  rw [hv, ok_bind, hw]

theorem copyIn_reads (dst : Memory) (n : Nat) (hin : ip + n ≤ block.length) (hout : op + n ≤ capacity) :
    ∃ v, copyIn block capacity dst op ip n = .ok v ∧ Reads block dst v op ip n :=
  ⟨_, copyIn_eq hin hout, reads_store hin⟩

theorem wildCopyIn8_reads (dst : Memory) (hn : d + n = e) (hin : s + n + 8 ≤ block.length) (hout : e + 8 ≤ capacity) :
    ∃ v, wildCopyIn8 block capacity dst d s e = .ok v ∧ Reads block dst v d s n :=
  wildCopy_reads (by decide) (fun u _ _ hin hout => copyIn_reads u 8 hin hout) hn (by omega) (by omega) (by omega) (by omega)

theorem wildCopyIn32_reads (dst : Memory) (hn : d + n = e) (hin : s + n + 32 ≤ block.length) (hout : e + 32 ≤ capacity) :
    ∃ v, wildCopyIn32 block capacity dst d s e = .ok v ∧ Reads block dst v d s n := by
  refine wildCopy_reads (by decide) (fun u d s hin hout => ?_) hn (by omega) (by omega) (by omega) (by omega)
  obtain ⟨v, hv, hfirst⟩ := copyIn_reads u 16 (show s + 16 ≤ block.length by omega)
    (show d + 16 ≤ capacity by omega)
  obtain ⟨w, hw, hsecond⟩ := copyIn_reads v 16 (show s + 16 + 16 ≤ block.length by omega)
    (show d + 16 + 16 ≤ capacity by omega)
  refine ⟨w, ?_, hfirst.trans hsecond⟩
  rw [hv, ok_bind, hw]

/-- The tables take a short match to a distance that is a multiple of its own, and
that eight bytes fit in. -/
theorem table_distances (h : offset < 8) : ∃ near far : Nat,
    inc32table.getD offset 0 + near = offset + 4 ∧ 4 ≤ near ∧
      (inc32table.getD offset 0 : Int) - dec64table.getD offset 0 + far = offset + 8 ∧ 8 ≤ far ∧ far ≤ offset + 8 ∧
      (0 < offset → (∃ q, near = (q + 1) * offset ∧ q * offset ≤ 4) ∧ ∃ q, far = (q + 1) * offset ∧ q * offset ≤ 8) := by
  interval_cases offset
  · exact ⟨4, 8, by decide, by decide, by decide, by decide, by decide, fun h => absurd h (by decide)⟩
  · exact ⟨4, 8, by decide, by decide, by decide, by decide, by decide, fun _ => ⟨⟨3, by decide⟩, 7, by decide⟩⟩
  · exact ⟨4, 8, by decide, by decide, by decide, by decide, by decide, fun _ => ⟨⟨1, by decide⟩, 3, by decide⟩⟩
  · exact ⟨6, 9, by decide, by decide, by decide, by decide, by decide, fun _ => ⟨⟨1, by decide⟩, 2, by decide⟩⟩
  · exact ⟨8, 8, by decide, by decide, by decide, by decide, by decide, fun _ => ⟨⟨1, by decide⟩, 1, by decide⟩⟩
  · exact ⟨5, 10, by decide, by decide, by decide, by decide, by decide, fun _ => ⟨⟨0, by decide⟩, 1, by decide⟩⟩
  · exact ⟨6, 12, by decide, by decide, by decide, by decide, by decide, fun _ => ⟨⟨0, by decide⟩, 1, by decide⟩⟩
  · exact ⟨7, 14, by decide, by decide, by decide, by decide, by decide, fun _ => ⟨⟨0, by decide⟩, 1, by decide⟩⟩

/-- What a match of an offset leaves behind. Nothing is known of a match of itself. -/
def Matched (dst u : Memory) (op n offset : Nat) : Prop := 0 < offset → Repeats dst u op n offset

theorem copyByte_matched (dst : Memory) (hoffset : offset ≤ src) (hout : src < capacity) :
    ∃ u, copyByte capacity dst src (src - offset) = .ok u ∧ Matched dst u src 1 offset := by
  by_cases hzero : 0 < offset
  · obtain ⟨u, hu, hrepeats⟩ := copyByte_repeats dst hout (show src - offset + offset = src by omega) hzero
    exact ⟨u, hu, fun _ => hrepeats⟩
  · refine ⟨store dst src [dst (src - offset)], ?_, fun hpos => absurd hpos hzero⟩
    rw [copyByte, check_of ⟨hout, by omega⟩]
    rfl

theorem Matched.trans {v : Memory} {m : Nat} (h : Matched dst u op n offset) (h' : Matched u v (op + n) m offset) :
    Matched dst v op (n + m) offset := fun hpos => (h hpos).trans hpos (h' hpos)

theorem copyFront_spec (dst : Memory) (hoffset : offset ≤ op) (hout : op + 8 ≤ capacity) :
    ∃ u src far, copyFront capacity dst op offset = .ok (u, src) ∧ src + far = op + 8 ∧ 8 ≤ far ∧
      Matched dst u op 8 offset ∧ (0 < offset → ∃ q, far = (q + 1) * offset ∧ q * offset ≤ 8) := by
  by_cases h8 : offset < 8
  case neg =>
    obtain ⟨u, hu, hrepeats⟩ := copyWithin_repeats dst 8 hout (Nat.le_of_not_lt h8)
      (show op - offset + offset = op by omega)
    refine ⟨u, op - offset + 8, offset, ?_, by omega, by omega, fun _ => hrepeats, fun _ => ⟨0, by simp, by simp⟩⟩
    rw [copyFront, if_neg h8, hu]
    rfl
  case pos =>
    obtain ⟨near, far, hnear, h4, hfar, h8', hle, hmultiple⟩ := table_distances h8
    obtain ⟨u₁, hu₁, hm₁⟩ := copyByte_matched dst hoffset (show op < capacity by omega)
    obtain ⟨u₂, hu₂, hm₂⟩ := copyByte_matched u₁ (show offset ≤ op + 1 by omega) (show op + 1 < capacity by omega)
    obtain ⟨u₃, hu₃, hm₃⟩ := copyByte_matched u₂ (show offset ≤ op + 2 by omega) (show op + 2 < capacity by omega)
    obtain ⟨u₄, hu₄, hm₄⟩ := copyByte_matched u₃ (show offset ≤ op + 3 by omega) (show op + 3 < capacity by omega)
    obtain ⟨u₅, hu₅, hm₅⟩ := copyWithin_repeats u₄ 4 (show op + 4 + 4 ≤ capacity by omega) h4
      (show op - offset + inc32table.getD offset 0 + near = op + 4 by omega)
    rw [show op + 1 - offset = op - offset + 1 by omega] at hu₂
    rw [show op + 2 - offset = op - offset + 2 by omega] at hu₃
    rw [show op + 3 - offset = op - offset + 3 by omega] at hu₄
    refine ⟨u₅, (((op - offset + inc32table.getD offset 0 : Nat) : Int) - dec64table.getD offset 0).toNat, far, ?_, ?_,
      h8', fun hpos => ?_, fun hpos => (hmultiple hpos).2⟩
    · rw [copyFront, if_pos h8]
      simp only [hu₁, hu₂, hu₃, hu₄, hu₅, ok_bind]
      rfl
    · omega
    · obtain ⟨q, hq, hq4⟩ := (hmultiple hpos).1
      have hfour : Repeats dst u₄ op 4 offset := ((hm₁.trans hm₂).trans hm₃ |>.trans hm₄) hpos
      exact hfour.multiple hpos hq4 (hq ▸ hm₅)

theorem Matched.weaken {m : Nat} (h : Matched dst u op n offset) (hle : m ≤ n) : Matched dst u op m offset :=
  fun hpos => (h hpos).weaken hle

theorem copyBytes_repeats {cpy : Nat} (hpos : 0 < k) (hle : cpy ≤ capacity) (rounds : Nat) :
    ∀ dst op src, src + k = op → cpy - op < rounds →
      ∃ u, copyBytes capacity cpy rounds dst op src = .ok u ∧ Repeats dst u op (cpy - op) k := by
  induction rounds with
  | zero =>
      exact fun dst op src hk hrounds => absurd hrounds (Nat.not_lt_zero _)
  | succ rounds ih =>
      intro dst op src hk hrounds
      rw [copyBytes]
      by_cases hlt : op < cpy
      · obtain ⟨u, hu, hfirst⟩ := copyByte_repeats dst (Nat.lt_of_lt_of_le hlt hle) hk hpos
        obtain ⟨v, hv, hrest⟩ := ih u (op + 1) (src + 1) (by omega) (by omega)
        refine ⟨v, ?_, (hfirst.trans hpos hrest).weaken (by omega)⟩
        rw [if_pos hlt, hu, ok_bind, hv]
      · rw [if_neg hlt]
        exact ⟨dst, rfl, fun _ _ => rfl, fun i hd hin => by omega⟩

/-- Behind the front the match is copied eight bytes at a time, or bytewise where
the output ends. -/
theorem safeMatchCopy_rest {v : Memory} {far m : Nat} (hfront : Matched dst u op 8 offset)
    (hmultiple : 0 < offset → ∃ q, far = (q + 1) * offset ∧ q * offset ≤ 8) (hrest : Repeats u v (op + 8) m far)
    (hle : length ≤ 8 + m) : Matched dst v op length offset := by
  intro hpos
  obtain ⟨q, hq, hq8⟩ := hmultiple hpos
  exact ((hfront hpos).multiple hpos hq8 (hq ▸ hrest)).weaken hle

theorem safeMatchCopy_refused (dst : Memory) (hoffset : offset ≤ op) (hroom : op + 12 ≤ capacity)
    (hend : capacity < op + length + lastLiterals) :
    safeMatchCopy capacity dst op offset length = .error .outputError := by
  obtain ⟨u, src, far, hu, -⟩ := copyFront_spec dst hoffset (show op + 8 ≤ capacity by omega)
  have hguard : matchSafeguardDistance = 12 := rfl
  have hlast : lastLiterals = 5 := rfl
  have hsafe : capacity < op + length + matchSafeguardDistance := by omega
  rw [safeMatchCopy, hu, ok_bind]
  dsimp only
  rw [if_pos hsafe, check_of_not (Nat.not_le_of_lt hend)]
  rfl

theorem safeMatchCopy_spec (dst : Memory) (hoffset : offset ≤ op) (hroom : op + 12 ≤ capacity) (hlength : 4 ≤ length)
    (hend : op + length + lastLiterals ≤ capacity) :
    ∃ u, safeMatchCopy capacity dst op offset length = .ok (u, op + length) ∧ Matched dst u op length offset := by
  obtain ⟨u, src, far, hu, hfar, h8, hfront, hmultiple⟩ := copyFront_spec dst hoffset
    (show op + 8 ≤ capacity by omega)
  have hpos : 0 < far := by omega
  rw [safeMatchCopy, hu, ok_bind]
  dsimp only
  have hguard : matchSafeguardDistance = 12 := rfl
  have hlast : lastLiterals = 5 := rfl
  have hwidth : wildCopyLength = 8 := rfl
  by_cases hsafe : capacity < op + length + matchSafeguardDistance
  case pos =>
    rw [if_pos hsafe, check_of hend, ok_bind]
    by_cases hlimit : op + 8 < capacity - (wildCopyLength - 1)
    · obtain ⟨v, m, hv, hwild, hm⟩ := wildCopy8_repeats u hfar h8 (show op + 8 + 8 ≤ capacity by omega)
        (show capacity - (wildCopyLength - 1) + 7 ≤ capacity by omega)
      obtain ⟨w, hw, hbytes⟩ := copyBytes_repeats hpos (show op + length ≤ capacity by omega) (capacity + 1) v
        (capacity - (wildCopyLength - 1)) (src + (capacity - (wildCopyLength - 1) - (op + 8))) (by omega) (by omega)
      have hwhole := (hwild.weaken (show capacity - (wildCopyLength - 1) - (op + 8) ≤ m by omega)).trans hpos
        (show Repeats v w (op + 8 + (capacity - (wildCopyLength - 1) - (op + 8))) _ far by
          rw [Nat.add_sub_cancel' hlimit.le]
          exact hbytes)
      refine ⟨w, ?_, safeMatchCopy_rest hfront hmultiple hwhole (by omega)⟩
      rw [if_pos hlimit, hv, ok_bind, hw]
      rfl
    · obtain ⟨w, hw, hbytes⟩ := copyBytes_repeats hpos (show op + length ≤ capacity by omega) (capacity + 1) u
        (op + 8) src hfar (by omega)
      refine ⟨w, ?_, safeMatchCopy_rest hfront hmultiple hbytes (by omega)⟩
      rw [if_neg hlimit, hw]
      rfl
  case neg =>
    obtain ⟨v, hv, hnext⟩ := copyWithin_repeats u 8 (show op + 8 + 8 ≤ capacity by omega) h8 hfar
    rw [if_neg hsafe, hv, ok_bind]
    by_cases hlong : 16 < length
    · obtain ⟨w, m, hw, hwild, hm⟩ := wildCopy8_repeats v (show src + 8 + far = op + 8 + 8 by omega) h8
        (show op + 8 + 8 + 8 ≤ capacity by omega) (show op + length + 7 ≤ capacity by omega)
      refine ⟨w, ?_, safeMatchCopy_rest hfront hmultiple (hnext.trans hpos hwild) (by omega)⟩
      rw [if_pos hlong, hw]
      rfl
    · refine ⟨v, ?_, safeMatchCopy_rest hfront hmultiple hnext (by omega)⟩
      rw [if_neg hlong]
      rfl

theorem shortMatch_spec {γ : Type} (dst : Memory) (f : Memory → Except Stop γ) (h8 : 8 ≤ offset) (hoffset : offset ≤ op)
    (hroom : op + 18 ≤ capacity) :
    ∃ u, (do
      let dst ← copyWithin capacity dst op (op - offset) 8
      let dst ← copyWithin capacity dst (op + 8) (op - offset + 8) 8
      let dst ← copyWithin capacity dst (op + 16) (op - offset + 16) 2
      f dst) = f u ∧ Matched dst u op 18 offset := by
  obtain ⟨u₁, hu₁, h₁⟩ := copyWithin_repeats dst 8 (show op + 8 ≤ capacity by omega) h8
    (show op - offset + offset = op by omega)
  obtain ⟨u₂, hu₂, h₂⟩ := copyWithin_repeats u₁ 8 (show op + 8 + 8 ≤ capacity by omega) h8
    (show op - offset + 8 + offset = op + 8 by omega)
  obtain ⟨u₃, hu₃, h₃⟩ := copyWithin_repeats u₂ 2 (show op + 16 + 2 ≤ capacity by omega) (by omega)
    (show op - offset + 16 + offset = op + 16 by omega)
  refine ⟨u₃, ?_, fun hpos => (h₁.trans hpos h₂).trans hpos h₃⟩
  rw [hu₁, ok_bind, hu₂, ok_bind, hu₃, ok_bind]

theorem pattern_spec (dst : Memory) (hdvd : offset ∣ 8) (hoffset : offset ≤ op) (hpos : 0 < offset)
    (hout : op + 8 ≤ capacity) (he : e + 7 ≤ capacity) :
    ∃ u, wildCopy (fun dst' d _ => write capacity dst' d (pattern dst op offset)) 8 e (capacity + 1) dst op (op - offset) =
      .ok u ∧ Repeats dst u op (e - op) offset := by
  have hlength : (pattern dst op offset).length = 8 := by rw [pattern, List.length_map, List.length_range]
  have hrule := wildCopy_rule (fun dst' d _ => write capacity dst' d (pattern dst op offset)) 8 op (op - offset) e
    (fun j u => (∀ i < op, u i = dst i) ∧ ∀ i < j * 8, u (op + i) = dst (op - offset + i % offset))
    (fun j u hu hj => by
      have hfits : op + j * 8 + (pattern dst op offset).length ≤ capacity := by rcases hj with rfl | hj <;> omega
      refine ⟨_, write_eq hfits, fun i hi => ?_, fun i hi => ?_⟩
      · rw [store_before (by omega)]
        exact hu.1 i hi
      · by_cases hin : i < j * 8
        · rw [store_before (by omega)]
          exact hu.2 i hin
        · obtain ⟨r, rfl⟩ := Nat.exists_eq_add_of_le (Nat.le_of_not_lt hin)
          obtain ⟨c, hc⟩ := hdvd
          rw [← Nat.add_assoc, store_inside (by omega)]
          have hmod : (j * 8 + r) % offset = r % offset := by
            rw [hc, Nat.mul_left_comm, Nat.mul_add_mod]
          rw [hmod]
          simp [pattern])
    (capacity + 1) 0 dst ⟨fun _ _ => rfl, fun i hi => by omega⟩ (.inl rfl) (Nat.succ_pos _) (by omega)
  rw [Nat.zero_mul, Nat.add_zero, Nat.add_zero] at hrule
  obtain ⟨u, m, hu, ⟨hbefore, hinside⟩, hm⟩ := hrule
  refine ⟨u, hu, hbefore, fun i hd hlt => ?_⟩
  obtain ⟨r, rfl⟩ := Nat.exists_eq_add_of_le hd
  rw [hinside r (by omega)]
  by_cases hr : r < offset
  · rw [hbefore _ (by omega), Nat.mod_eq_of_lt hr]
    exact congrArg dst (by omega)
  · rw [show op + r - offset = op + (r - offset) by omega, hinside (r - offset) (by omega), Nat.mod_eq_sub_mod (by omega)]

theorem memcpyUsingOffset_spec (dst : Memory) (hoffset : offset ≤ op) (hout : op + 16 ≤ capacity) (he : e + 7 ≤ capacity) :
    ∃ u, memcpyUsingOffset capacity dst op offset e = .ok u ∧ Matched dst u op (e - op) offset := by
  rw [memcpyUsingOffset]
  by_cases hpattern : offset = 1 ∨ offset = 2 ∨ offset = 4
  · have hdvd : offset ∣ 8 := by rcases hpattern with rfl | rfl | rfl <;> decide
    obtain ⟨u, hu, hrepeats⟩ := pattern_spec dst hdvd hoffset (by omega) (show op + 8 ≤ capacity by omega) he
    rw [if_pos hpattern, hu]
    exact ⟨u, rfl, fun _ => hrepeats⟩
  · obtain ⟨u, src, far, hu, hfar, h8, hfront, hmultiple⟩ := copyFront_spec dst hoffset
      (show op + 8 ≤ capacity by omega)
    obtain ⟨v, m, hv, hwild, hm⟩ := wildCopy8_repeats u hfar h8 (show op + 8 + 8 ≤ capacity by omega) he
    refine ⟨v, ?_, safeMatchCopy_rest hfront hmultiple hwild (by omega)⟩
    rw [if_neg hpattern, hu, ok_bind]
    exact hv

end Tyrdbs.Slices.Lz4Decoder
