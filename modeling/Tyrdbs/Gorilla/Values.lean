import Tyrdbs.Gorilla.Codec

namespace Tyrdbs.Gorilla

open Allocator Outcome Word Bits

/-- Both windows are unset, or the reader's covers what the writer's leaves
between its leading and its trailing zeros. -/
def SameWindow (g : GorillaWriter) (r : GorillaReader) : Prop :=
  (g.lastClz = unset ∧ g.lastCtz = unset ∧ r.valueSize = unset ∧ r.ctz = unset) ∨
    (g.lastClz + g.lastCtz < 16 ∧ r.valueSize = 16 - g.lastClz - g.lastCtz ∧ r.ctz = g.lastCtz)

structure ValuesAgree (g : GorillaWriter) (r : GorillaReader) : Prop where
  ndx : r.ndx = g.samples
  value : r.value = g.lastValue
  window : SameWindow g r

/-- The reader that gets these bits next takes the value that they stand for,
and nothing else of it changes but its window. -/
def YieldsValue (g g' : GorillaWriter) (value : BitVec 64) (bs : List Bool) : Prop :=
  ∀ (r : GorillaReader) (tail : List Bool), ValuesAgree g r → r.reader.offset ≤ 64 →
    r.reader.rest = bs ++ tail → ∃ (reader : BitReader) (valueSize ctz : Nat),
      r.loadNextValue = .ok { r with value := value, reader := reader, valueSize := valueSize, ctz := ctz } ∧
        reader.rest = tail ∧ reader.offset ≤ 64 ∧
        SameWindow g' { r with value := value, reader := reader, valueSize := valueSize, ctz := ctz }

def GorillaWriter.Window (g : GorillaWriter) : Prop :=
  (g.lastClz = unset ∧ g.lastCtz = unset) ∨ g.lastClz + g.lastCtz < 16

variable {g : GorillaWriter} {x : BitVec 64} {c t : Nat}

theorem read_bitsOf {r : BitReader} {n v : Nat} {tail : List Bool} (h : r.rest = bitsOf n v ++ tail)
    (hle : r.offset ≤ 64) (hn : n ≤ 64) :
    ∃ r', r.read n = .ok (BitVec.ofNat 64 (v % 2 ^ n), r') ∧ r'.rest = tail ∧ r'.offset ≤ 64 := by
  have hread := BitReader.read_spec h hle (by rwa [length_bitsOf])
  rwa [length_bitsOf, valueOf_bitsOf] at hread

theorem sub32_eq {a b : Nat} (hb : b ≤ a) (ha : a < 2 ^ 32) : sub32 a b = a - b := by
  rw [sub32, u32]
  omega

theorem nibbles_lt (hx : x ≠ 0) : x.clz.toNat >>> 2 + x.ctz.toNat >>> 2 < 16 := by
  have hlow : 2 ^ x.ctz.toNat ≤ x.toNat := BitVec.two_pow_ctz_le_toNat_of_ne_zero hx
  have hhigh : x.toNat < 2 ^ (64 - x.clz.toNat) := BitVec.toNat_lt_two_pow_sub_clz
  have hlt := (Nat.pow_lt_pow_iff_right (by decide)).mp (hlow.trans_lt hhigh)
  rw [Nat.shiftRight_eq_div_pow, Nat.shiftRight_eq_div_pow]
  omega

theorem shift_back (ht : t ≤ x.ctz.toNat >>> 2) : x >>> (t <<< 2) <<< (t <<< 2) = x := by
  rw [Nat.shiftRight_eq_div_pow] at ht
  apply BitVec.eq_of_getLsbD_eq
  intro i hi
  rw [BitVec.getLsbD_shiftLeft, BitVec.getLsbD_ushiftRight]
  by_cases hlt : i < t <<< 2
  · have hzero : x.getLsbD i = false := by
      apply BitVec.getLsbD_false_of_lt_ctz
      rw [Nat.shiftLeft_eq] at hlt
      omega
    rw [hzero, decide_eq_true hlt, Bool.not_true, Bool.and_false, Bool.false_and]
  · rw [decide_eq_true hi, decide_eq_false hlt, Nat.add_sub_cancel' (not_lt.mp hlt), Bool.not_false,
      Bool.true_and, Bool.true_and]

theorem window_fits (hc : c ≤ x.clz.toNat >>> 2) (hct : c + t < 16) :
    (x >>> (t <<< 2)).toNat < 2 ^ ((16 - (c + t)) <<< 2) := by
  rw [Nat.shiftRight_eq_div_pow] at hc
  have hhigh : x.toNat < 2 ^ (64 - x.clz.toNat) := BitVec.toNat_lt_two_pow_sub_clz
  rw [BitVec.toNat_ushiftRight, Nat.shiftRight_eq_div_pow, Nat.div_lt_iff_lt_mul (Nat.two_pow_pos _),
    ← Nat.pow_add]
  refine hhigh.trans_le (Nat.pow_le_pow_right (by decide) ?_)
  simp only [Nat.shiftLeft_eq]
  omega

/-- Reading a window gives back the difference that was shifted into it. -/
theorem readWindow_spec (hx : x ≠ 0) (hc : c ≤ x.clz.toNat >>> 2) (ht : t ≤ x.ctz.toNat >>> 2) {r : GorillaReader}
    {tail : List Bool} (hsize : r.valueSize = 16 - (c + t)) (hctz : r.ctz = t) (hle : r.reader.offset ≤ 64)
    (hrest : r.reader.rest = bitsOf ((16 - (c + t)) <<< 2) (x >>> (t <<< 2)).toNat ++ tail) :
    ∃ reader, r.readWindow = .ok { r with value := r.value ^^^ x, reader := reader } ∧
      reader.rest = tail ∧ reader.offset ≤ 64 := by
  have hct : c + t < 16 := lt_of_le_of_lt (Nat.add_le_add hc ht) (nibbles_lt hx)
  obtain ⟨reader, hread, hrest', hle'⟩ := read_bitsOf hrest hle (by rw [Nat.shiftLeft_eq]; omega)
  refine ⟨reader, ?_, hrest', hle'⟩
  rw [Nat.mod_eq_of_lt (window_fits hc hct), BitVec.ofNat_toNat, BitVec.setWidth_eq] at hread
  rw [GorillaReader.readWindow, hsize, hctz, hread, ok_bind]
  simp only
  rw [shl_of_lt (by rw [Nat.shiftLeft_eq]; omega), ok_bind, shift_back ht]
  rfl

theorem xor_back (value last : BitVec 64) : last ^^^ (value ^^^ last) = value := by
  rw [BitVec.xor_comm value, ← BitVec.xor_assoc, BitVec.xor_self, BitVec.zero_xor]

theorem yieldsValue_first (hz : g.samples = 0) (value : BitVec 64) {g' : GorillaWriter}
    (hclz : g'.lastClz = g.lastClz) (hctz : g'.lastCtz = g.lastCtz) :
    YieldsValue g g' value (bitsOf 64 value.toNat) := by
  intro r tail hagree hle hrest
  obtain ⟨reader, hread, hrest', hle'⟩ := read_bitsOf hrest hle le_rfl
  refine ⟨reader, r.valueSize, r.ctz, ?_, hrest', hle', ?_⟩
  · rw [GorillaReader.loadNextValue, if_pos (hagree.ndx.trans hz), hread, ok_bind,
      Nat.mod_eq_of_lt value.isLt, BitVec.ofNat_toNat, BitVec.setWidth_eq]
    rfl
  · simpa only [SameWindow, hclz, hctz] using hagree.window

theorem yieldsValue_same (hz : g.samples ≠ 0) {g' : GorillaWriter} (hclz : g'.lastClz = unset)
    (hctz : g'.lastCtz = unset) : YieldsValue g g' g.lastValue [false] := by
  intro r tail hagree hle hrest
  obtain ⟨reader, hread, hrest', hle'⟩ := BitReader.readBit_spec hrest hle
  refine ⟨reader, unset, unset, ?_, hrest', hle', Or.inl ⟨hclz, hctz, rfl, rfl⟩⟩
  have hndx : r.ndx ≠ 0 := hagree.ndx ▸ hz
  rw [GorillaReader.loadNextValue, if_neg hndx, hread, ok_bind, ← hagree.value]
  rfl

theorem yieldsValue_reused (hz : g.samples ≠ 0) (value : BitVec 64) {g' : GorillaWriter}
    (hx : value ^^^ g.lastValue ≠ 0) (hc : g.lastClz ≤ (value ^^^ g.lastValue).clz.toNat >>> 2)
    (ht : g.lastCtz ≤ (value ^^^ g.lastValue).ctz.toNat >>> 2)
    (hclz : g'.lastClz = g.lastClz) (hctz : g'.lastCtz = g.lastCtz) :
    YieldsValue g g' value ([true, false] ++ bitsOf ((16 - (g.lastClz + g.lastCtz)) <<< 2)
      ((value ^^^ g.lastValue) >>> (g.lastCtz <<< 2)).toNat) := by
  intro r tail hagree hle hrest
  have hct := lt_of_le_of_lt (Nat.add_le_add hc ht) (nibbles_lt hx)
  obtain ⟨reader1, hread1, hrest1, hle1⟩ := BitReader.readBit_spec hrest hle
  obtain ⟨reader2, hread2, hrest2, hle2⟩ := BitReader.readBit_spec hrest1 hle1
  obtain ⟨hsize, hrctz⟩ : r.valueSize = 16 - g.lastClz - g.lastCtz ∧ r.ctz = g.lastCtz := by
    rcases hagree.window with ⟨hunset, _⟩ | ⟨_, h⟩
    · rw [hunset, unset] at hct
      omega
    · exact h
  have hread := @readWindow_spec _ g.lastClz g.lastCtz hx hc ht { r with reader := reader2 } tail
    (by rw [← Nat.sub_sub]; exact hsize) hrctz hle2 hrest2
  obtain ⟨reader, hwindow, hrest', hle'⟩ := hread
  refine ⟨reader, r.valueSize, r.ctz, ?_, hrest', hle', ?_⟩
  · have hndx : r.ndx ≠ 0 := hagree.ndx ▸ hz
    have hs : r.valueSize ≠ unset := by rw [hsize, unset]; omega
    have hr : r.ctz ≠ unset := by rw [hrctz, unset]; omega
    rw [GorillaReader.loadNextValue, if_neg hndx, hread1, ok_bind]
    change (reader1.readBit >>= _) = _
    rw [hread2, ok_bind]
    change (check (r.valueSize ≠ unset) BitFault.assertion >>= _) = _
    rw [check_of hs, ok_bind, check_of hr, ok_bind, hwindow]
    simp only [hagree.value, xor_back]
  · simpa only [SameWindow, hclz, hctz] using hagree.window

theorem control_fields (hct : c + t < 16) :
    bitsOf 11 (BitVec.ofNat 64 (0x03 <<< 9 ||| c <<< 5 ||| (16 - (c + t)))).toNat =
      [true, true] ++ bitsOf 9 (c <<< 5 ||| (16 - (c + t))) ∧
    (c <<< 5 ||| (16 - (c + t))) % 2 ^ 9 = c <<< 5 ||| (16 - (c + t)) ∧
    (c <<< 5 ||| (16 - (c + t))) &&& 0x1f = 16 - (c + t) ∧
    (c <<< 5 ||| (16 - (c + t))) >>> 5 = c := by
  have hlow : 16 - (c + t) < 2 ^ 5 := by omega
  have hor : c <<< 5 ||| (16 - (c + t)) = c * 32 + (16 - (c + t)) := by
    rw [← Nat.shiftLeft_add_eq_or_of_lt hlow, Nat.shiftLeft_eq]
  have hlt : c <<< 5 ||| (16 - (c + t)) < 2 ^ 9 := by rw [hor]; omega
  have hfull : 0x03 <<< 9 ||| (c <<< 5 ||| (16 - (c + t))) < 2 ^ 64 := by
    rw [← Nat.shiftLeft_add_eq_or_of_lt hlt, Nat.shiftLeft_eq]
    omega
  refine ⟨?_, Nat.mod_eq_of_lt hlt, ?_, ?_⟩
  · rw [BitVec.toNat_ofNat, Nat.or_assoc, Nat.mod_eq_of_lt hfull]
    exact @bitsOf_concat 2 9 3 _ hlt
  · rw [hor, show 0x1f = 2 ^ 5 - 1 from rfl, Nat.and_two_pow_sub_one_eq_mod]
    omega
  · rw [hor, Nat.shiftRight_eq_div_pow]
    omega

theorem yieldsValue_new (hz : g.samples ≠ 0) (value : BitVec 64) {g' : GorillaWriter}
    (hx : value ^^^ g.lastValue ≠ 0)
    (hclz : g'.lastClz = (value ^^^ g.lastValue).clz.toNat >>> 2)
    (hctz : g'.lastCtz = (value ^^^ g.lastValue).ctz.toNat >>> 2) :
    YieldsValue g g' value ([true, true] ++ bitsOf 9 (g'.lastClz <<< 5 ||| (16 - (g'.lastClz + g'.lastCtz))) ++
      bitsOf ((16 - (g'.lastClz + g'.lastCtz)) <<< 2) ((value ^^^ g.lastValue) >>> (g'.lastCtz <<< 2)).toNat) := by
  intro r tail hagree hle hrest
  have hct : g'.lastClz + g'.lastCtz < 16 := by rw [hclz, hctz]; exact nibbles_lt hx
  obtain ⟨_, hmod, hsize, hfield⟩ := control_fields hct
  rw [List.append_assoc, List.append_assoc] at hrest
  obtain ⟨reader1, hread1, hrest1, hle1⟩ := BitReader.readBit_spec hrest hle
  obtain ⟨reader2, hread2, hrest2, hle2⟩ := BitReader.readBit_spec hrest1 hle1
  obtain ⟨reader3, hread3, hrest3, hle3⟩ := read_bitsOf hrest2 hle2 (by decide)
  have hctrl : (BitVec.ofNat 64 ((g'.lastClz <<< 5 ||| (16 - (g'.lastClz + g'.lastCtz))) % 2 ^ 9)).toNat =
      g'.lastClz <<< 5 ||| (16 - (g'.lastClz + g'.lastCtz)) := by
    rw [BitVec.toNat_ofNat, Nat.mod_eq_of_lt (lt_trans (Nat.mod_lt _ (by decide)) (by decide)), hmod]
  have hback : sub32 16 (u32 (g'.lastClz + (16 - (g'.lastClz + g'.lastCtz)))) = g'.lastCtz := by
    rw [sub32, u32, u32]
    omega
  have hwindow := @readWindow_spec _ g'.lastClz g'.lastCtz hx hclz.le hctz.le
    { r with reader := reader3, valueSize := 16 - (g'.lastClz + g'.lastCtz), ctz := g'.lastCtz } tail
    rfl rfl hle3 hrest3
  obtain ⟨reader, hread, hrest', hle'⟩ := hwindow
  refine ⟨reader, 16 - (g'.lastClz + g'.lastCtz), g'.lastCtz, ?_, hrest', hle',
    Or.inr ⟨hct, Nat.sub_sub .. ▸ rfl, rfl⟩⟩
  have hndx : r.ndx ≠ 0 := hagree.ndx ▸ hz
  rw [GorillaReader.loadNextValue, if_neg hndx, hread1, ok_bind]
  change (reader1.readBit >>= _) = _
  rw [hread2, ok_bind]
  change (reader2.read 9 >>= _) = _
  rw [hread3, ok_bind]
  simp only [hctrl, hsize, hfield, hback]
  rw [hread]
  simp only [hagree.value, xor_back]

structure ValueWritten (g g' : GorillaWriter) (value : BitVec 64) (bs : List Bool) : Prop where
  sound : g'.writer.Sound
  stream : g'.writer.stream = g.writer.stream ++ bs
  window : g'.Window
  lastValue : g'.lastValue = value
  samples : g'.samples = g.samples
  lastTimestamp : g'.lastTimestamp = g.lastTimestamp
  lastDelta : g'.lastDelta = g.lastDelta
  yields : YieldsValue g g' value bs

theorem writeValue_spec (hsound : g.writer.Sound) (hwindow : g.Window) (value : BitVec 64) :
    ∃ g' bs, g.writeValue value = .ok g' ∧ ValueWritten g g' value bs := by
  by_cases hz : g.samples = 0
  · obtain ⟨w, hwrite, hw, hstream⟩ := BitWriter.write_spec hsound value (le_refl 64)
    refine ⟨{ g with writer := w, lastValue := value }, _, ?_,
      ⟨hw, hstream, hwindow, rfl, rfl, rfl, rfl, yieldsValue_first hz value rfl rfl⟩⟩
    rw [GorillaWriter.writeValue, if_pos hz, hwrite]
    rfl
  by_cases hx : value ^^^ g.lastValue = 0
  · have hsame : value = g.lastValue := BitVec.xor_eq_zero_iff.mp hx
    obtain ⟨w, hwrite, hw, hstream⟩ := BitWriter.write_spec hsound 0 (show 1 ≤ 64 by decide)
    refine ⟨{ g with writer := w, lastClz := unset, lastCtz := unset, lastValue := value }, [false], ?_,
      ⟨hw, hstream, Or.inl ⟨rfl, rfl⟩, rfl, rfl, rfl, rfl, hsame ▸ yieldsValue_same hz rfl rfl⟩⟩
    rw [GorillaWriter.writeValue, if_neg hz]
    simp only [if_pos hx]
    rw [hwrite]
    rfl
  have hnibbles := nibbles_lt hx
  by_cases hreuse : g.lastClz ≤ (value ^^^ g.lastValue).clz.toNat >>> 2 ∧
      g.lastCtz ≤ (value ^^^ g.lastValue).ctz.toNat >>> 2
  · have hct := lt_of_le_of_lt (Nat.add_le_add hreuse.1 hreuse.2) hnibbles
    have hsize : sub32 16 (u32 (g.lastClz + g.lastCtz)) = 16 - (g.lastClz + g.lastCtz) := by
      rw [u32, Nat.mod_eq_of_lt (by omega), sub32_eq hct.le (by decide)]
    obtain ⟨w1, hwrite1, hw1, hstream1⟩ := BitWriter.write_spec hsound 0x02 (show 2 ≤ 64 by decide)
    obtain ⟨w2, hwrite2, hw2, hstream2⟩ := BitWriter.write_spec hw1
      ((value ^^^ g.lastValue) >>> (g.lastCtz <<< 2))
      (show (16 - (g.lastClz + g.lastCtz)) <<< 2 ≤ 64 by rw [Nat.shiftLeft_eq]; omega)
    refine ⟨{ g with writer := w2, lastValue := value }, _, ?_,
      ⟨hw2, ?_, hwindow, rfl, rfl, rfl, rfl, yieldsValue_reused hz value hx hreuse.1 hreuse.2 rfl rfl⟩⟩
    · rw [GorillaWriter.writeValue, if_neg hz]
      simp only [if_neg hx, if_pos hreuse, hsize]
      rw [shr_of_lt (by rw [Nat.shiftLeft_eq]; omega), ok_bind, hwrite1, ok_bind, hwrite2]
      rfl
    · rw [hstream2, hstream1, List.append_assoc]
      rfl
  · have hsize : sub32 16 (u32 ((value ^^^ g.lastValue).clz.toNat >>> 2 + (value ^^^ g.lastValue).ctz.toNat >>> 2)) =
        16 - ((value ^^^ g.lastValue).clz.toNat >>> 2 + (value ^^^ g.lastValue).ctz.toNat >>> 2) := by
      rw [u32, Nat.mod_eq_of_lt (by omega), sub32_eq hnibbles.le (by decide)]
    set c := (value ^^^ g.lastValue).clz.toNat >>> 2 with hc
    set t := (value ^^^ g.lastValue).ctz.toNat >>> 2 with ht
    obtain ⟨hbits, _⟩ := control_fields hnibbles
    obtain ⟨w1, hwrite1, hw1, hstream1⟩ := BitWriter.write_spec hsound
      (BitVec.ofNat 64 (0x03 <<< 9 ||| c <<< 5 ||| (16 - (c + t)))) (show 11 ≤ 64 by decide)
    obtain ⟨w2, hwrite2, hw2, hstream2⟩ := BitWriter.write_spec hw1 ((value ^^^ g.lastValue) >>> (t <<< 2))
      (show (16 - (c + t)) <<< 2 ≤ 64 by rw [Nat.shiftLeft_eq]; omega)
    refine ⟨{ g with writer := w2, lastClz := c, lastCtz := t, lastValue := value }, _, ?_,
      ⟨hw2, ?_, Or.inr hnibbles, rfl, rfl, rfl, rfl, yieldsValue_new hz value hx hc ht⟩⟩
    · rw [GorillaWriter.writeValue, if_neg hz]
      simp only [if_neg hx, ← hc, ← ht, if_neg hreuse, hsize]
      rw [shr_of_lt (by rw [Nat.shiftLeft_eq]; omega), ok_bind, hwrite1, ok_bind, hwrite2]
      rfl
    · rw [hstream2, hstream1, hbits, List.append_assoc]

def GorillaWriter.writeValues (g : GorillaWriter) : List (BitVec 64) → Except BitFault (List GorillaWriter)
  | [] => .ok []
  | value :: values => do
      let g ← g.writeValue value
      let gs ← g.counted.writeValues values
      return g.counted :: gs

def GorillaReader.loadValues (g : GorillaReader) : Nat → Except BitFault (List GorillaReader)
  | 0 => .ok []
  | n + 1 => do
      let g ← g.loadNextValue
      let gs ← g.counted.loadValues n
      return g.counted :: gs

theorem writeValues_spec (values : List (BitVec 64)) (hsound : g.writer.Sound) (hwindow : g.Window) :
    ∃ gs bs, g.writeValues values = .ok gs ∧ (gs.getLastD g).writer.Sound ∧
      (gs.getLastD g).writer.stream = g.writer.stream ++ bs ∧
      ∀ (r : GorillaReader) (tail : List Bool), ValuesAgree g r → r.reader.offset ≤ 64 →
        r.reader.rest = bs ++ tail → ∃ rs, r.loadValues values.length = .ok rs ∧
          rs.map GorillaReader.value = values ∧ List.Forall₂ SameWindow gs rs := by
  induction values generalizing g with
  | nil => exact ⟨[], [], rfl, hsound, (List.append_nil _).symm, fun r _ _ _ _ => ⟨[], rfl, rfl, .nil⟩⟩
  | cons value values ih =>
      obtain ⟨g', bs, hwrite, h⟩ := writeValue_spec hsound hwindow value
      obtain ⟨gs, cs, hrest, hlast, hstream, hload⟩ := @ih g'.counted h.sound h.window
      refine ⟨g'.counted :: gs, bs ++ cs, ?_, ?_, ?_, fun r tail hagree hle hbits => ?_⟩
      · rw [GorillaWriter.writeValues, hwrite, ok_bind, hrest]
        rfl
      · rwa [List.getLastD_cons]
      · rw [List.getLastD_cons, hstream]
        change g'.writer.stream ++ cs = _
        rw [h.stream, List.append_assoc]
      · rw [List.append_assoc] at hbits
        obtain ⟨reader, valueSize, ctz, hnext, hreader, hoffset, hwin⟩ := h.yields r (cs ++ tail) hagree hle hbits
        set r' : GorillaReader := { r with value := value, reader := reader, valueSize := valueSize, ctz := ctz }
        have hndx : r'.counted.ndx = g'.counted.samples :=
          congrArg (fun n => u32 (n + 1)) (hagree.ndx.trans h.samples.symm)
        obtain ⟨rs, hrs, hvalues, hall⟩ := hload r'.counted tail ⟨hndx, h.lastValue.symm, hwin⟩ hoffset hreader
        refine ⟨r'.counted :: rs, ?_, ?_, .cons hwin hall⟩
        · rw [List.length_cons, GorillaReader.loadValues, hnext, ok_bind, hrs]
          rfl
        · rw [List.map_cons, hvalues]
          rfl

theorem sound_empty : ({} : BitWriter).Sound := ⟨Nat.zero_le _, Nat.dvd_zero _⟩

/-- Whatever values are written, the reader takes them back, with its window
in step with the writer's after each of them. Neither side fails: no window
is used unset, and no word is shifted by its width. -/
theorem values_round_trip (values : List (BitVec 64)) :
    ∃ gs rs, GorillaWriter.writeValues {} values = .ok gs ∧
      GorillaReader.loadValues { reader := { words := (gs.getLastD {}).writer.flush.words } } values.length =
        .ok rs ∧
      rs.map GorillaReader.value = values ∧ List.Forall₂ SameWindow gs rs := by
  obtain ⟨gs, bs, hwrite, hsound, hstream, hload⟩ :=
    @writeValues_spec {} values sound_empty (Or.inl ⟨rfl, rfl⟩)
  obtain ⟨padding, hflush⟩ := BitWriter.flush_stream hsound
  obtain ⟨rs, hrs, hvalues, hall⟩ := hload { reader := { words := (gs.getLastD {}).writer.flush.words } } padding
    ⟨rfl, rfl, Or.inl ⟨rfl, rfl, rfl, rfl⟩⟩ le_rfl (by rw [hstream] at hflush; exact hflush)
  exact ⟨gs, rs, hwrite, hrs, hvalues, hall⟩

end Tyrdbs.Gorilla
