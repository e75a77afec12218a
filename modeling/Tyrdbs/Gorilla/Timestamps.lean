import Tyrdbs.Gorilla.Values

namespace Tyrdbs.Gorilla

open Allocator Outcome Word Bits

def settled (v : BitVec 64) : BitVec 64 :=
  if -2047 ≤ v.toInt ∧ v.toInt ≤ 2048 then v else ((v + 0x7fffffff) &&& 0xffffffff) - 0x7fffffff

/-- The biased change has 32 bits. -/
def Fits (v : BitVec 64) : Prop := -(2 ^ 31 - 1) ≤ v.toInt ∧ v.toInt ≤ 2 ^ 31

theorem masked_toNat (v : BitVec 64) {n : Nat} {mask : BitVec 64} (hmask : mask.toNat = 2 ^ n - 1) :
    (v &&& mask).toNat = v.toNat % 2 ^ n := by
  rw [BitVec.toNat_and, hmask, Nat.and_two_pow_sub_one_eq_mod]

theorem masked_eq {v mask : BitVec 64} {n : Nat} (hmask : mask.toNat = 2 ^ n - 1) :
    v &&& mask = v ↔ v.toNat < 2 ^ n := by
  constructor
  · intro h
    rw [← h, masked_toNat v hmask]
    exact Nat.mod_lt _ (Nat.two_pow_pos n)
  · intro h
    apply BitVec.eq_of_toNat_eq
    rw [masked_toNat v hmask, Nat.mod_eq_of_lt h]

theorem settled_eq_iff (v : BitVec 64) : settled v = v ↔ Fits v := by
  have hv := v.isLt
  have hint := BitVec.toInt_eq_toNat_cond v
  rw [settled]
  by_cases hsmall : -2047 ≤ v.toInt ∧ v.toInt ≤ 2048
  · rw [if_pos hsmall]
    exact iff_of_true rfl ⟨by omega, by omega⟩
  · rw [if_neg hsmall]
    have hback : (v + 0x7fffffff &&& 0xffffffff) - 0x7fffffff = v ↔
        v + 0x7fffffff &&& 0xffffffff = v + 0x7fffffff := by
      constructor
      · intro h
        exact BitVec.sub_eq_iff_eq_add.mp h
      · intro h
        exact BitVec.sub_eq_iff_eq_add.mpr h
    rw [hback, @masked_eq _ _ 32 rfl, BitVec.toNat_add, Fits]
    change (v.toNat + 2147483647) % 2 ^ 64 < 2 ^ 32 ↔ _
    split at hint <;> omega

/-- A class of values: a prefix, then so many bits of the biased value. -/
theorem class_bits {x : BitVec 64} {m n p : Nat} {mark : BitVec 64} (hx : x.toNat < 2 ^ n)
    (hmark : mark.toNat = p <<< n) : bitsOf (m + n) (x ||| mark).toNat = bitsOf m p ++ bitsOf n x.toNat := by
  rw [BitVec.toNat_or, hmark, Nat.or_comm]
  exact bitsOf_concat hx

theorem read_class {x : BitVec 64} {n : Nat} {r : BitReader} {tail : List Bool} (hx : x.toNat < 2 ^ n)
    (hn : n ≤ 64) (h : r.rest = bitsOf n x.toNat ++ tail) (hle : r.offset ≤ 64) :
    ∃ r', r.read n = .ok (x, r') ∧ r'.rest = tail ∧ r'.offset ≤ 64 := by
  have hread := read_bitsOf h hle hn
  rwa [Nat.mod_eq_of_lt hx, BitVec.ofNat_toNat, BitVec.setWidth_eq] at hread

/-- The reader that gets these bits next takes this change. -/
def YieldsChange (change : BitVec 64) (bs : List Bool) : Prop :=
  ∀ (r : BitReader) (tail : List Bool), r.offset ≤ 64 → r.rest = bs ++ tail →
    ∃ r', GorillaReader.readEncoded r = .ok (change, r') ∧ r'.rest = tail ∧ r'.offset ≤ 64

/-- The same of what is left of the reader after some bits. -/
def Takes (f : BitReader → Except BitFault (BitVec 64 × BitReader)) (change : BitVec 64) (bs : List Bool) : Prop :=
  ∀ (r : BitReader) (tail : List Bool), r.offset ≤ 64 → r.rest = bs ++ tail →
    ∃ r', f r = .ok (change, r') ∧ r'.rest = tail ∧ r'.offset ≤ 64

section Takes

variable {f : BitReader → Except BitFault (BitVec 64 × BitReader)} {change : BitVec 64} {bs : List Bool}

theorem takes_nil (hf : ∀ r, f r = .ok (change, r)) : Takes f change [] :=
  fun r _ hle h => ⟨r, hf r, h, hle⟩

theorem takes_cons {next : BitVec 64 × BitReader → Except BitFault (BitVec 64 × BitReader)} (b : Bool)
    (hf : ∀ r, f r = r.readBit >>= next) (h : Takes (fun r => next (BitVec.ofNat 64 b.toNat, r)) change bs) :
    Takes f change (b :: bs) := by
  intro r tail hle hrest
  obtain ⟨r₁, hread, hrest₁, hle₁⟩ := BitReader.readBit_spec hrest hle
  obtain ⟨r₂, hnext, hrest₂, hle₂⟩ := h r₁ tail hle₁ hrest₁
  refine ⟨r₂, ?_, hrest₂, hle₂⟩
  rw [hf, hread]
  exact hnext

theorem takes_read {x c : BitVec 64} {n : Nat} (hx : x.toNat < 2 ^ n) (hn : n ≤ 64)
    (hf : ∀ r, f r = r.read n >>= fun y => .ok (y.1 - c, y.2)) : Takes f (x - c) (bitsOf n x.toNat) := by
  intro r tail hle hrest
  obtain ⟨r', hread, hrest', hle'⟩ := read_class hx hn hrest hle
  refine ⟨r', ?_, hrest', hle'⟩
  rw [hf, hread, ok_bind]

end Takes

theorem yieldsChange_zero : YieldsChange 0 [false] :=
  takes_cons false (fun _ => rfl) (takes_nil (fun _ => rfl))

theorem yieldsChange_7 {x : BitVec 64} (hx : x.toNat < 2 ^ 7) :
    YieldsChange (x - 0x3f) ([true, false] ++ bitsOf 7 x.toNat) := by
  refine takes_cons true (fun _ => rfl) (takes_cons false (fun _ => rfl) ?_)
  exact takes_read hx (by decide) (fun _ => rfl)

theorem yieldsChange_9 {x : BitVec 64} (hx : x.toNat < 2 ^ 9) :
    YieldsChange (x - 0xff) ([true, true, false] ++ bitsOf 9 x.toNat) := by
  refine takes_cons true (fun _ => rfl) (takes_cons true (fun _ => rfl) (takes_cons false (fun _ => rfl) ?_))
  exact takes_read hx (by decide) (fun _ => rfl)

theorem yieldsChange_12 {x : BitVec 64} (hx : x.toNat < 2 ^ 12) :
    YieldsChange (x - 0x7ff) ([true, true, true, false] ++ bitsOf 12 x.toNat) := by
  refine takes_cons true (fun _ => rfl) (takes_cons true (fun _ => rfl) ?_)
  refine takes_cons true (fun _ => rfl) (takes_cons false (fun _ => rfl) ?_)
  exact takes_read hx (by decide) (fun _ => rfl)

theorem yieldsChange_32 {x : BitVec 64} (hx : x.toNat < 2 ^ 32) :
    YieldsChange (x - 0x7fffffff) ([true, true, true, true] ++ bitsOf 32 x.toNat) := by
  refine takes_cons true (fun _ => rfl) (takes_cons true (fun _ => rfl) ?_)
  refine takes_cons true (fun _ => rfl) (takes_cons true (fun _ => rfl) ?_)
  exact takes_read hx (by decide) (fun _ => rfl)

theorem biased_lt {v : BitVec 64} {n k : Nat} (hn : 2 * k + 2 = 2 ^ n)
    (h : -(k : Int) ≤ v.toInt ∧ v.toInt ≤ k + 1) : (v + BitVec.ofNat 64 k).toNat < 2 ^ n := by
  have hv := v.isLt
  have hint := BitVec.toInt_eq_toNat_cond v
  rw [BitVec.toNat_add, BitVec.toNat_ofNat, ← hn]
  split at hint <;> omega

theorem write_class {w : BitWriter} (h : w.Sound) {x mask mark : BitVec 64} {m n p : Nat} (hx : x.toNat < 2 ^ n)
    (hmask : mask.toNat = 2 ^ n - 1) (hmark : mark.toNat = p <<< n) (hle : m + n ≤ 64) :
    ∃ w', w.write (x &&& mask ||| mark) (m + n) = .ok w' ∧ w'.Sound ∧
      w'.stream = w.stream ++ (bitsOf m p ++ bitsOf n x.toNat) := by
  obtain ⟨w', hwrite, hw, hstream⟩ := BitWriter.write_spec h (x &&& mask ||| mark) hle
  refine ⟨w', hwrite, hw, ?_⟩
  rw [hstream, (masked_eq hmask).mpr hx, class_bits hx hmark]

theorem writeEncoded_spec {w : BitWriter} (h : w.Sound) (v : BitVec 64) :
    ∃ w' bs, GorillaWriter.writeEncoded w v = .ok w' ∧ w'.Sound ∧ w'.stream = w.stream ++ bs ∧
      YieldsChange (settled v) bs := by
  have hsub : ∀ k : BitVec 64, v + k - k = v := fun k => BitVec.add_sub_cancel v k
  rw [GorillaWriter.writeEncoded]
  by_cases hz : v = 0
  · obtain ⟨w', hwrite, hw, hstream⟩ := BitWriter.write_spec h 0 (show 1 ≤ 64 by decide)
    rw [if_pos hz, hz]
    exact ⟨w', [false], hwrite, hw, hstream, yieldsChange_zero⟩
  rw [if_neg hz]
  by_cases h7 : -63 ≤ v.toInt ∧ v.toInt ≤ 64
  · have hlt : (v + 0x3f).toNat < 2 ^ 7 := biased_lt (k := 63) (by decide) h7
    have hyields := yieldsChange_7 hlt
    rw [hsub] at hyields
    obtain ⟨w', hwrite, hw, hstream⟩ := @write_class w h _ 0x7f (mark 0x02 7) 2 7 2 hlt rfl rfl (by decide)
    rw [if_pos h7, settled, if_pos (by omega)]
    exact ⟨w', _, hwrite, hw, hstream, hyields⟩
  rw [if_neg h7]
  by_cases h9 : -255 ≤ v.toInt ∧ v.toInt ≤ 256
  · have hlt : (v + 0x0ff).toNat < 2 ^ 9 := biased_lt (k := 255) (by decide) h9
    have hyields := yieldsChange_9 hlt
    rw [hsub] at hyields
    obtain ⟨w', hwrite, hw, hstream⟩ := @write_class w h _ 0x1ff (mark 0x06 9) 3 9 6 hlt rfl rfl (by decide)
    rw [if_pos h9, settled, if_pos (by omega)]
    exact ⟨w', _, hwrite, hw, hstream, hyields⟩
  rw [if_neg h9]
  by_cases h12 : -2047 ≤ v.toInt ∧ v.toInt ≤ 2048
  · have hlt : (v + 0x7ff).toNat < 2 ^ 12 := biased_lt (k := 2047) (by decide) h12
    have hyields := yieldsChange_12 hlt
    rw [hsub] at hyields
    obtain ⟨w', hwrite, hw, hstream⟩ := @write_class w h _ 0xfff (mark 0x0e 12) 4 12 14 hlt rfl rfl (by decide)
    rw [if_pos h12, settled, if_pos h12]
    exact ⟨w', _, hwrite, hw, hstream, hyields⟩
  · have hlt : ((v + 0x7fffffff) &&& 0xffffffff).toNat < 2 ^ 32 := by
      rw [@masked_toNat _ 32 _ rfl]
      exact Nat.mod_lt _ (Nat.two_pow_pos 32)
    have hcheck : v &&& (~~~(0xffffffff : BitVec 32)).setWidth 64 = 0 := BitVec.and_zero
    obtain ⟨w', hwrite, hw, hstream⟩ :=
      BitWriter.write_spec h ((v + 0x7fffffff) &&& 0xffffffff ||| mark 0x0f 32) (show 36 ≤ 64 by decide)
    rw [if_neg h12, check_of hcheck, ok_bind, settled, if_neg h12]
    refine ⟨w', _, hwrite, hw, ?_, yieldsChange_32 hlt⟩
    rw [hstream, @class_bits _ 4 32 15 _ hlt rfl]
    rfl

def GorillaWriter.writeAll (g : GorillaWriter) : List (BitVec 64 × BitVec 64) → Except BitFault GorillaWriter
  | [] => .ok g
  | sample :: samples => do
      let g ← g.write sample.1 sample.2
      g.writeAll samples

def GorillaReader.timestamps : Nat → GorillaReader → Except BitFault (List (BitVec 64))
  | 0, _ => .error .exhausted
  | rounds + 1, g => do
      let (more, g) ← g.next
      if more then
        let rest ← timestamps rounds g
        return g.timestamp :: rest
      else return []

/-- How the gap between two timestamps changes, the first gap from zero. -/
def changesFrom (last delta : BitVec 64) : List (BitVec 64) → List (BitVec 64)
  | [] => []
  | t :: ts => (t - last - delta) :: changesFrom t (t - last) ts

def changes : List (BitVec 64) → List (BitVec 64)
  | [] => []
  | t :: ts => changesFrom t 0 ts

structure Agree (g : GorillaWriter) (r : GorillaReader) : Prop extends ValuesAgree g r where
  timestamp : r.timestamp = g.lastTimestamp
  delta : r.delta = g.lastDelta

structure Started (g : GorillaWriter) : Prop where
  sound : g.writer.Sound
  window : g.Window
  second : g.samples = 1 → g.lastDelta = 0

variable {g g' : GorillaWriter} {r : GorillaReader}

theorem write_ok {timestamp value : BitVec 64} (h : g.write timestamp value = .ok g') :
    g.lastTimestamp ≤ timestamp ∧
      ∃ g1 g2, g.writeTimestamp timestamp = .ok g1 ∧ g1.writeValue value = .ok g2 ∧ g' = g2.counted := by
  rw [GorillaWriter.write] at h
  cases h1 : g.writeTimestamp timestamp with
  | error e => rw [h1] at h; cases h
  | ok g1 =>
      rw [h1, ok_bind] at h
      cases h2 : g1.writeValue value with
      | error e => rw [h2] at h; cases h
      | ok g2 =>
          rw [h2, ok_bind] at h
          refine ⟨?_, g1, g2, rfl, h2, (Except.ok.inj h).symm⟩
          by_contra hlt
          rw [GorillaWriter.writeTimestamp, check_of_not hlt] at h1
          cases h1

theorem writeTimestamp_first (hs : Started g) (hz : g.samples = 0) {t : BitVec 64} (ht : g.lastTimestamp ≤ t) :
    ∃ w, g.writeTimestamp t = .ok { g with writer := w, firstTimestamp := t, lastTimestamp := t } ∧ w.Sound ∧
      w.stream = g.writer.stream ++ bitsOf 64 t.toNat ∧
      ∀ (r : GorillaReader) (tail : List Bool), r.ndx = 0 → r.reader.offset ≤ 64 →
        r.reader.rest = bitsOf 64 t.toNat ++ tail → ∃ reader, r.loadNextTimestamp =
          .ok { r with timestamp := t, reader := reader } ∧ reader.rest = tail ∧ reader.offset ≤ 64 := by
  obtain ⟨w, hwrite, hw, hstream⟩ := BitWriter.write_spec hs.sound t (le_refl 64)
  refine ⟨w, ?_, hw, hstream, fun r tail hndx hle hrest => ?_⟩
  · rw [GorillaWriter.writeTimestamp, check_of ht, ok_bind, if_pos hz, hwrite]
    rfl
  · obtain ⟨reader, hread, hrest', hle'⟩ := read_class t.isLt le_rfl hrest hle
    refine ⟨reader, ?_, hrest', hle'⟩
    rw [GorillaReader.loadNextTimestamp, if_pos hndx, hread]
    rfl

theorem writeTimestamp_later (hs : Started g) (hz : g.samples ≠ 0) {t : BitVec 64} (ht : g.lastTimestamp ≤ t) :
    ∃ w bs, g.writeTimestamp t = .ok { g with
        writer := w, delta := t - g.lastTimestamp, lastDelta := t - g.lastTimestamp, lastTimestamp := t } ∧
      w.Sound ∧ w.stream = g.writer.stream ++ bs ∧
      YieldsChange (settled (t - g.lastTimestamp - g.lastDelta)) bs := by
  have hchange : (if g.samples = 1 then t - g.lastTimestamp else t - g.lastTimestamp - g.lastDelta) =
      t - g.lastTimestamp - g.lastDelta := by
    by_cases h1 : g.samples = 1
    · rw [if_pos h1, hs.second h1]
      exact (BitVec.sub_zero _).symm
    · rw [if_neg h1]
  obtain ⟨w, bs, hwrite, hw, hstream, hyields⟩ :=
    writeEncoded_spec hs.sound (t - g.lastTimestamp - g.lastDelta)
  refine ⟨w, bs, ?_, hw, hstream, hyields⟩
  rw [GorillaWriter.writeTimestamp, check_of ht, ok_bind, if_neg hz]
  simp only [hchange]
  rw [hwrite]
  rfl

theorem next_ok {r1 r2 : GorillaReader} (hne : r.ndx ≠ r.samples) (h1 : r.loadNextTimestamp = .ok r1)
    (h2 : r1.loadNextValue = .ok r2) : r.next = .ok (true, r2.counted) := by
  rw [GorillaReader.next, if_neg hne, h1, ok_bind, h2]
  rfl

theorem timestamps_next {rounds : Nat} {r' : GorillaReader} (h : r.next = .ok (true, r')) :
    GorillaReader.timestamps (rounds + 1) r =
      (GorillaReader.timestamps rounds r' >>= fun rest => .ok (r'.timestamp :: rest)) := by
  rw [GorillaReader.timestamps, h]
  rfl

theorem cons_eq_ok_iff {x : Except BitFault (List (BitVec 64))} {t t' : BitVec 64} {ts : List (BitVec 64)} :
    (x >>= fun rest => .ok (t :: rest)) = .ok (t' :: ts) ↔ t = t' ∧ x = .ok ts := by
  cases x with
  | error e => exact iff_of_false (fun h => by cases h) (fun h => by cases h.2)
  | ok rest => rw [ok_bind, Except.ok.injEq, Except.ok.injEq, List.cons.injEq]

/-- A timestamp is read back if and only if the change of its gap fits. -/
theorem add_settled_iff (t last delta : BitVec 64) :
    last + (delta + settled (t - last - delta)) = t ↔ Fits (t - last - delta) := by
  constructor
  · intro h
    refine (settled_eq_iff _).mp ?_
    generalize settled (t - last - delta) = u at h
    rw [← h, BitVec.add_comm last, BitVec.add_sub_cancel, BitVec.add_comm delta, BitVec.add_sub_cancel]
  · intro h
    rw [(settled_eq_iff _).mpr h, BitVec.add_comm delta, BitVec.sub_add_cancel, BitVec.add_comm last,
      BitVec.sub_add_cancel]

/-- The rest of the samples, once there is one: the reader gets their
timestamps if and only if every change fits. -/
theorem writeAll_later (samples : List (BitVec 64 × BitVec 64)) (hs : Started g) (hpos : 0 < g.samples)
    (hlen : g.samples + samples.length < 2 ^ 32) (h : g.writeAll samples = .ok g') :
    g'.writer.Sound ∧ g'.samples = g.samples + samples.length ∧ ∃ bs, g'.writer.stream = g.writer.stream ++ bs ∧
      ∀ (r : GorillaReader) (tail : List Bool), Agree g r → r.samples = g'.samples → r.reader.offset ≤ 64 →
        r.reader.rest = bs ++ tail →
        (GorillaReader.timestamps (samples.length + 1) r = .ok (samples.map Prod.fst) ↔
          ∀ v ∈ changesFrom g.lastTimestamp g.lastDelta (samples.map Prod.fst), Fits v) := by
  induction samples generalizing g with
  | nil =>
      rw [GorillaWriter.writeAll, Except.ok.injEq] at h
      subst h
      refine ⟨hs.sound, rfl, [], (List.append_nil _).symm, fun r tail hagree hcount _ _ => ?_⟩
      refine iff_of_true ?_ (fun v hv => absurd hv List.not_mem_nil)
      rw [List.length_nil, GorillaReader.timestamps, GorillaReader.next, if_pos (hagree.ndx.trans hcount.symm)]
      rfl
  | cons sample samples ih =>
      obtain ⟨t, value⟩ := sample
      rw [GorillaWriter.writeAll] at h
      cases hw : g.write t value with
      | error e => rw [hw] at h; cases h
      | ok g3 =>
          rw [hw, ok_bind] at h
          rw [List.length_cons] at hlen ⊢
          obtain ⟨hle, g1, g2, h1, h2, rfl⟩ := write_ok hw
          obtain ⟨w, bs, htime, hsound, hstream, hchange⟩ := writeTimestamp_later hs hpos.ne' hle
          rw [h1, Except.ok.injEq] at htime
          subst htime
          obtain ⟨g2', cs, hvalue, hwritten⟩ := @writeValue_spec
            { g with
                writer := w, delta := t - g.lastTimestamp, lastDelta := t - g.lastTimestamp, lastTimestamp := t }
            hsound hs.window value
          rw [h2, Except.ok.injEq] at hvalue
          subst hvalue
          have hcount : g2.counted.samples = g.samples + 1 := by
            change u32 (g2.samples + 1) = _
            rw [hwritten.samples, u32, Nat.mod_eq_of_lt (by simp only; omega)]
          have hlast : g2.counted.lastTimestamp = t := hwritten.lastTimestamp
          have hdelta : g2.counted.lastDelta = t - g.lastTimestamp := hwritten.lastDelta
          obtain ⟨hsound', hsamples, ds, hall, hread⟩ := @ih g2.counted
            ⟨hwritten.sound, hwritten.window, fun h1 => by omega⟩ (by omega) (by omega) h
          refine ⟨hsound', by omega, bs ++ (cs ++ ds), ?_, fun r tail hagree hrcount hoff hrest => ?_⟩
          · rw [hall]
            change g2.writer.stream ++ ds = _
            rw [hwritten.stream]
            change w.stream ++ cs ++ ds = _
            rw [hstream, List.append_assoc, List.append_assoc]
          · rw [List.append_assoc, List.append_assoc] at hrest
            obtain ⟨reader1, hread1, hrest1, hoff1⟩ := hchange r.reader _ hoff hrest
            set v := t - g.lastTimestamp - g.lastDelta with hv
            set r1 : GorillaReader := { r with
              delta := r.delta + settled v, timestamp := r.timestamp + (r.delta + settled v), reader := reader1 }
              with hr1
            have hload : r.loadNextTimestamp = .ok r1 := by
              have hndx : r.ndx ≠ 0 := by rw [hagree.ndx]; omega
              rw [GorillaReader.loadNextTimestamp, if_neg hndx, hread1]
              rfl
            obtain ⟨reader2, valueSize, ctz, hread2, hrest2, hoff2, hwin⟩ :=
              hwritten.yields r1 _ ⟨hagree.ndx, hagree.value, hagree.window⟩ hoff1 hrest1
            set r2 : GorillaReader := { r1 with
              value := value, reader := reader2, valueSize := valueSize, ctz := ctz } with hr2
            have hnext : r.next = .ok (true, r2.counted) := by
              refine next_ok ?_ hload hread2
              rw [hagree.ndx, hrcount]
              omega
            have htime : r2.counted.timestamp = t ↔ Fits v := by
              change r.timestamp + (r.delta + settled v) = t ↔ Fits v
              rw [hagree.timestamp, hagree.delta]
              exact add_settled_iff t g.lastTimestamp g.lastDelta
            rw [timestamps_next hnext, List.map_cons, changesFrom, List.forall_mem_cons, ← hv, cons_eq_ok_iff, htime]
            refine and_congr_right (fun hfit => ?_)
            have hsettled : r.delta + settled v = t - g.lastTimestamp := by
              rw [(settled_eq_iff v).mpr hfit, hagree.delta, hv, BitVec.add_comm, BitVec.sub_add_cancel]
            have hndx : r2.counted.ndx = g2.counted.samples := by
              change u32 (r.ndx + 1) = u32 (g2.samples + 1)
              rw [hagree.ndx, hwritten.samples]
            have hiff := hread r2.counted tail
              ⟨⟨hndx, hwritten.lastValue.symm, hwin⟩, (htime.mpr hfit).trans hlast.symm, hsettled.trans hdelta.symm⟩
              hrcount hoff2 hrest2
            rwa [hlast, hdelta] at hiff

/-- Short of 2^32 samples the counters do not wrap. -/
theorem timestamps_of_short {samples : List (BitVec 64 × BitVec 64)} (hlen : samples.length < 2 ^ 32)
    (h : GorillaWriter.writeAll {} samples = .ok g) :
    GorillaReader.timestamps (samples.length + 1)
        { samples := g.samples, reader := { words := g.flush.writer.words } } = .ok (samples.map Prod.fst) ↔
      ∀ v ∈ changes (samples.map Prod.fst), Fits v := by
  have hstart : Started {} := ⟨sound_empty, Or.inl ⟨rfl, rfl⟩, fun _ => rfl⟩
  cases samples with
  | nil =>
      rw [GorillaWriter.writeAll, Except.ok.injEq] at h
      subst h
      exact iff_of_true rfl (fun v hv => absurd hv List.not_mem_nil)
  | cons sample samples =>
      obtain ⟨t, value⟩ := sample
      rw [GorillaWriter.writeAll] at h
      cases hw : GorillaWriter.write {} t value with
      | error e => rw [hw] at h; cases h
      | ok g3 =>
          rw [hw, ok_bind] at h
          rw [List.length_cons] at hlen ⊢
          obtain ⟨hle, g1, g2, h1, h2, rfl⟩ := write_ok hw
          obtain ⟨w, htime, hsound, hstream, hfirst⟩ := writeTimestamp_first hstart rfl hle
          rw [h1, Except.ok.injEq] at htime
          subst htime
          obtain ⟨g2', cs, hvalue, hwritten⟩ := @writeValue_spec
            { writer := w, firstTimestamp := t, lastTimestamp := t } hsound hstart.window value
          rw [h2, Except.ok.injEq] at hvalue
          subst hvalue
          have hcount : g2.counted.samples = 1 := by
            change u32 (g2.samples + 1) = 1
            rw [hwritten.samples]
            rfl
          have hlast : g2.counted.lastTimestamp = t := hwritten.lastTimestamp
          have hdelta : g2.counted.lastDelta = 0 := hwritten.lastDelta
          obtain ⟨hsound', hsamples, ds, hall, hread⟩ := @writeAll_later g2.counted g samples
            ⟨hwritten.sound, hwritten.window, fun _ => hdelta⟩ (by omega) (by omega) h
          obtain ⟨padding, hflush⟩ := BitWriter.flush_stream hsound'
          have hbits : (GorillaReader.mk g.samples 0 0 0 0 unset unset { words := g.flush.writer.words }).reader.rest =
              bitsOf 64 t.toNat ++ (cs ++ (ds ++ padding)) := by
            change g.flush.writer.words.flatMap _ = _
            refine hflush.trans ?_
            rw [hall]
            change g2.writer.stream ++ ds ++ padding = _
            rw [hwritten.stream]
            change w.stream ++ cs ++ ds ++ padding = _
            rw [hstream, List.append_assoc, List.append_assoc, List.append_assoc]
            rfl
          obtain ⟨reader1, hload, hrest1, hoff1⟩ := hfirst _ _ rfl le_rfl hbits
          set r1 : GorillaReader := { samples := g.samples, timestamp := t, reader := reader1 } with hr1
          obtain ⟨reader2, valueSize, ctz, hread2, hrest2, hoff2, hwin⟩ :=
            hwritten.yields r1 _ ⟨rfl, rfl, Or.inl ⟨rfl, rfl, rfl, rfl⟩⟩ hoff1 hrest1
          set r2 : GorillaReader := { r1 with
            value := value, reader := reader2, valueSize := valueSize, ctz := ctz } with hr2
          have hnext : GorillaReader.next
              { samples := g.samples, reader := { words := g.flush.writer.words } } = .ok (true, r2.counted) := by
            refine next_ok ?_ hload hread2
            change 0 ≠ g.samples
            omega
          have hiff := hread r2.counted padding
            ⟨⟨hcount.symm, hwritten.lastValue.symm, hwin⟩, hlast.symm, hdelta.symm⟩ rfl hoff2 hrest2
          rw [hlast, hdelta] at hiff
          rw [List.map_cons, changes, ← hiff, timestamps_next hnext, cons_eq_ok_iff]
          exact and_iff_right rfl

theorem write_returns (hsound : g.writer.Sound) (hwindow : g.Window) {t : BitVec 64} (hle : g.lastTimestamp ≤ t)
    (value : BitVec 64) :
    ∃ g', g.write t value = .ok g' ∧ g'.writer.Sound ∧ g'.Window ∧ g'.lastTimestamp = t := by
  obtain ⟨g1, h1, hsound1, hwindow1, hlast1⟩ : ∃ g1, g.writeTimestamp t = .ok g1 ∧ g1.writer.Sound ∧
      g1.Window ∧ g1.lastTimestamp = t := by
    rw [GorillaWriter.writeTimestamp, check_of hle, ok_bind]
    by_cases hz : g.samples = 0
    · obtain ⟨w, hwrite, hw, _⟩ := BitWriter.write_spec hsound t (le_refl 64)
      rw [if_pos hz, hwrite]
      exact ⟨_, rfl, hw, hwindow, rfl⟩
    · obtain ⟨w, bs, hwrite, hw, _⟩ := writeEncoded_spec hsound
        (if g.samples = 1 then t - g.lastTimestamp else t - g.lastTimestamp - g.lastDelta)
      rw [if_neg hz]
      simp only [hwrite, ok_bind]
      exact ⟨_, rfl, hw, hwindow, rfl⟩
  obtain ⟨g2, _, h2, hwritten⟩ := writeValue_spec hsound1 hwindow1 value
  refine ⟨g2.counted, ?_, hwritten.sound, hwritten.window, hwritten.lastTimestamp.trans hlast1⟩
  rw [GorillaWriter.write, h1, ok_bind, h2]
  rfl

/-- Samples are accepted if and only if time does not go back. -/
theorem writeAll_accepts (samples : List (BitVec 64 × BitVec 64)) (hsound : g.writer.Sound)
    (hwindow : g.Window) : (∃ g', g.writeAll samples = .ok g') ↔
      (g.lastTimestamp :: samples.map Prod.fst).IsChain (· ≤ ·) := by
  induction samples generalizing g with
  | nil => exact iff_of_true ⟨g, rfl⟩ (List.isChain_singleton _)
  | cons sample samples ih =>
      rw [List.map_cons, List.isChain_cons_cons]
      constructor
      · rintro ⟨g', h⟩
        rw [GorillaWriter.writeAll] at h
        cases hw : g.write sample.1 sample.2 with
        | error e => rw [hw] at h; cases h
        | ok g3 =>
            have hle := (write_ok hw).1
            obtain ⟨g4, hg4, hsound', hwindow', hlast⟩ := write_returns hsound hwindow hle sample.2
            rw [hw, Except.ok.injEq] at hg4
            subst hg4
            rw [hw, ok_bind] at h
            exact ⟨hle, hlast ▸ (ih hsound' hwindow').mp ⟨g', h⟩⟩
      · rintro ⟨hle, hchain⟩
        obtain ⟨g3, hw, hsound', hwindow', hlast⟩ := write_returns hsound hwindow hle sample.2
        obtain ⟨g', h⟩ := (ih hsound' hwindow').mpr (hlast.symm ▸ hchain)
        exact ⟨g', by rw [GorillaWriter.writeAll, hw, ok_bind, h]⟩

theorem writeTimestamp_samples {t : BitVec 64} (h : g.writeTimestamp t = .ok g') : g'.samples = g.samples := by
  have hyields : Yields (fun _ => True) (fun g' => g'.samples = g.samples) (g.writeTimestamp t) := by
    rw [GorillaWriter.writeTimestamp]
    refine (yields_true _).bind (fun _ _ => ?_)
    by_cases hz : g.samples = 0
    · rw [if_pos hz]
      exact (yields_true _).bind (fun _ _ => rfl)
    · rw [if_neg hz]
      exact (yields_true _).bind (fun _ _ => rfl)
  exact hyields.of_ok h

theorem writeValue_samples {value : BitVec 64} (h : g.writeValue value = .ok g') : g'.samples = g.samples := by
  have hyields : Yields (fun _ => True) (fun g' => g'.samples = g.samples) (g.writeValue value) := by
    rw [GorillaWriter.writeValue]
    split
    · exact (yields_true _).bind (fun _ _ => rfl)
    · simp only
      split
      · exact (yields_true _).bind (fun _ _ => rfl)
      · split
        · exact (yields_true _).bind (fun _ _ => (yields_true _).bind (fun _ _ =>
            (yields_true _).bind (fun _ _ => rfl)))
        · exact (yields_true _).bind (fun _ _ => (yields_true _).bind (fun _ _ =>
            (yields_true _).bind (fun _ _ => rfl)))
  exact hyields.of_ok h

theorem writeAll_samples {samples : List (BitVec 64 × BitVec 64)} (hlt : g.samples < 2 ^ 32)
    (h : g.writeAll samples = .ok g') : g'.samples = u32 (g.samples + samples.length) := by
  induction samples generalizing g with
  | nil =>
      rw [GorillaWriter.writeAll, Except.ok.injEq] at h
      rw [← h, List.length_nil, Nat.add_zero, u32, Nat.mod_eq_of_lt hlt]
  | cons sample samples ih =>
      rw [GorillaWriter.writeAll] at h
      cases hw : g.write sample.1 sample.2 with
      | error e => rw [hw] at h; cases h
      | ok g3 =>
          rw [hw, ok_bind] at h
          obtain ⟨_, g1, g2, h1, h2, rfl⟩ := write_ok hw
          have hcount : g2.counted.samples = u32 (g.samples + 1) := by
            change u32 (g2.samples + 1) = _
            rw [writeValue_samples h2, writeTimestamp_samples h1]
          rw [ih (hcount ▸ Nat.mod_lt _ (Nat.two_pow_pos 32)) h, hcount, List.length_cons, u32, u32, u32]
          omega

theorem loadNextTimestamp_counts {r r' : GorillaReader} (h : r.loadNextTimestamp = .ok r') :
    r'.ndx = r.ndx ∧ r'.samples = r.samples := by
  have hyields : Yields (fun _ => True) (fun r' => r'.ndx = r.ndx ∧ r'.samples = r.samples)
      r.loadNextTimestamp := by
    rw [GorillaReader.loadNextTimestamp]
    split
    · exact (yields_true _).bind (fun _ _ => ⟨rfl, rfl⟩)
    · exact (yields_true _).bind (fun _ _ => ⟨rfl, rfl⟩)
  exact hyields.of_ok h

theorem loadNextValue_counts {r r' : GorillaReader} (h : r.loadNextValue = .ok r') :
    r'.ndx = r.ndx ∧ r'.samples = r.samples := by
  have hwindow : ∀ u : GorillaReader, u.ndx = r.ndx → u.samples = r.samples →
      Yields (fun _ => True) (fun r' => r'.ndx = r.ndx ∧ r'.samples = r.samples) u.readWindow :=
    fun u hndx hsamples => (yields_true _).bind (fun _ _ => (yields_true _).bind (fun _ _ => ⟨hndx, hsamples⟩))
  have hyields : Yields (fun _ => True) (fun r' => r'.ndx = r.ndx ∧ r'.samples = r.samples)
      r.loadNextValue := by
    rw [GorillaReader.loadNextValue]
    split
    · exact (yields_true _).bind (fun _ _ => ⟨rfl, rfl⟩)
    · refine (yields_true _).bind (fun _ _ => ?_)
      split
      split
      · exact ⟨rfl, rfl⟩
      · refine (yields_true _).bind (fun _ _ => ?_)
        split
        split
        · exact (yields_true _).bind (fun _ _ => (yields_true _).bind (fun _ _ => hwindow _ rfl rfl))
        · exact (yields_true _).bind (fun _ _ => hwindow _ rfl rfl)
  exact hyields.of_ok h

theorem timestamps_length {rounds : Nat} {r : GorillaReader} {ts : List (BitVec 64)}
    (hle : r.ndx ≤ r.samples) (hlt : r.samples < 2 ^ 32) (h : GorillaReader.timestamps rounds r = .ok ts) :
    ts.length = r.samples - r.ndx := by
  induction rounds generalizing r ts with
  | zero => cases h
  | succ rounds ih =>
      rw [GorillaReader.timestamps, GorillaReader.next] at h
      by_cases hend : r.ndx = r.samples
      · rw [if_pos hend] at h
        rw [← Except.ok.inj h, hend, Nat.sub_self]
        rfl
      rw [if_neg hend] at h
      cases h1 : r.loadNextTimestamp with
      | error e => rw [h1] at h; cases h
      | ok r1 =>
          rw [h1, ok_bind] at h
          cases h2 : r1.loadNextValue with
          | error e => rw [h2] at h; cases h
          | ok r2 =>
              rw [h2, ok_bind] at h
              change (GorillaReader.timestamps rounds r2.counted >>= fun rest =>
                .ok (r2.counted.timestamp :: rest)) = _ at h
              obtain ⟨hndx1, hsamples1⟩ := loadNextTimestamp_counts h1
              obtain ⟨hndx2, hsamples2⟩ := loadNextValue_counts h2
              have hsamples : r2.counted.samples = r.samples := hsamples2.trans hsamples1
              have hndx : r2.counted.ndx = r.ndx + 1 := by
                change u32 (r2.ndx + 1) = _
                rw [hndx2, hndx1, u32, Nat.mod_eq_of_lt (by omega)]
              cases hrest : GorillaReader.timestamps rounds r2.counted with
              | error e => rw [hrest] at h; cases h
              | ok rest =>
                  rw [hrest, ok_bind, Except.ok.injEq] at h
                  rw [← h, List.length_cons, ih (by omega) (by omega) hrest, hsamples, hndx]
                  omega

/-- What the writer accepted is read back exactly when the samples can be
counted in 32 bits and no gap differs from the one before it by more than 32
bits hold. -/
theorem timestamps_round_trip_iff {samples : List (BitVec 64 × BitVec 64)}
    (h : GorillaWriter.writeAll {} samples = .ok g) :
    GorillaReader.timestamps (samples.length + 1)
        { samples := g.samples, reader := { words := g.flush.writer.words } } = .ok (samples.map Prod.fst) ↔
      samples.length < 2 ^ 32 ∧ ∀ v ∈ changes (samples.map Prod.fst), Fits v := by
  by_cases hlen : samples.length < 2 ^ 32
  · rw [and_iff_right hlen]
    exact timestamps_of_short hlen h
  · refine iff_of_false (fun hok => hlen ?_) (fun hboth => hlen hboth.1)
    have hcount : g.samples = u32 (0 + samples.length) := writeAll_samples (g := {}) (Nat.two_pow_pos 32) h
    have hlt : g.samples < 2 ^ 32 := hcount ▸ Nat.mod_lt _ (Nat.two_pow_pos 32)
    have hread := timestamps_length (Nat.zero_le _) hlt hok
    rw [List.length_map] at hread
    simp only at hread
    omega

/-- Two gaps of sixty and one of sixty-one. -/
theorem timestamps_round_trip_iff_minutes : ∃ g,
    GorillaWriter.writeAll {} [(100, 7), (160, 7), (220, 9), (281, 0)] = .ok g ∧
      (GorillaReader.timestamps 5 { samples := g.samples, reader := { words := g.flush.writer.words } } =
          .ok [100, 160, 220, 281] ↔
        4 < 2 ^ 32 ∧ ∀ v ∈ changes [100, 160, 220, 281], Fits v) := by
  obtain ⟨g, h⟩ := (@writeAll_accepts {} [(100, 7), (160, 7), (220, 9), (281, 0)] sound_empty
    (Or.inl ⟨rfl, rfl⟩)).mpr (by decide)
  exact ⟨g, h, timestamps_round_trip_iff h⟩

/-- A gap of 2^33 after the first sample is read back as another one. -/
theorem timestamps_lost : ¬ ∀ (samples : List (BitVec 64 × BitVec 64)) (g : GorillaWriter),
    GorillaWriter.writeAll {} samples = .ok g →
      GorillaReader.timestamps (samples.length + 1)
        { samples := g.samples, reader := { words := g.flush.writer.words } } = .ok (samples.map Prod.fst) := by
  intro hall
  obtain ⟨samples, hsamples⟩ : ∃ samples : List (BitVec 64 × BitVec 64), samples = [(0, 0), (0x200000000, 0)] :=
    ⟨_, rfl⟩
  have hshort : samples.length < 2 ^ 32 := by
    rw [hsamples, List.length_cons, List.length_singleton]
    omega
  obtain ⟨g, h⟩ := (@writeAll_accepts {} samples sound_empty (Or.inl ⟨rfl, rfl⟩)).mpr (by rw [hsamples]; decide)
  have hfits := (timestamps_of_short hshort h).mp (hall samples g h)
  rw [hsamples] at hfits
  have hwide := (hfits _ (List.mem_singleton_self _)).2
  rw [BitVec.toInt_eq_toNat_cond] at hwide
  revert hwide
  decide

end Tyrdbs.Gorilla
