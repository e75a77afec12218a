import Tyrdbs.Library.Bits
import Tyrdbs.Library.Outcome

namespace Tyrdbs

open Outcome Bits

/-- A shift by the width of its operand or more has no defined result. -/
inductive BitFault
  | assertion
  | shift
  | exhausted
  deriving DecidableEq

namespace Word

def shl (x : BitVec 64) (n : Nat) : Except BitFault (BitVec 64) := do
  check (n < 64) .shift
  return x <<< n

def shr (x : BitVec 64) (n : Nat) : Except BitFault (BitVec 64) := do
  check (n < 64) .shift
  return x >>> n

/-- The low bits of a word, which a mask of all of them would leave as it is. -/
def low (x : BitVec 64) (bits : Nat) : Except BitFault (BitVec 64) := do
  if bits ≠ 64 then
    let bound ← shl 1 bits
    return x &&& (bound - 1)
  else return x

variable {x : BitVec 64} {n : Nat}

theorem shl_of_lt (h : n < 64) : shl x n = .ok (x <<< n) := by rw [shl, check_of h]; rfl

theorem shr_of_lt (h : n < 64) : shr x n = .ok (x >>> n) := by rw [shr, check_of h]; rfl

theorem low_of_le (h : n ≤ 64) : ∃ y, low x n = .ok y ∧ y.toNat = x.toNat % 2 ^ n := by
  by_cases hn : n = 64
  · refine ⟨x, by rw [low, if_neg (not_not.mpr hn)]; rfl, ?_⟩
    rw [hn, Nat.mod_eq_of_lt x.isLt]
  · have hlt : n < 64 := lt_of_le_of_ne h hn
    refine ⟨x &&& ((1 : BitVec 64) <<< n - 1), by rw [low, if_pos hn, shl_of_lt hlt]; rfl, ?_⟩
    have hpow : 2 ^ n < 2 ^ 64 := Nat.pow_lt_pow_right (by decide) hlt
    have hpos := Nat.two_pow_pos n
    have hone : ((1 : BitVec 64) <<< n).toNat = 2 ^ n := by
      rw [BitVec.toNat_shiftLeft, Nat.shiftLeft_eq]
      exact (congrArg (· % 2 ^ 64) (Nat.one_mul _)).trans (Nat.mod_eq_of_lt hpow)
    have hsub : ((1 : BitVec 64) <<< n - 1).toNat = 2 ^ n - 1 := by
      rw [BitVec.toNat_sub_of_le, hone]
      · rfl
      · rw [BitVec.le_def, hone]
        exact hpos
    rw [BitVec.toNat_and, hsub, Nat.and_two_pow_sub_one_eq_mod]

end Word

open Word

/-- The words are what the writer below was given, first word first. -/
structure BitWriter where
  words : List (BitVec 64) := []
  bits : BitVec 64 := 0
  offset : Nat := 0

namespace BitWriter

def flush (w : BitWriter) : BitWriter :=
  if w.offset = 0 then w else { words := w.words ++ [w.bits], bits := 0, offset := 0 }

/-- One round of the loop in write, with the number of bits that are left. -/
def writeRound (w : BitWriter) (value : BitVec 64) (bits : Nat) : Except BitFault (BitWriter × Nat) := do
  let w := if w.offset = 64 then w.flush else w
  let partBits := min (64 - w.offset) bits
  let v ← shr value (bits - partBits)
  let v ← low v partBits
  let v ← shl v (64 - (w.offset + partBits))
  return ({ w with bits := w.bits ||| v, offset := w.offset + partBits }, bits - partBits)

def writeLoop : Nat → BitWriter → BitVec 64 → Nat → Except BitFault BitWriter
  | 0, w, _, _ => .ok w
  | rounds + 1, w, value, bits =>
      if bits = 0 then .ok w
      else do
        let (w, bits) ← w.writeRound value bits
        writeLoop rounds w value bits

/-- Every round writes a bit or more. -/
def write (w : BitWriter) (value : BitVec 64) (bits : Nat) : Except BitFault BitWriter := do
  check (bits ≤ 64) .assertion
  writeLoop bits w value bits

/-- The bits written so far. -/
def stream (w : BitWriter) : List Bool :=
  w.words.flatMap (fun x => bitsOf 64 x.toNat) ++ bitsOf w.offset (w.bits.toNat >>> (64 - w.offset))

/-- The part of the current word that is not written yet is zero. -/
structure Sound (w : BitWriter) : Prop where
  offset_le : w.offset ≤ 64
  clear : 2 ^ (64 - w.offset) ∣ w.bits.toNat

variable {w : BitWriter}

theorem flush_full (h : w.offset = 64) :
    w.flush.stream = w.stream ∧ w.flush.Sound ∧ w.flush.offset = 0 := by
  have hflush : w.flush = { words := w.words ++ [w.bits], bits := 0, offset := 0 } := by
    rw [flush, if_neg (by omega)]
  rw [hflush]
  refine ⟨?_, ⟨Nat.zero_le _, Nat.dvd_zero _⟩, rfl⟩
  simp [stream, h, bitsOf]

theorem writeRound_spec (h : w.Sound) (value : BitVec 64) {bits : Nat} (hpos : 0 < bits) (hle : bits ≤ 64) :
    ∃ w' part, w.writeRound value bits = .ok (w', bits - part) ∧ 0 < part ∧ part ≤ bits ∧ w'.Sound ∧
      0 < w'.offset ∧ w'.stream = w.stream ++ bitsOf part (value.toNat >>> (bits - part)) := by
  obtain ⟨u, hu, hsound, hstream, hlt⟩ : ∃ u, u = (if w.offset = 64 then w.flush else w) ∧ u.Sound ∧
      u.stream = w.stream ∧ u.offset < 64 := by
    refine ⟨_, rfl, ?_⟩
    by_cases hfull : w.offset = 64
    · obtain ⟨hs, hw, hz⟩ := flush_full hfull
      rw [if_pos hfull]
      exact ⟨hw, hs, by omega⟩
    · rw [if_neg hfull]
      exact ⟨h, rfl, lt_of_le_of_ne h.offset_le hfull⟩
  set part := min (64 - u.offset) bits with hpart
  have hpart_pos : 0 < part := by omega
  have hpart_le : part ≤ bits := Nat.min_le_right _ _
  have hroom : u.offset + part ≤ 64 := by omega
  obtain ⟨y, hy, hynat⟩ := @low_of_le (value >>> (bits - part)) part (by omega)
  have hyval : y.toNat = (value.toNat >>> (bits - part)) % 2 ^ part := by
    rw [hynat, BitVec.toNat_ushiftRight]
  have hylt : y.toNat < 2 ^ part := hyval ▸ Nat.mod_lt _ (Nat.two_pow_pos _)
  have hshift : (y <<< (64 - (u.offset + part))).toNat = y.toNat <<< (64 - (u.offset + part)) := by
    rw [BitVec.toNat_shiftLeft, Nat.shiftLeft_eq]
    refine Nat.mod_eq_of_lt ?_
    calc y.toNat * 2 ^ (64 - (u.offset + part))
        < 2 ^ part * 2 ^ (64 - (u.offset + part)) := (Nat.mul_lt_mul_right (Nat.two_pow_pos _)).mpr hylt
      _ = 2 ^ (64 - u.offset) := by rw [← Nat.pow_add]; congr 1; omega
      _ ≤ 2 ^ 64 := Nat.pow_le_pow_right (by decide) (by omega)
  have hrun : w.writeRound value bits =
      .ok ({ u with bits := u.bits ||| y <<< (64 - (u.offset + part)), offset := u.offset + part },
        bits - part) := by
    simp only [writeRound]
    rw [← hu, ← hpart, shr_of_lt (by omega), ok_bind, hy, ok_bind, shl_of_lt (by omega)]
    rfl
  obtain ⟨x, hx⟩ := hsound.clear
  have hsplit : 64 - u.offset = part + (64 - (u.offset + part)) := by omega
  have hbits : u.bits.toNat = (x <<< part) <<< (64 - (u.offset + part)) := by
    rw [hx, ← Nat.shiftLeft_add, ← hsplit, Nat.shiftLeft_eq, Nat.mul_comm]
  have hnew : (u.bits ||| y <<< (64 - (u.offset + part))).toNat =
      (x <<< part ||| y.toNat) <<< (64 - (u.offset + part)) := by
    rw [BitVec.toNat_or, hshift, hbits, Nat.shiftLeft_or_distrib]
  refine ⟨_, part, hrun, hpart_pos, hpart_le, ⟨hroom, ?_⟩, Nat.add_pos_right _ hpart_pos, ?_⟩
  · simp only [hnew, Nat.shiftLeft_eq]
    exact Nat.dvd_mul_left _ _
  · have hold : u.bits.toNat >>> (64 - u.offset) = x := by
      rw [hx, Nat.shiftRight_eq_div_pow, Nat.mul_div_cancel_left _ (Nat.two_pow_pos _)]
    have hback : (x <<< part ||| y.toNat) <<< (64 - (u.offset + part)) >>> (64 - (u.offset + part)) =
        x <<< part ||| y.toNat := by
      rw [Nat.shiftLeft_eq, Nat.shiftRight_eq_div_pow, Nat.mul_div_cancel _ (Nat.two_pow_pos _)]
    rw [← hstream, stream, stream, hold]
    simp only [hnew, hback]
    rw [bitsOf_concat hylt, hyval, bitsOf_mod, List.append_assoc]

theorem writeLoop_spec (rounds : Nat) (h : w.Sound) (value : BitVec 64) {bits : Nat} (hr : bits ≤ rounds)
    (hle : bits ≤ 64) : ∃ w', writeLoop rounds w value bits = .ok w' ∧ w'.Sound ∧
      (w' = w ∨ 0 < w'.offset) ∧ w'.stream = w.stream ++ bitsOf bits value.toNat := by
  induction rounds generalizing w bits with
  | zero =>
      have hz : bits = 0 := by omega
      subst hz
      exact ⟨w, rfl, h, Or.inl rfl, by rw [bitsOf, List.append_nil]⟩
  | succ rounds ih =>
      by_cases hz : bits = 0
      · subst hz
        exact ⟨w, by rw [writeLoop, if_pos rfl], h, Or.inl rfl, by rw [bitsOf, List.append_nil]⟩
      · obtain ⟨u, part, hrun, hpos, hple, hu, hoffset, hstream⟩ :=
          writeRound_spec h value (Nat.pos_of_ne_zero hz) hle
        obtain ⟨w', hloop, hw', hbegun, hstream'⟩ := @ih u hu (bits - part) (by omega) (by omega)
        have hoffset' : 0 < w'.offset := by
          rcases hbegun with rfl | hpos'
          · exact hoffset
          · exact hpos'
        refine ⟨w', by rw [writeLoop, if_neg hz, hrun]; exact hloop, hw', Or.inr hoffset', ?_⟩
        have hsum : bits = part + (bits - part) := by omega
        rw [hstream', hstream, List.append_assoc]
        conv => rhs; rw [hsum, bitsOf_add]

/-- A write appends the low bits of its value, the most significant first. -/
theorem write_spec (h : w.Sound) (value : BitVec 64) {bits : Nat} (hle : bits ≤ 64) :
    ∃ w', w.write value bits = .ok w' ∧ w'.Sound ∧ w'.stream = w.stream ++ bitsOf bits value.toNat := by
  obtain ⟨w', hloop, hw', _, hstream⟩ := writeLoop_spec bits h value le_rfl hle
  exact ⟨w', by rw [write, check_of hle, ok_bind, hloop], hw', hstream⟩

/-- A word is given to the writer below only when another bit follows. -/
theorem write_begun (h : w.Sound) (value : BitVec 64) {bits : Nat} (hle : bits ≤ 64) {w' : BitWriter}
    (hw' : w.write value bits = .ok w') : w' = w ∨ 0 < w'.offset := by
  obtain ⟨u, hloop, _, hbegun, _⟩ := writeLoop_spec bits h value le_rfl hle
  rw [write, check_of hle, ok_bind, hloop, Except.ok.injEq] at hw'
  exact hw' ▸ hbegun

theorem flush_stream (h : w.Sound) : ∃ padding, w.flush.words.flatMap (fun x => bitsOf 64 x.toNat) =
    w.stream ++ padding := by
  by_cases hz : w.offset = 0
  · exact ⟨[], by rw [flush, if_pos hz, stream, hz, bitsOf, List.append_nil, List.append_nil]⟩
  · refine ⟨bitsOf (64 - w.offset) w.bits.toNat, ?_⟩
    have hsum : w.offset + (64 - w.offset) = 64 := Nat.add_sub_cancel' h.offset_le
    have hword : bitsOf 64 w.bits.toNat = bitsOf w.offset (w.bits.toNat >>> (64 - w.offset)) ++
        bitsOf (64 - w.offset) w.bits.toNat := by
      rw [← bitsOf_add, hsum]
    rw [flush, if_neg hz, stream, List.flatMap_append, List.flatMap_cons, List.flatMap_nil, List.append_nil,
      List.append_assoc, hword]

end BitWriter

structure BitReader where
  words : List (BitVec 64)
  bits : BitVec 64 := 0
  offset : Nat := 64

namespace BitReader

def load (r : BitReader) : Except BitFault BitReader :=
  match r.words with
  | [] => .error .exhausted
  | x :: xs => .ok { words := xs, bits := x, offset := 0 }

def refill (r : BitReader) : Except BitFault BitReader := if r.offset = 64 then r.load else .ok r

/-- One round of the loop in read, with the number of bits that are left. -/
def readRound (r : BitReader) (value : BitVec 64) (bits : Nat) :
    Except BitFault (BitReader × BitVec 64 × Nat) := do
  let r ← r.refill
  let partBits := min (64 - r.offset) bits
  let v ← shr r.bits (64 - (r.offset + partBits))
  let v ← low v partBits
  let v ← shl v (bits - partBits)
  return ({ r with offset := r.offset + partBits }, value ||| v, bits - partBits)

def readLoop : Nat → BitReader → BitVec 64 → Nat → Except BitFault (BitVec 64 × BitReader)
  | 0, r, value, _ => .ok (value, r)
  | rounds + 1, r, value, bits =>
      if bits = 0 then .ok (value, r)
      else do
        let (r, value, bits) ← r.readRound value bits
        readLoop rounds r value bits

/-- Every round reads a bit or more. -/
def read (r : BitReader) (bits : Nat) : Except BitFault (BitVec 64 × BitReader) := do
  check (bits ≤ 64) .assertion
  readLoop bits r 0 bits

/-- The read of a single bit. -/
def readBit (r : BitReader) : Except BitFault (BitVec 64 × BitReader) := do
  let r ← r.refill
  let v ← shr r.bits (63 - r.offset)
  return (v &&& 1, { r with offset := r.offset + 1 })

/-- The bits that are still to be read. -/
def rest (r : BitReader) : List Bool :=
  bitsOf (64 - r.offset) r.bits.toNat ++ r.words.flatMap (fun x => bitsOf 64 x.toNat)

variable {r : BitReader}

/-- With a bit left, the current word has one after the load. -/
theorem refill_spec (h : r.rest ≠ []) (hle : r.offset ≤ 64) :
    ∃ u, r.refill = .ok u ∧ u.rest = r.rest ∧ u.offset < 64 := by
  rw [refill]
  by_cases hfull : r.offset = 64
  · rw [if_pos hfull]
    have hrest : r.rest = r.words.flatMap (fun x => bitsOf 64 x.toNat) := by
      rw [rest, hfull, Nat.sub_self, bitsOf, List.nil_append]
    cases hwords : r.words with
    | nil =>
        rw [hrest, hwords] at h
        exact absurd rfl h
    | cons x xs =>
        refine ⟨{ words := xs, bits := x, offset := 0 }, by rw [load, hwords], ?_, Nat.zero_lt_succ 63⟩
        rw [hrest, hwords]
        rfl
  · rw [if_neg hfull]
    exact ⟨r, rfl, rfl, lt_of_le_of_ne hle hfull⟩

theorem readRound_spec {bs tail : List Bool} (h : r.rest = bs ++ tail) (hle : r.offset ≤ 64)
    (hpos : 0 < bs.length) (hbound : bs.length ≤ 64) (value : BitVec 64) :
    ∃ r' part, 0 < part ∧ part ≤ bs.length ∧ r'.offset ≤ 64 ∧ r'.rest = bs.drop part ++ tail ∧
      r.readRound value bs.length =
        .ok (r', value ||| BitVec.ofNat 64 (valueOf (bs.take part) <<< (bs.length - part)), bs.length - part) := by
  have hne : r.rest ≠ [] := by
    rw [h]
    exact List.append_ne_nil_of_left_ne_nil (List.length_pos_iff.mp hpos) _
  obtain ⟨u, hload, hrest, hlt⟩ := refill_spec hne hle
  set part := min (64 - u.offset) bs.length with hpart
  have hpart_pos : 0 < part := by omega
  have hpart_le : part ≤ bs.length := Nat.min_le_right _ _
  have hroom : u.offset + part ≤ 64 := by omega
  obtain ⟨y, hy, hynat⟩ := @low_of_le (u.bits >>> (64 - (u.offset + part))) part (by omega)
  have hsplit : 64 - u.offset = part + (64 - (u.offset + part)) := by omega
  have hword : u.rest = bitsOf part (u.bits.toNat >>> (64 - (u.offset + part))) ++
      (bitsOf (64 - (u.offset + part)) u.bits.toNat ++ u.words.flatMap (fun x => bitsOf 64 x.toNat)) := by
    rw [rest, hsplit, bitsOf_add, List.append_assoc]
  have hparts : bs.take part ++ (bs.drop part ++ tail) = bitsOf part (u.bits.toNat >>> (64 - (u.offset + part))) ++
      (bitsOf (64 - (u.offset + part)) u.bits.toNat ++ u.words.flatMap (fun x => bitsOf 64 x.toNat)) := by
    rw [← hword, hrest, h, ← List.append_assoc, List.take_append_drop]
  obtain ⟨hhead, htail⟩ := List.append_inj hparts (by rw [List.length_take, length_bitsOf]; omega)
  have hyval : y.toNat = valueOf (bs.take part) := by
    rw [hynat, BitVec.toNat_ushiftRight, hhead, valueOf_bitsOf]
  have hrun : r.readRound value bs.length = .ok ({ u with offset := u.offset + part },
      value ||| y <<< (bs.length - part), bs.length - part) := by
    simp only [readRound]
    rw [hload, ok_bind, ← hpart, shr_of_lt (by omega), ok_bind, hy, ok_bind, shl_of_lt (by omega)]
    rfl
  refine ⟨{ u with offset := u.offset + part }, part, hpart_pos, hpart_le, hroom, ?_, ?_⟩
  · rw [htail]
    rfl
  · have hvalue : y <<< (bs.length - part) =
        BitVec.ofNat 64 (valueOf (bs.take part) <<< (bs.length - part)) := by
      apply BitVec.eq_of_toNat_eq
      rw [BitVec.toNat_shiftLeft, BitVec.toNat_ofNat, hyval]
    rw [hrun, hvalue]

theorem readLoop_spec (rounds : Nat) {bs tail : List Bool} (h : r.rest = bs ++ tail) (hle : r.offset ≤ 64)
    (hr : bs.length ≤ rounds) (hbound : bs.length ≤ 64) (value : BitVec 64) :
    ∃ r', readLoop rounds r value bs.length = .ok (value ||| BitVec.ofNat 64 (valueOf bs), r') ∧
      r'.rest = tail ∧ r'.offset ≤ 64 := by
  induction rounds generalizing r bs value with
  | zero =>
      have hnil : bs = [] := List.length_eq_zero_iff.mp (by omega)
      subst hnil
      exact ⟨r, by simp [readLoop, valueOf], h, hle⟩
  | succ rounds ih =>
      by_cases hz : bs.length = 0
      · have hnil : bs = [] := List.length_eq_zero_iff.mp hz
        subst hnil
        exact ⟨r, by simp [readLoop, valueOf], h, hle⟩
      · obtain ⟨u, part, hpos, hple, hu, hrest, hrun⟩ :=
          readRound_spec h hle (Nat.pos_of_ne_zero hz) hbound value
        have hlen : (bs.drop part).length = bs.length - part := List.length_drop
        obtain ⟨r', hloop, hrest', hle'⟩ := @ih u (bs.drop part) hrest hu (by omega) (by omega)
          (value ||| BitVec.ofNat 64 (valueOf (bs.take part) <<< (bs.length - part)))
        rw [hlen] at hloop
        refine ⟨r', ?_, hrest', hle'⟩
        have hlow : valueOf (bs.drop part) < 2 ^ (bs.length - part) := hlen ▸ valueOf_lt _
        have hval : valueOf bs = valueOf (bs.take part) <<< (bs.length - part) ||| valueOf (bs.drop part) := by
          conv => lhs; rw [← List.take_append_drop part bs]
          rw [valueOf_append, hlen, ← Nat.shiftLeft_add_eq_or_of_lt hlow, Nat.shiftLeft_eq]
        rw [readLoop, if_neg hz, hrun]
        refine hloop.trans ?_
        rw [BitVec.or_assoc, hval, BitVec.ofNat_or]

/-- A read takes the first bits that are left. -/
theorem read_spec {bs tail : List Bool} (h : r.rest = bs ++ tail) (hle : r.offset ≤ 64)
    (hbound : bs.length ≤ 64) :
    ∃ r', r.read bs.length = .ok (BitVec.ofNat 64 (valueOf bs), r') ∧ r'.rest = tail ∧ r'.offset ≤ 64 := by
  obtain ⟨r', hloop, hrest, hle'⟩ := readLoop_spec bs.length h hle le_rfl hbound 0
  have hzero : (0 : BitVec 64) ||| BitVec.ofNat 64 (valueOf bs) = BitVec.ofNat 64 (valueOf bs) := BitVec.zero_or
  rw [hzero] at hloop
  exact ⟨r', by rw [read, check_of hbound, ok_bind, hloop], hrest, hle'⟩

theorem readBit_spec {b : Bool} {tail : List Bool} (h : r.rest = b :: tail) (hle : r.offset ≤ 64) :
    ∃ r', r.readBit = .ok (BitVec.ofNat 64 b.toNat, r') ∧ r'.rest = tail ∧ r'.offset ≤ 64 := by
  obtain ⟨u, hload, hrest, hlt⟩ := refill_spec (by rw [h]; exact List.cons_ne_nil _ _) hle
  have hsplit : 64 - u.offset = (63 - u.offset) + 1 := by omega
  have hword : b :: tail = u.bits.toNat.testBit (63 - u.offset) ::
      (bitsOf (63 - u.offset) u.bits.toNat ++ u.words.flatMap (fun x => bitsOf 64 x.toNat)) := by
    rw [← h, ← hrest, rest, hsplit, bitsOf, List.cons_append]
  obtain ⟨hb, htail⟩ := List.cons.inj hword
  refine ⟨{ u with offset := u.offset + 1 }, ?_, ?_, hlt⟩
  · rw [readBit, hload, ok_bind, shr_of_lt (by omega), ok_bind, hb]
    refine congrArg (fun v => Except.ok (v, _)) ?_
    apply BitVec.eq_of_toNat_eq
    rw [BitVec.toNat_and, BitVec.toNat_ushiftRight, BitVec.toNat_ofNat, Nat.testBit]
    change _ &&& 1 = _
    rw [Nat.and_one_is_mod, Nat.and_comm, Nat.and_one_is_mod]
    rcases Nat.mod_two_eq_zero_or_one (u.bits.toNat >>> (63 - u.offset)) with hz | ho
    · simp [hz]
    · simp [ho]
  · rw [htail]
    rw [rest]
    have hsub : 64 - (u.offset + 1) = 63 - u.offset := by omega
    simp only [hsub]

end BitReader

end Tyrdbs
