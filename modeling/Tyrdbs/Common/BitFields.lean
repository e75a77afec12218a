import Tyrdbs.Common.BitStream
import Mathlib.Algebra.Order.Ring.Nat

namespace Tyrdbs

open Outcome Bits

/-- A value and the number of its bits that are written; a single bit may be
read back with the overload for one. -/
structure BitField where
  value : BitVec 64
  bits : Nat
  bits_le : bits ≤ 64
  single : Bool := true

namespace BitField

/-- What is left of the value in its bits. -/
def kept (f : BitField) : BitVec 64 := BitVec.ofNat 64 (f.value.toNat % 2 ^ f.bits)

def encoded (f : BitField) : List Bool := bitsOf f.bits f.value.toNat

end BitField

def writeFields : BitWriter → List BitField → Except BitFault BitWriter
  | w, [] => .ok w
  | w, f :: fs => do
      let w ← w.write f.value f.bits
      writeFields w fs

def readField (r : BitReader) (f : BitField) : Except BitFault (BitVec 64 × BitReader) :=
  if f.bits = 1 ∧ f.single then r.readBit else r.read f.bits

def readFields : BitReader → List BitField → Except BitFault (List (BitVec 64) × BitReader)
  | r, [] => .ok ([], r)
  | r, f :: fs => do
      let (value, r) ← readField r f
      let (values, r) ← readFields r fs
      return (value :: values, r)

def totalBits (fields : List BitField) : Nat := (fields.map BitField.bits).sum

theorem length_encoded (fields : List BitField) : (fields.flatMap BitField.encoded).length = totalBits fields := by
  induction fields with
  | nil => rfl
  | cons f fs ih =>
      rw [List.flatMap_cons, List.length_append, ih, BitField.encoded, length_bitsOf, totalBits, totalBits,
        List.map_cons, List.sum_cons]

namespace BitWriter

variable {w : BitWriter}

theorem length_stream (w : BitWriter) : w.stream.length = 64 * w.words.length + w.offset := by
  have hwords : ∀ words : List (BitVec 64), (words.flatMap (fun x => bitsOf 64 x.toNat)).length = 64 * words.length := by
    intro words
    induction words with
    | nil => rfl
    | cons x xs ih =>
        rw [List.flatMap_cons, List.length_append, ih, length_bitsOf, List.length_cons]
        omega
  rw [stream, List.length_append, hwords, length_bitsOf]

/-- No word is given away before there is a bit for the next one. -/
def Begun (w : BitWriter) : Prop := w.words = [] ∨ 0 < w.offset

theorem writeFields_spec (fields : List BitField) (h : w.Sound) (hbegun : w.Begun) :
    ∃ w', writeFields w fields = .ok w' ∧ w'.Sound ∧ w'.Begun ∧
      w'.stream = w.stream ++ fields.flatMap BitField.encoded := by
  induction fields generalizing w with
  | nil => exact ⟨w, rfl, h, hbegun, (List.append_nil _).symm⟩
  | cons f fs ih =>
      obtain ⟨u, hwrite, hu, hstream⟩ := write_spec h f.value f.bits_le
      have hbegun' : u.Begun := by
        rcases write_begun h f.value f.bits_le hwrite with rfl | hpos
        · exact hbegun
        · exact Or.inr hpos
      obtain ⟨w', hfields, hw', hlast, hstream'⟩ := ih hu hbegun'
      refine ⟨w', ?_, hw', hlast, ?_⟩
      · rw [writeFields, hwrite, ok_bind, hfields]
      · rw [hstream', hstream, List.append_assoc, List.flatMap_cons, BitField.encoded]

theorem flush_words (h : w.Sound) (hbegun : w.Begun) : w.flush.words.length = (w.stream.length + 63) / 64 := by
  have hle := h.offset_le
  rw [length_stream]
  by_cases hz : w.offset = 0
  · have hnil : w.words = [] := hbegun.resolve_right (by omega)
    rw [flush, if_pos hz, hnil, hz]
    rfl
  · rw [flush, if_neg hz, List.length_append, List.length_singleton]
    omega

end BitWriter

namespace BitReader

variable {r : BitReader}

theorem readField_spec (f : BitField) {tail : List Bool} (h : r.rest = f.encoded ++ tail) (hle : r.offset ≤ 64) :
    ∃ r', readField r f = .ok (f.kept, r') ∧ r'.rest = tail ∧ r'.offset ≤ 64 := by
  have hlength : f.encoded.length = f.bits := length_bitsOf ..
  have hvalue : valueOf f.encoded = f.value.toNat % 2 ^ f.bits := valueOf_bitsOf ..
  rw [readField]
  by_cases hsingle : f.bits = 1 ∧ f.single
  · obtain ⟨b, hb⟩ := List.length_eq_one_iff.mp (hlength.trans hsingle.1)
    rw [hb, List.singleton_append] at h
    rw [hb] at hvalue
    have hbit : b.toNat = f.value.toNat % 2 ^ f.bits := by
      simpa [valueOf] using hvalue
    obtain ⟨r', hread, hrest, hle'⟩ := readBit_spec h hle
    rw [if_pos hsingle, hread, hbit]
    exact ⟨r', rfl, hrest, hle'⟩
  · obtain ⟨r', hread, hrest, hle'⟩ := read_spec h hle (hlength ▸ f.bits_le)
    rw [hlength, hvalue] at hread
    rw [if_neg hsingle, hread]
    exact ⟨r', rfl, hrest, hle'⟩

theorem readFields_spec (fields : List BitField) {tail : List Bool}
    (h : r.rest = fields.flatMap BitField.encoded ++ tail) (hle : r.offset ≤ 64) :
    ∃ r', readFields r fields = .ok (fields.map BitField.kept, r') ∧ r'.rest = tail := by
  induction fields generalizing r with
  | nil => exact ⟨r, rfl, h⟩
  | cons f fs ih =>
      rw [List.flatMap_cons, List.append_assoc] at h
      obtain ⟨u, hread, hrest, hle'⟩ := readField_spec f h hle
      obtain ⟨r', hfields, hrest'⟩ := ih hrest hle'
      refine ⟨r', ?_, hrest'⟩
      simp only [readFields, hread, ok_bind, hfields]
      rfl

end BitReader

/-- The fields that are written come back, cut to their bits, from as few words as can hold them. -/
theorem fields_round_trip (fields : List BitField) :
    ∃ w r, writeFields {} fields = .ok w ∧ w.flush.words.length = (totalBits fields + 63) / 64 ∧
      readFields { words := w.flush.words } fields = .ok (fields.map BitField.kept, r) := by
  have hsound : BitWriter.Sound {} := ⟨Nat.zero_le 64, Nat.dvd_zero _⟩
  obtain ⟨w, hwrite, hw, hbegun, hstream⟩ := BitWriter.writeFields_spec fields hsound (Or.inl rfl)
  have hstream' : w.stream = fields.flatMap BitField.encoded := hstream.trans (List.nil_append _)
  obtain ⟨padding, hflush⟩ := BitWriter.flush_stream hw
  have hrest : BitReader.rest { words := w.flush.words } = fields.flatMap BitField.encoded ++ padding := by
    rw [← hstream', ← hflush]
    rfl
  obtain ⟨r, hread, _⟩ := BitReader.readFields_spec fields hrest (le_refl 64)
  refine ⟨w, r, hwrite, ?_, hread⟩
  rw [BitWriter.flush_words hw hbegun, hstream', length_encoded]

end Tyrdbs
