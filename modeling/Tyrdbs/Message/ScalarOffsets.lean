import Tyrdbs.Message.Parser

namespace Tyrdbs.Message

open Bytes Outcome

def Scalar.offsetLimit : Scalar → Nat
  | .int8 => 128
  | .uint8 => 256
  | .int16 => 32768
  | _ => 65536

variable {t : Scalar} {msg : List Byte} {offset : Nat}

theorem offsetLimit_le (t : Scalar) : t.offsetLimit ≤ 256 ^ t.size ∧
    (t.signed = true → 2 * t.offsetLimit ≤ 256 ^ t.size) := by
  cases t <;> decide

theorem castOffset_below (h : offset < t.offsetLimit) : t.castOffset offset = offset := by
  obtain ⟨hfits, hhalf⟩ := offsetLimit_le t
  refine castOffset_of_lt (Nat.lt_of_lt_of_le h hfits) (fun hsigned => ?_)
  have := hhalf hsigned
  omega

theorem castOffset_above (h : t.offsetLimit ≤ offset) (hmax : offset < 65536) : t.castOffset offset < offset := by
  cases t with
  | int8 | int16 =>
      simp only [Scalar.offsetLimit, Scalar.castOffset, Scalar.size, Scalar.signed, true_and] at h ⊢
      split <;> omega
  | uint8 =>
      simp only [Scalar.offsetLimit, Scalar.castOffset, Scalar.size, Scalar.signed, Bool.false_eq_true, false_and,
        if_false] at h ⊢
      omega
  | uint16 | int32 | uint32 | int64 | uint64 => exact absurd hmax (Nat.not_lt.mpr h)

/-- Behind the check, parse reads where the offset points in the type of the
scalar. -/
theorem parse_of_le (h : t.castOffset offset + t.size ≤ msg.length) :
    t.parse msg offset = (load msg (t.castOffset offset) t.size).map fromLittleEndian := by
  rw [Scalar.parse, check_of h, ok_bind]
  cases load msg (t.castOffset offset) t.size <;> rfl

theorem parse_of_lt (h : msg.length < t.castOffset offset + t.size) : t.parse msg offset = .error .malformed := by
  rw [Scalar.parse, check_of_not (Int.not_le.mpr h)]
  rfl

theorem parse_written {v : Nat} (hv : v < 256 ^ t.size) (pre post : List Byte)
    (hcast : t.castOffset pre.length = pre.length) :
    t.parse (pre ++ littleEndian t.size v ++ post) pre.length = .ok v := by
  have hlen : pre.length + t.size ≤ (pre ++ littleEndian t.size v ++ post).length := by
    rw [List.length_append, List.length_append, length_littleEndian]
    omega
  have hslice : slice (pre ++ littleEndian t.size v ++ post) (pre.length + 0) t.size =
      slice (littleEndian t.size v) 0 t.size := slice_middle (Nat.le_of_eq (by rw [length_littleEndian, Nat.zero_add]))
  have hall : slice (littleEndian t.size v) 0 t.size = littleEndian t.size v := by
    rw [slice, List.drop_zero]
    exact List.take_of_length_le (Nat.le_of_eq (length_littleEndian t.size v))
  rw [parse_of_le (by rw [hcast]; exact_mod_cast hlen), hcast, load_nat hlen, show pre.length = pre.length + 0 from rfl,
    hslice, hall]
  exact congrArg Except.ok (fromLittleEndian_littleEndian _ _ hv)

/-- What integral_type::serialize appends to a buffer. -/
theorem addScalar_ok {b b' : Builder} {v : Nat} (h : b.addScalar t v = .ok b') :
    b'.bytes = b.bytes ++ littleEndian t.size v := by
  by_cases hfit : b.bytes.length + t.size ≤ b.maxSize
  · rw [Builder.addScalar, check_of hfit] at h
    rw [← Except.ok.inj h]
    rfl
  · rw [Builder.addScalar, check_of_not hfit] at h
    cases h

theorem slice_head (pre post : List Byte) {c : Nat} (hc : c < pre.length) (n : Nat) :
    slice (pre ++ post) c (n + 1) = pre[c] :: slice (pre ++ post) (c + 1) n := by
  have hdrop : (pre ++ post).drop c = pre[c] :: (pre ++ post).drop (c + 1) := by
    rw [List.drop_eq_getElem_cons (by rw [List.length_append]; omega), List.getElem_append_left hc]
  rw [slice, slice, hdrop, List.take_succ_cons]

/-- Where the type changes the offset of a scalar within the message, some
message shows something else there. -/
theorem parse_elsewhere (h : t.castOffset offset < offset) {n : Nat} (hn : offset + t.size ≤ n) :
    ∃ post, (List.replicate offset (1 : Byte) ++ littleEndian t.size 0 ++ post).length = n ∧
      t.parse (List.replicate offset (1 : Byte) ++ littleEndian t.size 0 ++ post) offset ≠ .ok 0 := by
  refine ⟨List.replicate (n - offset - t.size) 0, ?_, fun hok => ?_⟩
  · simp only [List.length_append, List.length_replicate, length_littleEndian]
    omega
  · have hlen : (List.replicate offset (1 : Byte) ++ littleEndian t.size 0 ++
        List.replicate (n - offset - t.size) 0).length = n := by
      simp only [List.length_append, List.length_replicate, length_littleEndian]
      omega
    rw [parse_of_le (by omega)] at hok
    by_cases hneg : t.castOffset offset < 0
    · rw [load, if_neg (fun hin => absurd hin.1 (Int.not_le.mpr hneg))] at hok
      cases hok
    · obtain ⟨c, hc⟩ := Int.eq_ofNat_of_zero_le (Int.not_lt.mp hneg)
      obtain ⟨m, hm⟩ := Nat.exists_eq_add_of_lt (scalar_pos t)
      have hlow : c < (List.replicate offset (1 : Byte)).length := by
        rw [List.length_replicate]
        omega
      rw [hc, load_nat (by omega), List.append_assoc, show t.size = m + 1 by omega, slice_head _ _ hlow,
        List.getElem_replicate] at hok
      have hzero : 1 + 256 * _ = 0 := Except.ok.inj hok
      omega

theorem parse_ne_malformed (h : t.castOffset offset + t.size ≤ msg.length) :
    t.parse msg offset ≠ .error .malformed := by
  rw [parse_of_le h, load]
  split
  case isTrue => exact fun he => by cases he
  case isFalse => exact fun he => by cases he

/-- A scalar that was serialised at an offset of a message is parsed there as
it was, whatever the message, and behind the end of a message the parse throws
and reads nothing, if and only if the type of the scalar can hold the offset or
the offset that it makes of it is also behind the end. -/
theorem parse_serialize_iff (t : Scalar) (n offset : UInt16) :
    ((∀ (b b' : Builder) v post, b.bytes.length = offset.toNat → v < 256 ^ t.size → b.addScalar t v = .ok b' →
        (b'.bytes ++ post).length = n.toNat → t.parse (b'.bytes ++ post) offset.toNat = .ok v) ∧
      (n.toNat < offset.toNat + t.size → ∀ msg, msg.length = n.toNat →
        t.parse msg offset.toNat = .error .malformed)) ↔
    offset.toNat < t.offsetLimit ∨
      n.toNat < offset.toNat + t.size ∧ n.toNat < t.castOffset offset.toNat + t.size := by
  have hmax := offset.toNat_lt
  constructor
  · rintro ⟨hwritten, hbehind⟩
    rcases Nat.lt_or_ge offset.toNat t.offsetLimit with hlow | hhigh
    · exact Or.inl hlow
    · have hcast := castOffset_above hhigh hmax
      rcases Nat.lt_or_ge n.toNat (offset.toNat + t.size) with hout | hin
      · refine Or.inr ⟨hout, Int.not_le.mp (fun hle => ?_)⟩
        have hzeros : (List.replicate n.toNat (0 : Byte)).length = n.toNat := List.length_replicate
        exact parse_ne_malformed (hzeros.symm ▸ hle) (hbehind hout _ hzeros)
      · obtain ⟨post, hlen, hne⟩ := parse_elsewhere hcast hin
        have hadd : Builder.addScalar ⟨List.replicate offset.toNat 1, offset.toNat + t.size⟩ t 0 =
            .ok ⟨List.replicate offset.toNat 1 ++ littleEndian t.size 0, offset.toNat + t.size⟩ := by
          rw [Builder.addScalar, check_of (Nat.le_of_eq (by rw [List.length_replicate]))]
          rfl
        exact absurd (hwritten _ _ 0 post List.length_replicate (Nat.pow_pos (by decide)) hadd hlen) hne
  · rintro (hlow | ⟨hout, hcast⟩)
    · have hcast := castOffset_below hlow
      refine ⟨fun b b' v post hb hv hadd _ => ?_, fun hout msg hmsg => ?_⟩
      · rw [addScalar_ok hadd, ← hb]
        exact parse_written hv b.bytes post (hb ▸ hcast)
      · exact parse_of_lt (by rw [hcast, hmsg]; exact_mod_cast hout)
    · refine ⟨fun b b' v post hb hv hadd hlen => ?_, fun _ msg hmsg => parse_of_lt (hmsg ▸ hcast)⟩
      rw [addScalar_ok hadd, List.length_append, List.length_append, length_littleEndian, hb] at hlen
      omega

/-- A byte behind 256 others is read at their start, and a signed one behind 128
others is read before the message. -/
theorem parse_other_offset :
    Builder.addScalar ⟨List.replicate 256 0, 257⟩ .uint8 7 = .ok ⟨List.replicate 256 0 ++ [7], 257⟩ ∧
    Scalar.uint8.parse (List.replicate 256 0 ++ [7]) 256 = .ok 0 ∧
    Builder.addScalar ⟨List.replicate 128 0, 129⟩ .int8 7 = .ok ⟨List.replicate 128 0 ++ [7], 129⟩ ∧
    Scalar.int8.parse (List.replicate 128 0 ++ [7]) 128 = .error .outOfMessage := by
  have hcast : Scalar.uint8.castOffset 256 = (0 : Nat) := by decide
  have hneg : Scalar.int8.castOffset 128 = -128 := by decide
  refine ⟨?_, ?_, ?_, ?_⟩
  · rw [Builder.addScalar, check_of (by rw [List.length_replicate]; decide)]
    rfl
  · rw [parse_of_le (by rw [hcast, List.length_append, List.length_replicate]; decide), hcast,
      load_nat (by rw [List.length_append, List.length_replicate]; decide)]
    rfl
  · rw [Builder.addScalar, check_of (by rw [List.length_replicate]; decide)]
    rfl
  · rw [parse_of_le (by rw [hneg, List.length_append, List.length_replicate]; decide), hneg, load, if_neg (by decide)]
    rfl

end Tyrdbs.Message
