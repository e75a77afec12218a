import Mathlib.Algebra.Order.Ring.Nat
import Mathlib.Data.List.Basic

namespace Tyrdbs

abbrev Byte := Fin 256

instance neZero_byte : NeZero 256 := ⟨by decide⟩

namespace Bytes

variable {α : Type}

/-- Overwrite a buffer from an offset on; what would fall behind its end is
dropped, so the length stays. -/
def splice (buf : List α) (off : Nat) (data : List α) : List α :=
  (buf.take off ++ data ++ buf.drop (off + data.length)).take buf.length

def slice (buf : List α) (off len : Nat) : List α := (buf.drop off).take len

theorem splice_eq {buf data : List α} {off : Nat} (h : off + data.length ≤ buf.length) :
    splice buf off data = buf.take off ++ data ++ buf.drop (off + data.length) := by
  apply List.take_of_length_le
  simp only [List.length_append, List.length_take, List.length_drop]
  omega

theorem length_splice (buf : List α) (off : Nat) (data : List α) :
    (splice buf off data).length = buf.length := by
  simp only [splice, List.length_take, List.length_append, List.length_drop]
  omega

theorem length_slice {buf : List α} {off len : Nat} (h : off + len ≤ buf.length) :
    (slice buf off len).length = len := by
  simp only [slice, List.length_take, List.length_drop]
  omega

theorem length_slice_le (buf : List α) (off len : Nat) : (slice buf off len).length ≤ len := by
  rw [slice, List.length_take]
  exact Nat.min_le_left _ _

theorem take_splice {buf data : List α} {off : Nat} (h : off + data.length ≤ buf.length) :
    (splice buf off data).take (off + data.length) = buf.take off ++ data := by
  have hlen : off + data.length = (buf.take off ++ data).length := by
    simp only [List.length_append, List.length_take]
    omega
  rw [splice_eq h, hlen, List.take_left' rfl]

theorem slice_append_left {a b : List α} {off len : Nat} (h : off + len ≤ a.length) :
    slice (a ++ b) off len = slice a off len := by
  rw [slice, slice, List.drop_append_of_le_length (by omega),
    List.take_append_of_le_length (by rw [List.length_drop]; omega)]

theorem slice_append_right {a b : List α} {off len : Nat} (h : a.length ≤ off) :
    slice (a ++ b) off len = slice b (off - a.length) len := by
  rw [slice, slice, List.drop_append, List.drop_eq_nil_of_le h, List.nil_append]

theorem slice_add (buf : List α) (off m n : Nat) :
    slice buf off (m + n) = slice buf off m ++ slice buf (off + m) n := by
  simp only [slice, List.take_add, List.drop_drop]

theorem slice_zero_length (buf : List α) : slice buf 0 buf.length = buf := by
  rw [slice, List.drop_zero, List.take_length]

theorem slice_splice_self {buf data : List α} {off : Nat} (h : off + data.length ≤ buf.length) :
    slice (splice buf off data) off data.length = data := by
  have hlen : (buf.take off).length = off := by rw [List.length_take]; omega
  rw [splice_eq h, List.append_assoc, slice_append_right (by omega), hlen, Nat.sub_self,
    slice_append_left (by omega), slice_zero_length]

theorem slice_splice_before {buf data : List α} {off i len : Nat} (h : off + data.length ≤ buf.length)
    (hi : i + len ≤ off) : slice (splice buf off data) i len = slice buf i len := by
  have hlen : (buf.take off).length = off := by rw [List.length_take]; omega
  rw [splice_eq h, List.append_assoc, slice_append_left (by omega)]
  conv => rhs; rw [← List.take_append_drop off buf]
  rw [slice_append_left (by omega)]

theorem slice_splice_after {buf data : List α} {off i len : Nat} (h : off + data.length ≤ buf.length)
    (hi : off + data.length ≤ i) : slice (splice buf off data) i len = slice buf i len := by
  have hlen : (buf.take off ++ data).length = off + data.length := by
    rw [List.length_append, List.length_take]; omega
  have htake : (buf.take (off + data.length)).length = off + data.length := by
    rw [List.length_take]; omega
  rw [splice_eq h, slice_append_right (by omega), hlen]
  conv => rhs; rw [← List.take_append_drop (off + data.length) buf]
  rw [slice_append_right (by omega), htake]

theorem splice_middle {a x c data : List α} {i : Nat} (h : i + data.length ≤ x.length) :
    splice (a ++ x ++ c) (a.length + i) data = a ++ splice x i data ++ c := by
  have hbound : a.length + i + data.length ≤ (a ++ x ++ c).length := by
    rw [List.length_append, List.length_append]
    omega
  have htake : (a ++ x ++ c).take (a.length + i) = a ++ x.take i := by
    rw [List.append_assoc, List.take_length_add_append, List.take_append_of_le_length (by omega)]
  have hdrop : (a ++ x ++ c).drop (a.length + i + data.length) = x.drop (i + data.length) ++ c := by
    rw [List.append_assoc, Nat.add_assoc, List.drop_length_add_append, List.drop_append_of_le_length h]
  rw [splice_eq hbound, splice_eq h, htake, hdrop]
  simp only [List.append_assoc]

theorem slice_middle {a x c : List α} {i len : Nat} (h : i + len ≤ x.length) :
    slice (a ++ x ++ c) (a.length + i) len = slice x i len := by
  rw [List.append_assoc, slice_append_right (Nat.le_add_right ..), Nat.add_sub_cancel_left, slice_append_left h]

theorem mod_lt_byte (v : Nat) : v % 256 < 256 := Nat.mod_lt v (by decide)

def littleEndian : Nat → Nat → List Byte
  | 0, _ => []
  | n + 1, v => ⟨v % 256, mod_lt_byte v⟩ :: littleEndian n (v / 256)

def fromLittleEndian : List Byte → Nat
  | [] => 0
  | b :: bs => b.val + 256 * fromLittleEndian bs

@[simp] theorem length_littleEndian (n v : Nat) : (littleEndian n v).length = n := by
  induction n generalizing v with
  | zero => rfl
  | succ n ih => rw [littleEndian, List.length_cons, ih]

theorem littleEndian_zero (n : Nat) : littleEndian n 0 = List.replicate n 0 := by
  induction n with
  | zero => rfl
  | succ n ih => exact congrArg (List.cons 0) ih

theorem fromLittleEndian_littleEndian (n v : Nat) (h : v < 256 ^ n) :
    fromLittleEndian (littleEndian n v) = v := by
  induction n generalizing v with
  | zero => simp only [Nat.pow_zero, Nat.lt_one_iff] at h; simp [littleEndian, fromLittleEndian, h]
  | succ n ih =>
      have hdiv : v / 256 < 256 ^ n := by
        rw [Nat.div_lt_iff_lt_mul (by omega)]
        rwa [Nat.pow_succ] at h
      rw [littleEndian, fromLittleEndian, ih _ hdiv]
      exact Nat.mod_add_div v 256

theorem littleEndian_mod (n v : Nat) : littleEndian n (v % 256 ^ n) = littleEndian n v := by
  induction n generalizing v with
  | zero => rfl
  | succ n ih =>
      have hlow : v % 256 ^ (n + 1) % 256 = v % 256 := Nat.mod_mod_of_dvd v (Nat.dvd_mul_left 256 (256 ^ n))
      have hhigh : v % 256 ^ (n + 1) / 256 = v / 256 % 256 ^ n := by
        rw [Nat.pow_succ, Nat.mul_comm, Nat.mod_mul_right_div_self]
      rw [littleEndian, littleEndian, hhigh, ih]
      exact congrArg (fun x => x :: _) (Fin.ext hlow)

theorem fromLittleEndian_mod (n v : Nat) : fromLittleEndian (littleEndian n v) = v % 256 ^ n := by
  rw [← littleEndian_mod]
  exact fromLittleEndian_littleEndian n _ (Nat.mod_lt v (Nat.pow_pos (by omega)))

theorem fromLittleEndian_lt (bs : List Byte) : fromLittleEndian bs < 256 ^ bs.length := by
  induction bs with
  | nil => exact Nat.one_pos
  | cons b bs ih =>
      have hb := b.isLt
      rw [fromLittleEndian, List.length_cons, Nat.pow_succ]
      omega

theorem length_flatMap_littleEndian (n : Nat) (l : List Nat) : (l.flatMap (littleEndian n)).length = n * l.length := by
  induction l with
  | nil => rfl
  | cons v l ih =>
      rw [List.flatMap_cons, List.length_append, ih, length_littleEndian, List.length_cons, Nat.mul_succ, Nat.add_comm]

theorem flatMap_littleEndian_split {n k v : Nat} {l : List Nat} (h : l[k]? = some v) :
    l.flatMap (littleEndian n) = (l.take k).flatMap (littleEndian n) ++ littleEndian n v ++
      (l.drop (k + 1)).flatMap (littleEndian n) ∧ ((l.take k).flatMap (littleEndian n)).length = n * k := by
  obtain ⟨hlt, rfl⟩ := List.getElem?_eq_some_iff.mp h
  refine ⟨?_, by rw [length_flatMap_littleEndian, List.length_take, Nat.min_eq_left (Nat.le_of_lt hlt)]⟩
  conv => lhs; rw [← List.take_append_drop k l, List.drop_eq_getElem_cons hlt]
  rw [List.flatMap_append, List.flatMap_cons, List.append_assoc]

theorem slice_flatMap_littleEndian {n k v : Nat} {l : List Nat} (h : l[k]? = some v) :
    slice (l.flatMap (littleEndian n)) (n * k) n = littleEndian n v := by
  obtain ⟨hsplit, hlen⟩ := @flatMap_littleEndian_split n k v l h
  rw [hsplit, ← hlen]
  refine (slice_middle (i := 0) (Nat.le_of_eq (by rw [length_littleEndian, Nat.zero_add]))).trans ?_
  rw [slice, List.drop_zero]
  exact List.take_of_length_le (Nat.le_of_eq (length_littleEndian n v))

theorem splice_flatMap_littleEndian {n k v : Nat} {l : List Nat} (h : k < l.length) :
    splice (l.flatMap (littleEndian n)) (n * k) (littleEndian n v) = (l.set k v).flatMap (littleEndian n) := by
  obtain ⟨hsplit, hlen⟩ := @flatMap_littleEndian_split n k l[k] l (List.getElem?_eq_getElem h)
  have hset : (l.set k v)[k]? = some v := List.getElem?_set_self h
  obtain ⟨hsplit', -⟩ := @flatMap_littleEndian_split n k v _ hset
  have hfit : 0 + (littleEndian n v).length ≤ (littleEndian n l[k]).length :=
    Nat.le_of_eq (by rw [length_littleEndian, length_littleEndian, Nat.zero_add])
  rw [hsplit, hsplit', List.take_set_of_le (Nat.le_refl k), List.drop_set_of_lt (Nat.lt_succ_self k), ← hlen]
  refine (splice_middle (i := 0) hfit).trans ?_
  have hall : splice (littleEndian n l[k]) 0 (littleEndian n v) = littleEndian n v := by
    rw [splice_eq hfit, List.take_zero, List.nil_append, Nat.zero_add]
    rw [length_littleEndian, List.drop_of_length_le (Nat.le_of_eq (length_littleEndian n _)), List.append_nil]
  rw [hall]

end Bytes

end Tyrdbs
