import Tyrdbs.Slices.Location
import Tyrdbs.Ushard.Records

namespace Tyrdbs.Slices

open Bytes

def nodeSize : Nat := (8192 - 32) * 255 / 256

structure Data where
  bytes : List Byte
  size_eq : bytes.length = nodeSize
  deriving DecidableEq

namespace Data

def put (d : Data) (off : Nat) (bs : List Byte) : Data :=
  ⟨splice d.bytes off bs, by rw [length_splice, d.size_eq]⟩

def u16At (d : Data) (off : Nat) : Nat := fromLittleEndian (slice d.bytes off 2)

end Data

/-- What a node holds at one index: in a leaf a part of a record and its idx,
in an index node the first and last key of a subtree and its location. -/
structure Entry where
  key : List Byte
  value : List Byte
  eor : Bool
  deleted : Bool
  attributes : Nat
  deriving DecidableEq

structure Node where
  data : Data
  keyCount : Nat
  next : Nat := 2 ^ 64 - 1
  deriving DecidableEq

namespace Node

def entryOffset (ndx : Nat) : Nat := 2 + ndx <<< 1 + ndx <<< 2

def valueSizeAt (n : Node) (ndx : Nat) : Nat := n.data.u16At (entryOffset ndx)

def keyOffsetAt (n : Node) (ndx : Nat) : Nat := n.data.u16At (entryOffset ndx + 2)

def flagsAt (n : Node) (ndx : Nat) : Nat := n.data.u16At (entryOffset ndx + 4)

def keySizeAt (n : Node) (ndx : Nat) : Nat := n.flagsAt ndx &&& 1023

def keyAt (n : Node) (ndx : Nat) : List Byte := slice n.data.bytes (n.keyOffsetAt ndx) (n.keySizeAt ndx)

/-- Offsets are subtracted in 16 bits. -/
def valueOffsetAt (n : Node) (ndx : Nat) : Nat :=
  (n.keyOffsetAt ndx + 2 ^ 16 - n.valueSizeAt ndx) % 2 ^ 16

def valueAt (n : Node) (ndx : Nat) : List Byte :=
  slice n.data.bytes (n.valueOffsetAt ndx) (n.valueSizeAt ndx)

def eorAt (n : Node) (ndx : Nat) : Bool := (n.flagsAt ndx).testBit 10

def deletedAt (n : Node) (ndx : Nat) : Bool := (n.flagsAt ndx).testBit 11

def attributesAt (n : Node) (ndx : Nat) : Nat :=
  fromLittleEndian (slice n.data.bytes ((n.valueOffsetAt ndx + 2 ^ 16 - 8) % 2 ^ 16) 8)

def entryAt (n : Node) (ndx : Nat) : Entry :=
  ⟨n.keyAt ndx, n.valueAt ndx, n.eorAt ndx, n.deletedAt ndx, n.attributesAt ndx⟩

def entries (n : Node) : List Entry := (List.range n.keyCount).map n.entryAt

/-- The first loop of lower_bound: halve the range until few keys are left. -/
def narrow (n : Node) (key : List Byte) : Nat → Nat → Nat → Nat × Nat
  | 0, first, last => (first, last)
  | rounds + 1, first, last =>
      if last - first > 8 then
        let ndx := (last - first) >>> 1 + first
        if key ≤ n.keyAt ndx then n.narrow key rounds first ndx else n.narrow key rounds ndx last
      else (first, last)

def scan (n : Node) (key : List Byte) : Nat → Nat → Nat
  | 0, first => first
  | count + 1, first => if key ≤ n.keyAt first then first else n.scan key count (first + 1)

def lowerBound (n : Node) (key : List Byte) : Nat :=
  let r := n.narrow key n.keyCount 0 n.keyCount
  n.scan key (r.2 - r.1) r.1

@[simp] theorem length_entries (n : Node) : n.entries.length = n.keyCount := by
  rw [entries, List.length_map, List.length_range]

theorem getElem_entries (n : Node) {i : Nat} (h : i < n.entries.length) : n.entries[i] = n.entryAt i := by
  simp only [entries, List.getElem_map, List.getElem_range]

theorem narrow_le (n : Node) (key : List Byte) (rounds : Nat) {first last : Nat} (h : first ≤ last) :
    (n.narrow key rounds first last).1 ≤ (n.narrow key rounds first last).2 ∧
      (n.narrow key rounds first last).2 ≤ last := by
  induction rounds generalizing first last with
  | zero => exact ⟨h, le_rfl⟩
  | succ rounds ih =>
      have hhalf : (last - first) >>> 1 = (last - first) / 2 := Nat.shiftRight_eq_div_pow _ 1
      rw [narrow]
      simp only
      split
      · split
        · obtain ⟨hle, hlast⟩ := @ih first ((last - first) >>> 1 + first) (by omega)
          exact ⟨hle, by omega⟩
        · exact ih (by omega)
      · exact ⟨h, le_rfl⟩

theorem scan_le (n : Node) (key : List Byte) (count first : Nat) : n.scan key count first ≤ first + count := by
  induction count generalizing first with
  | zero => exact le_rfl
  | succ count ih =>
      rw [scan]
      split
      · omega
      · have hle := ih (first + 1)
        omega

theorem lowerBound_le (n : Node) (key : List Byte) : n.lowerBound key ≤ n.keyCount := by
  have hnarrow := n.narrow_le key n.keyCount (Nat.zero_le n.keyCount)
  have hscan := n.scan_le key ((n.narrow key n.keyCount 0 n.keyCount).2 - (n.narrow key n.keyCount 0 n.keyCount).1)
    (n.narrow key n.keyCount 0 n.keyCount).1
  rw [lowerBound]
  omega

/-- Every key left of the first position is below the key, and none from the
last position on is. -/
def Brackets (n : Node) (key : List Byte) (first last : Nat) : Prop :=
  first ≤ last ∧ last ≤ n.keyCount ∧ (∀ i < first, n.keyAt i < key) ∧
    ∀ i, last ≤ i → i < n.keyCount → key ≤ n.keyAt i

section Sorted

variable {n : Node} (hs : n.entries.Pairwise (fun e e' => e.key ≤ e'.key))

include hs

theorem keyAt_mono {i j : Nat} (hij : i ≤ j) (hj : j < n.keyCount) : n.keyAt i ≤ n.keyAt j := by
  rcases hij.eq_or_lt with rfl | hlt
  · exact le_rfl
  · have hle := List.pairwise_iff_getElem.mp hs i j (by simp; omega) (by simp; omega) hlt
    rwa [getElem_entries, getElem_entries] at hle

theorem narrow_brackets (key : List Byte) (rounds : Nat) {first last : Nat}
    (h : n.Brackets key first last) :
    n.Brackets key (n.narrow key rounds first last).1 (n.narrow key rounds first last).2 := by
  induction rounds generalizing first last with
  | zero => exact h
  | succ rounds ih =>
      obtain ⟨hle, hlast, hbelow, habove⟩ := h
      rw [narrow]
      by_cases hfar : last - first > 8
      · rw [if_pos hfar]
        have hhalf : (last - first) >>> 1 = (last - first) / 2 := Nat.shiftRight_eq_div_pow _ 1
        simp only
        by_cases hk : key ≤ n.keyAt ((last - first) >>> 1 + first)
        · rw [if_pos hk]
          refine ih ⟨by omega, by omega, hbelow, fun i hi hic => ?_⟩
          exact hk.trans (keyAt_mono hs hi hic)
        · rw [if_neg hk]
          refine ih ⟨by omega, hlast, fun i hi => ?_, habove⟩
          exact (keyAt_mono hs hi.le (by omega)).trans_lt (lt_of_not_ge hk)
      · rw [if_neg hfar]
        exact ⟨hle, hlast, hbelow, habove⟩

theorem scan_brackets (key : List Byte) (count : Nat) {first : Nat}
    (h : n.Brackets key first (first + count)) :
    n.Brackets key (n.scan key count first) (n.scan key count first) := by
  induction count generalizing first with
  | zero => exact h
  | succ count ih =>
      obtain ⟨hle, hlast, hbelow, habove⟩ := h
      rw [scan]
      by_cases hk : key ≤ n.keyAt first
      · rw [if_pos hk]
        exact ⟨le_rfl, by omega, hbelow, fun i hi hic => hk.trans (keyAt_mono hs hi hic)⟩
      · rw [if_neg hk]
        refine ih ⟨by omega, by omega, fun i hi => ?_, fun i hi => habove i (by omega)⟩
        exact (keyAt_mono hs (Nat.lt_succ_iff.mp hi) (by omega)).trans_lt (lt_of_not_ge hk)

theorem lowerBound_brackets (key : List Byte) :
    n.Brackets key (n.lowerBound key) (n.lowerBound key) := by
  have hfirst : n.Brackets key 0 n.keyCount :=
    ⟨by omega, le_rfl, fun i hi => absurd hi (by omega), fun i hi hic => absurd hi (by omega)⟩
  have hnarrow := narrow_brackets hs key n.keyCount hfirst
  refine scan_brackets hs key _ ?_
  rwa [Nat.add_sub_cancel' hnarrow.1]

theorem lt_of_mem_take (key : List Byte) {e : Entry} (he : e ∈ n.entries.take (n.lowerBound key)) :
    e.key < key := by
  obtain ⟨i, hi, rfl⟩ := List.mem_iff_getElem.mp he
  rw [List.length_take] at hi
  rw [List.getElem_take, getElem_entries]
  exact (lowerBound_brackets hs key).2.2.1 i (by omega)

theorem le_of_mem_drop (key : List Byte) {e : Entry} (he : e ∈ n.entries.drop (n.lowerBound key)) :
    key ≤ e.key := by
  obtain ⟨i, hi, rfl⟩ := List.mem_iff_getElem.mp he
  rw [List.length_drop, length_entries] at hi
  rw [List.getElem_drop, getElem_entries]
  exact (lowerBound_brackets hs key).2.2.2 _ (by omega) (by omega)

end Sorted

end Node

end Tyrdbs.Slices
