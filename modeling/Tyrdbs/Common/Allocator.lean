import Tyrdbs.Library.OrderedSet
import Tyrdbs.Library.Extents

namespace Tyrdbs

open OrderedSet Extents

def u32 (n : Nat) : Nat := n % 2 ^ 32

def invalidHandle : Nat := 2 ^ 32 - 1

/-- The two sets hold the same free extents, packed into 64 bits as
(size, idx) and as (idx, size). -/
structure Allocator where
  freeSet : Finset Nat := ∅
  idxSet : Finset Nat := ∅
  maxIdx : Nat := 0
  size : Nat := 0

namespace Allocator

def pack (hi lo : Nat) : Nat := hi <<< 32 ||| lo

def high (k : Nat) : Nat := k >>> 32

def low (k : Nat) : Nat := k &&& 0xffffffff

def insertExtent (a : Allocator) (idx size : Nat) : Allocator :=
  { a with freeSet := insert (pack size idx) a.freeSet, idxSet := insert (pack idx size) a.idxSet }

def eraseExtent (a : Allocator) (it : Nat) : Allocator :=
  { a with idxSet := a.idxSet.erase it, freeSet := a.freeSet.erase (pack (low it) (high it)) }

def allocate (a : Allocator) (size : Nat) : Nat × Allocator :=
  match lowerBound a.freeSet (pack size 0) with
  | none => (invalidHandle, a)
  | some it =>
      let idx := low it
      let availableSize := high it
      let taken := { a with
        freeSet := a.freeSet.erase it
        idxSet := a.idxSet.erase (pack idx availableSize) }
      let split := if availableSize > size
        then taken.insertExtent (u32 (idx + size)) (u32 (availableSize - size))
        else taken
      (idx, { split with size := u32 (a.size + size) })

def joinPrev (a : Allocator) (prevIt : Option Nat) (idx size : Nat) : Allocator × Nat × Nat :=
  match prevIt with
  | none => (a, idx, size)
  | some it =>
      if u32 (high it + low it) = idx then (a.eraseExtent it, high it, u32 (size + low it))
      else (a, idx, size)

def joinNext (a : Allocator) (nextIt : Option Nat) (idx size : Nat) : Allocator × Nat :=
  match nextIt with
  | none => (a, size)
  | some it =>
      if u32 (idx + size) = high it then (a.eraseExtent it, u32 (size + low it))
      else (a, size)

/-- The assertion of the source on the size is a hypothesis of the lemmas
below, which the callers discharge. -/
def free (a : Allocator) (idx size : Nat) : Allocator :=
  let a := { a with size := a.size - size }
  if a.idxSet = ∅ then a.insertExtent idx size
  else
    let nextIt := lowerBound a.idxSet (pack idx 0)
    let prevIt := predecessor a.idxSet nextIt
    let (a, idx, size) := a.joinPrev prevIt idx size
    let (a, size) := a.joinNext nextIt idx size
    a.insertExtent idx size

def extend (a : Allocator) (size : Nat) : Allocator :=
  let a := free { a with size := u32 (a.size + size) } a.maxIdx size
  { a with maxIdx := u32 (a.maxIdx + size) }

def capacity (a : Allocator) : Nat := a.maxIdx

def full (a : Allocator) : Bool := a.freeSet.card == 0

/-- The extents that m_idx_set describes. -/
def extents (a : Allocator) : Finset Extent := a.idxSet.image (fun k => (high k, low k))

/-- The extents that m_free_set describes. -/
def freeExtents (a : Allocator) : Finset Extent := a.freeSet.image (fun k => (low k, high k))

theorem pack_eq {hi lo : Nat} (h : lo < 2 ^ 32) : pack hi lo = hi * 2 ^ 32 + lo := by
  rw [pack, ← Nat.shiftLeft_add_eq_or_of_lt h, Nat.shiftLeft_eq]

theorem high_eq (k : Nat) : high k = k / 2 ^ 32 := Nat.shiftRight_eq_div_pow k 32

theorem low_eq (k : Nat) : low k = k % 2 ^ 32 := Nat.and_two_pow_sub_one_eq_mod k 32

theorem low_lt (k : Nat) : low k < 2 ^ 32 := by rw [low_eq]; omega

theorem high_pack {hi lo : Nat} (h : lo < 2 ^ 32) : high (pack hi lo) = hi := by
  rw [high_eq, pack_eq h]; omega

theorem low_pack {hi lo : Nat} (h : lo < 2 ^ 32) : low (pack hi lo) = lo := by
  rw [low_eq, pack_eq h]; omega

theorem pack_high_low (k : Nat) : pack (high k) (low k) = k := by
  rw [pack_eq (low_lt k), high_eq, low_eq]; omega

theorem pack_zero_le {n k : Nat} : pack n 0 ≤ k ↔ n ≤ high k := by
  rw [pack_eq (by omega), high_eq]; omega

theorem decode_injective : Function.Injective (fun k => (high k, low k)) := by
  intro j k h
  simp only [Prod.mk.injEq] at h
  rw [← pack_high_low j, h.1, h.2, pack_high_low]

theorem decode_swap_injective : Function.Injective (fun k => (low k, high k)) := by
  intro j k h
  simp only [Prod.mk.injEq] at h
  rw [← pack_high_low j, h.1, h.2, pack_high_low]

theorem mem_extents {a : Allocator} {k : Nat} (h : k ∈ a.idxSet) : (high k, low k) ∈ a.extents :=
  Finset.mem_image_of_mem _ h

theorem pack_mem_idxSet {a : Allocator} {e : Extent} (h : e ∈ a.extents) : pack e.1 e.2 ∈ a.idxSet := by
  obtain ⟨k, hk, rfl⟩ := Finset.mem_image.mp h
  rwa [pack_high_low]

theorem extents_insertExtent (a : Allocator) {idx size : Nat} (hs : size < 2 ^ 32) :
    (a.insertExtent idx size).extents = insert (idx, size) a.extents := by
  simp only [insertExtent, extents, Finset.image_insert, high_pack hs, low_pack hs]

theorem freeExtents_insertExtent (a : Allocator) {idx size : Nat} (hi : idx < 2 ^ 32) :
    (a.insertExtent idx size).freeExtents = insert (idx, size) a.freeExtents := by
  simp only [insertExtent, freeExtents, Finset.image_insert, high_pack hi, low_pack hi]

theorem extents_eraseExtent (a : Allocator) (it : Nat) :
    (a.eraseExtent it).extents = a.extents.erase (high it, low it) :=
  Finset.image_erase decode_injective a.idxSet it

theorem freeExtents_eraseExtent (a : Allocator) {it : Nat} (h : high it < 2 ^ 32) :
    (a.eraseExtent it).freeExtents = a.freeExtents.erase (high it, low it) := by
  have he := Finset.image_erase decode_swap_injective a.freeSet (pack (low it) (high it))
  rwa [low_pack h, high_pack h] at he

/-- The two joins of free, the extent below the range before the one above it. -/
def joinBoth (a : Allocator) (idx size : Nat) : Allocator × Nat × Nat :=
  let nextIt := lowerBound a.idxSet (pack idx 0)
  let p := a.joinPrev (predecessor a.idxSet nextIt) idx size
  let n := p.1.joinNext nextIt p.2.1 p.2.2
  (n.1, p.2.1, n.2)

/-- On an empty set the joins find nothing, so both branches of free come to
the same. -/
theorem free_eq (a : Allocator) (idx size : Nat) :
    a.free idx size =
      let r := joinBoth { a with size := a.size - size } idx size
      r.1.insertExtent r.2.1 r.2.2 := by
  unfold free joinBoth
  by_cases h : a.idxSet = ∅
  · simp [h, lowerBound, predecessor, joinPrev, joinNext]
  · simp [h]

end Allocator

end Tyrdbs
