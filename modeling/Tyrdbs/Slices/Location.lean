import Tyrdbs.Library.Outcome
import Mathlib.Data.Nat.Bitwise
import Mathlib.Algebra.Order.Ring.Nat

namespace Tyrdbs.Slices

inductive Fault
  | invalidData (message : String)
  | runtime (message : String)
  | assertion
  | unfinished
  deriving DecidableEq

def require (p : Prop) [Decidable p] (fault : Fault) : Except Fault Unit :=
  if p then .ok () else .error fault

@[simp] theorem require_of {p : Prop} [Decidable p] (h : p) (fault : Fault) :
    require p fault = .ok () := if_pos h

theorem require_yields (p : Prop) [Decidable p] (fault : Fault) :
    Outcome.Yields (fun _ => True) (fun _ => p) (require p fault) := by
  rw [require]
  split
  · assumption
  · trivial

def maxOffset : Nat := 0x1000000000000

def maxSize : Nat := 0x7fff

def invalidSize : Nat := 0xffff

def offsetFrom (location : Nat) : Nat := location >>> 16

def sizeFrom (location : Nat) : Nat := location &&& 0x7fff

def isLeafFrom (location : Nat) : Bool := location &&& 0x8000 ≠ 0

def isValid (location : Nat) : Bool := location &&& 0xffff ≠ invalidSize

/-- The size field in front of a node: the leaf mark and its size. -/
def sizeField (size : Nat) (isLeaf : Bool) : Nat := isLeaf.toNat <<< 15 ||| size

def location (offset size : Nat) (isLeaf : Bool) : Except Fault Nat :=
  if offset < maxOffset ∧ size < maxSize then .ok (offset <<< 16 ||| sizeField size isLeaf)
  else .error .assertion

def locationAt (offset field : Nat) : Except Fault Nat :=
  if offset < maxOffset then .ok (offset <<< 16 ||| field) else .error .assertion

theorem or_eq_add (offset : Nat) {field : Nat} (h : field < 2 ^ 16) :
    offset <<< 16 ||| field = offset * 2 ^ 16 + field := by
  rw [← Nat.shiftLeft_add_eq_or_of_lt h, Nat.shiftLeft_eq]

theorem sizeField_eq {size : Nat} (h : size < 2 ^ 15) (isLeaf : Bool) :
    sizeField size isLeaf = isLeaf.toNat * 2 ^ 15 + size := by
  rw [sizeField, ← Nat.shiftLeft_add_eq_or_of_lt h, Nat.shiftLeft_eq]

theorem sizeField_lt {size : Nat} (h : size < 2 ^ 15) (isLeaf : Bool) : sizeField size isLeaf < 2 ^ 16 := by
  rw [sizeField_eq h]
  cases isLeaf <;> simp <;> omega

theorem offsetFrom_or (offset : Nat) {field : Nat} (h : field < 2 ^ 16) :
    offsetFrom (offset <<< 16 ||| field) = offset := by
  rw [offsetFrom, or_eq_add offset h, Nat.shiftRight_eq_div_pow]
  omega

theorem sizeFrom_or (offset : Nat) {size : Nat} (h : size < 2 ^ 15) (isLeaf : Bool) :
    sizeFrom (offset <<< 16 ||| sizeField size isLeaf) = size := by
  have hmask : (0x7fff : Nat) = 2 ^ 15 - 1 := rfl
  rw [sizeFrom, or_eq_add offset (sizeField_lt h isLeaf), hmask, Nat.and_two_pow_sub_one_eq_mod,
    sizeField_eq h]
  omega

theorem isLeafFrom_or (offset : Nat) {size : Nat} (h : size < 2 ^ 15) (isLeaf : Bool) :
    isLeafFrom (offset <<< 16 ||| sizeField size isLeaf) = isLeaf := by
  have hmask : (0x8000 : Nat) = 2 ^ 15 := rfl
  rw [isLeafFrom, hmask, Nat.and_two_pow, Nat.testBit_eq_decide_div_mod_eq,
    or_eq_add offset (sizeField_lt h isLeaf), sizeField_eq h]
  cases isLeaf
  · have hz : (offset * 2 ^ 16 + (false.toNat * 2 ^ 15 + size)) / 2 ^ 15 % 2 = 0 := by
      simp only [Bool.toNat_false]; omega
    rw [hz]
    rfl
  · have hz : (offset * 2 ^ 16 + (true.toNat * 2 ^ 15 + size)) / 2 ^ 15 % 2 = 1 := by
      simp only [Bool.toNat_true]; omega
    rw [hz]
    rfl

theorem location_yields (offset size : Nat) (isLeaf : Bool) :
    Outcome.Yields (fun _ => True) (fun l => l = offset <<< 16 ||| sizeField size isLeaf ∧ size < maxSize)
      (location offset size isLeaf) := by
  rw [location]
  split
  · rename_i h
    exact ⟨rfl, h.2⟩
  · trivial

theorem isValid_or (offset : Nat) {field : Nat} (h : field < 2 ^ 16) :
    isValid (offset <<< 16 ||| field) = decide (field ≠ invalidSize) := by
  have hmask : (0xffff : Nat) = 2 ^ 16 - 1 := rfl
  have hmod : (offset <<< 16 ||| field) &&& 0xffff = field := by
    rw [hmask, Nat.and_two_pow_sub_one_eq_mod, or_eq_add offset h]
    omega
  rw [isValid, hmod]

theorem sizeField_ne_invalid {size : Nat} (h : size < maxSize) (isLeaf : Bool) :
    sizeField size isLeaf ≠ invalidSize := by
  have hmax : maxSize = 2 ^ 15 - 1 := rfl
  have hinvalid : invalidSize = 2 ^ 16 - 1 := rfl
  rw [sizeField_eq (by omega)]
  cases isLeaf <;> simp <;> omega

end Tyrdbs.Slices
