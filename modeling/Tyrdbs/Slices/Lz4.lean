import Tyrdbs.Slices.Store

namespace Tyrdbs.Slices.Lz4

open Bytes

def minMatch : Nat := 4

def lastLiterals : Nat := 5

def mfLimit : Nat := 12

def read32 (ip : List Byte) : Nat := fromLittleEndian (ip.take 4)

def hash4 (sequence : Nat) : Nat := sequence * 2654435761 % 2 ^ 32 / 2 ^ 19

/-- The positions under their hashes, the latest first, each with the bytes
from there on. A hash without a position stands for the first byte. -/
abbrev HashTable := List (Nat × Nat × List Byte)

def getPositionOnHash (source : List Byte) (h : Nat) : HashTable → Nat × List Byte
  | [] => (0, source)
  | (h', position) :: table => if h' = h then position else getPositionOnHash source h table

/-- The search for a match, in steps that grow while there is none. -/
def findMatch (source : List Byte) (mflimitPlusOne : Nat) :
    Nat → HashTable → Nat → List Byte → Nat → Nat → Option (Nat × Nat × HashTable)
  | 0, _, _, _, _, _ => none
  | rounds + 1, table, index, ip, step, searchMatchNb =>
      if mflimitPlusOne < index + step then none
      else
        let h := hash4 (read32 ip)
        let p := getPositionOnHash source h table
        let table := (h, index, ip) :: table
        if read32 p.2 = read32 ip then some (index, p.1, table)
        else findMatch source mflimitPlusOne rounds table (index + step) (ip.drop step)
          (searchMatchNb / 2 ^ 6) (searchMatchNb + 1)

def catchUp (source : List Byte) (anchor : Nat) : Nat → Nat → Nat × Nat
  | ip + 1, pos + 1 =>
      if anchor < ip + 1 ∧ source[ip]? = source[pos]? then catchUp source anchor ip pos
      else (ip + 1, pos + 1)
  | ip, pos => (ip, pos)

def count : List Byte → List Byte → Nat
  | a :: as, b :: bs => if a = b then count as bs + 1 else 0
  | _, _ => 0

/-- What follows a token for a length that its nibble has no room for. -/
def lengthBytes (length : Nat) : List Byte :=
  if length < 15 then []
  else List.replicate ((length - 15) / 255) 255 ++ [Fin.ofNat 256 ((length - 15) % 255)]

def token (literals matchCode : Nat) : Byte := Fin.ofNat 256 (min literals 15 * 16 + min matchCode 15)

def sequence (literals : List Byte) (offset matchCode : Nat) : List Byte :=
  token literals.length matchCode :: (lengthBytes literals.length ++ literals ++ littleEndian 2 offset ++
    lengthBytes matchCode)

def lastSequence (literals : List Byte) : List Byte :=
  token literals.length 0 :: (lengthBytes literals.length ++ literals)

/-- The sequences from an anchor on. A match may begin at the anchor itself,
but at the first one nothing lies before it. -/
def compressGeneric (source : List Byte) (size : Nat) : Nat → HashTable → Nat → List Byte
  | 0, _, anchor => lastSequence (source.drop anchor)
  | rounds + 1, table, anchor =>
      let mflimitPlusOne := size - mfLimit + 1
      let ip := source.drop anchor
      let h := hash4 (read32 ip)
      let p := getPositionOnHash source h table
      let table := (h, anchor, ip) :: table
      let found :=
        if anchor ≠ 0 ∧ read32 p.2 = read32 ip then some (anchor, p.1, table)
        else findMatch source mflimitPlusOne size table (anchor + 1) (ip.drop 1) 1 (2 ^ 6)
      match found with
      | none => lastSequence ip
      | some (index, pos, table) =>
          let (index, pos) := catchUp source anchor index pos
          let length := count (slice source index (size - lastLiterals - index)) (source.drop pos)
          let next := index + length
          let ip := source.drop (next - 2)
          sequence (slice source anchor (index - anchor)) (index - pos) (length - minMatch) ++
            if mflimitPlusOne ≤ next then lastSequence (source.drop next)
            else compressGeneric source size rounds ((hash4 (read32 ip), next - 2, ip) :: table) next

def compressDefault (source : List Byte) : List Byte :=
  let size := source.length
  if size < mfLimit + 1 then lastSequence source else compressGeneric source size size [] 0

def readVariableLength : List Byte → Option (Nat × List Byte)
  | [] => none
  | b :: ip => if b.val = 255 then (readVariableLength ip).map (fun r => (r.1 + 255, r.2)) else some (b.val, ip)

def readLength (nibble : Nat) (ip : List Byte) : Option (Nat × List Byte) :=
  if nibble < 15 then some (nibble, ip) else (readVariableLength ip).map (fun r => (r.1 + 15, r.2))

/-- Bytes from an offset back are repeated; the last byte of the output is its
first. -/
def copyMatch (offset : Nat) : Nat → List Byte → List Byte
  | 0, op => op
  | length + 1, op =>
      match op.drop (offset - 1) with
      | [] => op
      | b :: _ => copyMatch offset length (b :: op)

def decompressGeneric : Nat → List Byte → List Byte → Option (List Byte)
  | 0, _, _ => none
  | _ + 1, _, [] => none
  | rounds + 1, op, t :: ip => do
      let (literals, ip) ← readLength (t.val / 16) ip
      let op := (ip.take literals).reverse ++ op
      match ip.drop literals with
      | [] => if literals ≤ ip.length then some op.reverse else none
      | [_] => none
      | low :: high :: ip => do
          let offset := fromLittleEndian [low, high]
          let (matchCode, ip) ← readLength (t.val % 16) ip
          if 0 < offset ∧ offset ≤ op.length then
            decompressGeneric rounds (copyMatch offset (matchCode + minMatch) op) ip
          else none

def decompressSafe (block : List Byte) : Option (List Byte) := decompressGeneric block.length [] block

theorem readVariableLength_eq (k : Nat) {r : Byte} (hr : r.val < 255) (ip : List Byte) :
    readVariableLength (List.replicate k 255 ++ [r] ++ ip) = some (255 * k + r.val, ip) := by
  induction k with
  | zero =>
      have hne : ¬ r.val = 255 := by omega
      simp [readVariableLength, hne]
  | succ k ih =>
      rw [List.replicate_succ, List.cons_append, List.cons_append, readVariableLength,
        if_pos (by decide), ih]
      simp only [Option.map_some, Option.some.injEq, Prod.mk.injEq, and_true]
      omega

theorem readLength_lengthBytes (length : Nat) (ip : List Byte) :
    readLength (min length 15) (lengthBytes length ++ ip) = some (length, ip) := by
  rw [readLength, lengthBytes]
  by_cases hshort : length < 15
  · rw [if_pos (by omega), if_pos hshort, Nat.min_eq_left hshort.le, List.nil_append]
  · have hmod : ((length - 15) % 255) % 256 = (length - 15) % 255 := Nat.mod_eq_of_lt (by omega)
    rw [if_neg (by omega), if_neg hshort, readVariableLength_eq _ (by simp only [Fin.val_ofNat]; omega)]
    simp only [Option.map_some, Option.some.injEq, Prod.mk.injEq, and_true, Fin.val_ofNat, hmod]
    omega

def crc32cBit (crc : Nat) : Nat := if crc % 2 = 1 then (crc / 2).xor 0x82f63b78 else crc / 2

def crc32cUpdate (bytes : List Byte) : Fin (2 ^ 32) :=
  Fin.ofNat _ ((bytes.foldl (fun crc b => crc32cBit^[8] (crc.xor b.val)) 0xffffffff).xor 0xffffffff)

end Tyrdbs.Slices.Lz4
