import Tyrdbs.Library.Buffers
import Tyrdbs.Slices.Lz4

namespace Tyrdbs.Slices.Lz4Decoder

open Outcome Buffers Bytes Lz4

/-- A block that is refused. The others are a copy that leaves its buffer, a
memcpy that overlaps, and a loop that is cut off. -/
inductive Stop
  | outputError
  | outOfBounds
  | overlap
  | unfinished

abbrev Memory := Cells Byte

def wildCopyLength : Nat := 8

def matchSafeguardDistance : Nat := 2 * wildCopyLength - minMatch

def fastloopSafeDistance : Nat := 64

def fetch (block : List Byte) (ip n : Nat) : Except Stop (List Byte) := do
  check (ip + n ≤ block.length) .outOfBounds
  return slice block ip n

def write (capacity : Nat) (dst : Memory) (op : Nat) (bytes : List Byte) : Except Stop Memory := do
  check (op + bytes.length ≤ capacity) .outOfBounds
  return store dst op bytes

/-- memcpy from the block. -/
def copyIn (block : List Byte) (capacity : Nat) (dst : Memory) (op ip n : Nat) : Except Stop Memory := do
  let bytes ← fetch block ip n
  write capacity dst op bytes

/-- memcpy inside the output, from what comes before. -/
def copyWithin (capacity : Nat) (dst : Memory) (op src n : Nat) : Except Stop Memory := do
  check (op + n ≤ capacity) .outOfBounds
  check (src + n ≤ op) .overlap
  return copy dst op src n

def copyByte (capacity : Nat) (dst : Memory) (op src : Nat) : Except Stop Memory := do
  check (op < capacity ∧ src < capacity) .outOfBounds
  return store dst op [dst src]

def copyBytes (capacity cpy : Nat) : Nat → Memory → Nat → Nat → Except Stop Memory
  | 0, _, _, _ => .error .unfinished
  | rounds + 1, dst, op, src =>
      if op < cpy then do
        let dst ← copyByte capacity dst op src
        copyBytes capacity cpy rounds dst (op + 1) (src + 1)
      else .ok dst

/-- Copies in steps, which end behind the place where they have to. -/
def wildCopy (step : Memory → Nat → Nat → Except Stop Memory) (width e : Nat) : Nat → Memory → Nat → Nat → Except Stop Memory
  | 0, _, _, _ => .error .unfinished
  | rounds + 1, dst, d, s => do
      let dst ← step dst d s
      if d + width < e then wildCopy step width e rounds dst (d + width) (s + width) else .ok dst

def wildCopy8 (capacity : Nat) (dst : Memory) (d s e : Nat) : Except Stop Memory :=
  wildCopy (fun dst d s => copyWithin capacity dst d s 8) 8 e (capacity + 1) dst d s

def wildCopy32 (capacity : Nat) (dst : Memory) (d s e : Nat) : Except Stop Memory :=
  wildCopy (fun dst d s => do
    let dst ← copyWithin capacity dst d s 16
    copyWithin capacity dst (d + 16) (s + 16) 16) 32 e (capacity + 1) dst d s

def wildCopyIn8 (block : List Byte) (capacity : Nat) (dst : Memory) (d s e : Nat) : Except Stop Memory :=
  wildCopy (fun dst d s => copyIn block capacity dst d s 8) 8 e (capacity + 1) dst d s

def wildCopyIn32 (block : List Byte) (capacity : Nat) (dst : Memory) (d s e : Nat) : Except Stop Memory :=
  wildCopy (fun dst d s => do
    let dst ← copyIn block capacity dst d s 16
    copyIn block capacity dst (d + 16) (s + 16) 16) 32 e (capacity + 1) dst d s

def inc32table : List Nat := [0, 1, 2, 1, 0, 4, 4, 4]

def dec64table : List Int := [0, 0, 0, -1, -4, 1, 2, 3]

/-- The first eight bytes of a match, and where the match is read from on. -/
def copyFront (capacity : Nat) (dst : Memory) (op offset : Nat) : Except Stop (Memory × Nat) := do
  let src := op - offset
  if offset < 8 then
    let dst ← copyByte capacity dst op src
    let dst ← copyByte capacity dst (op + 1) (src + 1)
    let dst ← copyByte capacity dst (op + 2) (src + 2)
    let dst ← copyByte capacity dst (op + 3) (src + 3)
    let src := src + inc32table.getD offset 0
    let dst ← copyWithin capacity dst (op + 4) src 4
    return (dst, ((src : Int) - dec64table.getD offset 0).toNat)
  else
    let dst ← copyWithin capacity dst op src 8
    return (dst, src + 8)

def pattern (dst : Memory) (op offset : Nat) : List Byte :=
  (List.range 8).map (fun i => dst (op - offset + i % offset))

def memcpyUsingOffset (capacity : Nat) (dst : Memory) (op offset e : Nat) : Except Stop Memory :=
  if offset = 1 ∨ offset = 2 ∨ offset = 4 then
    let v := pattern dst op offset
    wildCopy (fun dst d _ => write capacity dst d v) 8 e (capacity + 1) dst op (op - offset)
  else do
    let (dst, src) ← copyFront capacity dst op offset
    wildCopy8 capacity dst (op + 8) src e

/-- The bytes of a length, as a sum in 32 bits; the flag is off where the block ends
too early. -/
def readVariableLength (block : List Byte) (margin : Nat) : Nat → Nat → Nat → Except Stop (Nat × Nat × Bool)
  | 0, _, _ => .error .unfinished
  | rounds + 1, ip, length => do
      let bytes ← fetch block ip 1
      let s := fromLittleEndian bytes
      let length := (length + s) % 2 ^ 32
      if block.length ≤ ip + 1 + margin then .ok (length, ip + 1, false)
      else if s = 255 then readVariableLength block margin rounds (ip + 1) length
      else .ok (length, ip + 1, true)

/-- A loop that ran into the end is no error here. -/
def literalLength (block : List Byte) (ip nibble : Nat) : Except Stop (Nat × Nat) :=
  if nibble = 15 then do
    check (ip + 15 < block.length) .outputError
    let (length, ip, _) ← readVariableLength block 15 block.length ip 0
    return (nibble + length, ip)
  else .ok (nibble, ip)

def matchLength (block : List Byte) (ip nibble : Nat) : Except Stop (Nat × Nat) :=
  if nibble = 15 then do
    let (length, ip, inside) ← readVariableLength block (lastLiterals - 1) block.length ip 0
    check (inside = true) .outputError
    return (nibble + length + minMatch, ip)
  else .ok (nibble + minMatch, ip)

def readLE16 (block : List Byte) (ip : Nat) : Except Stop Nat := do
  let bytes ← fetch block ip 2
  return fromLittleEndian bytes

/-- The label safe_match_copy, up to the end of the round. -/
def safeMatchCopy (capacity : Nat) (dst : Memory) (op offset length : Nat) : Except Stop (Memory × Nat) := do
  let cpy := op + length
  let (dst, src) ← copyFront capacity dst op offset
  let op := op + 8
  if capacity < cpy + matchSafeguardDistance then
    let oCopyLimit := capacity - (wildCopyLength - 1)
    check (cpy + lastLiterals ≤ capacity) .outputError
    if op < oCopyLimit then
      let dst ← wildCopy8 capacity dst op src oCopyLimit
      let dst ← copyBytes capacity cpy (capacity + 1) dst oCopyLimit (src + (oCopyLimit - op))
      return (dst, cpy)
    else
      let dst ← copyBytes capacity cpy (capacity + 1) dst op src
      return (dst, cpy)
  else
    let dst ← copyWithin capacity dst op src 8
    if 16 < length then
      let dst ← wildCopy8 capacity dst (op + 8) (src + 8) cpy
      return (dst, cpy)
    else return (dst, cpy)

/-- Where decoding goes on, behind what it has written. -/
inductive Next
  | done
  | safe (ip : Nat)
  | fast (ip : Nat)

/-- The label _copy_match. -/
def copyMatch (block : List Byte) (capacity : Nat) (dst : Memory) (op ip offset nibble : Nat) :
    Except Stop (Memory × Nat × Next) := do
  check (offset ≤ op) .outputError
  let dst ← write capacity dst op (List.replicate 4 0)
  let (length, ip) ← matchLength block ip nibble
  let (dst, op) ← safeMatchCopy capacity dst op offset length
  return (dst, op, .safe ip)

/-- The label safe_literal_copy. -/
def safeLiteralCopy (block : List Byte) (capacity : Nat) (dst : Memory) (op ip length nibble : Nat) :
    Except Stop (Memory × Nat × Next) := do
  let cpy := op + length
  if capacity < cpy + mfLimit ∨ block.length < ip + length + (2 + 1 + lastLiterals) then
    check (ip + length = block.length ∧ cpy ≤ capacity) .outputError
    let dst ← copyIn block capacity dst op ip length
    return (dst, cpy, .done)
  else
    let dst ← wildCopyIn8 block capacity dst op ip cpy
    let offset ← readLE16 block (ip + length)
    copyMatch block capacity dst cpy (ip + length + 2) offset nibble

/-- A round of the loop that is left at the end of the block only. -/
def safeRound (block : List Byte) (capacity : Nat) (dst : Memory) (op ip : Nat) :
    Except Stop (Memory × Nat × Next) := do
  let bytes ← fetch block ip 1
  let token := fromLittleEndian bytes
  let ip := ip + 1
  let length := token / 16
  if length ≠ 15 ∧ ip + 16 < block.length ∧ op + 32 ≤ capacity then
    let dst ← copyIn block capacity dst op ip 16
    let op := op + length
    let offset ← readLE16 block (ip + length)
    let ip := ip + length + 2
    let length := token % 16
    if length ≠ 15 ∧ 8 ≤ offset ∧ offset ≤ op then
      let src := op - offset
      let dst ← copyWithin capacity dst op src 8
      let dst ← copyWithin capacity dst (op + 8) (src + 8) 8
      let dst ← copyWithin capacity dst (op + 16) (src + 16) 2
      return (dst, op + length + minMatch, .safe ip)
    else copyMatch block capacity dst op ip offset length
  else
    let (length, ip) ← literalLength block ip length
    safeLiteralCopy block capacity dst op ip length (token % 16)

def fastMatch (block : List Byte) (capacity : Nat) (dst : Memory) (op ip nibble : Nat) :
    Except Stop (Memory × Nat × Next) := do
  let offset ← readLE16 block ip
  check (offset ≤ op) .outputError
  let (length, ip) ← matchLength block (ip + 2) nibble
  if capacity ≤ op + length + fastloopSafeDistance then
    let (dst, op) ← safeMatchCopy capacity dst op offset length
    return (dst, op, .safe ip)
  else if nibble ≠ 15 ∧ 8 ≤ offset then
    let src := op - offset
    let dst ← copyWithin capacity dst op src 8
    let dst ← copyWithin capacity dst (op + 8) (src + 8) 8
    let dst ← copyWithin capacity dst (op + 16) (src + 16) 2
    return (dst, op + length, .fast ip)
  else if offset < 16 then
    let dst ← memcpyUsingOffset capacity dst op offset (op + length)
    return (dst, op + length, .fast ip)
  else
    let dst ← wildCopy32 capacity dst op (op - offset) (op + length)
    return (dst, op + length, .fast ip)

/-- A round of the loop that runs far from the end of the output. -/
def fastRound (block : List Byte) (capacity : Nat) (dst : Memory) (op ip : Nat) :
    Except Stop (Memory × Nat × Next) := do
  let bytes ← fetch block ip 1
  let token := fromLittleEndian bytes
  let ip := ip + 1
  let length := token / 16
  if length = 15 then
    let (length, ip) ← literalLength block ip length
    if capacity < op + length + 32 ∨ block.length < ip + length + 32 then
      safeLiteralCopy block capacity dst op ip length (token % 16)
    else
      let dst ← wildCopyIn32 block capacity dst op ip (op + length)
      fastMatch block capacity dst (op + length) (ip + length) (token % 16)
  else if block.length < ip + 17 then safeLiteralCopy block capacity dst op ip length (token % 16)
  else
    let dst ← copyIn block capacity dst op ip 16
    fastMatch block capacity dst (op + length) (ip + length) (token % 16)

def decodeLoop (block : List Byte) (capacity : Nat) : Nat → Memory → Nat → Next → Except Stop (Memory × Nat)
  | _, dst, op, .done => .ok (dst, op)
  | 0, _, _, _ => .error .unfinished
  | rounds + 1, dst, op, .safe ip => do
      let (dst, op, next) ← safeRound block capacity dst op ip
      decodeLoop block capacity rounds dst op next
  | rounds + 1, dst, op, .fast ip => do
      let (dst, op, next) ← fastRound block capacity dst op ip
      decodeLoop block capacity rounds dst op next

/-- LZ4_decompress_safe, with the loops that x86-64 has: the output, and how many
bytes of it there are. -/
def decompressSafe (block : List Byte) (capacity : Nat) (dst : Memory) : Except Stop (Memory × Nat) :=
  if capacity = 0 then
    if block = [0] then .ok (dst, 0) else .error .outputError
  else if block = [] then .error .outputError
  else decodeLoop block capacity block.length dst 0 (if capacity < fastloopSafeDistance then .safe 0 else .fast 0)

end Tyrdbs.Slices.Lz4Decoder
