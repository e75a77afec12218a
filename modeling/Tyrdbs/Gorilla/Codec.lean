import Tyrdbs.Common.Allocator
import Tyrdbs.Common.BitStream

namespace Tyrdbs.Gorilla

open Allocator Outcome Word

def unset : Nat := 2 ^ 32 - 1

def sub32 (a b : Nat) : Nat := u32 (a + 2 ^ 32 - b)

/-- The prefix of a class, ahead of so many bits. -/
def mark (p : BitVec 64) (bits : Nat) : BitVec 64 := p <<< bits

structure GorillaWriter where
  samples : Nat := 0
  firstTimestamp : BitVec 64 := 0
  lastTimestamp : BitVec 64 := 0
  lastDelta : BitVec 64 := 0
  delta : BitVec 64 := 0
  lastValue : BitVec 64 := 0
  lastClz : Nat := unset
  lastCtz : Nat := unset
  writer : BitWriter := {}

namespace GorillaWriter

/-- Five classes of signed values, each with its prefix and its bias. The mask
of the last assertion has 32 bits, so it is zero. -/
def writeEncoded (w : BitWriter) (value : BitVec 64) : Except BitFault BitWriter := do
  if value = 0 then w.write 0 1
  else if -63 ≤ value.toInt ∧ value.toInt ≤ 64 then
    w.write ((value + 0x3f) &&& 0x7f ||| mark 0x02 7) 9
  else if -255 ≤ value.toInt ∧ value.toInt ≤ 256 then
    w.write ((value + 0x0ff) &&& 0x1ff ||| mark 0x06 9) 12
  else if -2047 ≤ value.toInt ∧ value.toInt ≤ 2048 then
    w.write ((value + 0x7ff) &&& 0xfff ||| mark 0x0e 12) 16
  else
    check (value &&& (~~~(0xffffffff : BitVec 32)).setWidth 64 = 0) .assertion
    w.write ((value + 0x7fffffff) &&& 0xffffffff ||| mark 0x0f 32) 36

def writeTimestamp (g : GorillaWriter) (timestamp : BitVec 64) : Except BitFault GorillaWriter := do
  check (g.lastTimestamp ≤ timestamp) .assertion
  if g.samples = 0 then
    let writer ← g.writer.write timestamp 64
    return { g with writer := writer, firstTimestamp := timestamp, lastTimestamp := timestamp }
  else
    let delta := timestamp - g.lastTimestamp
    let writer ← writeEncoded g.writer (if g.samples = 1 then delta else delta - g.lastDelta)
    return { g with writer := writer, delta := delta, lastDelta := delta, lastTimestamp := timestamp }

def writeValue (g : GorillaWriter) (value : BitVec 64) : Except BitFault GorillaWriter := do
  if g.samples = 0 then
    let writer ← g.writer.write value 64
    return { g with writer := writer, lastValue := value }
  else
    let xorValue := value ^^^ g.lastValue
    if xorValue = 0 then
      let writer ← g.writer.write 0 1
      return { g with writer := writer, lastClz := unset, lastCtz := unset, lastValue := value }
    else
      let clz := xorValue.clz.toNat >>> 2
      let ctz := xorValue.ctz.toNat >>> 2
      if g.lastClz ≤ clz ∧ g.lastCtz ≤ ctz then
        let valueSize := sub32 16 (u32 (g.lastClz + g.lastCtz))
        let xorValue ← shr xorValue (g.lastCtz <<< 2)
        let writer ← g.writer.write 0x02 2
        let writer ← writer.write xorValue (valueSize <<< 2)
        return { g with writer := writer, lastValue := value }
      else
        let valueSize := sub32 16 (u32 (clz + ctz))
        let xorValue ← shr xorValue (ctz <<< 2)
        let valueCtrl := 0x03 <<< 9 ||| clz <<< 5 ||| valueSize
        let writer ← g.writer.write (BitVec.ofNat 64 valueCtrl) 11
        let writer ← writer.write xorValue (valueSize <<< 2)
        return { g with writer := writer, lastClz := clz, lastCtz := ctz, lastValue := value }

def counted (g : GorillaWriter) : GorillaWriter := { g with samples := u32 (g.samples + 1) }

def write (g : GorillaWriter) (timestamp value : BitVec 64) : Except BitFault GorillaWriter := do
  let g ← g.writeTimestamp timestamp
  let g ← g.writeValue value
  return g.counted

def flush (g : GorillaWriter) : GorillaWriter := { g with writer := g.writer.flush }

end GorillaWriter

structure GorillaReader where
  samples : Nat := 0
  ndx : Nat := 0
  timestamp : BitVec 64 := 0
  delta : BitVec 64 := 0
  value : BitVec 64 := 0
  valueSize : Nat := unset
  ctz : Nat := unset
  reader : BitReader

namespace GorillaReader

def readEncoded (r : BitReader) : Except BitFault (BitVec 64 × BitReader) := do
  let (bit, r) ← r.readBit
  if bit = 0 then return (0, r)
  let (bit, r) ← r.readBit
  if bit = 0 then
    let (v, r) ← r.read 7
    return (v - 0x3f, r)
  let (bit, r) ← r.readBit
  if bit = 0 then
    let (v, r) ← r.read 9
    return (v - 0xff, r)
  let (bit, r) ← r.readBit
  if bit = 0 then
    let (v, r) ← r.read 12
    return (v - 0x7ff, r)
  let (v, r) ← r.read 32
  return (v - 0x7fffffff, r)

def loadNextTimestamp (g : GorillaReader) : Except BitFault GorillaReader := do
  if g.ndx = 0 then
    let (timestamp, reader) ← g.reader.read 64
    return { g with timestamp := timestamp, reader := reader }
  else
    let (v, reader) ← readEncoded g.reader
    return { g with delta := g.delta + v, timestamp := g.timestamp + (g.delta + v), reader := reader }

/-- The value changes by the bits of its window. -/
def readWindow (g : GorillaReader) : Except BitFault GorillaReader := do
  let (v, reader) ← g.reader.read (g.valueSize <<< 2)
  let v ← shl v (g.ctz <<< 2)
  return { g with value := g.value ^^^ v, reader := reader }

def loadNextValue (g : GorillaReader) : Except BitFault GorillaReader := do
  if g.ndx = 0 then
    let (value, reader) ← g.reader.read 64
    return { g with value := value, reader := reader }
  else
    let (bit, reader) ← g.reader.readBit
    if bit = 0 then return { g with reader := reader, valueSize := unset, ctz := unset }
    else
      let (bit, reader) ← reader.readBit
      if bit = 0 then
        check (g.valueSize ≠ unset) .assertion
        check (g.ctz ≠ unset) .assertion
        readWindow { g with reader := reader }
      else
        let (valueCtrl, reader) ← reader.read 9
        let valueSize := valueCtrl.toNat &&& 0x1f
        readWindow { g with
          reader := reader
          valueSize := valueSize
          ctz := sub32 16 (u32 (valueCtrl.toNat >>> 5 + valueSize)) }

def counted (g : GorillaReader) : GorillaReader := { g with ndx := u32 (g.ndx + 1) }

def next (g : GorillaReader) : Except BitFault (Bool × GorillaReader) := do
  if g.ndx = g.samples then return (false, g)
  else
    let g ← g.loadNextTimestamp
    let g ← g.loadNextValue
    return (true, g.counted)

end GorillaReader

end Tyrdbs.Gorilla
