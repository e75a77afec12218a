import Tyrdbs.Slices.Node
import Tyrdbs.Storage.Disk

namespace Tyrdbs.Slices

open Bytes

instance neZero_crc32c : NeZero (2 ^ 32) := ⟨by decide⟩

/-- The compressor and the checksum that nodes are stored with. -/
structure Codec where
  compress : List Byte → List Byte
  decompress : List Byte → Option (List Byte)
  crc32c : List Byte → Fin (2 ^ 32)

def invalidLocation : Nat := 2 ^ 64 - 1

namespace Node

def load (z : Codec) (source : List Byte) : Except Fault Node :=
  match z.decompress source with
  | none => .error (.runtime "unable to decompress node")
  | some bytes =>
      if h : bytes.length = nodeSize then
        let data : Data := ⟨bytes, h⟩
        .ok { data := data, keyCount := data.u16At 0 }
      else .error (.runtime "unable to decompress node")

def setNext (n : Node) (next : Nat) : Except Fault Node :=
  if next = 0 then .error .assertion else .ok { n with next := next }

end Node

def pread (file : List Byte) (offset size : Nat) : Except Fault (List Byte) :=
  if offset < file.length then .ok (slice file offset size) else .error .assertion

/-- cache::load: what a short read leaves of the buffer is stale. -/
def loadNode (z : Codec) (file stale : List Byte) (location : Nat) : Except Fault Node := do
  let offset := offsetFrom location
  let size := sizeFrom location
  require (size ≤ nodeSize) .assertion
  let bytes ← pread file offset (size + 6)
  let buffer := bytes ++ stale.drop bytes.length
  let data := slice buffer 4 size
  require ((z.crc32c data).val = fromLittleEndian (slice buffer 0 4)) (.runtime "invalid node crc32c")
  let node ← Node.load z data
  let next ← locationAt (offset + size + 6) (fromLittleEndian (slice buffer (4 + size) 2))
  node.setNext next

def signature : Nat := 0x3130306264727974

def headerSize : Nat := 58

/-- A committed slice. Which nodes the cache keeps while it is read is for the
cache to decide. -/
structure Slice where
  file : List Byte
  cached : Nat → Option Node
  stale : Nat → List Byte
  keyCount : Nat
  root : Nat
  firstNodeSize : Nat

structure SliceIterator where
  node : Node
  ndx : Nat
  started : Bool := false
  ended : Bool := false

namespace Slice

def load (z : Codec) (s : Slice) (location : Nat) : Except Fault Node :=
  match s.cached location with
  | some node => .ok node
  | none => loadNode z s.file (s.stale location) location

/-- Where the header is read; file_reader::size has 32 bits. -/
def headerOffset (file : List Byte) : Nat := file.length % 2 ^ 32 - Storage.pageSize

/-- The slice that the header page at the end of a file describes. -/
def ofFile (file : List Byte) (cached : Nat → Option Node) (stale : Nat → List Byte) :
    Except Fault Slice := do
  let size := file.length % 2 ^ 32
  require (size % Storage.pageSize = 0) .assertion
  require (size > Storage.pageSize) .assertion
  let h ← pread file (headerOffset file) headerSize
  require (fromLittleEndian (slice h 0 8) = signature) (.runtime "invalid slice signature")
  return {
    file := file
    cached := cached
    stale := stale
    keyCount := fromLittleEndian (slice h 18 8)
    root := fromLittleEndian (slice h 8 8)
    firstNodeSize := fromLittleEndian (slice h 16 2) }

/-- The entry of an index node to follow for a key; the index has 16 bits. -/
def childFor (node : Node) (minKey : Key) : Except Fault Nat :=
  let ndx := node.lowerBound minKey
  if ndx = node.keyCount then .ok (if ndx = 0 then 2 ^ 16 - 1 else ndx - 1)
  else if node.keyAt ndx < minKey then .error .assertion
  else if minKey < node.keyAt ndx ∧ ndx ≠ 0 then .ok (ndx - 1)
  else .ok ndx

def findNodeFor (z : Codec) (s : Slice) (minKey maxKey : Key) : Nat → Nat → Except Fault Nat
  | 0, _ => .error .unfinished
  | rounds + 1, location => do
      let node ← s.load z location
      let ndx ← childFor node minKey
      if node.valueAt ndx < minKey ∨ maxKey < node.keyAt ndx then .ok invalidLocation
      else if isLeafFrom (node.attributesAt ndx) then .ok (node.attributesAt ndx)
      else findNodeFor z s minKey maxKey rounds (node.attributesAt ndx)

def iteratorAt (node : Node) (ndx : Nat) : Except Fault SliceIterator :=
  if ndx < node.keyCount then .ok { node := node, ndx := ndx } else .error .assertion

def begin (z : Codec) (s : Slice) : Except Fault (Option SliceIterator) :=
  if s.keyCount = 0 then .ok none
  else do
    let location ← locationAt 0 s.firstNodeSize
    let node ← s.load z location
    some <$> iteratorAt node 0

def range (z : Codec) (s : Slice) (rounds : Nat) (minKey maxKey : Key) :
    Except Fault (Option SliceIterator) :=
  if s.keyCount = 0 then .ok none
  else do
    require (minKey ≤ maxKey) .assertion
    let location ← findNodeFor z s minKey maxKey rounds s.root
    if ¬ isValid location then .ok none
    else do
      let node ← s.load z location
      some <$> iteratorAt node (node.lowerBound minKey)

end Slice

namespace SliceIterator

variable (z : Codec) (s : Slice)

def loadNext : Nat → Node → Except Fault (Option Node)
  | 0, _ => .error .unfinished
  | rounds + 1, node =>
      if ¬ isValid node.next then .ok none
      else do
        let next ← s.load z node.next
        if isLeafFrom node.next then .ok (some next) else loadNext rounds next

def next (rounds : Nat) (it : SliceIterator) : Except Fault (Bool × SliceIterator) :=
  if it.ended then .ok (false, it)
  else if ¬ it.started then .ok (true, { it with started := true })
  else if it.ndx + 1 = it.node.keyCount then do
    let loaded ← loadNext z s rounds it.node
    match loaded with
    | none => .ok (false, { it with ended := true })
    | some node => .ok (true, { it with node := node, ndx := 0 })
  else .ok (true, { it with ndx := it.ndx + 1 })

def current (it : SliceIterator) : Part :=
  ⟨it.node.keyAt it.ndx, it.node.valueAt it.ndx, it.node.eorAt it.ndx, it.node.deletedAt it.ndx,
    it.node.attributesAt it.ndx⟩

/-- What an iterator stands on at one call of next after the other, until
there is no more. -/
def drain (rounds : Nat) : Nat → SliceIterator → Except Fault (List Part)
  | 0, _ => .error .unfinished
  | calls + 1, it => do
      let (hasNext, it) ← next z s rounds it
      if hasNext then (it.current :: ·) <$> drain rounds calls it else .ok []

end SliceIterator

end Tyrdbs.Slices
