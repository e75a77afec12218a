import Tyrdbs.Slices.NodeWriter
import Tyrdbs.Slices.Reader
import Tyrdbs.Storage.FileRoundTrip
import Tyrdbs.Library.SpanTree

namespace Tyrdbs.Slices

open Bytes SpanTree

def maxIdx : Nat := 0x1000000000000

def nodePageSize : Nat := 8192

/-- The statistics of the header, the key count apart. -/
structure Stats where
  compressedSize : Nat := 0
  uncompressedSize : Nat := 0
  totalNodes : Nat := 0
  leafNodes : Nat := 0
  deriving DecidableEq

/-- What a slice writer's nodes go to: the bytes of its file, and each node as
the cache got it, oldest first; the last one is m_last_node. Where the nodes
begin in the file is kept for what is said about it; no function reads it. -/
structure Sink where
  file : List Byte := []
  firstNodeSize : Nat := invalidSize
  nodes : List (Nat × Node) := []
  stats : Stats := {}
  begins : List Nat := []

def setNextAt (next : Nat) : Nat → List (Nat × Node) → Except Fault (List (Nat × Node))
  | _, [] => .ok []
  | 0, (location, node) :: nodes => do
      let node ← node.setNext next
      return (location, node) :: nodes
  | i + 1, p :: nodes => (p :: ·) <$> setNextAt next i nodes

namespace Sink

def write (s : Sink) (bytes : List Byte) : Except Fault Sink := do
  require (s.file.length + bytes.length < Storage.maxFileSize) (.runtime "file size limit reached")
  return { s with file := s.file ++ bytes }

def addPadding (s : Sink) : Sink := { s with file := s.file ++ Storage.padding s.file }

/-- The size field goes before every node but the first, whose size stands in
the header. -/
def writeSize (s : Sink) (size : Nat) (isLeaf : Bool) : Except Fault Sink :=
  if s.firstNodeSize ≠ invalidSize then s.write (littleEndian 2 (sizeField size isLeaf))
  else do
    require (isLeaf = true) .assertion
    return { s with firstNodeSize := sizeField size isLeaf }

/-- file_writer::size has 32 bits. -/
def size (s : Sink) : Nat := s.file.length % 2 ^ 32

def store (z : Codec) (s : Sink) (w : NodeWriter) (isLeaf : Bool) :
    Except Fault (Sink × NodeWriter × Nat) := do
  let b := w.flush
  let bytes := z.compress b.data.bytes
  require (bytes ≠ [] ∧ bytes.length ≤ nodePageSize) (.runtime "unable to compress node")
  require (bytes.length ≤ maxSize) .assertion
  let s ← s.writeSize bytes.length isLeaf
  let begins := s.begins ++ [s.file.length]
  let location ← location s.size bytes.length isLeaf
  let s ← s.write (littleEndian 4 (z.crc32c bytes).val)
  let s ← s.write bytes
  let nodes ← setNextAt location (s.nodes.length - 1) s.nodes
  let (node, w) ← NodeWriter.reset { node := some b }
  let stats := { s.stats with
    compressedSize := s.stats.compressedSize + bytes.length
    uncompressedSize := s.stats.uncompressedSize + nodeSize
    totalNodes := s.stats.totalNodes + 1
    leafNodes := s.stats.leafNodes + isLeaf.toNat }
  return ({ s with nodes := nodes ++ [(location, node)], stats := stats, begins := begins }, w, location)

def endChains (s : Sink) (lastDataNode : Nat) : Except Fault Sink := do
  let nodes ← setNextAt invalidSize lastDataNode s.nodes
  let nodes ← setNextAt invalidSize (nodes.length - 1) nodes
  { s with nodes := nodes }.write (littleEndian 2 invalidSize)

end Sink

/-- One level of the index; its higher level is the next one of a list. -/
structure IndexLevel where
  node : NodeWriter := {}
  firstKey : Key := []
  lastKey : Key := []

/-- index_writer::add; a level that is not there yet is created. -/
def indexAdd (z : Codec) : Nat → Sink → List IndexLevel → Key → Key → Nat →
    Except Fault (Sink × List IndexLevel)
  | 0, _, _, _, _, _ => .error .unfinished
  | rounds + 1, s, levels, minKey, maxKey, location => do
      let level := levels.headD {}
      let firstKey := if level.firstKey = [] then minKey else level.firstKey
      let (node, res) ← level.node.add minKey maxKey true false location true
      match res with
      | some size => do
          require (size = maxKey.length) .assertion
          return (s, ⟨node, firstKey, maxKey⟩ :: levels.tail)
      | none => do
          let (s, node, stored) ← s.store z node false
          let (node, _) ← node.add minKey maxKey true false location true
          let (s, higher) ← indexAdd z rounds s levels.tail firstKey level.lastKey stored
          return (s, ⟨node, minKey, maxKey⟩ :: higher)

/-- index_writer::flush ends with the location of the root. -/
def indexFlush (z : Codec) : Nat → Sink → List IndexLevel → Except Fault (Sink × Nat)
  | 0, _, _ => .error .unfinished
  | rounds + 1, s, levels => do
      let level := levels.headD {}
      let (s, _, location) ← s.store z level.node false
      if levels.tail = [] then .ok (s, location)
      else do
        let (s, higher) ← indexAdd z rounds s levels.tail level.firstKey level.lastKey location
        indexFlush z rounds s higher

/-- The entries handed to the index are kept for what is said about them; no
function reads them. -/
structure SliceWriter where
  sink : Sink := {}
  node : NodeWriter := {}
  index : List IndexLevel := [{}]
  firstKey : Key := []
  lastKey : Key := []
  lastEor : Bool := true
  keyCount : Nat := 0
  root : Nat := invalidLocation
  handed : List (Span Key Nat) := []

namespace SliceWriter

def check (w : SliceWriter) (p : Part) : Except Fault Bool := do
  require (p.key.length ≠ 0) (.invalidData "key of zero length not allowed")
  require (p.key.length < maxKeySize) (.invalidData "maximum key size exceded")
  require (w.lastKey = [] ∨ ¬ p.key < w.lastKey) (.invalidData "input keys not sorted")
  require (w.lastKey = [] ∨ p.key ≠ w.lastKey ∨ w.lastEor = false ∧ p.deleted = false)
    (.invalidData "duplicate keys")
  require (w.lastKey = [] ∨ ¬ w.lastKey < p.key ∨ w.lastEor = true) (.invalidData "key eor mismatch")
  require (p.deleted = false ∨ p.eor = true ∧ p.value = [])
    (.invalidData "invalid combination of key attributes")
  return p.key ≠ w.lastKey

def handToIndex (z : Codec) (rounds : Nat) (w : SliceWriter) (location : Nat) :
    Except Fault SliceWriter := do
  let (sink, index) ← indexAdd z rounds w.sink w.index w.firstKey w.lastKey location
  return { w with sink := sink, index := index, handed := w.handed ++ [⟨w.firstKey, w.lastKey, location⟩] }

/-- The end of a round of the loop in add: on to the next leaf. -/
def nextLeaf (z : Codec) (rounds : Nat) (w : SliceWriter) (key : Key) (newKey : Bool) :
    Except Fault SliceWriter := do
  let (sink, node, location) ← w.sink.store z w.node true
  let w := { w with sink := sink, node := node }
  if w.firstKey = [] then .ok w
  else do
    let w ← w.handToIndex z rounds location
    return { w with firstKey := if newKey then key else [] }

def addLoop (z : Codec) (p : Part) (newKey : Bool) : Nat → SliceWriter → List Byte → Except Fault SliceWriter
  | 0, _, _ => .error .unfinished
  | rounds + 1, w, value => do
      let (node, res) ← w.node.add p.key value p.eor p.deleted p.idx false
      let w := { w with node := node }
      let rest := value.drop (res.getD 0)
      if res.isSome ∧ rest = [] then .ok w
      else do
        let w ← w.nextLeaf z rounds p.key newKey
        addLoop z p newKey rounds w rest

def add (z : Codec) (rounds : Nat) (w : SliceWriter) (p : Part) : Except Fault SliceWriter := do
  require (p.idx < maxIdx) .assertion
  let newKey ← w.check p
  let w := if newKey = true ∧ w.firstKey = [] then { w with firstKey := p.key } else w
  let w ← addLoop z p newKey rounds w p.value
  return { w with lastKey := p.key, lastEor := p.eor, keyCount := w.keyCount + 1 }

def header (w : SliceWriter) : List Byte :=
  littleEndian 8 signature ++ littleEndian 8 w.root ++ littleEndian 2 w.sink.firstNodeSize ++
    littleEndian 8 w.keyCount ++ littleEndian 8 w.sink.stats.compressedSize ++
    littleEndian 8 w.sink.stats.uncompressedSize ++ littleEndian 8 w.sink.stats.totalNodes ++
    littleEndian 8 w.sink.stats.leafNodes

def flush (z : Codec) (rounds : Nat) (w : SliceWriter) : Except Fault SliceWriter := do
  require (w.lastEor = true) (.invalidData "data not complete")
  let (sink, node, location) ← w.sink.store z w.node true
  let sink ← sink.write (littleEndian 2 invalidSize)
  let lastDataNode := sink.nodes.length - 1
  let w := { w with sink := sink, node := node }
  let w ← (if w.firstKey = [] then .ok w else w.handToIndex z rounds location)
  let (sink, root) ← indexFlush z rounds w.sink w.index
  let sink ← sink.endChains lastDataNode
  let w := { w with sink := sink.addPadding, root := root }
  let sink ← w.sink.write w.header
  return { w with sink := sink.addPadding }

def commit (w : SliceWriter) (cached : Nat → Option Node) (stale : Nat → List Byte) : Slice where
  file := w.sink.file
  cached := cached
  stale := stale
  keyCount := w.keyCount
  root := w.root
  firstNodeSize := w.sink.firstNodeSize

end SliceWriter

end Tyrdbs.Slices
