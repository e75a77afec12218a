import Tyrdbs.Storage.Disk

namespace Tyrdbs.Storage

open Allocator

def maxFileSize : Nat := 1 <<< (pageBits + filePagesBits)

/-- The storage engine as one thread sees it. Page replacement, the contents
of reused memory and the flush thread belong to the rest of the program: each
is asked once at every turn and may answer anything. -/
structure Engine where
  disk : Disk
  cache : Nat → Option Page
  keeps : Nat → Nat → Bool
  stale : Nat → Page
  pressed : Nat → Bool
  turn : Nat := 0

structure Descriptor where
  cacheId : Nat
  size : Nat := 0
  extents : List Nat := []

/-- The buffer is the memory page being filled, absent while there is none. -/
structure State where
  buffer : Option Page := none
  bufferOffset : Nat := 0
  descriptor : Descriptor
  cachedPages : List Page := []

/-- 64 bits in the source, which cuts off an id from 2 ^ 39 on; here no id is cut. -/
def cacheKey (cacheId filePage : Nat) : Nat := cacheId <<< filePagesBits ||| filePage

namespace Engine

def evict (e : Engine) : Engine :=
  { e with cache := fun k => if e.keeps e.turn k then e.cache k else none, turn := e.turn + 1 }

def cacheAllocate (e : Engine) : Page × Engine := (e.stale e.turn, e.evict)

def cacheAdd (e : Engine) (key : Nat) (page : Page) : Engine :=
  evict { e with cache := fun k => if k = key then some page else e.cache k }

end Engine

def filePageAfter (extents : List Nat) : Nat := extents.foldl (fun n x => u32 (n + low x)) 0

def writeBatches : Nat → Disk → Nat → List Page → Disk
  | 0, d, _, _ => d
  | rounds + 1, d, diskPage, pages =>
      if pages = [] then d
      else
        let batch := pages.take iovMax
        writeBatches rounds (d.write diskPage batch) (u32 (diskPage + batch.length)) (pages.drop iovMax)

def addPages (cacheId : Nat) : Engine → Nat → List Page → Except Fault Engine
  | e, _, [] => .ok e
  | e, filePage, page :: pages =>
      if filePage < 1 <<< filePagesBits then
        addPages cacheId (e.cacheAdd (cacheKey cacheId filePage) page) (u32 (filePage + 1)) pages
      else .error .assertion

def flushPages (e : Engine) (st : State) : Except Fault (Engine × State) := do
  if st.cachedPages = [] then return (e, st)
  let filePage := filePageAfter st.descriptor.extents
  let pages := st.cachedPages.length
  let (diskPage, disk) ← e.disk.allocate pages
  let disk := writeBatches pages disk diskPage st.cachedPages
  let extents := st.descriptor.extents ++ [pack diskPage pages]
  let e ← addPages st.descriptor.cacheId { e with disk := disk } filePage st.cachedPages
  return (e, { st with cachedPages := [], descriptor := { st.descriptor with extents := extents } })

/-- Where the writer gives up the processor, the flush thread may flush the
file. -/
def yield (e : Engine) (st : State) : Except Fault (Engine × State) :=
  let next := { e with turn := e.turn + 1 }
  if e.pressed e.turn then flushPages next st else .ok (next, st)

def allocatePage (e : Engine) (st : State) : Except Fault (Engine × State) := do
  let (e, st) ← yield e st
  let (page, e) := e.cacheAllocate
  return (e, { st with buffer := some page })

def writePage (e : Engine) (st : State) : Except Fault (Engine × State) :=
  if st.bufferOffset = 0 then
    if st.buffer.isNone then .ok (e, st) else .error .assertion
  else
    yield e { st with
      cachedPages := st.cachedPages ++ st.buffer.toList
      buffer := none
      bufferOffset := 0 }

/-- One round of the loop in file_writer::write, with what it copied. -/
def writeRound (e : Engine) (st : State) (data : List Byte) : Except Fault (Engine × State × Nat) := do
  let (e, st) ← (if st.buffer.isNone then allocatePage e st else .ok (e, st))
  let part := min (pageSize - st.bufferOffset) data.length
  let st := { st with
    buffer := st.buffer.map (fun page => page.copy st.bufferOffset (data.take part))
    bufferOffset := st.bufferOffset + part
    descriptor := { st.descriptor with size := st.descriptor.size + part } }
  let (e, st) ← (if st.bufferOffset = pageSize then writePage e st else .ok (e, st))
  return (e, st, part)

def writeLoop : Nat → Engine → State → List Byte → Except Fault (Engine × State)
  | 0, _, _, _ => .error .unfinished
  | rounds + 1, e, st, data =>
      if data = [] then .ok (e, st)
      else do
        let (e, st, part) ← writeRound e st data
        writeLoop rounds e st (data.drop part)

def write (e : Engine) (st : State) (data : List Byte) : Except Fault (Engine × State) :=
  if st.descriptor.size + data.length ≥ maxFileSize then .error .fileSizeLimit
  else writeLoop (data.length + 2) e st data

def addPadding (st : State) : State :=
  if st.bufferOffset &&& pageMask = 0 then st
  else
    let size := pageSize - (st.bufferOffset &&& pageMask)
    { st with
      buffer := st.buffer.map (fun page => page.copy st.bufferOffset (List.replicate size 0))
      bufferOffset := st.bufferOffset + size
      descriptor := { st.descriptor with size := st.descriptor.size + size } }

def flush (e : Engine) (st : State) : Except Fault (Engine × State) := do
  let (e, st) ← writePage e st
  flushPages e st

def createWriter (e : Engine) : Engine × State :=
  ({ e with disk := { e.disk with nextCacheId := e.disk.nextCacheId + 1 } },
    { descriptor := { cacheId := e.disk.nextCacheId } })

inductive FileOp
  | write (data : List Byte)
  | addPadding
  | flushPages

def FileOp.run (e : Engine) (st : State) : FileOp → Except Fault (Engine × State)
  | .write data => Storage.write e st data
  | .addPadding => .ok (e, Storage.addPadding st)
  | .flushPages => Storage.flushPages e st

def runOps : Engine → State → List FileOp → Except Fault (Engine × State)
  | e, st, [] => .ok (e, st)
  | e, st, op :: ops => do
      let (e, st) ← op.run e st
      runOps e st ops

/-- A whole file: created, written, flushed and committed. -/
def writeFile (e : Engine) (ops : List FileOp) : Except Fault (Engine × Descriptor) := do
  let (e, st) := createWriter e
  let (e, st) ← runOps e st ops
  let (e, st) ← flush e st
  return (e, st.descriptor)

end Tyrdbs.Storage
