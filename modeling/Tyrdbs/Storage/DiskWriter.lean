import Tyrdbs.Storage.DiskReader
import Tyrdbs.Storage.FileWriter

namespace Tyrdbs.Storage

open Outcome Allocator

/-- A file_writer and its state in disk_writer. The buffer is the memory of
mem_page, and there is one as long as there is a page. -/
structure FileWriter where
  descriptor : Descriptor
  bufferOffset : Nat := 0
  cachedPages : List Nat := []
  memPage : Nat := invalidHandle
  commited : Bool := false
  flushed : Bool := false

/-- A call of flush_pages that has taken the pages of a state; cond names the
entry of the latch that it holds a reference to. -/
structure Flush where
  state : Nat
  wait : Bool
  cond : Nat
  cachedPages : List Nat
  filePage : Nat
  deriving DecidableEq

/-- Where a context goes on. It is in the code of a caller, waits for something
that is none of the engine's business, or stands at a point of disk_writer. -/
inductive Stage
  | user
  | outside
  | allocatePage (state : Nat) (data : List Byte)
  | write (state : Nat) (data : List Byte)
  | flush (state : Nat)
  | flushPages (state : Nat) (wait : Bool)
  | allocate (flush : Flush)
  | allocating (flush : Flush)
  | extend (flush : Flush)
  | batch (flush : Flush) (diskPage : Nat) (rest : List Nat)
  | writing (flush : Flush) (diskPage : Nat) (rest : List Nat)
  | flushThread
  | sweep (state : Option Nat)
  | ended
  deriving DecidableEq

namespace Stage

/-- The call of flush_pages that has pages of a state in flight. -/
def flush? : Stage → Option Flush
  | .allocate call => some call
  | .allocating call => some call
  | .extend call => some call
  | .batch call _ _ => some call
  | .writing call _ _ => some call
  | _ => none

def state : Stage → Option Nat
  | .allocatePage e _ => some e
  | .write e _ => some e
  | .flush e => some e
  | .flushPages e _ => some e
  | .sweep e => e
  | stage => stage.flush?.map Flush.state

/-- The file that a context is in a call for, unless it is the flush thread. -/
def operand : Stage → Option Nat
  | .allocatePage e _ => some e
  | .write e _ => some e
  | .flush e => some e
  | .flushPages e wait => if wait then some e else none
  | .sweep _ => none
  | stage => stage.flush?.bind (fun call => if call.wait then some call.state else none)

def waitsForDisk : Stage → Bool
  | .allocating _ => true
  | .writing _ _ _ => true
  | _ => false

end Stage

/-- disk_writer with all that it shares: the page cache, the memory and the
image of the disk are those of disk_reader. States are handles of a list whose
erased entries keep their link and are given out again, the last one first. The
last two fields record what files were given and what has entered the cache. -/
structure DiskWriter where
  reader : DiskReader
  blocks : Allocator
  nextCacheId : Nat := 1
  preallocateSpace : Bool
  allocationInProgress : Bool := false
  allocationCond : List Nat := []
  maxDirtyPages : Nat
  dirtyPages : Nat := 0
  dirtyPagesCond : List Nat := []
  globalFlushActive : Bool := false
  latch : Table Nat (List Nat) := Table.empty
  files : Nat → FileWriter := fun _ => { descriptor := { cacheId := 0 } }
  states : List Nat := []
  links : Nat → Option Nat := fun _ => none
  freed : List Nat := []
  fresh : Nat := 0
  threads : List Stage := []
  runQueue : List Nat := []
  current : Option Nat := none
  written : Nat → List Byte := fun _ => []
  entered : List (Nat × Nat × Page) := []

namespace DiskWriter

def withCache (s : DiskWriter) (cache : PageCache) : DiskWriter := { s with reader := { s.reader with cache := cache } }

def setFile (s : DiskWriter) (e : Nat) (f : FileWriter) : DiskWriter :=
  { s with files := Function.update s.files e f }

def setStage (s : DiskWriter) (t : Nat) (p : Stage) : DiskWriter := { s with threads := s.threads.set t p }

def enqueue (s : DiskWriter) (ts : List Nat) : DiskWriter := { s with runQueue := s.runQueue ++ ts }

/-- gt::yield, and what the context does when it is back. -/
def yield (s : DiskWriter) (t : Nat) (p : Stage) : DiskWriter :=
  { (s.setStage t p).enqueue [t] with current := none }

def suspend (s : DiskWriter) (t : Nat) (p : Stage) : DiskWriter := { s.setStage t p with current := none }

def createThread (s : DiskWriter) (p : Stage) : DiskWriter :=
  { s with threads := s.threads ++ [p], runQueue := s.runQueue ++ [s.threads.length] }

def signalDirtyPages (s : DiskWriter) : DiskWriter := { s.enqueue s.dirtyPagesCond with dirtyPagesCond := [] }

/-- slab_list::next, of an erased entry too. -/
def next (s : DiskWriter) (e : Nat) : Option Nat :=
  if e ∈ s.states then (s.states.dropWhile (· ≠ e))[1]? else s.links e

def allocate (s : DiskWriter) : DiskWriter :=
  let e := s.freed.headD s.fresh
  { s.setFile e { descriptor := { cacheId := s.nextCacheId } } with
    nextCacheId := s.nextCacheId + 1
    states := s.states ++ [e]
    freed := s.freed.tail
    fresh := if s.freed = [] then s.fresh + 1 else s.fresh }

def free (s : DiskWriter) (e : Nat) : DiskWriter :=
  { s with
    links := Function.update s.links e (s.next e)
    states := s.states.erase e
    freed := e :: s.freed }

def startGlobalFlush (s : DiskWriter) : DiskWriter :=
  if s.globalFlushActive then s else { s with globalFlushActive := true }.createThread .flushThread

/-- The loop of allocate_page, and the rest of write. -/
def allocatePage (s : DiskWriter) (t e : Nat) (data : List Byte) : Except Stop DiskWriter :=
  if s.maxDirtyPages ≤ s.dirtyPages then
    let s := s.startGlobalFlush
    .ok ({ s with dirtyPagesCond := s.dirtyPagesCond ++ [t] }.suspend t (.allocatePage e data))
  else do
    let (page, cache) ← s.reader.cache.allocate
    let s := { s.withCache cache with dirtyPages := s.dirtyPages + 1 }
    return (s.setFile e { s.files e with memPage := page }).setStage t (.write e data)

def put (s : DiskWriter) (e : Nat) (data : List Byte) : DiskWriter :=
  let f := s.files e
  let memory := Function.update s.reader.memory f.memPage ((s.reader.memory f.memPage).copy f.bufferOffset data)
  { s.setFile e { f with
      bufferOffset := f.bufferOffset + data.length
      descriptor := { f.descriptor with size := f.descriptor.size + data.length } } with
    reader := { s.reader with memory := memory }
    written := Function.update s.written f.descriptor.cacheId (s.written f.descriptor.cacheId ++ data) }

/-- The page of write_page joins the cached pages. -/
def pushPage (s : DiskWriter) (e : Nat) : DiskWriter :=
  let f := s.files e
  s.setFile e { f with cachedPages := f.cachedPages ++ [f.memPage], memPage := invalidHandle, bufferOffset := 0 }

/-- One round of the loop in file_writer::write. -/
def writeRound (s : DiskWriter) (t e : Nat) (data : List Byte) : Except Stop DiskWriter :=
  let f := s.files e
  if data = [] then .ok (s.setStage t .user)
  else if f.memPage = invalidHandle then s.allocatePage t e data
  else
    let part := min (pageSize - f.bufferOffset) data.length
    let s := s.put e (data.take part)
    if f.bufferOffset + part = pageSize then .ok ((s.pushPage e).yield t (.write e (data.drop part)))
    else .ok (s.setStage t (.write e (data.drop part)))

def write (s : DiskWriter) (t e : Nat) (data : List Byte) : Except Stop DiskWriter :=
  let f := s.files e
  if f.descriptor.size + data.length ≥ maxFileSize then .ok s
  else do
    check (f.commited = false) .assertion
    return s.setStage t (.write e data)

def addPadding (s : DiskWriter) (e : Nat) : Except Stop DiskWriter := do
  let f := s.files e
  check (f.commited = false) .assertion
  if f.bufferOffset &&& pageMask = 0 then return s
  else return s.put e (List.replicate (pageSize - (f.bufferOffset &&& pageMask)) 0)

/-- file_writer::flush up to the end of write_page. -/
def flush (s : DiskWriter) (t e : Nat) : Except Stop DiskWriter := do
  check ((s.files e).flushed = false) .assertion
  let s := s.setFile e { s.files e with flushed := true }
  if (s.files e).bufferOffset = 0 then
    check ((s.files e).memPage = invalidHandle) .assertion
    return s.setStage t (.flush e)
  else return (s.pushPage e).yield t (.flush e)

/-- flush_pages finds the latch of the file taken or free. -/
def testLatch (s : DiskWriter) (t e : Nat) : DiskWriter :=
  let id := (s.files e).descriptor.cacheId
  match s.latch.find id with
  | some waiting => { s with latch := s.latch.put id (waiting ++ [t]) }.suspend t (.flushPages e true)
  | none => s.setStage t (.flushPages e true)

/-- One turn of the loop in flush_thread, which does not wait for the latch. -/
def sweep (s : DiskWriter) (t : Nat) : Option Nat → DiskWriter
  | none => { s with globalFlushActive := false }.suspend t .ended
  | some e =>
      match s.latch.find (s.files e).descriptor.cacheId with
      | some _ => s.setStage t (.sweep (s.next e))
      | none => s.setStage t (.flushPages e false)

/-- flush_pages returns to file_writer::flush or to the loop of flush_thread. -/
def returned (s : DiskWriter) (t e : Nat) (wait : Bool) : DiskWriter :=
  s.setStage t (if wait then .user else .sweep (s.next e))

/-- flush_pages behind the latch, up to disk::allocate. -/
def takePages (s : DiskWriter) (t e : Nat) (wait : Bool) : DiskWriter :=
  let f := s.files e
  let id := f.descriptor.cacheId
  if f.cachedPages = [] then s.returned t e wait
  else
    let flush : Flush := {
      state := e
      wait := wait
      cond := id
      cachedPages := f.cachedPages
      filePage := filePageAfter f.descriptor.extents }
    { s.setFile e { f with cachedPages := [] } with
      latch := s.latch.put id ((s.latch.find id).getD []) }.setStage t (.allocate flush)

def allocateSpace (s : DiskWriter) (t : Nat) (flush : Flush) : DiskWriter :=
  if s.allocationInProgress then
    { s with allocationCond := s.allocationCond ++ [t] }.suspend t (.allocate flush)
  else
    let s := { s with allocationInProgress := true }
    if s.preallocateSpace then s.suspend t (.allocating flush) else s.setStage t (.extend flush)

/-- One round of the loop in disk::allocate. -/
def allocateBlocks (s : DiskWriter) (t : Nat) (flush : Flush) : DiskWriter :=
  let pages := flush.cachedPages.length
  let (diskPage, blocks) := s.blocks.allocate pages
  if diskPage = invalidHandle then s.allocateSpace t flush
  else
    let f := s.files flush.state
    let extents := f.descriptor.extents ++ [pack diskPage pages]
    ({ s with blocks := blocks }.setFile flush.state { f with
      descriptor := { f.descriptor with extents := extents } }).setStage t (.batch flush diskPage flush.cachedPages)

/-- The rest of allocate_space. -/
def extendBlocks (s : DiskWriter) (t : Nat) (flush : Flush) : DiskWriter :=
  { s.enqueue s.allocationCond with
    blocks := s.blocks.extend growPages
    allocationInProgress := false
    allocationCond := [] }.setStage t (.allocate flush)

def enterPages (s : DiskWriter) (state : Nat) : Nat → List Nat → Except Stop DiskWriter
  | _, [] => .ok s
  | filePage, page :: pages => do
      check (filePage < 1 <<< filePagesBits) .assertion
      let id := (s.files state).descriptor.cacheId
      let cache ← s.reader.cache.add (DiskReader.keyOf (UInt64.ofNat id) (UInt32.ofNat filePage)) page
      let s := { s.withCache cache with entered := s.entered ++ [(id, filePage, s.reader.memory page)] }
      s.enterPages state (u32 (filePage + 1)) pages

def cleanPages (s : DiskWriter) (pages : Nat) : DiskWriter :=
  { s with dirtyPages := s.dirtyPages - pages }.signalDirtyPages

def releaseLatch (s : DiskWriter) (t : Nat) (flush : Flush) (waiting : List Nat) : DiskWriter :=
  let latch := (s.latch.put flush.cond []).erase (s.files flush.state).descriptor.cacheId
  { s.enqueue waiting with latch := latch }.returned t flush.state flush.wait

/-- The end of flush_pages, once all is written. -/
def finishFlush (s : DiskWriter) (t : Nat) (flush : Flush) : Except Stop DiskWriter := do
  let s ← s.enterPages flush.state flush.filePage flush.cachedPages
  check (flush.cachedPages.length ≤ s.dirtyPages) .assertion
  match s.latch.find flush.cond with
  | none => .error .latch
  | some waiting => return (s.cleanPages flush.cachedPages.length).releaseLatch t flush waiting

def writeBatch (s : DiskWriter) (t : Nat) (flush : Flush) (diskPage : Nat) (rest : List Nat) :
    Except Stop DiskWriter :=
  if rest = [] then s.finishFlush t flush else .ok (s.suspend t (.writing flush diskPage rest))

def ioDone (s : DiskWriter) (t : Nat) : DiskWriter :=
  match s.threads[t]? with
  | some (.writing flush diskPage rest) =>
      let batch := rest.take iovMax
      let disk : Disk := { blocks := s.blocks, image := s.reader.image }
      let image := (disk.write diskPage (batch.map s.reader.memory)).image
      ({ s with reader := { s.reader with image := image } }.setStage t
        (.batch flush (u32 (diskPage + batch.length)) (rest.drop iovMax))).enqueue [t]
  | some (.allocating flush) => (s.setStage t (.extend flush)).enqueue [t]
  | _ => s

def freePages (s : DiskWriter) : List Nat → Except Stop DiskWriter
  | [] => .ok s
  | page :: pages => do
      let cache ← s.reader.cache.free page
      (s.withCache cache).freePages pages

/-- disk::remove. -/
def removeExtents : Allocator → List Nat → Except Stop Allocator
  | blocks, [] => .ok blocks
  | blocks, extent :: extents => do
      check (low extent ≤ blocks.size) .assertion
      removeExtents (blocks.free (high extent) (low extent)) extents

def removePage (s : DiskWriter) (page : Nat) : Except Stop DiskWriter :=
  if page = invalidHandle then .ok s
  else do
    let s ← s.freePages [page]
    return { s with dirtyPages := s.dirtyPages - 1 }

def remove (s : DiskWriter) (e : Nat) : Except Stop DiskWriter := do
  let f := s.files e
  let s ← s.removePage f.memPage
  let blocks ← removeExtents s.blocks f.descriptor.extents
  let s ← { s with blocks := blocks }.freePages f.cachedPages
  check (f.cachedPages.length ≤ s.dirtyPages) .assertion
  return s.cleanPages f.cachedPages.length

def commit (s : DiskWriter) (e : Nat) : Except Stop DiskWriter := do
  let f := s.files e
  check (f.flushed = true) .assertion
  check (f.commited = false) .assertion
  return s.setFile e { f with commited := true, descriptor := { f.descriptor with extents := [] } }

/-- disk_reader::remove, for a file that was commited. -/
def unlink (s : DiskWriter) (extents : List Nat) : Except Stop DiskWriter := do
  let blocks ← removeExtents s.blocks extents
  return { s with blocks := blocks }

/-- The destructor of a file_writer. -/
def destroy (s : DiskWriter) (e : Nat) : Except Stop DiskWriter :=
  if (s.files e).commited then .ok (s.free e)
  else do
    let s ← s.remove e
    return s.free e

/-- The current context goes on in the code of disk_writer. -/
def go (s : DiskWriter) (t : Nat) : Except Stop DiskWriter :=
  match s.threads[t]? with
  | some (.allocatePage e data) => s.allocatePage t e data
  | some (.write e data) => s.writeRound t e data
  | some (.flush e) => .ok (s.testLatch t e)
  | some (.flushPages e wait) => .ok (s.takePages t e wait)
  | some (.allocate flush) => .ok (s.allocateBlocks t flush)
  | some (.extend flush) => .ok (s.extendBlocks t flush)
  | some (.batch flush diskPage rest) => s.writeBatch t flush diskPage rest
  | some .flushThread => .ok (s.setStage t (.sweep s.states.head?))
  | some (.sweep e) => .ok (s.sweep t e)
  | _ => .ok s

inductive Action
  | create
  | write (e : Nat) (data : List Byte)
  | addPadding (e : Nat)
  | flush (e : Nat)
  | commit (e : Nat)
  | destroy (e : Nat)
  | unlink (extents : List Nat)
  | go
  | pause
  | schedule (t : Nat)
  | start
  | wake (t : Nat)
  | ioDone (t : Nat)
  | read (a : DiskReader.Action)

def perform (s : DiskWriter) (t : Nat) : Action → Except Stop DiskWriter
  | .create => .ok s.allocate
  | .write e data => s.write t e data
  | .addPadding e => s.addPadding e
  | .flush e => s.flush t e
  | .commit e => s.commit e
  | .destroy e => s.destroy e
  | .unlink extents => s.unlink extents
  | .go => s.go t
  | .pause => .ok (s.suspend t .outside)
  | _ => .ok s

def apply (s : DiskWriter) : Action → Except Stop DiskWriter
  | .schedule t => .ok { s with current := some t, runQueue := s.runQueue.erase t }
  | .start => .ok (s.createThread .user)
  | .wake t => .ok ((s.setStage t .user).enqueue [t])
  | .ioDone t => .ok (s.ioDone t)
  | .read a => do
      let reader ← s.reader.apply a
      return { s with reader := reader }
  | a =>
      match s.current with
      | some t => s.perform t a
      | none => .ok s

def IsUser (s : DiskWriter) : Prop := ∃ t, s.current = some t ∧ s.threads[t]? = some .user

/-- A file is used by one context at a time, for as long as it is there. -/
structure Callable (s : DiskWriter) (e : Nat) : Prop where
  user : s.IsUser
  live : e ∈ s.states
  idle : ∀ stage ∈ s.threads, stage.operand ≠ some e

/-- A context is enqueued by whatever it waits for, and scheduled once it is
enqueued. -/
def Admits (s : DiskWriter) : Action → Prop
  | .create => s.IsUser
  | .write e _ => s.Callable e
  | .addPadding e => s.Callable e
  | .flush e => s.Callable e
  | .commit e => s.Callable e
  | .destroy e => s.Callable e
  | .unlink _ => s.IsUser
  | .go => s.current ≠ none
  | .pause => s.IsUser
  | .schedule t => s.current = none ∧ t ∈ s.runQueue
  | .start => True
  | .wake t => s.threads[t]? = some .outside
  | .ioDone t => ∃ stage, s.threads[t]? = some stage ∧ stage.waitsForDisk = true
  | .read a => s.current = none ∧ ∃ diskPageOf, DiskReader.Admits diskPageOf s.reader a

def Step (s : DiskWriter) (a : Action) (s' : DiskWriter) : Prop := s.Admits a ∧ s.apply a = .ok s'

end DiskWriter

end Tyrdbs.Storage
