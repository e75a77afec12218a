import Tyrdbs.Library.Runs
import Tyrdbs.Library.Slots
import Tyrdbs.Storage.Latch
import Tyrdbs.Storage.FileReader

namespace Tyrdbs.Storage

open Outcome

/-- Where a call of disk_reader::read stands when it gives up the processor,
and on its way out of the latch. A call that returned keeps the bytes it was
given. -/
inductive Phase
  | reading (page diskPage : Nat)
  | waiting (page : Nat)
  | leaving (page : Nat)
  | returned (page : Nat) (bytes : Page)

structure Call where
  key : UInt64
  phase : Phase

/-- The calls in the order they came, with what they share. The last two
fields count latch episodes and cache::add. -/
structure DiskReader where
  cache : PageCache
  latch : Latch UInt64 Nat := { emptyValue := invalidHandle }
  image : Nat → Page
  memory : Nat → Page
  calls : List Call := []
  runQueue : List Nat := []
  episodes : UInt64 → Nat := fun _ => 0
  adds : UInt64 → Nat := fun _ => 0

namespace DiskReader

def keyOf (cacheId : UInt64) (filePage : UInt32) : UInt64 := (cacheId <<< 25) ||| filePage.toUInt64

def bump (f : UInt64 → Nat) (key : UInt64) : UInt64 → Nat := Function.update f key (f key + 1)

/-- The end of a call: the last to leave the latch adds the page. -/
def leave (s : DiskReader) (id : Nat) (key : UInt64) (page : Nat) : Except Stop DiskReader := do
  let (last, latch) ← s.latch.remove key
  let s := { s with latch := latch, calls := s.calls.set id ⟨key, .returned page (s.memory page)⟩ }
  if last then
    let cache ← s.cache.add key page
    return { s with cache := cache, adds := bump s.adds key }
  else return s

/-- The loop of wait_for, from where a call enters it or is woken in it. -/
def waitFor (s : DiskReader) (id : Nat) (key : UInt64) (page : Nat) : Except Stop DiskReader := do
  if ← s.latch.mustWait key then
    let latch ← s.latch.wait key id
    return { s with latch := latch, calls := s.calls.set id ⟨key, .waiting page⟩ }
  else
    leave { s with calls := s.calls.set id ⟨key, .leaving page⟩ } id key page

def read (s : DiskReader) (cacheId : UInt64) (filePage : UInt32) (extents : List Nat) :
    Except Stop DiskReader := do
  check (filePage.toNat < 1 <<< filePagesBits) .assertion
  let key := keyOf cacheId filePage
  let id := s.calls.length
  let (page, cache) ← s.cache.get key
  let s := { s with cache := cache }
  if page ≠ invalidHandle then
    return { s with calls := s.calls ++ [⟨key, .returned page (s.memory page)⟩] }
  else
    let isNew := (s.latch.entries.find key).isNone
    let (page, latch) := s.latch.acquire key
    let s := { s with
      latch := latch
      episodes := if isNew then bump s.episodes key else s.episodes }
    if page = invalidHandle then
      let (page, cache) ← s.cache.allocate
      let latch ← s.latch.set key page
      return { s with
        cache := cache
        latch := latch
        calls := s.calls ++ [⟨key, .reading page (getDiskPage extents filePage.toNat)⟩] }
    else
      waitFor { s with calls := s.calls ++ [⟨key, .leaving page⟩] } id key page

def readDone (s : DiskReader) (id : Nat) (key : UInt64) (page diskPage : Nat) : Except Stop DiskReader := do
  let s := { s with memory := Function.update s.memory page (s.image diskPage) }
  let (woken, latch) ← s.latch.release key
  let s := { s with
    latch := latch
    runQueue := s.runQueue ++ woken
    calls := s.calls.set id ⟨key, .leaving page⟩ }
  s.leave id key page

def resume (s : DiskReader) (id : Nat) (key : UInt64) (page : Nat) : Except Stop DiskReader :=
  waitFor { s with runQueue := s.runQueue.erase id } id key page

inductive Action
  | read (cacheId : UInt64) (filePage : UInt32) (extents : List Nat)
  | readDone (id : Nat)
  | resume (id : Nat)

def apply (s : DiskReader) : Action → Except Stop DiskReader
  | .read cacheId filePage extents => s.read cacheId filePage extents
  | .readDone id =>
      match s.calls[id]? with
      | some ⟨key, .reading page diskPage⟩ => s.readDone id key page diskPage
      | _ => .ok s
  | .resume id =>
      match s.calls[id]? with
      | some ⟨key, .waiting page⟩ => s.resume id key page
      | _ => .ok s

/-- A file is read under its own cache id, which is never zero, inside its
extents; a disk read ends once it was started; a context runs once it was
enqueued. -/
def Admits (diskPageOf : UInt64 → Nat) (s : DiskReader) : Action → Prop
  | .read cacheId filePage extents =>
      filePage.toNat < 1 <<< filePagesBits ∧ keyOf cacheId filePage ≠ 0 ∧
        getDiskPage extents filePage.toNat = diskPageOf (keyOf cacheId filePage)
  | .readDone id => ∃ key page diskPage, s.calls[id]? = some ⟨key, .reading page diskPage⟩
  | .resume id => id ∈ s.runQueue ∧ ∃ key page, s.calls[id]? = some ⟨key, .waiting page⟩

/-- The program runs or has stopped. -/
inductive System
  | running (s : DiskReader)
  | stopped (stop : Stop)

def System.after : Except Stop DiskReader → System
  | .ok s => .running s
  | .error stop => .stopped stop

inductive Step (diskPageOf : UInt64 → Nat) : System → Action → System → Prop
  | mk (s : DiskReader) (a : Action) :
      Admits diskPageOf s a → Step diskPageOf (.running s) a (.after (s.apply a))

end DiskReader

end Tyrdbs.Storage
