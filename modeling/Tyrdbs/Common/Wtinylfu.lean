import Tyrdbs.Library.Outcome
import Tyrdbs.Common.Allocator
import Mathlib.Algebra.Order.Ring.Nat
import Mathlib.Data.Multiset.AddSub

namespace Tyrdbs

open Outcome

/-- How often the keys of one counter group were used, four bits a counter. -/
structure FrequencySketch where
  table : List UInt64 := []
  tableMask : UInt64 := 0
  maxSamples : UInt32 := 0
  samples : UInt32 := 0

namespace FrequencySketch

/-- The result of __builtin_clz for zero is undefined. -/
def clz (ofZero n : UInt32) : UInt32 := if n = 0 then ofZero else UInt32.ofNat (31 - n.toNat.log2)

def initialized (clzOfZero maxItems : UInt32) : FrequencySketch :=
  let size := (1 : UInt32) <<< (32 - clz clzOfZero maxItems)
  { table := List.replicate size.toNat 0
    tableMask := size.toUInt64 - 1
    maxSamples := maxItems * 10 }

def seeds : List UInt64 :=
  [0xc3a5c85c97cb3127, 0xb492b66fbe98f273, 0x9ae16a3b2f90404f, 0xcbf29ce484222325]

def indexOf (s : FrequencySketch) (item : UInt32) (i : Nat) : Nat :=
  let hash := seeds.getD i 0 * item.toUInt64
  let hash := hash + hash >>> 32
  (hash.toUInt32.toUInt64 &&& s.tableMask).toNat

def frequency (s : FrequencySketch) (hash : UInt32) : UInt32 :=
  let start := (hash &&& 3) <<< 2
  (List.range 4).foldl (fun frequency i =>
    let counters := s.table.getD (s.indexOf hash i) 0
    let count := (counters >>> (((start + UInt32.ofNat i) <<< 2) &&& 0x0f).toUInt64).toUInt32
    min frequency count) 0xffffffff

def incrementAt (s : FrequencySketch) (i : Nat) (j : UInt32) : FrequencySketch :=
  let offset := (j <<< 2).toUInt64
  let mask := (0x0f : UInt64) <<< offset
  let counters := s.table.getD i 0
  if counters &&& mask ≠ mask then { s with table := s.table.set i (counters + 1 <<< offset) } else s

def popcount (x : UInt64) : Nat := (List.range 64).countP (fun i => x.toNat.testBit i)

def reset (s : FrequencySketch) : FrequencySketch :=
  let count := (s.table.map (fun (counters : UInt64) => popcount (counters &&& 0x1111111111111111))).sum
  { s with
    table := s.table.map (fun (counters : UInt64) => (counters >>> 1) &&& 0x7777777777777777)
    samples := s.samples >>> 1 - UInt32.ofNat count >>> 2 }

/-- The source starts with added set, so every increment counts as a sample. -/
def increment (s : FrequencySketch) (hash : UInt32) : FrequencySketch :=
  let start := (hash &&& 3) <<< 2
  let added := (List.range 4).foldl (fun (t : FrequencySketch) i =>
    t.incrementAt (t.indexOf hash i) (start + UInt32.ofNat i)) s
  let sampled := { added with samples := added.samples + 1 }
  if sampled.samples = sampled.maxSamples then sampled.reset else sampled

end FrequencySketch

namespace Wtinylfu

/-- What stops the program: a failed assertion, the element before the first
of an empty list, an element that was erased. -/
inductive Fault
  | assertion
  | endIterator
  | dangling
  deriving DecidableEq

inductive Location
  | window
  | mainA1
  | mainA2
  deriving DecidableEq

structure Entry (Key Item : Type) where
  location : Location := .window
  key : Key
  item : Item

/-- The elements of a list by their addresses, front first. -/
structure Lru where
  list : List Nat := []
  items : Nat := 0
  maxItems : Nat := 0
  deriving DecidableEq

end Wtinylfu

open Wtinylfu

/-- The three lists are told apart by the location their elements carry. -/
structure Wtinylfu (Key Item : Type) where
  lru : Location → Lru
  map : Key → Option Nat
  nodes : Nat → Option (Entry Key Item)
  fresh : Nat
  counters : Nat → FrequencySketch
  emptyItem : Item

namespace Wtinylfu

variable {Key Item : Type}

def numCounters : Nat := 4096

def windowMax (maxItems : Nat) : Nat := maxItems / 100

def mainA1Max (maxItems : Nat) : Nat := u32 (2 * (maxItems - windowMax maxItems)) / 10

def mainA2Max (maxItems : Nat) : Nat := maxItems - windowMax maxItems - mainA1Max maxItems

def maxItemsOf (maxItems : Nat) : Location → Nat
  | .window => windowMax maxItems
  | .mainA1 => mainA1Max maxItems
  | .mainA2 => mainA2Max maxItems

/-- The constructor, with set_empty_item. -/
def construct (clzOfZero : UInt32) (maxItems : Nat) (emptyItem : Item) : Wtinylfu Key Item where
  lru l := { maxItems := maxItemsOf maxItems l }
  map _ := none
  nodes _ := none
  fresh := 0
  counters _ := FrequencySketch.initialized clzOfZero (UInt32.ofNat (maxItems / numCounters))
  emptyItem := emptyItem

/-- lru::initialize, size and is_full speak of one of the lists. -/
def size (c : Wtinylfu Key Item) (l : Location) : Nat := (c.lru l).items

def isFull (c : Wtinylfu Key Item) (l : Location) : Bool := (c.lru l).items = (c.lru l).maxItems

def modify (c : Wtinylfu Key Item) (l : Location) (f : Lru → Lru) : Wtinylfu Key Item :=
  { c with lru := Function.update c.lru l (f (c.lru l)) }

def deref (c : Wtinylfu Key Item) (it : Nat) : Except Fault (Entry Key Item) :=
  match c.nodes it with
  | some e => .ok e
  | none => .error .dangling

def setLocation (c : Wtinylfu Key Item) (it : Nat) (l : Location) : Wtinylfu Key Item :=
  { c with nodes := Function.update c.nodes it ((c.nodes it).map (fun e => { e with location := l })) }

def setItem (c : Wtinylfu Key Item) (it : Nat) (item : Item) : Wtinylfu Key Item :=
  { c with nodes := Function.update c.nodes it ((c.nodes it).map (fun e => { e with item := item })) }

def evictionCandidate (c : Wtinylfu Key Item) (l : Location) : Except Fault Nat :=
  match (c.lru l).list.getLast? with
  | some it => .ok it
  | none => .error .endIterator

/-- lru::evict. -/
def lruEvict (c : Wtinylfu Key Item) (l : Location) (it : Nat) : Except Fault (Wtinylfu Key Item) := do
  check (c.size l ≠ 0) .assertion
  let c := c.modify l (fun r => { r with items := r.items - 1, list := r.list.erase it })
  return { c with nodes := Function.update c.nodes it none }

/-- lru::move, also when the list is its own source. -/
def lruMove (c : Wtinylfu Key Item) (l : Location) (it : Nat) (source : Location) : Wtinylfu Key Item :=
  let c := c.modify l (fun r => { r with items := u32 (r.items + 1) })
  let c := c.modify source (fun r => { r with items := u32 (r.items + 2 ^ 32 - 1) })
  let c := c.modify source (fun r => { r with list := r.list.erase it })
  c.modify l (fun r => { r with list := it :: r.list })

variable [DecidableEq Key]

def erase (c : Wtinylfu Key Item) (key : Key) : Wtinylfu Key Item :=
  { c with map := Function.update c.map key none }

variable [Inhabited Key] [Inhabited Item] (hash : Key → UInt64)

def frequency (c : Wtinylfu Key Item) (key : Key) : UInt32 :=
  (c.counters (hash key &&& 0xfff).toNat).frequency (hash key >>> 12).toUInt32

def increment (c : Wtinylfu Key Item) (key : Key) : Wtinylfu Key Item :=
  let group := (hash key &&& 0xfff).toNat
  { c with counters :=
      Function.update c.counters group ((c.counters group).increment (hash key >>> 12).toUInt32) }

/-- lru::create on the window. -/
def lruCreate (c : Wtinylfu Key Item) (key : Key) : Except Fault (Nat × Wtinylfu Key Item) := do
  check (c.size .window ≠ (c.lru .window).maxItems) .assertion
  let c := c.modify .window (fun r => { r with items := u32 (r.items + 1), list := c.fresh :: r.list })
  let node : Entry Key Item := { key := key, item := default }
  return (c.fresh, { c with nodes := Function.update c.nodes c.fresh (some node), fresh := c.fresh + 1 })

def create (c : Wtinylfu Key Item) (key : Key) : Except Fault (Nat × Wtinylfu Key Item) := do
  let (it, c) ← c.lruCreate key
  check (c.map key = none) .assertion
  let c := { c with map := Function.update c.map key (some it) }
  return (it, c.increment hash key)

def touch (c : Wtinylfu Key Item) (it : Nat) : Except Fault (Wtinylfu Key Item) := do
  let e ← c.deref it
  let c := c.increment hash e.key
  match e.location with
  | .window => return c.lruMove .window it .window
  | .mainA1 =>
      if c.isFull .mainA2 then
        let c := c.setLocation it .mainA2
        let c := c.lruMove .mainA2 it .mainA1
        let it1 ← c.evictionCandidate .mainA2
        let c := c.setLocation it1 .mainA1
        return c.lruMove .mainA1 it1 .mainA2
      else
        let c := c.setLocation it .mainA2
        return c.lruMove .mainA2 it .mainA1
  | .mainA2 => return c.lruMove .mainA2 it .mainA2

def checkSizes (c : Wtinylfu Key Item) : Except Fault Unit := do
  check (c.size .window ≤ (c.lru .window).maxItems) .assertion
  check (c.size .mainA1 ≤ (c.lru .mainA1).maxItems) .assertion
  check (c.size .mainA2 ≤ (c.lru .mainA2).maxItems) .assertion

/-- What the eviction of a candidate has in common: its item is handed back. -/
def dropCandidate (c : Wtinylfu Key Item) (l : Location) : Except Fault (Item × Wtinylfu Key Item) := do
  let it ← c.evictionCandidate l
  let e ← c.deref it
  let c ← (c.erase e.key).lruEvict l it
  return (e.item, c)

def evictWorseCandidate (c : Wtinylfu Key Item) : Except Fault (Item × Wtinylfu Key Item) := do
  let it1 ← c.evictionCandidate .window
  let it2 ← c.evictionCandidate .mainA1
  let e1 ← c.deref it1
  let e2 ← c.deref it2
  if c.frequency hash e1.key > c.frequency hash e2.key then
    let (item, c) ← c.dropCandidate .mainA1
    let c := c.setLocation it1 .mainA1
    return (item, c.lruMove .mainA1 it1 .window)
  else
    c.dropCandidate .window

def evictIfNecessary (c : Wtinylfu Key Item) : Except Fault (Item × Wtinylfu Key Item) := do
  if c.isFull .window = false then return (c.emptyItem, c)
  if c.isFull .mainA1 = false then
    let it ← c.evictionCandidate .window
    let c := c.setLocation it .mainA1
    return (c.emptyItem, c.lruMove .mainA1 it .window)
  c.evictWorseCandidate hash

def get (c : Wtinylfu Key Item) (key : Key) : Except Fault (Item × Wtinylfu Key Item) := do
  check (key ≠ default) .assertion
  match c.map key with
  | none => return (c.emptyItem, c)
  | some it =>
      let c ← c.touch hash it
      c.checkSizes
      let e ← c.deref it
      return (e.item, c)

def set (c : Wtinylfu Key Item) (key : Key) (item : Item) : Except Fault (Item × Wtinylfu Key Item) := do
  check (key ≠ default) .assertion
  check (c.map key = none) .assertion
  let (oldItem, c) ← c.evictIfNecessary hash
  let (it, c) ← c.create hash key
  let c := c.setItem it item
  c.checkSizes
  return (oldItem, c)

def evict (c : Wtinylfu Key Item) : Except Fault (Item × Wtinylfu Key Item) := do
  if c.size .window ≠ 0 ∨ c.size .mainA1 ≠ 0 then
    if c.size .window = 0 then c.dropCandidate .mainA1
    else if c.size .mainA1 = 0 then c.dropCandidate .window
    else c.evictWorseCandidate hash
  else if c.size .mainA2 = 0 then return (c.emptyItem, c)
  else c.dropCandidate .mainA2

end Wtinylfu

end Tyrdbs
