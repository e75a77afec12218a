import Tyrdbs.Library.Runs
import Tyrdbs.Slices.Reader
import Tyrdbs.Storage.Latch

namespace Tyrdbs.Slices

open Outcome Runs Storage

/-- The key of a node: the chunk of its slice and its location. -/
structure NodeKey where
  chunkNdx : UInt64 := 0xffffffffffffffff
  location : UInt64 := 0xffffffffffffffff
  deriving DecidableEq

instance : Inhabited NodeKey := ⟨{}⟩

def NodeKey.hash (key : NodeKey) : UInt64 :=
  let mix (seed word : UInt64) : UInt64 :=
    seed ^^^ (Storage.hash64 word + (0x9e3779b9 : UInt64) + (seed <<< 6) + (seed >>> 2))
  mix (mix 0 key.chunkNdx) key.location

/-- Where a call of cache::get stands. Nodes are known by their addresses. -/
inductive GetPhase
  | loading
  | waiting (node : Nat)
  | leaving (node : Nat)
  | returned (node : Nat)

/-- A call, with the call that was loading the node when it came. -/
structure GetCall where
  key : NodeKey
  phase : GetPhase
  during : Option Nat

def GetCall.isLoading (key : NodeKey) (c : GetCall) : Bool :=
  decide (c.key = key) && match c.phase with
    | .loading => true
    | _ => false

/-- With no bits for the cache there is neither a cache nor a latch. -/
structure NodeCache where
  cache : Option (Wtinylfu NodeKey (Option Nat))
  latch : Latch NodeKey (Option Nat) := { emptyValue := none }
  files : UInt64 → List Byte
  nodes : List Node := []
  calls : List GetCall := []
  runQueue : List Nat := []

namespace NodeCache

def initial (clzOfZero : UInt32) (cacheBits : Nat) (files : UInt64 → List Byte) : NodeCache where
  cache := if cacheBits = 0 then none else some (Wtinylfu.construct clzOfZero (1 <<< cacheBits) none)
  files := files

def push (s : NodeCache) (c : GetCall) : NodeCache := { s with calls := s.calls ++ [c] }

def setPhase (s : NodeCache) (id : Nat) (phase : GetPhase) : NodeCache :=
  { s with calls := s.calls.modify id (fun c => { c with phase := phase }) }

/-- cache::set. -/
def set (s : NodeCache) (key : NodeKey) (node : Nat) : Except Stop NodeCache :=
  match s.cache with
  | none => .ok s
  | some cache => do
      let (_, cache) ← (cache.set NodeKey.hash key (some node)).mapError .cache
      return { s with cache := some cache }

/-- The end of a call: the last to leave the latch sets the node. -/
def leave (s : NodeCache) (id : Nat) (key : NodeKey) (node : Nat) : Except Stop NodeCache := do
  let (last, latch) ← s.latch.remove key
  let s := { s with latch := latch }.setPhase id (.returned node)
  if last then s.set key node else return s

/-- The loop of wait_for, from where a call enters it or is woken in it. -/
def waitFor (s : NodeCache) (id : Nat) (key : NodeKey) (node : Nat) : Except Stop NodeCache := do
  if ← s.latch.mustWait key then
    let latch ← s.latch.wait key id
    return { s with latch := latch }.setPhase id (.waiting node)
  else (s.setPhase id (.leaving node)).leave id key node

def get (s : NodeCache) (key : NodeKey) : Except Stop NodeCache :=
  let during := s.calls.findIdx? (GetCall.isLoading key)
  match s.cache with
  | none => .ok (s.push ⟨key, .loading, during⟩)
  | some cache => do
      let (found, cache) ← (cache.get NodeKey.hash key).mapError .cache
      let s := { s with cache := some cache }
      match found with
      | some node => return s.push ⟨key, .returned node, during⟩
      | none =>
          let (value, latch) := s.latch.acquire key
          let s := { s with latch := latch }
          match value with
          | none => return s.push ⟨key, .loading, during⟩
          | some node => (s.push ⟨key, .leaving node, during⟩).waitFor s.calls.length key node

def loadDone (s : NodeCache) (id : Nat) (key : NodeKey) (node : Node) : Except Stop NodeCache := do
  let address := s.nodes.length
  let s := { s with nodes := s.nodes ++ [node] }
  match s.cache with
  | none => return s.setPhase id (.returned address)
  | some _ =>
      let (woken, latch) ← s.latch.release key
      ({ s with latch := latch, runQueue := s.runQueue ++ woken }.setPhase id (.leaving address)).leave
        id key address

def resume (s : NodeCache) (id : Nat) (key : NodeKey) (node : Nat) : Except Stop NodeCache :=
  { s with runQueue := s.runQueue.erase id }.waitFor id key node

inductive Action
  | get (key : NodeKey)
  | loadDone (id : Nat) (node : Node)
  | resume (id : Nat)

def apply (s : NodeCache) : Action → Except Stop NodeCache
  | .get key => s.get key
  | .loadDone id node =>
      match s.calls[id]? with
      | some ⟨key, .loading, _⟩ => s.loadDone id key node
      | _ => .ok s
  | .resume id =>
      match s.calls[id]? with
      | some ⟨key, .waiting node, _⟩ => s.resume id key node
      | _ => .ok s

/-- A load that was started ends with the node that is read from the file. -/
def Admits (z : Codec) (s : NodeCache) : Action → Prop
  | .get key => key ≠ default
  | .loadDone id node => ∃ key during stale, s.calls[id]? = some ⟨key, .loading, during⟩ ∧
      loadNode z (s.files key.chunkNdx) stale key.location.toNat = .ok node
  | .resume id => id ∈ s.runQueue ∧ ∃ key node during, s.calls[id]? = some ⟨key, .waiting node, during⟩

/-- The program runs or has stopped. -/
inductive System
  | running (s : NodeCache)
  | stopped (stop : Stop)

def System.after : Except Stop NodeCache → System
  | .ok s => .running s
  | .error stop => .stopped stop

inductive Step (z : Codec) : System → Action → System → Prop
  | mk (s : NodeCache) (a : Action) : Admits z s a → Step z (.running s) a (.after (s.apply a))

/-- A node that is being loaded is asked for again. -/
def Overlaps : System → Action → Prop
  | .running s, .get key => ∃ (i : Nat) (during : Option Nat), s.calls[i]? = some ⟨key, .loading, during⟩
  | _, _ => False

/-- What is asked of the latch: one load of a node at a time, whose node those
return who came meanwhile. -/
structure Shared (s : NodeCache) : Prop where
  oneLoad : ∀ (key : NodeKey) (i j : Nat) (d d' : Option Nat), s.calls[i]? = some ⟨key, .loading, d⟩ →
    s.calls[j]? = some ⟨key, .loading, d'⟩ → i = j
  sameNode : ∀ (i j node : Nat) (key : NodeKey), s.calls[i]? = some ⟨key, .returned node, some j⟩ →
    ∃ d, s.calls[j]? = some ⟨key, .returned node, d⟩

def System.Shared : System → Prop
  | .running s => NodeCache.Shared s
  | .stopped _ => False

end NodeCache

end Tyrdbs.Slices
