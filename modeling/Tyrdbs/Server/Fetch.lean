import Tyrdbs.Message.RoundTrip
import Tyrdbs.Ushard.Iterator

namespace Tyrdbs.Server.Fetch

open Bytes Message Outcome Ushard

/-- What rpc_server sends its responses from. -/
def bufferSize : Nat := 8192

inductive Fault
  | assertion
  | unfinished
  | iterator (fault : Ushard.Fault)
  | message (fault : Message.Fault)
  deriving DecidableEq

/-- In this order: service::response and its error, fetch_data::response, data,
collection and entry. The other names are those of structs without fields. -/
def structs : Schema
  | 0 => [.dynamic (.one (.struct 1)), .dynamic (.one .template)]
  | 1 => [.dynamic (.one (.scalar .int16)), .dynamic (.one .string)]
  | 2 => [.dynamic (.one (.scalar .uint64)), .dynamic (.one .template)]
  | 3 => [.static (.scalar .uint8), .dynamic (.list (.struct 4))]
  | 4 => [.dynamic (.one .string), .dynamic (.list (.struct 5))]
  | 5 => [.static (.scalar .uint8), .dynamic (.one (.scalar .uint32)), .dynamic (.one .string), .dynamic (.one .string)]
  | _ => []

def availableSpace (b : Builder) : Nat := (b.maxSize + 2 ^ 16 - b.bytes.length) % 2 ^ 16

structure Entry where
  flags : Nat
  key : Key
  value : List Byte
  deriving DecidableEq

def Entry.tree (e : Entry) : Tree :=
  .struct 5 (.set 0 e.flags (.add 1 (.string e.key) (.add 2 (.string e.value) .done)))

/-- A handle is the address of an iterator. -/
abbrev Handle := Fin (2 ^ 64)

structure Reader where
  address : Handle
  iterator : UshardIterator
  valuePart : List Byte

def entryFlags (eor deleted : Bool) : Nat :=
  let flags := if eor = true then 0 ||| 0x01 else 0
  if deleted = true then flags ||| 0x02 else flags

/-- What an entry takes without its value, and the handle after it. -/
def bytesRequired (key : Key) : Nat := ((structs 5).minSize + 2 + 2 + key.length + 8) % 2 ^ 16

/-- The loop of fetch_entries, with the flags that data gets. -/
def fetchLoop : Nat → Reader → Builder → Nat → Except Fault (Reader × Builder × Nat)
  | 0, _, _, _ => .error .unfinished
  | rounds + 1, r, b, entries => do
      let p ← r.iterator.current.mapError .iterator
      if availableSpace b ≤ bytesRequired p.key then return (r, b, 0)
      check (r.valuePart.length < 65536) .assertion
      let partSize := min (availableSpace b - bytesRequired p.key) r.valuePart.length
      let flags := entryFlags p.eor p.deleted
      let flags := if partSize ≠ r.valuePart.length then flags &&& 0xfe else flags
      let entry : Entry := ⟨flags, p.key, r.valuePart.take partSize⟩
      let b ← (entry.tree.build structs (b.addElement entries) (.one (.struct 5))).mapError .message
      if partSize ≠ r.valuePart.length then return ({ r with valuePart := r.valuePart.drop partSize }, b, 0)
      let (hasNext, it) ← r.iterator.next.mapError .iterator
      if hasNext = false then return ({ r with iterator := it }, b, 0x01)
      let p ← it.current.mapError .iterator
      fetchLoop rounds { r with iterator := it, valuePart := p.value } b entries

/-- The builders that are still open go out of scope at the end, the last one first. -/
def fetchEntries (rounds : Nat) (r : Reader) (b : Builder) : Except Fault (Bool × Reader × Builder) := do
  let (b, data) ← (b.beginStruct (structs 3)).mapError .message
  let b ← (b.setOffset data 0).mapError .message
  let (b, dbs) ← b.beginList.mapError .message
  let (b, db) ← ((b.addElement dbs).beginStruct (structs 4)).mapError .message
  let b ← (b.setOffset db 1).mapError .message
  let (b, entries) ← b.beginList.mapError .message
  let (r, b, flags) ← fetchLoop rounds r b entries
  let b ← (b.setStatic data 0 flags).mapError .message
  return (flags &&& 0x01 = 0x01, r, (b.finalize db).finalize data)

/-- The readers that wait for their next requests. -/
abbrev Readers := Handle → Option Reader

/-- A request; the first one of a fetch comes with what ushard::range returns for
it, and the address of that. -/
inductive Request
  | first (handle : Handle) (it : UshardIterator)
  | next (handle : Handle)
  | abort (handle : Handle)

def Request.handle : Request → Handle
  | .first handle _ => handle
  | .next handle => handle
  | .abort handle => handle

def addHandle (b : Builder) (response : StructBuilder) (handle : Handle) : Except Fault Builder := do
  let b ← (b.setOffset response 0).mapError .message
  (b.addScalar .uint64 handle.val).mapError .message

/-- A handle that no reader has makes a reader without an iterator. -/
def fetchData (rounds : Nat) (readers : Readers) (b : Builder) (response : StructBuilder) :
    Request → Except Fault (Readers × Builder)
  | .first handle it => do
      let (hasNext, it) ← it.next.mapError .iterator
      if hasNext = false then return (readers, b)
      let p ← it.current.mapError .iterator
      let b ← (b.setOffset response 1).mapError .message
      let (ended, r, b) ← fetchEntries rounds ⟨handle, it, p.value⟩ b
      if ended then return (readers, b)
      let b ← addHandle b response handle
      return (Function.update readers handle (some r), b)
  | .next handle =>
      match readers handle with
      | none => .error .assertion
      | some r => do
          let b ← (b.setOffset response 1).mapError .message
          let (ended, r', b) ← fetchEntries rounds r b
          let readers := Function.update readers handle (some r')
          if ended then return (Function.update readers r.address none, b)
          let b ← addHandle b response r.address
          return (readers, b)
  | .abort handle => .ok (Function.update readers handle none, b)

def Request.response : Request → StructDef
  | .abort _ => structs 6
  | _ => structs 2

/-- What rpc_server makes of a request: the readers it leaves and the response. -/
def serve (rounds : Nat) (readers : Readers) (rq : Request) : Except Fault (Readers × List Byte) := do
  let b : Builder := ⟨[], bufferSize⟩
  let (b, service) ← (b.beginStruct (structs 0)).mapError .message
  let b ← (b.setOffset service 1).mapError .message
  let (b, response) ← (b.beginStruct rq.response).mapError .message
  let (readers, b) ← fetchData rounds readers b response rq
  return (readers, ((b.finalize response).finalize service).bytes)

end Tyrdbs.Server.Fetch
