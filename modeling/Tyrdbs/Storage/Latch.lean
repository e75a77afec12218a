import Tyrdbs.Library.Table
import Tyrdbs.Storage.PageCache

namespace Tyrdbs.Storage

open Outcome

/-- The condition is the queue of the contexts that wait on it. The reference
count stays below the number of contexts, which 32-bit handles bound. -/
structure LatchEntry (Value : Type) where
  refCount : Nat := 0
  released : Bool := false
  cond : List Nat := []
  value : Value

structure Latch (Key Value : Type) where
  entries : Table Key (LatchEntry Value) := Table.empty
  emptyValue : Value

namespace Latch

variable {Key Value : Type} [DecidableEq Key]

def entry (l : Latch Key Value) (key : Key) : Except Stop (LatchEntry Value) :=
  match l.entries.find key with
  | some e => .ok e
  | none => .error .latch

def put (l : Latch Key Value) (key : Key) (e : LatchEntry Value) : Latch Key Value :=
  { l with entries := l.entries.put key e }

def acquire (l : Latch Key Value) (key : Key) : Value × Latch Key Value :=
  let e := (l.entries.find key).getD { value := l.emptyValue }
  (e.value, l.put key { e with refCount := e.refCount + 1 })

def release (l : Latch Key Value) (key : Key) : Except Stop (List Nat × Latch Key Value) := do
  let e ← l.entry key
  return (e.cond, l.put key { e with released := true, cond := [] })

/-- The test of the loop in wait_for. -/
def mustWait (l : Latch Key Value) (key : Key) : Except Stop Bool := do
  let e ← l.entry key
  return !e.released

def wait (l : Latch Key Value) (key : Key) (ctx : Nat) : Except Stop (Latch Key Value) := do
  let e ← l.entry key
  return l.put key { e with cond := e.cond ++ [ctx] }

def remove (l : Latch Key Value) (key : Key) : Except Stop (Bool × Latch Key Value) := do
  let e ← l.entry key
  check (e.refCount ≠ 0) .latch
  if e.refCount - 1 = 0 then return (true, { l with entries := l.entries.erase key })
  else return (false, l.put key { e with refCount := e.refCount - 1 })

def set (l : Latch Key Value) (key : Key) (value : Value) : Except Stop (Latch Key Value) := do
  let e ← l.entry key
  return l.put key { e with value := value }

variable {l : Latch Key Value} {key : Key} {e : LatchEntry Value}

theorem entry_eq (h : l.entries.find key = some e) : l.entry key = .ok e := by
  rw [entry, h]

def held (l : Latch Key Value) : Multiset Value := l.entries.values.map LatchEntry.value

omit [DecidableEq Key] in
theorem card_held (l : Latch Key Value) : l.held.card = l.entries.entries.length := by
  simp [held, Table.values]

theorem held_put_of_none (h : l.entries.find key = none) (e : LatchEntry Value) :
    (l.put key e).held = e.value ::ₘ l.held := by
  rw [held, put, Table.values_put_of_none h, Multiset.map_cons, held]

theorem held_put (h : l.entries.find key = some e) {e' : LatchEntry Value} (hv : e'.value = e.value) :
    (l.put key e').held = l.held := by
  rw [held, put, Table.values_put, held, Table.values_of_find h, Multiset.map_cons, Multiset.map_cons, hv]

theorem held_of_find (h : l.entries.find key = some e) :
    l.held = e.value ::ₘ ({ l with entries := l.entries.erase key } : Latch Key Value).held := by
  rw [held, held, Table.values_of_find h, Multiset.map_cons]

theorem find_put (e : LatchEntry Value) (k : Key) :
    (l.put key e).entries.find k = if k = key then some e else l.entries.find k := Table.find_put

theorem put_put (e e' : LatchEntry Value) : (l.put key e).put key e' = l.put key e' :=
  congrArg (fun entries => ({ l with entries := entries } : Latch Key Value)) Table.put_put

structure Updated (l l' : Latch Key Value) (key : Key) (e : LatchEntry Value) : Prop where
  held : l'.held = l.held
  find : ∀ k, l'.entries.find k = if k = key then some e else l.entries.find k
  emptyValue : l'.emptyValue = l.emptyValue

theorem updated_put (h : l.entries.find key = some e) {e' : LatchEntry Value} (hv : e'.value = e.value) :
    Updated l (l.put key e') key e' :=
  ⟨held_put h hv, find_put e', rfl⟩

theorem updated_self (h : l.entries.find key = some e) : Updated l l key e := by
  refine ⟨rfl, fun k => ?_, rfl⟩
  by_cases hk : k = key
  · rw [if_pos hk, hk, h]
  · rw [if_neg hk]

theorem Updated.self {l' : Latch Key Value} (h : Updated l l' key e) : l'.entries.find key = some e := by
  rw [h.find, if_pos rfl]

theorem Updated.put {l' : Latch Key Value} (h : Updated l l' key e) {e' : LatchEntry Value}
    (hv : e'.value = e.value) : Updated l (l'.put key e') key e' := by
  refine ⟨(held_put h.self hv).trans h.held, fun k => ?_, h.emptyValue⟩
  rw [find_put, h.find]
  by_cases hk : k = key
  · rw [if_pos hk, if_pos hk]
  · rw [if_neg hk, if_neg hk, if_neg hk]

end Latch

end Tyrdbs.Storage
