import Tyrdbs.Ushard.Records

namespace Tyrdbs.Ushard

inductive Fault
  | assertion
  | unfinished
  deriving DecidableEq

/-- An iterator over one slice: the part it stands on and those to come. -/
structure Cursor where
  part : Part
  rest : List Part

def Cursor.ofParts : List Part → Option Cursor
  | [] => none
  | p :: ps => some ⟨p, ps⟩

def Cursor.next (c : Cursor) : Option Cursor := Cursor.ofParts c.rest

def cmp (c₁ c₂ : Cursor) : Bool :=
  if c₁.part.key = c₂.part.key then c₁.part.idx < c₂.part.idx else c₂.part.key < c₁.part.key

/-- Where std::lower_bound puts a cursor in a vector that cmp partitions. -/
def lowerBound (cs : List Cursor) (c : Cursor) : Nat := (cs.takeWhile (fun c' => cmp c' c)).length

/-- The back of the vector is the cursor that the iterator stands on. -/
structure UshardIterator where
  elements : List Cursor
  maxKey : Key := []
  lastKey : Key := []

namespace UshardIterator

def part (it : UshardIterator) : Option Part := it.elements.getLast?.map Cursor.part

def assignKey (k : Key) : Except Fault Key :=
  if k.length ≤ maxKeySize then .ok k else .error .assertion

def isOutOfBounds (it : UshardIterator) (k : Key) : Bool :=
  if it.maxKey = [] then false else it.maxKey < k

def advance (it : UshardIterator) : Except Fault (Bool × UshardIterator) :=
  match it.elements.getLast? with
  | none => .error .assertion
  | some back =>
      let front := it.elements.dropLast
      match back.next with
      | none => .ok (!front.isEmpty, { it with elements := front })
      | some c =>
          let moved := front ++ [c]
          let n := lowerBound moved c
          if n = front.length then .ok (true, { it with elements := moved })
          else .ok (true, { it with elements := (moved.insertIdx n c).dropLast })

/-- The loop of next: on to the first record of another key. -/
def seek : Nat → UshardIterator → Except Fault (Bool × UshardIterator)
  | 0, _ => .error .unfinished
  | rounds + 1, it => do
      let (hasNext, it) ← it.advance
      if hasNext = false then return (false, it)
      match it.part with
      | none => .error .assertion
      | some p =>
          if it.isOutOfBounds p.key then .ok (false, { it with elements := [] })
          else if p.key = it.lastKey then seek rounds it
          else
            let key ← assignKey p.key
            .ok (true, { it with lastKey := key })

def remaining (it : UshardIterator) : Nat := (it.elements.map (fun c => c.rest.length + 1)).sum

def first (it : UshardIterator) : Except Fault (Bool × UshardIterator) :=
  let it := { it with elements := it.elements.insertionSort (fun c₁ c₂ => ¬ cmp c₂ c₁) }
  match it.part with
  | none => .error .assertion
  | some p => do
      let key ← assignKey p.key
      if it.isOutOfBounds p.key then .ok (false, { it with elements := [], lastKey := key })
      else .ok (true, { it with lastKey := key })

def next (it : UshardIterator) : Except Fault (Bool × UshardIterator) :=
  match it.elements.getLast? with
  | none => .ok (false, it)
  | some back =>
      if it.lastKey = [] then it.first
      else if back.part.eor = false then
        match back.next with
        | none => .error .assertion
        | some c => .ok (true, { it with elements := it.elements.dropLast ++ [c] })
      else seek (it.remaining + 1) it

def range (its : List (Option (List Part))) (maxKey : Key) : Except Fault UshardIterator := do
  let cursors := its.filterMap (fun ps => ps.bind Cursor.ofParts)
  let elements := cursors.filter (fun c => c.part.key ≤ maxKey)
  if elements.isEmpty then return { elements := elements }
  let maxKey ← assignKey maxKey
  return { elements := elements, maxKey := maxKey }

def begin (its : List (Option (List Part))) : UshardIterator :=
  { elements := its.filterMap (fun ps => ps.bind Cursor.ofParts) }

/-- The part that a call of next which returned true left the iterator on. -/
def current (it : UshardIterator) : Except Fault Part :=
  match it.part with
  | none => .error .assertion
  | some p => .ok p

/-- What n calls of next find: the part stood on, or that there is none. -/
def calls : Nat → UshardIterator → Except Fault (List (Option Part))
  | 0, _ => .ok []
  | n + 1, it => do
      let (hasNext, it) ← it.next
      let found ← (if hasNext then some <$> it.current else .ok none)
      let rest ← calls n it
      return found :: rest

def drain : Nat → UshardIterator → Except Fault (List Part)
  | 0, _ => .error .unfinished
  | rounds + 1, it => do
      let (hasNext, it) ← it.next
      if hasNext = false then return []
      let p ← it.current
      let rest ← drain rounds it
      return p :: rest

end UshardIterator

end Tyrdbs.Ushard
