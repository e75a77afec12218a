import Tyrdbs.Library.Runs
import Tyrdbs.Library.SharedPointers
import Tyrdbs.Library.Shelves
import Tyrdbs.Library.Table
import Tyrdbs.Ushard.Snapshots

namespace Tyrdbs.Ushard.Sharing

open SharedPointers Unlinking Shelves Runs

/-- A merge or a compaction that has given up the processor: the tiers it replaces,
as they were when it began, and the iterator it reads them with. -/
structure Rewriting where
  operation : Operation
  checkpoint : Tiers
  reader : Nat

namespace Rewriting

def source (w : Rewriting) : List Nat := all w.checkpoint

/-- A compaction keeps its copy of the tiers up to its end, with a pointer to each
slice in it. -/
def pointers (w : Rewriting) : List Nat :=
  match w.operation with
  | .merge _ => []
  | .compact => w.source

def compacts (w : Rewriting) : Bool :=
  match w.operation with
  | .merge _ => false
  | .compact => true

def erase (w : Rewriting) (u : Unlinking.State) : Option Unlinking.State :=
  match w.operation with
  | .merge t => u.removeFrom t w.source.length
  | .compact => u.removeAll (w.checkpoint.entries.map (fun e => (e.1, e.2.length)))

end Rewriting

/-- A ushard with all that holds its slices: its tiers, iterators over it, and the
operations in progress. How many pointers there are to a slice is counted. The lists
freed and added only record which slices had their pages freed, and which came by add. -/
structure State where
  ushard : Unlinking.State := {
    objects := fun _ => { slice := ⟨[], List.Pairwise.nil, 0, by simp⟩, pages := ∅ }, next := 0, owned := ∅
    made := fun _ _ hi => absurd hi List.not_mem_nil }
  counts : Nat → Nat := fun _ => 0
  readers : Table Nat Reader := Table.empty
  nextReader : Nat := 0
  operations : List Rewriting := []
  dropped : Bool := false
  freed : List Nat := []
  added : List Slice := []

inductive Action
  | add (slice : Slice) (pages : Finset Nat)
  | opens (bounds : Option (Key × Key))
  | look (r i : Nat) (found : Option (List Part))
  | opened (r : Nat)
  | next (r : Nat)
  | close (r : Nat)
  | begins (op : Operation)
  | ends (r : Nat) (out : Slice) (pages : Finset Nat)
  | drop

def taken (u : Unlinking.State) : Operation → Tiers
  | .merge t => AList.singleton t (u.tiers.tier t)
  | .compact => u.tiers

namespace State

/-- Pointers are given up; slices that nobody holds any more are destroyed. -/
def giveUp (s : State) (is : List Nat) : State :=
  let (counts, dead) := release s.counts is
  { s with
    ushard := dead.foldl Unlinking.State.destroy s.ushard, counts := counts
    freed := s.freed ++ dead.filter (fun i => (s.ushard.objects i).unlink) }

def iterate (s : State) (bounds : Option (Key × Key)) (is : List Nat) : State :=
  { s with
    counts := retain s.counts is, nextReader := s.nextReader + 1
    readers := s.readers.put s.nextReader { bounds := bounds, snapshot := is, waiting := is } }

/-- Nodes of a slice are loaded from its pages, which must not have been freed. -/
def readable (s : State) (i : Nat) : Bool := (s.ushard.objects i).pages ⊆ s.ushard.owned

def operates (s : State) (r : Nat) : Bool := s.operations.any (fun w => w.reader = r)

/-- A stretch of an operation or of a reader between two points where it yields.
There is none where an assertion fails, a vector is erased beyond its end, or a page
is read that has been freed. -/
def apply (z : Nat) (s : State) : Action → Option State
  | .add slice pages =>
      some { s with
        ushard := s.ushard.add z slice pages, counts := retain s.counts [s.ushard.next], added := slice :: s.added }
  | .opens bounds => some (s.iterate bounds s.ushard.getSlices)
  | .look r i found => do
      let reader ← s.readers.find r
      if s.readable i then
        let (reader, gone) := reader.look i found
        some ({ s with readers := s.readers.put r reader }.giveUp gone)
      else none
  | .opened r => do
      let reader ← s.readers.find r
      let reader ← reader.opened.toOption
      -- the vector of an operation is there up to its end, that of a range or begin is not
      if s.operates r then some { s with readers := s.readers.put r reader }
      else some ({ s with readers := s.readers.put r { reader with passed := [] } }.giveUp reader.passed)
  | .next r => do
      let reader ← s.readers.find r
      if ∀ e ∈ reader.elements.getLast?, s.readable e.object then
        let (reader, gone) ← reader.step.toOption
        some ({ s with readers := s.readers.put r reader }.giveUp gone)
      else none
  | .close r => do
      let reader ← s.readers.find r
      some ({ s with readers := s.readers.erase r }.giveUp reader.pointers)
  | .begins op => do
      let source := s.ushard.sources op
      if source.length < op.least then some s
      else
        let w : Rewriting := ⟨op, taken s.ushard op, s.nextReader⟩
        let ushard ← s.ushard.remove source
        some ({ s with
          ushard := ushard, operations := w :: s.operations, counts := retain s.counts w.pointers }.iterate none source)
  | .ends r out pages => do
      let w ← s.operations.find? (fun w => w.reader = r)
      let reader ← s.readers.find r
      let ushard ← w.erase (s.ushard.add z out pages)
      some ({ s with
        ushard := ushard, counts := retain s.counts [s.ushard.next], readers := s.readers.erase r
        operations := s.operations.filter (fun w => w.reader ≠ r) }.giveUp (w.source ++ reader.pointers ++ w.pointers))
  | .drop => do
      let is := s.ushard.getSlices
      let ushard ← s.ushard.remove is
      some ({ s with
        ushard := { ushard with tiers := ∅, made := fun _ _ hi => absurd hi List.not_mem_nil }
        dropped := true }.giveUp is)

end State

/-- Slices are not empty when they are added, no version of a key is added twice, and
the pages of a new slice were free. What an operation writes is what its iterator found
up to its end. Nobody calls a ushard that is gone, and it outlives its operations. -/
def Action.Allowed (s : State) : Action → Prop
  | .add slice pages =>
      s.dropped = false ∧ slice.keyCount ≠ 0 ∧ (∀ s' ∈ s.added, Slice.Apart slice s') ∧ Disjoint pages s.ushard.owned
  | .opens bounds => s.dropped = false ∧ ∀ b ∈ bounds, b.1 ≤ b.2 ∧ b.2.length ≤ maxKeySize
  | .look r i found =>
      ∃ x ∈ s.readers.find r, x.phase = .opening ∧ Shows x.bounds (s.ushard.objects i).slice found ∧
        if x.bounds.isSome then i ∈ x.waiting else x.waiting.head? = some i
  | .opened r => ∃ x ∈ s.readers.find r, x.phase = .opening ∧ x.waiting = []
  | .next r => ∃ x ∈ s.readers.find r, x.phase ≠ .opening
  | .close r => ∃ x ∈ s.readers.find r, x.phase = .resting ∧ s.operates r = false
  | .begins _ => s.dropped = false
  | .ends r out pages =>
      ∃ w ∈ s.operations.find? (fun w => w.reader = r), ∃ x ∈ s.readers.find r, x.phase = .resting ∧
        x.found = (x.found.filterMap id).map some ++ [none] ∧ Committed (added w.compacts (x.found.filterMap id)) out ∧
        Disjoint pages s.ushard.owned
  | .drop => s.dropped = false ∧ s.operations = []

/-- Operations that are under way together have no tier in common; calls that find
too few slices do nothing. -/
def Undisturbed (s : State) : Action → Prop
  | .begins op =>
      (s.ushard.sources op).length < op.least ∨
        ∀ w ∈ s.operations, ∀ t ∈ (taken s.ushard op).keys, (taken s.ushard op).tier t = [] ∨ w.checkpoint.tier t = []
  | _ => True

instance (s : State) : (a : Action) → Decidable (a.Allowed s)
  | .add .. => by dsimp only [Action.Allowed]; infer_instance
  | .opens _ => by dsimp only [Action.Allowed]; infer_instance
  | .look .. => by dsimp only [Action.Allowed]; infer_instance
  | .opened _ => by dsimp only [Action.Allowed]; infer_instance
  | .next _ => by dsimp only [Action.Allowed]; infer_instance
  | .close _ => by dsimp only [Action.Allowed]; infer_instance
  | .begins _ => by dsimp only [Action.Allowed]; infer_instance
  | .ends .. => by dsimp only [Action.Allowed]; infer_instance
  | .drop => by dsimp only [Action.Allowed]; infer_instance

instance (s : State) (a : Action) : Decidable (Undisturbed s a) := by
  cases a <;> dsimp only [Undisturbed] <;> infer_instance

def Step (z : Nat) (s : State) (a : Action) (s' : State) : Prop := a.Allowed s ∧ s.apply z a = some s'

def State.attempt (z : Nat) (s : State) (a : Action) : Option State := if a.Allowed s then s.apply z a else none

theorem step_of_attempt {z : Nat} {s u : State} {a : Action} (h : s.attempt z a = some u) : Step z s a u := by
  rw [State.attempt] at h
  split at h
  next hok => exact ⟨hok, h⟩
  next => exact absurd h (by simp)

end Tyrdbs.Ushard.Sharing
