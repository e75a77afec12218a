import Tyrdbs.Library.Runs
import Tyrdbs.Ushard.TierMap
import Tyrdbs.Ushard.Rewriting

namespace Tyrdbs.Ushard

open TierMap Runs NewestWins

/-- A merge between its snapshot of a tier and its end. -/
structure Merge where
  tier : Nat
  source : List Slice
  deriving DecidableEq

structure Compaction where
  source : List Slice
  checkpoint : TierMap

/-- A ushard and the operations that have given up the processor inside it.
The lists added and rewritten only record what has happened: the slices that
add was called with, and what finished operations read and wrote. -/
structure State where
  tiers : TierMap := ∅
  merges : List Merge := []
  compaction : Option Compaction := none
  added : List Slice := []
  rewritten : List (List Slice × Slice) := []

inductive Action
  | add (s : Slice)
  | mergeBegin (tier : Nat)
  | mergeEnd (i : Nat) (out : Slice)
  | compactBegin
  | compactEnd (out : Slice)

def tierSizes (m : TierMap) : List (Nat × Nat) := m.entries.map (fun e => (e.1, e.2.length))

/-- One stretch of an operation between two points where it yields; none
stands for an erase beyond the end of a vector. -/
def State.apply (z : Nat) (s : State) : Action → Option State
  | .add slice => some { s with tiers := (s.tiers.add z slice).1, added := slice :: s.added }
  | .mergeBegin t =>
      let source := s.tiers.tier t
      if source.length ≤ maxSlicesPerTier then some s
      else some { s with merges := s.merges ++ [⟨t, source⟩] }
  | .mergeEnd i out =>
      match s.merges[i]? with
      | none => some s
      | some m =>
          ((s.tiers.add z out).1.removeFrom m.tier m.source.length).map (fun r =>
            { s with
              tiers := r.1, merges := s.merges.eraseIdx i
              rewritten := (m.source, out) :: s.rewritten })
  | .compactBegin =>
      let source := s.tiers.getSlices
      if source.length < 2 then some s
      else some { s with compaction := some ⟨source, s.tiers⟩ }
  | .compactEnd out =>
      match s.compaction with
      | none => some s
      | some c =>
          ((s.tiers.add z out).1.removeAll (tierSizes c.checkpoint)).map (fun r =>
            { s with
              tiers := r.1, compaction := none
              rewritten := (c.source, out) :: s.rewritten })

/-- Slices are not empty when they are added, and no version of a key is added
twice; what ends was begun, and wrote what it read. -/
def Action.Allowed (s : State) : Action → Prop
  | .add slice => slice.keyCount ≠ 0 ∧ ∀ s' ∈ s.added, Slice.Apart slice s'
  | .mergeBegin _ => True
  | .mergeEnd i out => ∃ m, s.merges[i]? = some m ∧ Rewrites false m.source out
  | .compactBegin => s.compaction = none
  | .compactEnd out => ∃ c, s.compaction = some c ∧ Rewrites true c.source out

instance (s : State) (a : Action) : Decidable (a.Allowed s) :=
  match a with
  | .add slice => inferInstanceAs (Decidable (slice.keyCount ≠ 0 ∧ ∀ s' ∈ s.added, Slice.Apart slice s'))
  | .mergeBegin _ => isTrue trivial
  | .mergeEnd i out =>
      match h : s.merges[i]? with
      | none => isFalse (fun ⟨m, hm, _⟩ => by rw [h] at hm; simp at hm)
      | some m => decidable_of_iff (Rewrites false m.source out)
          ⟨fun hw => ⟨m, h, hw⟩, fun ⟨m', hm', hw⟩ => by
            rw [h] at hm'
            exact Option.some.inj hm' ▸ hw⟩
  | .compactBegin => decidable_of_iff (s.compaction.isNone = true) Option.isNone_iff_eq_none
  | .compactEnd out =>
      match h : s.compaction with
      | none => isFalse (fun ⟨c, hc, _⟩ => by rw [h] at hc; simp at hc)
      | some c => decidable_of_iff (Rewrites true c.source out)
          ⟨fun hw => ⟨c, h, hw⟩, fun ⟨c', hc', hw⟩ => by
            rw [h] at hc'
            exact Option.some.inj hc' ▸ hw⟩

def Step (z : Nat) (s : State) (a : Action) (s' : State) : Prop :=
  a.Allowed s ∧ s.apply z a = some s'

def State.attempt (z : Nat) (s : State) (a : Action) : Option State :=
  if a.Allowed s then s.apply z a else none

theorem step_of_attempt {z : Nat} {s u : State} {a : Action} (h : s.attempt z a = some u) :
    Step z s a u := by
  rw [State.attempt] at h
  split at h
  next hok => exact ⟨hok, h⟩
  next => simp at h

end Tyrdbs.Ushard
