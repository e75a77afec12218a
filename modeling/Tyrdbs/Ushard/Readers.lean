import Tyrdbs.Library.Outcome
import Tyrdbs.Ushard.FailedRewrites
import Tyrdbs.Ushard.MergeInvariants

namespace Tyrdbs.Ushard.Sharing

open Outcome

/-- A slice that an iterator has a pointer to, and where the iterator is in it. -/
structure Element where
  object : Nat
  cursor : Cursor

/-- A call of next may give up the processor while it seeks the next key. -/
inductive Phase
  | opening
  | resting
  | seeking
  deriving DecidableEq

/-- An iterator over a ushard, with the vector that it is made from: slices that
wait to be opened, and slices that had nothing to read. The slices it was given,
what opening them brought and what the calls of next have found are only recorded. -/
structure Reader where
  bounds : Option (Key × Key)
  snapshot : List Nat
  waiting : List Nat
  passed : List Nat := []
  looked : List (Nat × Option (List Part)) := []
  elements : List Element := []
  maxKey : Key := []
  lastKey : Key := []
  phase : Phase := .opening
  found : List (Option Part) := []

namespace Reader

def pointers (r : Reader) : List Nat := r.waiting ++ (r.passed ++ r.elements.map Element.object)

def iterator (r : Reader) : UshardIterator := ⟨r.elements.map Element.cursor, r.maxKey, r.lastKey⟩

/-- Opening a slice brings no iterator, or one that stands on a first part. -/
def arrived (r : Reader) (o : Option (List Part)) : Option Cursor :=
  match r.bounds with
  | none => o.bind Cursor.ofParts
  | some b => (o.bind Cursor.ofParts).filter (fun c => c.part.key ≤ b.2)

/-- A slice has been opened. Where there is nothing to read, a job of range gives
its pointer up, while a loop over the vector leaves it there. -/
def look (r : Reader) (i : Nat) (o : Option (List Part)) : Reader × List Nat :=
  let r := { r with waiting := r.waiting.erase i, looked := r.looked ++ [(i, o)] }
  match r.arrived o with
  | some c => ({ r with elements := r.elements ++ [⟨i, c⟩] }, [])
  | none => if r.bounds.isSome then (r, [i]) else ({ r with passed := r.passed ++ [i] }, [])

/-- All slices have been opened; an iterator that stands on any is bounded now. -/
def opened (r : Reader) : Except Fault Reader :=
  match r.bounds with
  | none => .ok { r with phase := .resting }
  | some b =>
      if r.elements.isEmpty then .ok { r with phase := .resting }
      else do
        let maxKey ← UshardIterator.assignKey b.2
        return { r with maxKey := maxKey, phase := .resting }

/-- ushard_iterator::advance, and the pointer it gives up. -/
def advance (r : Reader) : Except Fault (Bool × Reader × List Nat) :=
  match r.elements.getLast? with
  | none => .error .assertion
  | some back =>
      let front := r.elements.dropLast
      match back.cursor.next with
      | none => .ok (!front.isEmpty, { r with elements := front }, [back.object])
      | some c =>
          let e : Element := ⟨back.object, c⟩
          let moved := front ++ [e]
          let n := lowerBound (moved.map Element.cursor) c
          if n = front.length then .ok (true, { r with elements := moved }, [])
          else .ok (true, { r with elements := (moved.insertIdx n e).dropLast }, [])

/-- One round of the loop of next; without an answer there is another one. -/
def seek (r : Reader) : Except Fault (Option Bool × Reader × List Nat) := do
  let (hasNext, r, gone) ← r.advance
  if hasNext = false then return (some false, r, gone)
  match r.iterator.part with
  | none => .error .assertion
  | some p =>
      if r.iterator.isOutOfBounds p.key then
        .ok (some false, { r with elements := [] }, gone ++ r.elements.map Element.object)
      else if p.key = r.lastKey then .ok (none, r, gone)
      else
        let key ← UshardIterator.assignKey p.key
        .ok (some true, { r with lastKey := key }, gone)

def first (r : Reader) : Except Fault (Option Bool × Reader × List Nat) :=
  let r := { r with elements := r.elements.insertionSort (fun e₁ e₂ => ¬ cmp e₂.cursor e₁.cursor) }
  match r.iterator.part with
  | none => .error .assertion
  | some p => do
      let key ← UshardIterator.assignKey p.key
      if r.iterator.isOutOfBounds p.key then
        .ok (some false, { r with elements := [], lastKey := key }, r.elements.map Element.object)
      else .ok (some true, { r with lastKey := key }, [])

def next (r : Reader) : Except Fault (Option Bool × Reader × List Nat) :=
  match r.elements.getLast? with
  | none => .ok (some false, r, [])
  | some back =>
      if r.lastKey = [] then r.first
      else if back.cursor.part.eor = false then
        match back.cursor.next with
        | none => .error .assertion
        | some c => .ok (some true, { r with elements := r.elements.dropLast ++ [⟨back.object, c⟩] }, [])
      else .ok (none, r, [])

/-- The stretch of next up to where it may yield or returns. -/
def call (r : Reader) : Except Fault (Option Bool × Reader × List Nat) :=
  match r.phase with
  | .opening => .error .assertion
  | .resting => r.next
  | .seeking => r.seek

def step (r : Reader) : Except Fault (Reader × List Nat) := do
  let (answer, r, gone) ← r.call
  match answer with
  | none => return ({ r with phase := .seeking }, gone)
  | some hasNext =>
      let p ← (if hasNext then some <$> r.iterator.current else .ok none)
      return ({ r with phase := .resting, found := r.found ++ [p] }, gone)

end Reader

def resolve : Option Bool × UshardIterator → Except Fault (Bool × UshardIterator)
  | (none, it) => it.seek (it.remaining + 1)
  | (some hasNext, it) => .ok (hasNext, it)

variable {r r' : Reader} {gone : List Nat}

theorem getLast?_cursor (r : Reader) : r.iterator.elements.getLast? = r.elements.getLast?.map Element.cursor := by
  rw [Reader.iterator, List.getLast?_map]

theorem dropLast_cursor (r : Reader) : r.iterator.elements.dropLast = r.elements.dropLast.map Element.cursor := by
  rw [Reader.iterator, List.map_dropLast]

theorem insertIdx_concat {α : Type} (xs : List α) (x y : α) : ∀ n ≤ xs.length,
    (xs ++ [y]).insertIdx n x = xs.insertIdx n x ++ [y] := by
  induction xs with
  | nil =>
      intro n hn
      obtain rfl : n = 0 := Nat.le_zero.mp hn
      rfl
  | cons z xs ih =>
      intro n hn
      cases n with
      | zero => rfl
      | succ n =>
          rw [List.cons_append, List.insertIdx_succ_cons, List.insertIdx_succ_cons, ih n (Nat.le_of_succ_le_succ hn)]
          rfl

theorem advance_iterator (r : Reader) :
    r.iterator.advance = r.advance.map (fun o => (o.1, o.2.1.iterator)) := by
  rw [UshardIterator.advance, Reader.advance, getLast?_cursor]
  cases hlast : r.elements.getLast? with
  | none => rfl
  | some back =>
      simp only [Option.map_some, dropLast_cursor]
      cases hnext : back.cursor.next with
      | none => simp only [Except.map, Reader.iterator, List.isEmpty_map]
      | some c =>
          have hmoved : r.elements.dropLast.map Element.cursor ++ [c] =
              (r.elements.dropLast ++ [(⟨back.object, c⟩ : Element)]).map Element.cursor := by
            rw [List.map_append, List.map_singleton]
          simp only [hmoved, List.length_map]
          split
          · rfl
          · simp only [Except.map, Reader.iterator, List.map_dropLast, List.map_insertIdx]

/-- What a stretch of next does to an iterator: its pointers stay, or are given up. -/
structure Moves (r r' : Reader) (gone : List Nat) : Prop where
  same : r' = { r with elements := r'.elements, lastKey := r'.lastKey }
  pointers : (r.elements.map Element.object).Perm (gone ++ r'.elements.map Element.object)

theorem moves_refl (r : Reader) : Moves r r [] := ⟨rfl, List.Perm.refl _⟩

theorem Moves.trans {r'' : Reader} {gone' : List Nat} (h : Moves r r' gone) (h' : Moves r' r'' gone') :
    Moves r r'' (gone ++ gone') := by
  refine ⟨h'.same.trans ?_, ?_⟩
  · rw [h.same]
  · rw [List.append_assoc]
    exact h.pointers.trans (h'.pointers.append_left gone)

theorem moves_key (r : Reader) (key : Key) : Moves r { r with lastKey := key } [] := ⟨rfl, List.Perm.refl _⟩

theorem moves_clear (r : Reader) (key : Key) :
    Moves r { r with elements := [], lastKey := key } (r.elements.map Element.object) := by
  refine ⟨rfl, ?_⟩
  rw [List.map_nil, List.append_nil]

theorem remaining_eq (r : Reader) :
    r.iterator.remaining = (r.elements.map (fun e => e.cursor.rest.length + 1)).sum := by
  rw [UshardIterator.remaining, Reader.iterator, List.map_map]
  rfl

theorem Cursor.next_length {c c' : Cursor} (h : c.next = some c') : c.rest.length = c'.rest.length + 1 := by
  rw [Cursor.next] at h
  cases hrest : c.rest with
  | nil => rw [hrest] at h; exact absurd h (by simp [Cursor.ofParts])
  | cons p ps =>
      rw [hrest, Cursor.ofParts, Option.some.injEq] at h
      rw [← h, List.length_cons]

theorem Cursor.next_nil {c : Cursor} (h : c.next = none) : c.rest = [] := by
  rw [Cursor.next] at h
  cases hrest : c.rest with
  | nil => rfl
  | cons p ps => rw [hrest] at h; exact absurd h (by simp [Cursor.ofParts])

theorem split_last {α : Type} {xs : List α} {x : α} (h : xs.getLast? = some x) : xs = xs.dropLast ++ [x] := by
  obtain ⟨ys, rfl⟩ := List.getLast?_eq_some_iff.mp h
  rw [List.dropLast_concat]

theorem reinserted {xs : List Element} {e : Element} {n : Nat} (hn : n ≤ xs.length) :
    (((xs ++ [e]).insertIdx n e).dropLast).Perm (xs ++ [e]) := by
  rw [insertIdx_concat xs e e n hn, List.dropLast_concat]
  exact (List.perm_insertIdx e xs hn).trans (List.perm_append_singleton e xs).symm

theorem lowerBound_le (xs : List Cursor) (c : Cursor) : lowerBound (xs ++ [c]) c ≤ xs.length := by
  have hself : cmp c c = false := by simp [cmp]
  rw [lowerBound]
  induction xs with
  | nil => simp [hself]
  | cons x xs ih =>
      rw [List.cons_append, List.takeWhile_cons]
      split
      · exact Nat.succ_le_succ ih
      · exact Nat.zero_le _

/-- The back moves on, or goes with its pointer; in either case one move less is left. -/
theorem advance_moves {hasNext : Bool} (h : r.advance = .ok (hasNext, r', gone)) :
    Moves r r' gone ∧ r'.lastKey = r.lastKey ∧ r.iterator.remaining = r'.iterator.remaining + 1 := by
  rw [Reader.advance] at h
  cases hlast : r.elements.getLast? with
  | none => simp [hlast] at h
  | some back =>
      have hsplit := split_last hlast
      simp only [hlast] at h
      cases hnext : back.cursor.next with
      | none =>
          simp only [hnext, Except.ok.injEq, Prod.mk.injEq] at h
          obtain ⟨-, rfl, rfl⟩ := h
          refine ⟨⟨rfl, ?_⟩, rfl, ?_⟩
          · conv_lhs => rw [hsplit, List.map_append]
            exact List.perm_append_comm
          · rw [remaining_eq, remaining_eq]
            conv_lhs => rw [hsplit, List.map_append, List.sum_append]
            rw [List.map_singleton, List.sum_singleton, Cursor.next_nil hnext]
            rfl
      | some c =>
          simp only [hnext] at h
          have hperm : (r'.elements).Perm (r.elements.dropLast ++ [⟨back.object, c⟩]) ∧ gone = [] ∧
              r' = { r with elements := r'.elements } := by
            split at h
            · rw [Except.ok.injEq, Prod.mk.injEq, Prod.mk.injEq] at h
              obtain ⟨-, rfl, rfl⟩ := h
              exact ⟨List.Perm.refl _, rfl, rfl⟩
            · rw [Except.ok.injEq, Prod.mk.injEq, Prod.mk.injEq] at h
              obtain ⟨-, rfl, rfl⟩ := h
              refine ⟨reinserted ?_, rfl, rfl⟩
              rw [List.map_append, List.map_singleton]
              exact (lowerBound_le _ c).trans_eq (List.length_map _)
          obtain ⟨hperm, rfl, hsame⟩ := hperm
          have hkey : r'.lastKey = r.lastKey := by rw [hsame]
          refine ⟨⟨by rw [hkey]; exact hsame, ?_⟩, hkey, ?_⟩
          · conv_lhs => rw [hsplit, List.map_append]
            exact ((hperm.map Element.object).trans (by rw [List.map_append]; exact List.Perm.refl _)).symm
          · rw [remaining_eq, remaining_eq, (hperm.map _).sum_eq]
            conv_lhs => rw [hsplit, List.map_append, List.sum_append]
            rw [List.map_append, List.sum_append, List.map_singleton, List.sum_singleton, List.map_singleton,
              List.sum_singleton, Cursor.next_length hnext]
            rfl

theorem seek_moves {answer : Option Bool} (h : r.seek = .ok (answer, r', gone)) : Moves r r' gone := by
  rw [Reader.seek] at h
  cases hadvance : r.advance with
  | error e => rw [hadvance] at h; exact absurd h (by intro hno; cases hno)
  | ok o =>
      obtain ⟨hasNext, u, gone'⟩ := o
      have hmoves := (advance_moves hadvance).1
      rw [hadvance] at h
      simp only [ok_bind] at h
      split at h
      · simp only [pure, Except.pure, Except.ok.injEq, Prod.mk.injEq] at h
        obtain ⟨-, rfl, rfl⟩ := h
        exact hmoves
      · split at h
        · exact absurd h (by simp)
        · rename_i p _
          split at h
          · simp only [Except.ok.injEq, Prod.mk.injEq] at h
            obtain ⟨-, rfl, rfl⟩ := h
            exact hmoves.trans (moves_clear u u.lastKey)
          · split at h
            · simp only [Except.ok.injEq, Prod.mk.injEq] at h
              obtain ⟨-, rfl, rfl⟩ := h
              exact hmoves
            · cases hkey : UshardIterator.assignKey p.key with
              | error e => rw [hkey] at h; exact absurd h (by intro hno; cases hno)
              | ok key =>
                  rw [hkey] at h
                  simp only [ok_bind, Except.ok.injEq, Prod.mk.injEq] at h
                  obtain ⟨-, rfl, rfl⟩ := h
                  have htrans := hmoves.trans (moves_key u key)
                  rwa [List.append_nil] at htrans

theorem sort_moves (r : Reader) : Moves r
    { r with elements := r.elements.insertionSort (fun e₁ e₂ => ¬ cmp e₂.cursor e₁.cursor) } [] :=
  ⟨rfl, ((List.perm_insertionSort _ r.elements).map Element.object).symm⟩

theorem first_moves {answer : Option Bool} (h : r.first = .ok (answer, r', gone)) : Moves r r' gone := by
  have hsort := sort_moves r
  rw [Reader.first] at h
  generalize { r with elements := r.elements.insertionSort (fun e₁ e₂ => ¬ cmp e₂.cursor e₁.cursor) } = u at h hsort
  split at h
  · exact absurd h (by simp)
  · rename_i p _
    cases hkey : UshardIterator.assignKey p.key with
    | error e => rw [hkey] at h; exact absurd h (by intro hno; cases hno)
    | ok key =>
        rw [hkey] at h
        simp only [ok_bind] at h
        split at h
        · simp only [Except.ok.injEq, Prod.mk.injEq] at h
          obtain ⟨-, rfl, rfl⟩ := h
          exact hsort.trans (moves_clear u key)
        · simp only [Except.ok.injEq, Prod.mk.injEq] at h
          obtain ⟨-, rfl, rfl⟩ := h
          exact hsort.trans (moves_key u key)

theorem next_moves {answer : Option Bool} (h : r.next = .ok (answer, r', gone)) : Moves r r' gone := by
  rw [Reader.next] at h
  cases hlast : r.elements.getLast? with
  | none =>
      simp only [hlast, Except.ok.injEq, Prod.mk.injEq] at h
      obtain ⟨-, rfl, rfl⟩ := h
      exact moves_refl r
  | some back =>
      simp only [hlast] at h
      split at h
      · exact first_moves h
      · split at h
        · split at h
          · exact absurd h (by simp)
          · simp only [Except.ok.injEq, Prod.mk.injEq] at h
            obtain ⟨-, rfl, rfl⟩ := h
            refine ⟨rfl, ?_⟩
            conv_lhs => rw [split_last hlast, List.map_append]
            rw [List.map_append]
            exact List.Perm.refl _
        · simp only [Except.ok.injEq, Prod.mk.injEq] at h
          obtain ⟨-, rfl, rfl⟩ := h
          exact moves_refl r

theorem call_moves {answer : Option Bool} (h : r.call = .ok (answer, r', gone)) : Moves r r' gone := by
  rw [Reader.call] at h
  split at h
  · exact absurd h (by simp)
  · exact next_moves h
  · exact seek_moves h

/-- What a stretch of next comes to, for the iterator without its pointers. -/
def outcome (x : Except Fault (Option Bool × Reader × List Nat)) : Except Fault (Bool × UshardIterator) := do
  let o ← x
  resolve (o.1, o.2.1.iterator)

theorem seek_outcome (r : Reader) : r.iterator.seek (r.iterator.remaining + 1) = outcome r.seek := by
  rw [UshardIterator.seek, advance_iterator, outcome, Reader.seek]
  cases hadvance : r.advance with
  | error e => rfl
  | ok o =>
      obtain ⟨hasNext, u, gone⟩ := o
      obtain ⟨-, hkey, hremaining⟩ := advance_moves hadvance
      rw [hremaining]
      simp only [Except.map, ok_bind]
      by_cases hnone : hasNext = false
      · rw [if_pos hnone, if_pos hnone]
        subst hnone
        rfl
      · rw [if_neg hnone, if_neg hnone]
        cases hpart : u.iterator.part with
        | none => rfl
        | some p =>
            dsimp only
            by_cases hout : u.iterator.isOutOfBounds p.key = true
            · rw [if_pos hout, if_pos hout]
              rfl
            · rw [if_neg hout, if_neg hout]
              by_cases hsame : p.key = u.lastKey
              · have hsame' : p.key = u.iterator.lastKey := hsame
                rw [if_pos hsame, if_pos hsame']
                rfl
              · have hsame' : ¬ p.key = u.iterator.lastKey := hsame
                rw [if_neg hsame, if_neg hsame']
                cases UshardIterator.assignKey p.key <;> rfl

theorem first_outcome (r : Reader) : r.iterator.first = outcome r.first := by
  have hsorted : r.iterator.elements.insertionSort (fun c₁ c₂ => ¬ cmp c₂ c₁) =
      (r.elements.insertionSort (fun e₁ e₂ => ¬ cmp e₂.cursor e₁.cursor)).map Element.cursor :=
    (List.map_insertionSort _ _ Element.cursor r.elements fun _ _ _ _ => Iff.rfl).symm
  rw [UshardIterator.first, outcome, Reader.first]
  simp only [hsorted]
  generalize r.elements.insertionSort (fun e₁ e₂ => ¬ cmp e₂.cursor e₁.cursor) = es
  have hsort : ({ r.iterator with elements := es.map Element.cursor } : UshardIterator) =
      Reader.iterator { r with elements := es } := rfl
  simp only [hsort]
  cases hpart : (Reader.iterator { r with elements := es }).part with
  | none => rfl
  | some p =>
      simp only
      cases UshardIterator.assignKey p.key with
      | error e => rfl
      | ok key =>
          simp only [ok_bind]
          by_cases hout : (Reader.iterator { r with elements := es }).isOutOfBounds p.key = true
          · rw [if_pos hout, if_pos hout]
            rfl
          · rw [if_neg hout, if_neg hout]
            rfl

theorem next_outcome (r : Reader) : r.iterator.next = outcome r.next := by
  rw [UshardIterator.next, Reader.next, getLast?_cursor]
  cases hlast : r.elements.getLast? with
  | none => rfl
  | some back =>
      simp only [Option.map_some, dropLast_cursor]
      by_cases hkey : r.lastKey = []
      · rw [if_pos hkey, if_pos (show r.iterator.lastKey = [] from hkey)]
        exact first_outcome r
      rw [if_neg hkey, if_neg (show ¬ r.iterator.lastKey = [] from hkey)]
      by_cases heor : back.cursor.part.eor = false
      · rw [if_pos heor, if_pos heor]
        cases back.cursor.next with
        | none => rfl
        | some c =>
            simp only [outcome, ok_bind, resolve, Reader.iterator, List.map_append, List.map_singleton]
      · rw [if_neg heor, if_neg heor]
        rfl

/-- The rest of a call of next that an iterator is in, or is about to make. -/
def Reader.pending (r : Reader) : Except Fault (Bool × UshardIterator) :=
  match r.phase with
  | .seeking => r.iterator.seek (r.iterator.remaining + 1)
  | _ => r.iterator.next

theorem pending_eq (h : r.phase ≠ .opening) : r.pending = outcome r.call := by
  rw [Reader.pending, Reader.call]
  cases hphase : r.phase with
  | opening => exact absurd hphase h
  | resting => exact next_outcome r
  | seeking => exact seek_outcome r

def answered (x : Except Fault (Bool × UshardIterator)) (k : Nat) : Except Fault (List (Option Part)) := do
  let (hasNext, it) ← x
  let found ← (if hasNext then some <$> it.current else .ok none)
  let rest ← UshardIterator.calls k it
  return found :: rest

/-- An iterator has found what calls of another find, and goes on with what that one
goes on with. -/
structure Meets (it : UshardIterator) (r : Reader) : Prop where
  sofar : UshardIterator.calls r.found.length it = .ok r.found
  goesOn : ∀ k, UshardIterator.calls (r.found.length + (k + 1)) it = (answered r.pending k).map (r.found ++ ·)

theorem append_nil_map {α : Type} (x : Except Fault (List α)) : x.map ([] ++ ·) = x := by
  cases x <;> rfl

theorem meets_start (hphase : r.phase = .resting) (hfound : r.found = []) : Meets r.iterator r := by
  have hpending : r.pending = r.iterator.next := by rw [Reader.pending, hphase]
  refine ⟨by rw [hfound]; rfl, fun k => ?_⟩
  rw [hpending, hfound, append_nil_map, List.length_nil, Nat.zero_add]
  rfl

theorem step_meets {it : UshardIterator} (h : Meets it r) (hphase : r.phase ≠ .opening)
    (hends : ∀ n, ∃ ps, UshardIterator.calls n it = .ok ps) :
    ∃ r' gone, r.step = .ok (r', gone) ∧ Meets it r' ∧ r'.phase ≠ .opening ∧
      ∃ u, Moves r u gone ∧ r' = { u with phase := r'.phase, found := r'.found } := by
  obtain ⟨ps, hps⟩ := hends (r.found.length + (0 + 1))
  have hfirst := h.goesOn 0
  rw [hps, answered] at hfirst
  have hpending := pending_eq hphase
  cases hcall : r.call with
  | error e =>
      rw [hpending, hcall] at hfirst
      exact absurd hfirst (by intro hno; cases hno)
  | ok o =>
      obtain ⟨answer, u, gone⟩ := o
      have hmoves := call_moves hcall
      have hkept : u.found = r.found := by rw [hmoves.same]
      rw [hcall] at hpending
      cases answer with
      | none =>
          refine ⟨{ u with phase := .seeking }, gone, ?_, ⟨?_, fun k => ?_⟩, Phase.noConfusion, u, hmoves, rfl⟩
          · rw [Reader.step, hcall]
            rfl
          · exact hkept ▸ h.sofar
          · have hsame : Reader.pending { u with phase := .seeking } = r.pending := hpending.symm
            have hon := h.goesOn k
            rw [← hkept] at hon
            rw [hsame]
            exact hon
      | some hasNext =>
          have hanswer : r.pending = .ok (hasNext, u.iterator) := hpending
          rw [hanswer] at hfirst
          cases hfound : (if hasNext then some <$> u.iterator.current else .ok none) with
          | error e =>
              simp only [ok_bind, hfound] at hfirst
              exact absurd hfirst (by intro hno; cases hno)
          | ok p =>
              have hon : ∀ k, answered r.pending k = (UshardIterator.calls k u.iterator).map (p :: ·) := by
                intro k
                rw [hanswer, answered]
                simp only [ok_bind, hfound]
                cases UshardIterator.calls k u.iterator <;> rfl
              refine ⟨{ u with phase := .resting, found := u.found ++ [p] }, gone, ?_, ⟨?_, fun k => ?_⟩,
                Phase.noConfusion, u, hmoves, rfl⟩
              · rw [Reader.step, hcall, ok_bind]
                simp only [hfound, ok_bind]
                rfl
              · have hlast := h.goesOn 0
                rw [hon, ← hkept] at hlast
                rw [List.length_append, List.length_singleton]
                exact hlast
              · have hlast := h.goesOn (k + 1)
                rw [hon, ← hkept] at hlast
                have hcalls : UshardIterator.calls (k + 1) u.iterator = answered u.iterator.next k := rfl
                rw [hcalls] at hlast
                change UshardIterator.calls ((u.found ++ [p]).length + (k + 1)) it =
                  (answered u.iterator.next k).map ((u.found ++ [p]) ++ ·)
                rw [List.length_append, List.length_singleton, Nat.add_assoc, Nat.add_comm 1 (k + 1), hlast]
                cases answered u.iterator.next k with
                | error e => rfl
                | ok qs => exact congrArg Except.ok (List.append_cons u.found p qs)

end Tyrdbs.Ushard.Sharing
