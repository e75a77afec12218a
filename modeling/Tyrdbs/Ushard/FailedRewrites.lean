import Tyrdbs.Ushard.TierMap
import Mathlib.Data.Finset.Basic

namespace Tyrdbs.Ushard.Unlinking

open TierMap

/-- A slice object: what its iterator shows, m_unlink, and the pages of its file. -/
structure Object where
  slice : Slice
  unlink : Bool := false
  pages : Finset Nat

/-- The tiers hold pointers to slices, each said by which object it is. -/
abbrev Tiers := AList (fun _ : Nat => List Nat)

def Tiers.tier (m : Tiers) (t : Nat) : List Nat := (m.lookup t).getD []

/-- A ushard, the slice objects up to a next one, and the pages of the disk that
are not free. -/
structure State where
  tiers : Tiers := ∅
  objects : Nat → Object
  next : Nat
  owned : Finset Nat
  made : ∀ t, ∀ i ∈ tiers.tier t, i < next

/-- How an operation ends; by an exception it leaves a state as well. -/
inductive Exit (ε : Type)
  | returned (keyCount : Nat) (s : State)
  | thrown (e : ε) (s : State)
  | aborted

inductive Operation
  | merge (tier : Nat)
  | compact

def Operation.least : Operation → Nat
  | .merge _ => maxSlicesPerTier + 1
  | .compact => 2

theorem Tiers.tier_insert (m : Tiers) (t : Nat) (is : List Nat) (t' : Nat) :
    tier (m.insert t is) t' = if t' = t then is else m.tier t' := by
  rw [tier]
  by_cases h : t' = t
  · subst h
    simp [AList.lookup_insert]
  · simp [AList.lookup_insert_ne h, h, tier]

namespace State

def getSlices (s : State) : List Nat := s.tiers.entries.flatMap (fun e => e.2)

def slices (s : State) (is : List Nat) : List Slice := is.map (fun i => (s.objects i).slice)

def keyCount (s : State) (is : List Nat) : Nat := ((s.slices is).map Slice.keyCount).sum % 2 ^ 64

/-- An object that is marked already fails the assertion of slice::unlink. -/
def unlink (s : State) (i : Nat) : Option State :=
  if (s.objects i).unlink = false then
    some { s with objects := Function.update s.objects i { s.objects i with unlink := true } }
  else none

def remove (s : State) : List Nat → Option State
  | [] => some s
  | i :: is => do
      let s ← s.unlink i
      s.remove is

def add (z : Nat) (s : State) (out : Slice) (pages : Finset Nat) : State where
  tiers := s.tiers.insert (tierOf z out) (s.tiers.tier (tierOf z out) ++ [s.next])
  objects := Function.update s.objects s.next { slice := out, pages := pages }
  next := s.next + 1
  owned := s.owned ∪ pages
  made := by
    intro t i hi
    rw [Tiers.tier_insert] at hi
    split at hi
    case isTrue =>
      rcases List.mem_append.mp hi with hi | hi
      · exact Nat.lt_succ_of_lt (s.made _ i hi)
      · rw [List.mem_singleton.mp hi]
        exact Nat.lt_succ_self s.next
    case isFalse => exact Nat.lt_succ_of_lt (s.made t i hi)

def removeFrom (s : State) (t count : Nat) : Option State :=
  if count ≤ (s.tiers.tier t).length then
    some { s with
      tiers := s.tiers.insert t ((s.tiers.tier t).drop count)
      made := by
        intro t' i hi
        rw [Tiers.tier_insert] at hi
        split at hi
        case isTrue => exact s.made t i (List.mem_of_mem_drop hi)
        case isFalse => exact s.made t' i hi }
  else none

def removeAll : State → List (Nat × Nat) → Option State
  | s, [] => some s
  | s, (t, count) :: rest => do
      let s ← s.removeFrom t count
      s.removeAll rest

/-- When the last pointer to a slice goes, and it is marked, its pages are freed. -/
def destroy (s : State) (i : Nat) : State :=
  if (s.objects i).unlink then { s with owned := s.owned \ (s.objects i).pages } else s

/-- A ushard that was not dropped goes, and nobody else holds its slices. -/
def close (s : State) : State := s.getSlices.foldl destroy s

variable {ε : Type} (z : Nat) (write : Bool → List Slice → Except ε (Slice × Finset Nat))

/-- What merge and compact have in common. Writing a target from slices, in a
compaction or not, may throw at any point, or return a slice and the pages of its
file. -/
def rewrite (s : State) (compact : Bool) (source : List Nat) (erase : State → Option State) : Exit ε :=
  match s.remove source with
  | none => .aborted
  | some s =>
      match write compact (s.slices source) with
      | .error e => .thrown e s
      | .ok (out, pages) =>
          match erase (s.add z out pages) with
          | none => .aborted
          | some s' => .returned (s.keyCount source) s'

def merge (s : State) (t : Nat) : Exit ε :=
  let source := s.tiers.tier t
  if source.length ≤ maxSlicesPerTier then .returned 0 s
  else s.rewrite z write false source (fun s => s.removeFrom t source.length)

/-- The checkpoint of the tiers is what they are when the slices have been marked. -/
def compact (s : State) : Exit ε :=
  let source := s.getSlices
  let checkpoint := s.tiers.entries.map (fun e => (e.1, e.2.length))
  if source.length < 2 then .returned 0 s
  else s.rewrite z write true source (fun s => s.removeAll checkpoint)

def run (s : State) : Operation → Exit ε
  | .merge t => s.merge z write t
  | .compact => s.compact z write

def sources (s : State) : Operation → List Nat
  | .merge t => s.tiers.tier t
  | .compact => s.getSlices

end State

/-- What is asked of an operation that failed: the ushard has the slices that it
had, none of them is marked, their pages are owned, and where nothing throws the
operation can be run again. -/
structure Restored (z : Nat) (op : Operation) (s s' : State) : Prop where
  tiers : s'.tiers = s.tiers
  linked : ∀ i ∈ s'.getSlices, (s'.objects i).unlink = false
  owned : ∀ i ∈ s'.getSlices, (s'.objects i).pages ⊆ s'.owned
  retried : ∀ write : Bool → List Slice → Except Empty (Slice × Finset Nat),
    ∃ keyCount s'', s'.run z write op = .returned keyCount s''

/-- Some slices have been marked, and nothing else was done. -/
structure Marked (s : State) (is : List Nat) (s' : State) : Prop where
  tiers : s'.tiers = s.tiers
  owned : s'.owned = s.owned
  next : s'.next = s.next
  same : ∀ i, (s'.objects i).slice = (s.objects i).slice ∧ (s'.objects i).pages = (s.objects i).pages
  marks : ∀ i, (s'.objects i).unlink = true ↔ i ∈ is ∨ (s.objects i).unlink = true

variable {ε : Type} {z : Nat} {write : Bool → List Slice → Except ε (Slice × Finset Nat)} {s s' : State}

theorem marked_unlink {i : Nat} (h : s.unlink i = some s') : Marked s [i] s' := by
  rw [State.unlink] at h
  split at h
  case isTrue =>
    rw [← Option.some.inj h]
    refine ⟨rfl, rfl, rfl, fun j => ?_, fun j => ?_⟩
    · by_cases hj : j = i
      · subst hj
        simp
      · simp [Function.update_of_ne hj]
    · by_cases hj : j = i
      · subst hj
        simp
      · simp [hj]
  case isFalse => exact absurd h (by simp)

theorem Marked.trans {is js : List Nat} {u : State} (h : Marked s is u) (h' : Marked u js s') :
    Marked s (is ++ js) s' where
  tiers := h'.tiers.trans h.tiers
  owned := h'.owned.trans h.owned
  next := h'.next.trans h.next
  same i := ⟨(h'.same i).1.trans (h.same i).1, (h'.same i).2.trans (h.same i).2⟩
  marks i := by
    rw [h'.marks, h.marks, List.mem_append]
    tauto

theorem marked_remove {is : List Nat} (h : s.remove is = some s') : Marked s is s' := by
  induction is generalizing s with
  | nil =>
      rw [← Option.some.inj h]
      exact ⟨rfl, rfl, rfl, fun _ => ⟨rfl, rfl⟩, fun _ => by simp⟩
  | cons i is ih =>
      obtain ⟨u, hu, hrest⟩ := Option.bind_eq_some_iff.mp h
      exact (marked_unlink hu).trans (ih hrest)

theorem remove_marked {is : List Nat} {i : Nat} (hi : i ∈ is) (hmarked : (s.objects i).unlink = true) :
    s.remove is = none := by
  induction is generalizing s with
  | nil => exact absurd hi List.not_mem_nil
  | cons j is ih =>
      cases hj : s.unlink j with
      | none => rw [State.remove, hj]; rfl
      | some u =>
          have hu := marked_unlink hj
          rcases List.mem_cons.mp hi with rfl | hi
          · rw [State.unlink, hmarked] at hj
            exact absurd hj (by simp)
          · rw [State.remove, hj]
            exact ih hi ((hu.marks i).mpr (.inr hmarked))

theorem thrown_rewrite {compact : Bool} {source : List Nat} {erase : State → Option State} {e : ε}
    (h : s.rewrite z write compact source erase = .thrown e s') : Marked s source s' := by
  rw [State.rewrite] at h
  cases hremove : s.remove source with
  | none => simp [hremove] at h
  | some u =>
      simp only [hremove] at h
      cases hwrite : write compact (u.slices source) with
      | error e' =>
          simp only [hwrite, Exit.thrown.injEq] at h
          exact h.2 ▸ marked_remove hremove
      | ok r =>
          cases herase : erase (u.add z r.1 r.2) with
          | none => simp [hwrite, herase] at h
          | some u' => simp [hwrite, herase] at h

theorem run_begins {op : Operation} (hmany : op.least ≤ (s.sources op).length) :
    ∃ compact erase, s.run z write op = s.rewrite z write compact (s.sources op) erase := by
  cases op with
  | merge t => exact ⟨false, _, if_neg (Nat.not_le_of_lt hmany)⟩
  | compact => exact ⟨true, _, if_neg (Nat.not_lt.mpr hmany)⟩

theorem run_few {op : Operation} (hfew : ¬ op.least ≤ (s.sources op).length) : s.run z write op = .returned 0 s := by
  cases op with
  | merge t => exact if_pos (Nat.le_of_lt_succ (Nat.lt_of_not_le hfew))
  | compact => exact if_pos (Nat.lt_of_not_le hfew)

theorem marked_of_thrown {op : Operation} {e : ε} (h : s.run z write op = .thrown e s') :
    Marked s (s.sources op) s' ∧ op.least ≤ (s.sources op).length := by
  by_cases hmany : op.least ≤ (s.sources op).length
  · obtain ⟨compact, erase, hrun⟩ := @run_begins ε z write s op hmany
    exact ⟨thrown_rewrite (hrun.symm.trans h), hmany⟩
  · rw [run_few hmany] at h
    exact absurd h (by simp)

theorem Marked.sources {is : List Nat} (h : Marked s is s') (op : Operation) : s'.sources op = s.sources op := by
  cases op with
  | merge t => rw [State.sources, State.sources, h.tiers]
  | compact => rw [State.sources, State.sources, State.getSlices, State.getSlices, h.tiers]

/-- However the target is written the next time, it is not even begun. -/
theorem aborted_again {op : Operation} {e : ε} (h : s.run z write op = .thrown e s') {ε' : Type}
    (write' : Bool → List Slice → Except ε' (Slice × Finset Nat)) : s'.run z write' op = .aborted := by
  obtain ⟨hmarked, hmany⟩ := marked_of_thrown h
  rw [← hmarked.sources op] at hmany
  obtain ⟨compact, erase, hrun⟩ := @run_begins ε' z write' s' op hmany
  have hpos : 0 < op.least := by
    cases op with
    | merge t => exact Nat.succ_pos maxSlicesPerTier
    | compact => exact Nat.two_pos
  obtain ⟨i, hi⟩ := List.exists_mem_of_length_pos (Nat.lt_of_lt_of_le hpos hmany)
  have hi' : (s'.objects i).unlink = true := (hmarked.marks i).mpr (.inl (hmarked.sources op ▸ hi))
  rw [hrun, State.rewrite, remove_marked hi hi']

theorem sources_mem {op : Operation} {i : Nat} (hi : i ∈ s.sources op) : i ∈ s.getSlices := by
  cases op with
  | compact => exact hi
  | merge t =>
      cases hlookup : s.tiers.lookup t with
      | none => simp [State.sources, Tiers.tier, hlookup] at hi
      | some is =>
          rw [State.sources, Tiers.tier, hlookup] at hi
          exact List.mem_flatMap.mpr ⟨⟨t, is⟩, AList.mem_lookup_iff.mp hlookup, hi⟩

theorem close_owned (s : State) (is : List Nat) {i p : Nat} (hi : i ∈ is) (hmarked : (s.objects i).unlink = true)
    (hp : p ∈ (s.objects i).pages) : p ∉ (is.foldl State.destroy s).owned := by
  have hsame : ∀ (t : State) j, (t.destroy j).objects = t.objects ∧ (t.destroy j).owned ⊆ t.owned := by
    intro t j
    rw [State.destroy]
    split
    · exact ⟨rfl, Finset.sdiff_subset⟩
    · exact ⟨rfl, Finset.Subset.refl _⟩
  have hless : ∀ (is : List Nat) (t : State), p ∉ t.owned → p ∉ (is.foldl State.destroy t).owned := by
    intro is
    induction is with
    | nil => exact fun t h => h
    | cons j is ih => exact fun t h => ih _ (fun hin => h ((hsame t j).2 hin))
  induction is generalizing s with
  | nil => exact absurd hi List.not_mem_nil
  | cons j is ih =>
      rw [List.foldl_cons]
      rcases List.mem_cons.mp hi with rfl | hi
      · refine hless is _ ?_
        rw [State.destroy, if_pos hmarked]
        simp [hp]
      · exact ih _ hi (by rw [(hsame s j).1]; exact hmarked) (by rw [(hsame s j).1]; exact hp)

/-- When the ushard goes, the pages of what it failed to replace are freed, although
the slices are still those that its data is in. -/
theorem lost_on_close {op : Operation} {e : ε} (h : s.run z write op = .thrown e s') {i p : Nat}
    (hi : i ∈ s.sources op) (hp : p ∈ (s.objects i).pages) : p ∉ s'.close.owned := by
  obtain ⟨hmarked, -⟩ := marked_of_thrown h
  refine close_owned s' s'.getSlices (sources_mem (hmarked.sources op ▸ hi)) ((hmarked.marks i).mpr (.inl hi)) ?_
  rwa [(hmarked.same i).2]

/-- No operation that fails leaves the ushard as it was: the marks are not taken back. -/
theorem failed_unrestored {op : Operation} {e : ε} (h : s.run z write op = .thrown e s') :
    ¬ Restored z op s s' := by
  intro hrestored
  obtain ⟨keyCount, s'', hrun⟩ := hrestored.retried (fun _ _ => .ok (⟨[], List.Pairwise.nil, 0, by simp⟩, ∅))
  rw [aborted_again h] at hrun
  exact absurd hrun (by simp)

section View

def entry (f : List Nat → List Slice) (e : Sigma (fun _ : Nat => List Nat)) : Sigma (fun _ : Nat => List Slice) :=
  ⟨e.1, f e.2⟩

def State.view (s : State) : TierMap where
  entries := s.tiers.entries.map (entry s.slices)
  nodupKeys := @List.NodupKeys.map₂ Nat (fun _ => List Nat) (fun _ => List Slice) (fun _ => s.slices) _ s.tiers.nodupKeys

theorem view_tier (s : State) (t : Nat) : s.view.tier t = s.slices (s.tiers.tier t) := by
  have hlookup : s.view.lookup t = (s.tiers.lookup t).map s.slices :=
    @List.dlookup_map₂ Nat _ (fun _ => List Nat) (fun _ => List Slice) s.tiers.entries (fun _ => s.slices) t
  rw [TierMap.tier, hlookup, Tiers.tier]
  cases s.tiers.lookup t <;> rfl

theorem kerase_entry (f : List Nat → List Slice) (t : Nat) (es : List (Sigma (fun _ : Nat => List Nat))) :
    (es.kerase t).map (entry f) = (es.map (entry f)).kerase t := by
  induction es with
  | nil => rfl
  | cons e es ih =>
      by_cases h : t = e.1
      · have h' : t = (entry f e).1 := h
        rw [List.kerase_cons_eq h, List.map_cons, List.kerase_cons_eq h']
      · have h' : t ≠ (entry f e).1 := h
        rw [List.kerase_cons_ne h, List.map_cons, List.map_cons, ih, List.kerase_cons_ne h']

theorem view_insert {t : Nat} {is : List Nat} (htiers : s'.tiers = s.tiers.insert t is)
    (hsame : ∀ i < s.next, (s'.objects i).slice = (s.objects i).slice) : s'.view = s.view.insert t (s'.slices is) := by
  refine AList.ext ?_
  change s'.tiers.entries.map (entry s'.slices) =
    ⟨t, s'.slices is⟩ :: (s.tiers.entries.map (entry s.slices)).kerase t
  rw [htiers]
  change entry s'.slices ⟨t, is⟩ :: (s.tiers.entries.kerase t).map (entry s'.slices) = _
  rw [← kerase_entry]
  refine congrArg₂ List.cons rfl (List.map_congr_left (fun e he => ?_))
  have hlookup : s.tiers.lookup e.1 = some e.2 :=
    AList.mem_lookup_iff.mpr ((List.kerase_sublist t _).mem he)
  refine Sigma.ext rfl (heq_of_eq (List.map_congr_left (fun i hi => hsame i (s.made e.1 i ?_))))
  rw [Tiers.tier, hlookup]
  exact hi

theorem view_marked {is : List Nat} (h : Marked s is s') : s'.view = s.view := by
  refine AList.ext ?_
  change s'.tiers.entries.map (entry s'.slices) = s.tiers.entries.map (entry s.slices)
  rw [h.tiers]
  exact List.map_congr_left (fun e _ => Sigma.ext rfl (heq_of_eq (List.map_congr_left (fun i _ => (h.same i).1))))

theorem view_add (z : Nat) (s : State) (out : Slice) (pages : Finset Nat) :
    (s.add z out pages).view = (s.view.add z out).1 := by
  have hold : ∀ i < s.next, ((s.add z out pages).objects i).slice = (s.objects i).slice := by
    intro i hi
    exact congrArg Object.slice (Function.update_of_ne (Nat.ne_of_lt hi) _ _)
  rw [view_insert rfl hold, TierMap.add, view_tier]
  simp only
  congr 1
  rw [State.slices, List.map_append, List.map_singleton, State.slices]
  congr 1
  · exact List.map_congr_left (fun i hi => hold i (s.made _ i hi))
  · simp [State.add]

theorem view_removeFrom {t count : Nat} (h : s.removeFrom t count = some s') :
    ∃ calls, s.view.removeFrom t count = some (s'.view, calls) := by
  rw [State.removeFrom] at h
  split at h
  case isFalse => exact absurd h (by simp)
  case isTrue hcount =>
    have h := Option.some.inj h
    have hlength : count ≤ (s.view.tier t).length := by
      rwa [view_tier, State.slices, List.length_map]
    have hview : s'.view = s.view.insert t (s.slices ((s.tiers.tier t).drop count)) := by
      have hsame : s'.slices = s.slices := by rw [← h]; rfl
      rw [← hsame]
      exact view_insert (by rw [← h]) (fun i _ => by rw [← h])
    refine ⟨TierMap.mergeRequest t ((s.view.tier t).drop count), ?_⟩
    rw [TierMap.removeFrom, if_pos hlength, hview, view_tier, State.slices, State.slices, List.map_drop]

/-- A merge that returns does to the tiers what is done to the map of the slices
that are seen. -/
theorem merge_refines {t keyCount : Nat} (h : s.merge z write t = .returned keyCount s')
    (hmany : maxSlicesPerTier < (s.tiers.tier t).length) :
    ∃ out pages calls, write false (s.view.tier t) = .ok (out, pages) ∧
      (s.view.add z out).1.removeFrom t (s.view.tier t).length = some (s'.view, calls) := by
  rw [State.merge] at h
  replace h := (if_neg (Nat.not_le.mpr hmany)).symm.trans h
  rw [State.rewrite] at h
  cases hremove : s.remove (s.tiers.tier t) with
  | none => simp [hremove] at h
  | some u =>
      have hview := view_marked (marked_remove hremove)
      have hslices : u.slices (s.tiers.tier t) = s.view.tier t := by
        rw [← hview, view_tier, (marked_remove hremove).tiers]
      cases hwrite : write false (u.slices (s.tiers.tier t)) with
      | error e => simp [hremove, hwrite] at h
      | ok r =>
          cases herase : (u.add z r.1 r.2).removeFrom t (s.tiers.tier t).length with
          | none => simp [hremove, hwrite, herase] at h
          | some u' =>
              simp only [hremove, hwrite, herase, Exit.returned.injEq] at h
              obtain ⟨calls, hcalls⟩ := view_removeFrom herase
              refine ⟨r.1, r.2, calls, by rw [← hslices, hwrite], ?_⟩
              rw [view_tier, State.slices, List.length_map, ← hview, ← view_add z u r.1 r.2, hcalls, h.2]

end View

theorem oneKey_ne : ([1] : Key) ≠ [] := List.cons_ne_nil _ _

theorem oneKey_fits : ([1] : Key).length < maxKeySize := by decide

def oneKey : Slice := ⟨[⟨[1], 0, false, [], [], oneKey_ne, oneKey_fits⟩], by simp, 1, by simp⟩

def fullTier : State where
  tiers := AList.insert 0 [0, 1, 2, 3, 4] ∅
  objects i := { slice := oneKey, pages := {i} }
  next := 5
  owned := Finset.range 5
  made := by
    intro t i hi
    rw [Tiers.tier_insert] at hi
    split at hi
    case isTrue =>
      simp only [List.mem_cons, List.not_mem_nil, or_false] at hi
      omega
    case isFalse => exact absurd hi List.not_mem_nil

def throws (_ : Bool) (_ : List Slice) : Except Unit (Slice × Finset Nat) := .error ()

theorem failed_unrestored_fullTier :
    ∃ s', fullTier.run 0 throws .compact = .thrown () s' ∧ ¬ Restored 0 .compact fullTier s' :=
  ⟨_, rfl, @failed_unrestored Unit 0 throws fullTier _ .compact () rfl⟩

/-- After the merge has failed, the first of the five slices is still in its tier,
and marked. -/
theorem not_restored_fullTier :
    ∃ s', fullTier.run 0 throws (.merge 0) = .thrown () s' ∧ ¬ Restored 0 (.merge 0) fullTier s' := by
  refine ⟨_, rfl, fun h => ?_⟩
  have hlinked := h.linked 0 (by decide)
  exact absurd hlinked (by decide)

end Tyrdbs.Ushard.Unlinking
