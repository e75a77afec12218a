import Tyrdbs.Ushard.Iterator
import Mathlib.Data.List.AList

namespace Tyrdbs.Ushard

def maxSlicesPerTier : Nat := 4

/-- A quarter of the bit length of the key count. The count of leading zeros
of 0 is not defined, so the tier of an empty slice may be any. -/
def tierOf (undefinedTier : Nat) (s : Slice) : Nat :=
  if s.keyCount = 0 then undefinedTier else (s.keyCount.log2 + 1) >>> 2

/-- The state of a ushard: its tiers, in no particular order, and in each the
slices in the order in which they were added. -/
abbrev TierMap := AList (fun _ : Nat => List Slice)

inductive Callback
  | add (s : Slice)
  | remove (slices : List Slice)
  | merge (tier : Nat)

namespace TierMap

def tier (m : TierMap) (t : Nat) : List Slice := (m.lookup t).getD []

def getSlices (m : TierMap) : List Slice := m.entries.flatMap (fun e => e.2)

def mergeRequest (t : Nat) (slices : List Slice) : List Callback :=
  if slices.length > maxSlicesPerTier then [.merge t] else []

def add (undefinedTier : Nat) (m : TierMap) (s : Slice) : TierMap × List Callback :=
  let t := tierOf undefinedTier s
  let slices := m.tier t ++ [s]
  (m.insert t slices, .add s :: mergeRequest t slices)

/-- To erase more slices than the vector has is undefined. -/
def removeFrom (m : TierMap) (t count : Nat) : Option (TierMap × List Callback) :=
  let slices := m.tier t
  if count ≤ slices.length then
    some (m.insert t (slices.drop count), mergeRequest t (slices.drop count))
  else none

/-- The loop at the end of compact, over a checkpoint of the tiers. -/
def removeAll : TierMap → List (Nat × Nat) → Option (TierMap × List Callback)
  | m, [] => some (m, [])
  | m, (t, count) :: rest => do
      let (m, calls) ← m.removeFrom t count
      let (m, more) ← m.removeAll rest
      return (m, calls ++ more)

theorem tier_insert (m : TierMap) (t : Nat) (ss : List Slice) (t' : Nat) :
    tier (m.insert t ss) t' = if t' = t then ss else tier m t' := by
  rw [tier]
  by_cases h : t' = t
  · subst h
    simp [AList.lookup_insert]
  · simp [AList.lookup_insert_ne h, h, tier]

theorem perm_kerase (t : Nat) (es : List (Sigma (fun _ : Nat => List Slice))) :
    (es.flatMap (fun e => e.2)).Perm
      ((es.dlookup t).getD [] ++ (es.kerase t).flatMap (fun e => e.2)) := by
  induction es with
  | nil => exact List.Perm.refl _
  | cons e es ih =>
      by_cases ht : t = e.1
      · obtain ⟨t', ss⟩ := e
        subst ht
        have herase : List.kerase t (⟨t, ss⟩ :: es) = es := List.kerase_cons_eq rfl
        rw [List.dlookup_cons_eq, herase]
        exact List.Perm.refl _
      · rw [List.dlookup_cons_ne _ _ ht, List.kerase_cons_ne ht, List.flatMap_cons, List.flatMap_cons]
        exact (ih.append_left e.2).trans (List.perm_append_comm_assoc ..)

theorem getSlices_perm (m : TierMap) (t : Nat) :
    m.getSlices.Perm (m.tier t ++ getSlices (m.erase t)) := perm_kerase t m.entries

theorem getSlices_insert (m : TierMap) (t : Nat) (ss : List Slice) :
    getSlices (m.insert t ss) = ss ++ getSlices (m.erase t) := rfl

theorem add_perm (z : Nat) (m : TierMap) (s : Slice) :
    (getSlices (m.add z s).1).Perm (s :: m.getSlices) := by
  have hold := getSlices_perm m (tierOf z s)
  rw [add, getSlices_insert, List.append_assoc, List.singleton_append]
  exact List.perm_middle.trans (hold.symm.cons s)

theorem tier_add (z : Nat) (m : TierMap) (s : Slice) (t : Nat) :
    (m.add z s).1.tier t = if t = tierOf z s then m.tier t ++ [s] else m.tier t := by
  rw [add, tier_insert]
  split
  next h => rw [h]
  next => rfl

theorem prefix_add (z : Nat) (m : TierMap) (s : Slice) (t : Nat) : m.tier t <+: (m.add z s).1.tier t := by
  rw [tier_add]
  split
  · exact List.prefix_append ..
  · exact List.prefix_refl _

theorem removeFrom_of_prefix {m : TierMap} {t : Nat} {ss : List Slice} (h : ss <+: m.tier t) :
    ∃ r, m.removeFrom t ss.length = some r ∧ m.getSlices.Perm (ss ++ r.1.getSlices) ∧
      m.tier t = ss ++ r.1.tier t ∧ ∀ t', t' ≠ t → r.1.tier t' = m.tier t' := by
  obtain ⟨rest, hrest⟩ := h
  have hdrop : (m.tier t).drop ss.length = rest := by rw [← hrest, List.drop_left]
  refine ⟨_, if_pos (by rw [← hrest, List.length_append]; omega), ?_, ?_, fun t' ht' => ?_⟩
  · simp only [hdrop, getSlices_insert]
    rw [← List.append_assoc, hrest]
    exact getSlices_perm m t
  · rw [tier_insert, if_pos rfl, hdrop, hrest]
  · rw [tier_insert, if_neg ht']

theorem removeAll_of_prefix (es : List (Sigma (fun _ : Nat => List Slice))) (hn : es.NodupKeys)
    {m : TierMap} (h : ∀ e ∈ es, e.2 <+: m.tier e.1) :
    ∃ r, m.removeAll (es.map (fun e => (e.1, e.2.length))) = some r ∧
      m.getSlices.Perm (es.flatMap (fun e => e.2) ++ r.1.getSlices) ∧
      ∀ t, m.tier t = (es.dlookup t).getD [] ++ r.1.tier t := by
  induction es generalizing m with
  | nil => exact ⟨(m, []), rfl, List.Perm.refl _, fun t => rfl⟩
  | cons e es ih =>
      obtain ⟨hne, hn⟩ := List.nodupKeys_cons.mp hn
      obtain ⟨r, hr, hperm, htier, hother⟩ := removeFrom_of_prefix (h e (List.mem_cons_self ..))
      have hkey : ∀ e' ∈ es, e'.1 ≠ e.1 :=
        fun e' he' heq => hne (heq ▸ List.mem_map_of_mem he')
      obtain ⟨r', hr', hperm', htier'⟩ := ih hn (m := r.1) (fun e' he' => by
        rw [hother _ (hkey e' he')]
        exact h e' (List.mem_cons_of_mem _ he'))
      refine ⟨(r'.1, r.2 ++ r'.2), ?_, ?_, fun t => ?_⟩
      · simp only [List.map_cons, removeAll, hr, hr', bind, Option.bind, pure]
      · rw [List.flatMap_cons, List.append_assoc]
        exact hperm.trans (hperm'.append_left _)
      · by_cases ht : t = e.1
        · have hnone : List.dlookup t es = none := by
            rw [List.dlookup_eq_none, ht]
            exact hne
          have hlast := htier' t
          rw [hnone] at hlast
          obtain ⟨t', ss⟩ := e
          have ht : t = t' := ht
          subst ht
          rw [List.dlookup_cons_eq, htier]
          simpa using hlast
        · rw [List.dlookup_cons_ne _ _ ht, ← hother t ht]
          exact htier' t

end TierMap

end Tyrdbs.Ushard
