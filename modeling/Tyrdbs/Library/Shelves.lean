import Mathlib.Data.List.AList

namespace Tyrdbs.Shelves

variable {κ α : Type} [DecidableEq κ]

/-- Lists under keys, in no particular order. -/
abbrev Shelving (κ α : Type) := AList (fun _ : κ => List α)

def shelf (m : Shelving κ α) (k : κ) : List α := (m.lookup k).getD []

def all (m : Shelving κ α) : List α := m.entries.flatMap (fun e => e.2)

def takeOff (m : Shelving κ α) : List (κ × Nat) → Shelving κ α
  | [] => m
  | (k, n) :: rest => takeOff (m.insert k ((shelf m k).drop n)) rest

theorem shelf_insert (m : Shelving κ α) (k : κ) (xs : List α) (k' : κ) :
    shelf (m.insert k xs) k' = if k' = k then xs else shelf m k' := by
  rw [shelf]
  by_cases h : k' = k
  · subst h
    simp [AList.lookup_insert]
  · simp [AList.lookup_insert_ne h, h, shelf]

theorem shelf_of_mem {m : Shelving κ α} {e : Sigma (fun _ : κ => List α)} (he : e ∈ m.entries) : shelf m e.1 = e.2 := by
  rw [shelf, AList.mem_lookup_iff.mpr he]
  rfl

theorem mem_all {m : Shelving κ α} {x : α} : x ∈ all m ↔ ∃ k, x ∈ shelf m k := by
  rw [all, List.mem_flatMap]
  constructor
  · rintro ⟨e, he, hx⟩
    exact ⟨e.1, (shelf_of_mem he).symm ▸ hx⟩
  · rintro ⟨k, hx⟩
    cases hlookup : m.lookup k with
    | none => simp [shelf, hlookup] at hx
    | some xs =>
        rw [shelf, hlookup] at hx
        exact ⟨⟨k, xs⟩, AList.mem_lookup_iff.mp hlookup, hx⟩

theorem kerase_perm (k : κ) (es : List (Sigma (fun _ : κ => List α))) :
    (es.flatMap (fun e => e.2)).Perm ((es.dlookup k).getD [] ++ (es.kerase k).flatMap (fun e => e.2)) := by
  induction es with
  | nil => exact List.Perm.refl _
  | cons e es ih =>
      by_cases hk : k = e.1
      · obtain ⟨k', xs⟩ := e
        subst hk
        have herase : List.kerase k (⟨k, xs⟩ :: es) = es := List.kerase_cons_eq rfl
        rw [List.dlookup_cons_eq, herase]
        exact List.Perm.refl _
      · rw [List.dlookup_cons_ne _ _ hk, List.kerase_cons_ne hk, List.flatMap_cons, List.flatMap_cons]
        exact (ih.append_left e.2).trans (List.perm_append_comm_assoc ..)

theorem all_perm (m : Shelving κ α) (k : κ) : (all m).Perm (shelf m k ++ all (m.erase k)) := kerase_perm k m.entries

theorem all_insert (m : Shelving κ α) (k : κ) (xs : List α) : all (m.insert k xs) = xs ++ all (m.erase k) := rfl

theorem all_push (m : Shelving κ α) (k : κ) (x : α) : (all (m.insert k (shelf m k ++ [x]))).Perm (x :: all m) := by
  rw [all_insert, List.append_assoc, List.singleton_append]
  exact List.perm_middle.trans ((all_perm m k).symm.cons x)

theorem prefix_push (m : Shelving κ α) (k : κ) (x : α) (k' : κ) :
    shelf m k' <+: shelf (m.insert k (shelf m k ++ [x])) k' := by
  rw [shelf_insert]
  split
  next h => exact h ▸ List.prefix_append ..
  next => exact List.prefix_refl _

theorem all_drop (m : Shelving κ α) (k : κ) (n : Nat) :
    (all m).Perm ((shelf m k).take n ++ all (m.insert k ((shelf m k).drop n))) := by
  rw [all_insert, ← List.append_assoc, List.take_append_drop]
  exact all_perm m k

theorem takeOff_of_prefix (es : List (Sigma (fun _ : κ => List α))) :
    ∀ m : Shelving κ α, es.NodupKeys → (∀ e ∈ es, e.2 <+: shelf m e.1) →
      (all m).Perm (es.flatMap (fun e => e.2) ++ all (takeOff m (es.map (fun e => (e.1, e.2.length))))) ∧
        ∀ k, shelf m k = (es.dlookup k).getD [] ++ shelf (takeOff m (es.map (fun e => (e.1, e.2.length)))) k := by
  induction es with
  | nil => exact fun m _ _ => ⟨List.Perm.refl _, fun k => rfl⟩
  | cons e es ih =>
      intro m hn h
      obtain ⟨k₀, xs⟩ := e
      obtain ⟨hne, hn⟩ := List.nodupKeys_cons.mp hn
      have hkey : ∀ e' ∈ es, e'.1 ≠ k₀ := fun e' he' heq => hne (List.mem_map.mpr ⟨e', he', heq⟩)
      obtain ⟨rest, hrest⟩ := h ⟨k₀, xs⟩ List.mem_cons_self
      have hrest : xs ++ rest = shelf m k₀ := hrest
      have htake : (shelf m k₀).take xs.length = xs := by rw [← hrest, List.take_left]
      have hdrop : (shelf m k₀).drop xs.length = rest := by rw [← hrest, List.drop_left]
      obtain ⟨hperm, hshelf⟩ := ih (m.insert k₀ ((shelf m k₀).drop xs.length)) hn fun e' he' => by
        rw [shelf_insert, if_neg (hkey e' he')]
        exact h e' (List.mem_cons_of_mem _ he')
      rw [List.map_cons, takeOff]
      refine ⟨?_, fun k => ?_⟩
      · have hfirst := all_drop m k₀ xs.length
        rw [htake] at hfirst
        rw [List.flatMap_cons, List.append_assoc]
        exact hfirst.trans (hperm.append_left _)
      · have hk := hshelf k
        rw [shelf_insert] at hk
        by_cases heq : k = k₀
        · subst heq
          have hnone : List.dlookup k es = none := List.dlookup_eq_none.mpr hne
          rw [if_pos rfl, hnone] at hk
          rw [List.dlookup_cons_eq]
          calc shelf m k = xs ++ (shelf m k).drop xs.length := by rw [hdrop, hrest]
            _ = xs ++ _ := congrArg (xs ++ ·) hk
        · rw [if_neg heq] at hk
          rw [List.dlookup_cons_ne _ _ heq, hk]

end Tyrdbs.Shelves
