import Mathlib.Data.List.AList
import Mathlib.Data.Multiset.MapFold

namespace Tyrdbs

/-- An unordered map of entries whose type does not depend on the key. -/
abbrev Table (Key V : Type) := AList (fun _ : Key => V)

namespace Table

variable {Key V : Type}

def empty : Table Key V := ∅

variable [DecidableEq Key]

def find (t : Table Key V) (k : Key) : Option V := t.lookup k

def erase (t : Table Key V) (k : Key) : Table Key V := AList.erase k t

/-- The entry under a key is written, whether it was there or not. -/
def put (t : Table Key V) (k : Key) (v : V) : Table Key V := AList.insert k v t

variable {t : Table Key V} {k k' : Key} {v : V}

theorem find_eq_some : t.find k = some v ↔ ⟨k, v⟩ ∈ t.entries := AList.mem_lookup_iff

@[simp] theorem find_empty : (empty : Table Key V).find k = none := rfl

theorem find_erase : (t.erase k).find k' = if k' = k then none else t.find k' := by
  by_cases hk : k' = k
  · rw [if_pos hk, hk]
    exact AList.lookup_erase k t
  · rw [if_neg hk]
    exact AList.lookup_erase_ne hk

theorem find_put : (t.put k v).find k' = if k' = k then some v else t.find k' := by
  by_cases hk : k' = k
  · rw [if_pos hk, hk]
    exact AList.lookup_insert t
  · rw [if_neg hk]
    exact AList.lookup_insert_ne hk

theorem find_put_self : (t.put k v).find k = some v := AList.lookup_insert t

theorem find_put_of_ne (h : k' ≠ k) : (t.put k v).find k' = t.find k' := AList.lookup_insert_ne h

theorem put_put {w : V} : (t.put k v).put k w = t.put k w := AList.insert_insert t

theorem entries_perm (h : t.find k = some v) : t.entries.Perm (⟨k, v⟩ :: (t.erase k).entries) := by
  obtain ⟨w, front, back, -, heq, herase⟩ := List.exists_of_kerase (List.mem_keys_of_mem (find_eq_some.mp h))
  have hw : t.find k = some w := find_eq_some.mpr (heq ▸ List.mem_append_right _ (List.mem_cons_self ..))
  obtain rfl : v = w := Option.some.inj (h.symm.trans hw)
  rw [show (t.erase k).entries = front ++ back from herase, heq]
  exact List.perm_middle

def values (t : Table Key V) : Multiset V := t.entries.map Sigma.snd

theorem values_of_find (h : t.find k = some v) : t.values = v ::ₘ (t.erase k).values :=
  Multiset.coe_eq_coe.mpr ((entries_perm h).map _)

theorem values_put : (t.put k v).values = v ::ₘ (t.erase k).values := rfl

theorem erase_of_none (h : t.find k = none) : t.erase k = t := by
  have hk : k ∉ t.entries.keys := List.dlookup_eq_none.mp h
  exact AList.ext (List.kerase_of_notMem_keys hk)

theorem values_put_of_none (h : t.find k = none) : (t.put k v).values = v ::ₘ t.values := by
  rw [values_put, erase_of_none h]

theorem erase_put : (t.put k v).erase k = t.erase k := AList.ext (List.kerase_cons_eq rfl)

end Table

end Tyrdbs
