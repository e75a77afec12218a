import Tyrdbs.Library.Outcome
import Mathlib.Algebra.Order.Ring.Nat
import Mathlib.Data.List.Perm.Basic
import Mathlib.Data.List.Range
import Mathlib.Data.Multiset.UnionInter
import Mathlib.Logic.Function.Basic

namespace Tyrdbs

open Outcome

/-- The table links the free entries; 0xffff ends the chain and marks what is
allocated. -/
structure Slab where
  allocTable : List Nat
  capacity : Nat
  size : Nat := 0
  next : Nat := 0
  slabNdx : Nat := 0

namespace Slab

inductive Fault
  | assertion
  | outOfBounds
  deriving DecidableEq

def endOfTable : Nat := 2 ^ 16 - 1

def ofCapacity (capacity : Nat) : Slab where
  allocTable := (List.range capacity).map (fun i => if i + 1 < capacity then i + 1 else endOfTable)
  capacity := capacity

def full (s : Slab) : Bool := s.size = s.capacity

def allocate (s : Slab) : Except Fault (Nat × Slab) := do
  check (s.size ≠ s.capacity) .assertion
  let ndx := s.next
  match s.allocTable[ndx]? with
  | none => .error .outOfBounds
  | some next =>
      return (ndx, { s with
        next := next
        allocTable := s.allocTable.set ndx endOfTable
        size := s.size + 1 })

def free (s : Slab) (ndx : Nat) : Except Fault Slab := do
  check (s.size ≠ 0) .assertion
  check (ndx < s.capacity) .assertion
  if s.next = endOfTable then
    return { s with next := ndx, size := s.size - 1 }
  else do
    check (s.allocTable[ndx]? = some endOfTable) .assertion
    return { s with allocTable := s.allocTable.set ndx s.next, next := ndx, size := s.size - 1 }

def get (s : Slab) (ndx : Nat) : Except Fault Unit := do
  check (ndx < s.capacity) .assertion
  check (s.allocTable[ndx]? = some endOfTable) .assertion

/-- The chain of free entries that starts at an index. -/
def Chain (table : List Nat) : Nat → List Nat → Prop
  | n, [] => n = endOfTable
  | n, x :: xs => n = x ∧ ∃ next, table[x]? = some next ∧ Chain table next xs

theorem Chain.set {table : List Nat} {n : Nat} {xs : List Nat} (h : Chain table n xs) {x : Nat}
    (hx : x ∉ xs) (v : Nat) : Chain (table.set x v) n xs := by
  induction xs generalizing n with
  | nil => exact h
  | cons y ys ih =>
      obtain ⟨rfl, next, hnext, hrest⟩ := h
      have hne : x ≠ n := fun heq => hx (heq ▸ List.mem_cons_self ..)
      refine ⟨rfl, next, ?_, ih hrest (fun hm => hx (List.mem_cons_of_mem _ hm))⟩
      rw [List.getElem?_set_ne hne]
      exact hnext

/-- The slab lends out every entry but the free ones. -/
structure Holds (s : Slab) (free : List Nat) : Prop where
  chain : Chain s.allocTable s.next free
  nodup : free.Nodup
  below : ∀ x ∈ free, x < s.capacity
  length_eq : s.allocTable.length = s.capacity
  capacity_le : s.capacity ≤ 32768
  size_eq : s.size + free.length = s.capacity
  lent : ∀ x, x < s.capacity → x ∉ free → s.allocTable[x]? = some endOfTable

theorem Chain.unique {table : List Nat} (htable : table.length ≤ 32768) {n : Nat} {xs ys : List Nat}
    (hx : Chain table n xs) (hy : Chain table n ys) : xs = ys := by
  have hend : ∀ next, table[endOfTable]? ≠ some next := by
    intro next h
    have hlt := (List.getElem?_eq_some_iff.mp h).1
    rw [endOfTable] at hlt
    omega
  induction xs generalizing n ys with
  | nil =>
      cases ys with
      | nil => rfl
      | cons y ys =>
          obtain ⟨hny, next, hnext, _⟩ := hy
          have hn : n = endOfTable := hx
          rw [← hny, hn] at hnext
          exact absurd hnext (hend next)
  | cons x xs ih =>
      obtain ⟨hnx, next, hnext, hrest⟩ := hx
      cases ys with
      | nil =>
          have hn : n = endOfTable := hy
          rw [← hnx, hn] at hnext
          exact absurd hnext (hend next)
      | cons y ys =>
          obtain ⟨hny, next', hnext', hrest'⟩ := hy
          have hxy : x = y := hnx.symm.trans hny
          subst hxy
          rw [hnext, Option.some.injEq] at hnext'
          subst hnext'
          rw [ih hrest hrest']

theorem ofCapacity_getElem? {capacity i : Nat} (hi : i < capacity) :
    (ofCapacity capacity).allocTable[i]? = some (if i + 1 < capacity then i + 1 else endOfTable) := by
  simp [ofCapacity, hi]

theorem ofCapacity_chain {capacity : Nat} (n i : Nat) (hn : i + n = capacity) (hpos : 0 < n) :
    Chain (ofCapacity capacity).allocTable i (List.range' i n) := by
  induction n generalizing i with
  | zero => exact absurd hpos (lt_irrefl 0)
  | succ n ih =>
      rw [List.range'_succ]
      refine ⟨rfl, _, ofCapacity_getElem? (by omega), ?_⟩
      by_cases hlast : n = 0
      · rw [hlast, if_neg (by omega)]
        rfl
      · rw [if_pos (by omega)]
        exact ih (i + 1) (by omega) (Nat.pos_of_ne_zero hlast)

theorem ofCapacity_holds {capacity : Nat} (hpos : 0 < capacity) (hle : capacity ≤ 32768) :
    Holds (ofCapacity capacity) (List.range capacity) := by
  refine ⟨?_, List.nodup_range, fun x hx => List.mem_range.mp hx, ?_, hle, ?_, ?_⟩
  · rw [List.range_eq_range']
    exact ofCapacity_chain capacity 0 (Nat.zero_add _) hpos
  · simp [ofCapacity]
  · simp [ofCapacity]
  · intro x hx hnot
    exact absurd (List.mem_range.mpr hx) hnot

variable {s : Slab} {frees : List Nat}

theorem Holds.full_iff (h : Holds s frees) : s.full = true ↔ frees = [] := by
  have hsize := h.size_eq
  rw [full, decide_eq_true_iff, ← List.length_eq_zero_iff]
  omega

theorem Holds.allocate (h : Holds s frees) (hne : frees ≠ []) :
    ∃ ndx xs s', frees = ndx :: xs ∧ s.allocate = .ok (ndx, s') ∧ Holds s' xs ∧
      s'.capacity = s.capacity ∧ s'.slabNdx = s.slabNdx := by
  obtain ⟨chain, nodup, below, length_eq, capacity_le, size_eq, lent⟩ := h
  cases frees with
  | nil => exact absurd rfl hne
  | cons x xs =>
      obtain ⟨hx, next, hnext, hrest⟩ := chain
      obtain ⟨hnot, hnodup⟩ := List.nodup_cons.mp nodup
      rw [List.length_cons] at size_eq
      have hsize : s.size ≠ s.capacity := by omega
      have hlt : x < s.capacity := below x (List.mem_cons_self ..)
      refine ⟨x, xs, { s with
        next := next, allocTable := s.allocTable.set x endOfTable, size := s.size + 1 }, rfl, ?_, ?_, rfl, rfl⟩
      · rw [Slab.allocate, check_of hsize, ok_bind, hx]
        simp only [hnext]
        rfl
      · refine ⟨hrest.set hnot _, hnodup, fun y hy => below y (List.mem_cons_of_mem _ hy), ?_, capacity_le,
          ?_, fun y hy hyn => ?_⟩
        · exact (List.length_set ..).trans length_eq
        · change s.size + 1 + xs.length = s.capacity
          omega
        · change (s.allocTable.set x endOfTable)[y]? = _
          by_cases hyx : y = x
          · rw [hyx, List.getElem?_set_self (by omega)]
          · rw [List.getElem?_set_ne (Ne.symm hyx)]
            exact lent y hy (fun hm => (List.mem_cons.mp hm).elim hyx hyn)

theorem Holds.free (h : Holds s frees) {ndx : Nat} (hlt : ndx < s.capacity) (hnot : ndx ∉ frees) :
    ∃ s', s.free ndx = .ok s' ∧ Holds s' (ndx :: frees) ∧ s'.capacity = s.capacity ∧
      s'.slabNdx = s.slabNdx := by
  obtain ⟨chain, nodup, below, length_eq, capacity_le, size_eq, lent⟩ := h
  have hlent := lent ndx hlt hnot
  have hcount : frees.length < s.capacity := by
    have hsub : ndx :: frees ⊆ List.range s.capacity := by
      intro x hx
      rcases List.mem_cons.mp hx with rfl | hx
      · exact List.mem_range.mpr hlt
      · exact List.mem_range.mpr (below x hx)
    have hle := (List.subperm_of_subset (List.nodup_cons.mpr ⟨hnot, nodup⟩) hsub).length_le
    rw [List.length_cons, List.length_range] at hle
    omega
  have hsize : s.size ≠ 0 := by omega
  have hbelow : ∀ x ∈ ndx :: frees, x < s.capacity := by
    intro x hx
    rcases List.mem_cons.mp hx with rfl | hx
    · exact hlt
    · exact below x hx
  rw [Slab.free, check_of hsize, ok_bind, check_of hlt, ok_bind]
  by_cases hend : s.next = endOfTable
  · have hnil : frees = [] := by
      cases frees with
      | nil => rfl
      | cons x xs =>
          have hx := below x (List.mem_cons_self ..)
          rw [← chain.1, hend, endOfTable] at hx
          omega
    subst hnil
    rw [if_pos hend]
    refine ⟨_, rfl, ⟨⟨rfl, _, hlent, rfl⟩, List.nodup_singleton _, hbelow, length_eq, capacity_le, ?_, ?_⟩, rfl, rfl⟩
    · change s.size - 1 + 1 = s.capacity
      rw [List.length_nil] at size_eq
      omega
    · exact fun x hx hxn => lent x hx (List.not_mem_nil)
  · rw [if_neg hend, check_of hlent, ok_bind]
    refine ⟨_, rfl, ⟨⟨rfl, s.next, ?_, chain.set hnot _⟩, List.nodup_cons.mpr ⟨hnot, nodup⟩, hbelow,
      ?_, capacity_le, ?_, ?_⟩, rfl, rfl⟩
    · exact List.getElem?_set_self (length_eq ▸ hlt)
    · exact (List.length_set ..).trans length_eq
    · change s.size - 1 + (frees.length + 1) = s.capacity
      omega
    · intro x hx hxn
      obtain ⟨hne, hxf⟩ := not_or.mp (fun hor => hxn (List.mem_cons.mpr hor))
      change (s.allocTable.set ndx s.next)[x]? = _
      rw [List.getElem?_set_ne (Ne.symm hne)]
      exact lent x hx hxf

end Slab

/-- A pool of slabs; a handle names a slab and one of its entries. -/
structure Slabs where
  slabs : List Slab := []
  partialSlabs : List Nat := []
  fullSlabs : List Nat := []
  slabNdx : Nat := 0

namespace Slabs

open Slab (Fault)

def slabIndex (handle : Nat) : Nat := handle >>> 16

def entryIndex (handle : Nat) : Nat := handle &&& 0xffff

def handleOf (slabNdx entryNdx : Nat) : Nat := slabNdx <<< 16 ||| entryNdx

def full (s : Slabs) : Bool := s.partialSlabs.length = 0

def moveToFull (s : Slabs) (ndx : Nat) : Slabs :=
  { s with partialSlabs := s.partialSlabs.filter (· ≠ ndx), fullSlabs := s.fullSlabs ++ [ndx] }

def moveToPartial (s : Slabs) (ndx : Nat) : Slabs :=
  { s with fullSlabs := s.fullSlabs.filter (· ≠ ndx), partialSlabs := s.partialSlabs ++ [ndx] }

def allocate (s : Slabs) : Except Fault (Nat × Slabs) :=
  match s.partialSlabs with
  | [] => .error .assertion
  | ndx :: _ =>
      match s.slabs[ndx]? with
      | none => .error .assertion
      | some slab => do
          check (slab.full = false) .assertion
          let (entry, slab') ← slab.allocate
          let s := { s with slabs := s.slabs.set ndx slab' }
          return (handleOf slab.slabNdx entry, if slab'.full then s.moveToFull ndx else s)

def free (s : Slabs) (handle : Nat) : Except Fault Slabs :=
  let ndx := slabIndex handle
  match s.slabs[ndx]? with
  | none => .error .assertion
  | some slab => do
      let slab' ← slab.free (entryIndex handle)
      let s := { s with slabs := s.slabs.set ndx slab' }
      return if slab.full then s.moveToPartial ndx else s

def get (s : Slabs) (handle : Nat) : Except Fault Unit :=
  match s.slabs[slabIndex handle]? with
  | none => .error .assertion
  | some slab => slab.get (entryIndex handle)

def extend (s : Slabs) (slab : Slab) : Slabs :=
  { s with
    slabs := s.slabs ++ [{ slab with slabNdx := s.slabNdx }]
    partialSlabs := s.partialSlabs ++ [s.slabs.length % 2 ^ 16]
    slabNdx := (s.slabNdx + 1) % 2 ^ 16 }

theorem handleOf_eq (i : Nat) {x : Nat} (hx : x < 2 ^ 16) : handleOf i x = i * 2 ^ 16 + x := by
  rw [handleOf, ← Nat.shiftLeft_add_eq_or_of_lt hx, Nat.shiftLeft_eq]

theorem slabIndex_handleOf (i : Nat) {x : Nat} (hx : x < 2 ^ 16) : slabIndex (handleOf i x) = i := by
  rw [slabIndex, Nat.shiftRight_eq_div_pow, handleOf_eq i hx]
  omega

theorem entryIndex_handleOf (i : Nat) {x : Nat} (hx : x < 2 ^ 16) : entryIndex (handleOf i x) = x := by
  rw [entryIndex, Nat.and_two_pow_sub_one_eq_mod _ 16, handleOf_eq i hx]
  omega

def handles (n : Nat) (entries : Nat → List Nat) : List Nat :=
  (List.range n).flatMap (fun i => (entries i).map (handleOf i))

theorem mem_handles {n : Nat} {entries : Nat → List Nat} {h : Nat} :
    h ∈ handles n entries ↔ ∃ i x, i < n ∧ x ∈ entries i ∧ handleOf i x = h := by
  simp only [handles, List.mem_flatMap, List.mem_range, List.mem_map]
  exact ⟨fun ⟨i, hi, x, hx, hh⟩ => ⟨i, x, hi, hx, hh⟩, fun ⟨i, x, hi, hx, hh⟩ => ⟨i, hi, x, hx, hh⟩⟩

theorem handles_perm {n i : Nat} (hi : i < n) (entries : Nat → List Nat) :
    (handles n entries).Perm ((entries i).map (handleOf i) ++
      ((List.range n).erase i).flatMap (fun i => (entries i).map (handleOf i))) :=
  (List.perm_cons_erase (List.mem_range.mpr hi)).flatMap_right _

theorem handles_update {n i : Nat} (hi : i < n) (entries : Nat → List Nat) (xs : List Nat) :
    (handles n (Function.update entries i xs)).Perm (xs.map (handleOf i) ++
      ((List.range n).erase i).flatMap (fun i => (entries i).map (handleOf i))) := by
  refine (handles_perm hi _).trans (List.Perm.of_eq ?_)
  rw [Function.update_self]
  refine congrArg _ (List.flatMap_congr (fun j hj => ?_))
  have hne : j ≠ i := fun heq => List.nodup_range.not_mem_erase (heq ▸ hj)
  rw [Function.update_of_ne hne]

structure Tracks (s : Slabs) (frees : Nat → List Nat) : Prop where
  slab : ∀ (i : Nat) (sl : Slab), s.slabs[i]? = some sl → sl.slabNdx = i ∧ sl.Holds (frees i)
  some_iff : ∀ i, i ∈ s.partialSlabs ↔ i < s.slabs.length ∧ frees i ≠ []

def all (s : Slabs) : Multiset Nat :=
  handles s.slabs.length (fun i => List.range ((s.slabs[i]?.map Slab.capacity).getD 0))

def Holds (s : Slabs) (free : Multiset Nat) : Prop :=
  ∃ frees, Tracks s frees ∧ free = handles s.slabs.length frees

theorem all_set {s s' : Slabs} {i : Nat} {sl sl' : Slab} (hi : s.slabs[i]? = some sl)
    (hs' : s'.slabs = s.slabs.set i sl') (hcap : sl'.capacity = sl.capacity) : s'.all = s.all := by
  rw [all, all, hs', List.length_set]
  refine congrArg _ (congrArg _ (funext (fun j => ?_)))
  by_cases hj : i = j
  · subst hj
    rw [List.getElem?_set_self (List.getElem?_eq_some_iff.mp hi).1, hi, Option.map_some, Option.map_some, hcap]
  · rw [List.getElem?_set_ne hj]

theorem mem_all {s : Slabs} {handle : Nat} (hm : handle ∈ s.all) :
    ∃ i x sl, s.slabs[i]? = some sl ∧ x < sl.capacity ∧ handle = handleOf i x := by
  obtain ⟨i, x, hi, hx, rfl⟩ := mem_handles.mp hm
  refine ⟨i, x, s.slabs[i], List.getElem?_eq_getElem hi, ?_, rfl⟩
  simpa [List.getElem?_eq_getElem hi] using hx

theorem Tracks.lt {s : Slabs} {frees : Nat → List Nat} (h : Tracks s frees) {i x : Nat} {sl : Slab}
    (hi : s.slabs[i]? = some sl) (hx : x < sl.capacity) : x < 2 ^ 16 := by
  have hcap := (h.slab i sl hi).2.capacity_le
  omega

theorem Tracks.set {s s' : Slabs} {frees : Nat → List Nat} (h : Tracks s frees) {i : Nat} {sl sl' : Slab}
    {xs : List Nat} (hi : s.slabs[i]? = some sl) (hs' : s'.slabs = s.slabs.set i sl')
    (hndx : sl'.slabNdx = sl.slabNdx) (hxs : sl'.Holds xs)
    (hsome : ∀ j, j ∈ s'.partialSlabs ↔ if j = i then xs ≠ [] else j ∈ s.partialSlabs) :
    Tracks s' (Function.update frees i xs) := by
  have hlt := (List.getElem?_eq_some_iff.mp hi).1
  constructor
  · intro j sl'' hj
    rw [hs'] at hj
    by_cases hji : j = i
    · subst hji
      rw [List.getElem?_set_self hlt, Option.some.injEq] at hj
      subst hj
      exact ⟨hndx.trans (h.slab j sl hi).1, by rwa [Function.update_self]⟩
    · rw [List.getElem?_set_ne (Ne.symm hji)] at hj
      rw [Function.update_of_ne hji]
      exact h.slab j sl'' hj
  · intro j
    rw [hsome, hs', List.length_set]
    by_cases hji : j = i
    · subst hji
      rw [if_pos rfl, Function.update_self]
      exact ⟨fun hne => ⟨hlt, hne⟩, fun hne => hne.2⟩
    · rw [if_neg hji, Function.update_of_ne hji]
      exact h.some_iff j

theorem Tracks.allocate {s : Slabs} {frees : Nat → List Nat} (h : Tracks s frees) (hfull : s.full = false) :
    ∃ i x xs sl sl' s', s.slabs[i]? = some sl ∧ frees i = x :: xs ∧ s.allocate = .ok (handleOf i x, s') ∧
      sl'.capacity = sl.capacity ∧ Tracks s' (Function.update frees i xs) ∧ s'.slabs = s.slabs.set i sl' ∧
      s' = if xs = [] then ({ s with slabs := s.slabs.set i sl' } : Slabs).moveToFull i
        else { s with slabs := s.slabs.set i sl' } := by
  have hne : s.partialSlabs ≠ [] := by
    intro hnil
    simp [full, hnil] at hfull
  obtain ⟨i, rest, hpart⟩ := List.exists_cons_of_ne_nil hne
  obtain ⟨hlt, hfree⟩ := (h.some_iff i).mp (hpart ▸ List.mem_cons_self ..)
  have hget : s.slabs[i]? = some s.slabs[i] := List.getElem?_eq_getElem hlt
  obtain ⟨hndx, hholds⟩ := h.slab i _ hget
  obtain ⟨x, xs, sl', hcons, hallocate, hholds', hcap, hndx'⟩ := hholds.allocate hfree
  have hroom : s.slabs[i].full = false := by
    rw [← Bool.not_eq_true, hholds.full_iff]
    exact hfree
  have hiff : (sl'.full = true) = (xs = []) := propext hholds'.full_iff
  have hslabs : (if xs = [] then ({ s with slabs := s.slabs.set i sl' } : Slabs).moveToFull i
      else { s with slabs := s.slabs.set i sl' }).slabs = s.slabs.set i sl' := by
    split <;> rfl
  refine ⟨i, x, xs, s.slabs[i], sl', _, hget, hcons, ?_, hcap,
    h.set hget hslabs hndx' hholds' (fun j => ?_), hslabs, rfl⟩
  · rw [Slabs.allocate, hpart]
    simp only [hget, check_of hroom, ok_bind, hallocate, hndx, ← hiff]
    rfl
  · by_cases hnil : xs = []
    · rw [if_pos hnil]
      change j ∈ s.partialSlabs.filter (· ≠ i) ↔ _
      rw [List.mem_filter, hnil]
      by_cases hji : j = i <;> simp [hji]
    · rw [if_neg hnil]
      change j ∈ s.partialSlabs ↔ _
      by_cases hji : j = i
      · rw [if_pos hji, hji, hpart]
        exact iff_of_true (List.mem_cons_self ..) hnil
      · rw [if_neg hji]

theorem Tracks.free {s : Slabs} {frees : Nat → List Nat} (h : Tracks s frees) {i x : Nat} {sl : Slab}
    (hget : s.slabs[i]? = some sl) (hx : x < sl.capacity) (hnot : x ∉ frees i) :
    ∃ sl' s', s.free (handleOf i x) = .ok s' ∧ sl'.capacity = sl.capacity ∧
      Tracks s' (Function.update frees i (x :: frees i)) ∧ s'.slabs = s.slabs.set i sl' ∧
      s' = if frees i = [] then ({ s with slabs := s.slabs.set i sl' } : Slabs).moveToPartial i
        else { s with slabs := s.slabs.set i sl' } := by
  have hlt := (List.getElem?_eq_some_iff.mp hget).1
  have hx16 := h.lt hget hx
  obtain ⟨hndx, hholds⟩ := h.slab i _ hget
  obtain ⟨sl', hfree, hholds', hcap, hndx'⟩ := hholds.free hx hnot
  have hiff : (sl.full = true) = (frees i = []) := propext hholds.full_iff
  have hslabs : (if frees i = [] then ({ s with slabs := s.slabs.set i sl' } : Slabs).moveToPartial i
      else { s with slabs := s.slabs.set i sl' }).slabs = s.slabs.set i sl' := by
    split <;> rfl
  refine ⟨sl', _, ?_, hcap, h.set hget hslabs hndx' hholds' (fun j => ?_), hslabs, rfl⟩
  · rw [Slabs.free]
    simp only [slabIndex_handleOf i hx16, entryIndex_handleOf i hx16, hget, hfree, ok_bind, ← hiff]
    rfl
  · have hnonempty : x :: frees i ≠ [] := List.cons_ne_nil _ _
    by_cases hnil : frees i = []
    · rw [if_pos hnil]
      change j ∈ s.partialSlabs ++ [i] ↔ _
      by_cases hji : j = i <;> simp [hji]
    · rw [if_neg hnil]
      change j ∈ s.partialSlabs ↔ _
      by_cases hji : j = i
      · rw [if_pos hji, hji]
        exact iff_of_true ((h.some_iff i).mpr ⟨hlt, hnil⟩) hnonempty
      · rw [if_neg hji]

theorem Tracks.extend {s : Slabs} {frees : Nat → List Nat} (h : Tracks s frees) {capacity : Nat}
    (hndx : s.slabNdx = s.slabs.length) (hpos : 0 < capacity) (hle : capacity ≤ 32768)
    (hfew : s.slabs.length < 2 ^ 16) :
    Tracks (s.extend (Slab.ofCapacity capacity))
      (Function.update frees s.slabs.length (List.range capacity)) := by
  have hholds := Slab.ofCapacity_holds hpos hle
  have hlen : (s.extend (Slab.ofCapacity capacity)).slabs.length = s.slabs.length + 1 := by
    simp [Slabs.extend]
  have hrange : List.range capacity ≠ [] := by
    simpa using hpos.ne'
  constructor
  · intro i sl hi
    simp only [Slabs.extend, List.getElem?_append] at hi
    by_cases hil : i < s.slabs.length
    · rw [if_pos hil] at hi
      rw [Function.update_of_ne hil.ne]
      exact h.slab i sl hi
    · rw [if_neg hil] at hi
      have hzero : i - s.slabs.length = 0 := by
        have hbound := (List.getElem?_eq_some_iff.mp hi).1
        rw [List.length_singleton] at hbound
        omega
      have heq : i = s.slabs.length := by omega
      rw [hzero, List.getElem?_cons_zero, Option.some.injEq] at hi
      rw [← hi, heq, Function.update_self]
      exact ⟨hndx, hholds.chain, hholds.nodup, hholds.below, hholds.length_eq, hholds.capacity_le,
        hholds.size_eq, hholds.lent⟩
  · intro i
    rw [hlen]
    change i ∈ s.partialSlabs ++ [s.slabs.length % 2 ^ 16] ↔ _
    rw [Nat.mod_eq_of_lt hfew, List.mem_append, List.mem_singleton, h.some_iff]
    by_cases hil : i = s.slabs.length
    · rw [hil, Function.update_self]
      exact iff_of_true (Or.inr rfl) ⟨Nat.lt_succ_self _, hrange⟩
    · rw [Function.update_of_ne hil]
      constructor
      · rintro (⟨hlt, hne⟩ | heq)
        · exact ⟨Nat.lt_succ_of_lt hlt, hne⟩
        · exact absurd heq hil
      · rintro ⟨hlt, hne⟩
        exact Or.inl ⟨by omega, hne⟩

theorem Holds.full_iff {s : Slabs} {free : Multiset Nat} (h : Holds s free) : s.full = true ↔ free = 0 := by
  obtain ⟨frees, htracks, rfl⟩ := h
  rw [full, decide_eq_true_iff, List.length_eq_zero_iff, List.eq_nil_iff_forall_not_mem,
    Multiset.eq_zero_iff_forall_notMem]
  constructor
  · intro hnone handle hm
    obtain ⟨i, x, hi, hx, _⟩ := mem_handles.mp hm
    exact hnone i ((htracks.some_iff i).mpr ⟨hi, List.ne_nil_of_mem hx⟩)
  · intro hnone i hi
    obtain ⟨hlt, hne⟩ := (htracks.some_iff i).mp hi
    obtain ⟨x, hx⟩ := List.exists_mem_of_ne_nil _ hne
    exact hnone _ (mem_handles.mpr ⟨i, x, hlt, hx, rfl⟩)

theorem Holds.unique {s : Slabs} {free free' : Multiset Nat} (h : Holds s free) (h' : Holds s free') :
    free = free' := by
  obtain ⟨frees, htracks, rfl⟩ := h
  obtain ⟨frees', htracks', rfl⟩ := h'
  refine congrArg _ (List.flatMap_congr (fun i hi => ?_))
  obtain ⟨sl, hget⟩ : ∃ sl, s.slabs[i]? = some sl := ⟨_, List.getElem?_eq_getElem (List.mem_range.mp hi)⟩
  have hslab := (htracks.slab i sl hget).2
  have htable : sl.allocTable.length ≤ 32768 := hslab.length_eq ▸ hslab.capacity_le
  rw [Slab.Chain.unique htable hslab.chain (htracks'.slab i sl hget).2.chain]

theorem Holds.allocate_none {s : Slabs} (h : Holds s 0) : s.allocate = .error .assertion := by
  have hfull := h.full_iff.mpr rfl
  rw [full, decide_eq_true_iff, List.length_eq_zero_iff] at hfull
  rw [allocate, hfull]

theorem Holds.allocate {s : Slabs} {free : Multiset Nat} (h : Holds s free) (hne : free ≠ 0) :
    ∃ handle rest s', s.allocate = .ok (handle, s') ∧ free = handle ::ₘ rest ∧ Holds s' rest ∧
      s'.all = s.all := by
  have hroom : s.full = false := by
    rw [← Bool.not_eq_true, h.full_iff]
    exact hne
  obtain ⟨frees, htracks, rfl⟩ := h
  obtain ⟨i, x, xs, sl, sl', s', hget, hcons, hallocate, hcap, htracks', hslabs, _⟩ := htracks.allocate hroom
  have hlt := (List.getElem?_eq_some_iff.mp hget).1
  refine ⟨handleOf i x, _, s', hallocate, ?_, ⟨_, htracks', rfl⟩, all_set hget hslabs hcap⟩
  rw [hslabs, List.length_set]
  refine Multiset.coe_eq_coe.mpr ((handles_perm hlt frees).trans ?_)
  rw [hcons]
  exact ((handles_update hlt frees xs).symm.cons _)

theorem Holds.free {s : Slabs} {free : Multiset Nat} (h : Holds s free) {handle : Nat}
    (hm : handle ∈ s.all) (hnot : handle ∉ free) :
    ∃ s', s.free handle = .ok s' ∧ Holds s' (handle ::ₘ free) ∧ s'.all = s.all := by
  obtain ⟨frees, htracks, rfl⟩ := h
  obtain ⟨i, x, sl, hget, hx, rfl⟩ := mem_all hm
  have hlt := (List.getElem?_eq_some_iff.mp hget).1
  have hxnot : x ∉ frees i := fun hin => hnot (mem_handles.mpr ⟨i, x, hlt, hin, rfl⟩)
  obtain ⟨sl', s', hfree, hcap, htracks', hslabs, _⟩ := htracks.free hget hx hxnot
  refine ⟨s', hfree, ⟨_, htracks', ?_⟩, all_set hget hslabs hcap⟩
  rw [hslabs, List.length_set]
  refine Multiset.coe_eq_coe.mpr (List.Perm.trans ?_ (handles_update hlt frees _).symm)
  exact (handles_perm hlt frees).cons _

def ofCapacities (capacities : List Nat) : Slabs :=
  capacities.foldl (fun s capacity => s.extend (Slab.ofCapacity capacity)) {}

structure Fresh (s : Slabs) (total : Nat) : Prop where
  holds : Holds s s.all
  slabNdx : s.slabNdx = s.slabs.length % 2 ^ 16
  nodup : s.all.Nodup
  card : s.all.card = total
  capacity_le : ∀ sl ∈ s.slabs, sl.capacity ≤ 32768

theorem all_extend (s : Slabs) (slab : Slab) :
    (s.extend slab).all = s.all + ((List.range slab.capacity).map (handleOf s.slabs.length) : List Nat) := by
  have hlast : (s.slabs ++ [{ slab with slabNdx := s.slabNdx }])[s.slabs.length]? =
      some { slab with slabNdx := s.slabNdx } := by simp
  have hlen : (s.extend slab).slabs.length = s.slabs.length + 1 := by simp [extend]
  rw [all, hlen, handles, List.range_succ, List.flatMap_append, ← Multiset.coe_add]
  refine congrArg₂ _ (congrArg _ (List.flatMap_congr (fun i hi => ?_))) ?_
  · have hi := List.mem_range.mp hi
    simp only [extend, List.getElem?_append_left hi]
  · simp [extend]

theorem Fresh.extend {s : Slabs} {total capacity : Nat} (h : Fresh s total) (hpos : 0 < capacity)
    (hle : capacity ≤ 32768) (hfew : s.slabs.length < 2 ^ 16) :
    Fresh (s.extend (Slab.ofCapacity capacity)) (total + capacity) := by
  obtain ⟨⟨frees, htracks, hall⟩, hndx, hnodup, hcard, hcap⟩ := h
  have hsame : s.slabNdx = s.slabs.length := hndx.trans (Nat.mod_eq_of_lt hfew)
  have hlen : (s.extend (Slab.ofCapacity capacity)).slabs.length = s.slabs.length + 1 := by
    simp [Slabs.extend]
  have hnew := htracks.extend hsame hpos hle hfew
  have hall' := all_extend s (Slab.ofCapacity capacity)
  refine ⟨⟨_, hnew, ?_⟩, ?_, ?_, ?_, ?_⟩
  · rw [hall', hall, hlen, handles, handles, List.range_succ, List.flatMap_append, ← Multiset.coe_add]
    refine congrArg₂ _ (congrArg _ (List.flatMap_congr (fun i hi => ?_))) ?_
    · rw [Function.update_of_ne (List.mem_range.mp hi).ne]
    · simp [Slab.ofCapacity]
  · rw [hlen]
    change (s.slabNdx + 1) % 2 ^ 16 = _
    rw [hsame]
  · rw [hall', Multiset.nodup_add]
    refine ⟨hnodup, ?_, ?_⟩
    · refine Multiset.coe_nodup.mpr (List.Nodup.map_on (fun x hx y hy hxy => ?_) List.nodup_range)
      have hx : x < capacity := List.mem_range.mp hx
      have hy : y < capacity := List.mem_range.mp hy
      rw [handleOf_eq _ (by omega), handleOf_eq _ (by omega)] at hxy
      omega
    · refine Multiset.disjoint_left.mpr ?_
      intro handle hm hm'
      obtain ⟨i, x, sl, hi, hx, rfl⟩ := mem_all hm
      obtain ⟨y, hy, hxy⟩ := List.mem_map.mp (Multiset.mem_coe.mp hm')
      have hy : y < capacity := List.mem_range.mp hy
      have hslcap := hcap sl (List.mem_of_getElem? hi)
      have hil := (List.getElem?_eq_some_iff.mp hi).1
      rw [handleOf_eq _ (by omega), handleOf_eq _ (by omega)] at hxy
      omega
  · rw [hall', Multiset.card_add, hcard]
    simp [Slab.ofCapacity]
  · intro sl hsl
    simp only [Slabs.extend, List.mem_append, List.mem_singleton] at hsl
    rcases hsl with hsl | rfl
    · exact hcap sl hsl
    · exact hle

theorem fresh_empty : Fresh {} 0 := by
  refine ⟨⟨fun _ => [], ⟨fun i sl hi => ?_, fun i => ?_⟩, rfl⟩, rfl, List.nodup_nil, rfl, fun sl hsl => ?_⟩
  · exact absurd hi (by simp)
  · simp
  · exact absurd hsl List.not_mem_nil

theorem fresh_ofCapacities (capacities : List Nat) (hcap : ∀ n ∈ capacities, 0 < n ∧ n ≤ 32768)
    (hfew : capacities.length ≤ 2 ^ 16) : Fresh (ofCapacities capacities) capacities.sum := by
  have hgen : ∀ (rest : List Nat) (s : Slabs) (total : Nat), Fresh s total →
      (∀ n ∈ rest, 0 < n ∧ n ≤ 32768) → s.slabs.length + rest.length ≤ 2 ^ 16 →
      Fresh (rest.foldl (fun s capacity => s.extend (Slab.ofCapacity capacity)) s) (total + rest.sum) := by
    intro rest
    induction rest with
    | nil => exact fun s total h _ _ => h
    | cons n rest ih =>
        intro s total h hrest hlen
        rw [List.length_cons] at hlen
        obtain ⟨hpos, hle⟩ := hrest n (List.mem_cons_self ..)
        rw [List.foldl_cons, List.sum_cons, ← Nat.add_assoc]
        refine ih _ _ (h.extend hpos hle (by omega)) (fun m hm => hrest m (List.mem_cons_of_mem _ hm)) ?_
        simp only [Slabs.extend, List.length_append, List.length_singleton]
        omega
  have hall := hgen capacities {} 0 fresh_empty hcap (by simpa using hfew)
  rwa [Nat.zero_add] at hall

end Slabs

end Tyrdbs
