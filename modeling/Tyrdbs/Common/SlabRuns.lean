import Tyrdbs.Library.Runs
import Tyrdbs.Common.Slabs
import Mathlib.Data.Finset.Basic

namespace Tyrdbs.Slabs

open Runs Outcome
open Slab (Fault)

inductive Op
  | extend (capacity : Nat)
  | allocate
  | free (handle : Nat)

/-- A pool and the handles its callers hold, which it does not record. -/
structure State where
  pool : Slabs := {}
  live : Finset Nat := ∅

def State.attempt (s : State) : Op → Except Fault State
  | .extend capacity => .ok { s with pool := s.pool.extend (Slab.ofCapacity capacity) }
  | .allocate => do
      let (handle, pool) ← s.pool.allocate
      return { pool := pool, live := insert handle s.live }
  | .free handle => do
      let pool ← s.pool.free handle
      return { pool := pool, live := s.live.erase handle }

/-- Slab indices take sixteen bits. -/
def Op.Allowed (s : State) : Op → Prop
  | .extend capacity => 0 < capacity ∧ capacity ≤ 32768 ∧ s.pool.slabs.length < 2 ^ 16
  | .allocate => s.pool.full = false
  | .free handle => handle ∈ s.live

instance (s : State) (op : Op) : Decidable (op.Allowed s) :=
  match op with
  | .extend capacity =>
      (inferInstance : Decidable (0 < capacity ∧ capacity ≤ 32768 ∧ s.pool.slabs.length < 2 ^ 16))
  | .allocate => (inferInstance : Decidable (s.pool.full = false))
  | .free handle => (inferInstance : Decidable (handle ∈ s.live))

def Step (s : State) (op : Op) (s' : State) : Prop := op.Allowed s ∧ s.attempt op = .ok s'

def State.apply (s : State) (op : Op) : Option State :=
  if op.Allowed s then (s.attempt op).toOption else none

theorem State.step_of_apply {s s' : State} {op : Op} (h : s.apply op = some s') : Step s op s' :=
  ok_of_toOption h

/-- Each slab is on one of the two lists, by whether it has a free entry. -/
structure Placed (s : Slabs) (frees : Nat → List Nat) : Prop where
  tracks : Tracks s frees
  full_iff : ∀ i, i ∈ s.fullSlabs ↔ i < s.slabs.length ∧ frees i = []
  partial_nodup : s.partialSlabs.Nodup
  full_nodup : s.fullSlabs.Nodup
  slabNdx : s.slabNdx = s.slabs.length % 2 ^ 16
  few : s.slabs.length ≤ 2 ^ 16

def IsLent (s : Slabs) (frees : Nat → List Nat) (i x : Nat) : Prop :=
  ∃ sl, s.slabs[i]? = some sl ∧ x < sl.capacity ∧ x ∉ frees i

/-- The handles in the callers' hands are those of the entries that are lent. -/
def Lends (s : Slabs) (live : Set Nat) : Prop :=
  ∃ frees, Placed s frees ∧ ∀ handle, handle ∈ live ↔ ∃ i x, IsLent s frees i x ∧ handleOf i x = handle

def InRange (s : Slabs) (handle : Nat) : Prop :=
  ∃ sl, s.slabs[slabIndex handle]? = some sl ∧ entryIndex handle < sl.capacity

theorem handleOf_inj {i j x y : Nat} (hx : x < 2 ^ 16) (hy : y < 2 ^ 16) (h : handleOf i x = handleOf j y) :
    i = j ∧ x = y := by
  constructor
  · rw [← slabIndex_handleOf i hx, h, slabIndex_handleOf j hy]
  · rw [← entryIndex_handleOf i hx, h, entryIndex_handleOf j hy]

section Lists

variable {s s' : Slabs} {frees : Nat → List Nat} {i : Nat} {xs : List Nat} {sl sl' : Slab}

theorem Tracks.lent_lt (h : Tracks s frees) {x : Nat} (hx : IsLent s frees i x) : x < 2 ^ 16 := by
  obtain ⟨sl, hi, hlt, _⟩ := hx
  exact h.lt hi hlt

theorem isLent_set (hi : s.slabs[i]? = some sl) (hs' : s'.slabs = s.slabs.set i sl')
    (hcap : sl'.capacity = sl.capacity) (j y : Nat) :
    IsLent s' (Function.update frees i xs) j y ↔
      if j = i then y < sl.capacity ∧ y ∉ xs else IsLent s frees j y := by
  have hlt := (List.getElem?_eq_some_iff.mp hi).1
  rw [IsLent, hs']
  by_cases hji : j = i
  · subst hji
    rw [if_pos rfl, List.getElem?_set_self hlt, Function.update_self]
    constructor
    · rintro ⟨sl'', heq, hy⟩
      rw [← Option.some.inj heq, hcap] at hy
      exact hy
    · intro hy
      exact ⟨sl', rfl, hcap ▸ hy.1, hy.2⟩
  · rw [if_neg hji, List.getElem?_set_ne (Ne.symm hji), Function.update_of_ne hji, IsLent]

theorem Placed.moveToFull (h : Placed s frees) (hi : s.slabs[i]? = some sl) (hne : frees i ≠ [])
    (htracks : Tracks (({ s with slabs := s.slabs.set i sl' } : Slabs).moveToFull i)
      (Function.update frees i [])) :
    Placed (({ s with slabs := s.slabs.set i sl' } : Slabs).moveToFull i) (Function.update frees i []) := by
  have hlt := (List.getElem?_eq_some_iff.mp hi).1
  have hnot : i ∉ s.fullSlabs := fun hm => hne ((h.full_iff i).mp hm).2
  have hlen : (s.slabs.set i sl').length = s.slabs.length := List.length_set ..
  refine ⟨htracks, fun j => ?_, h.partial_nodup.filter _, ?_, ?_, ?_⟩
  · change j ∈ s.fullSlabs ++ [i] ↔ j < (s.slabs.set i sl').length ∧ _
    rw [hlen, List.mem_append, List.mem_singleton, h.full_iff]
    by_cases hji : j = i
    · rw [hji, Function.update_self]
      exact iff_of_true (Or.inr rfl) ⟨hlt, rfl⟩
    · rw [Function.update_of_ne hji]
      exact or_iff_left hji
  · change (s.fullSlabs ++ [i]).Nodup
    rw [← List.concat_eq_append]
    exact h.full_nodup.concat hnot
  · exact h.slabNdx.trans (congrArg (· % 2 ^ 16) hlen.symm)
  · exact hlen.trans_le h.few

theorem Placed.moveToPartial (h : Placed s frees) (hi : s.slabs[i]? = some sl) (hnil : frees i = [])
    (hxs : xs ≠ []) (htracks : Tracks (({ s with slabs := s.slabs.set i sl' } : Slabs).moveToPartial i)
      (Function.update frees i xs)) :
    Placed (({ s with slabs := s.slabs.set i sl' } : Slabs).moveToPartial i) (Function.update frees i xs) := by
  have hlt := (List.getElem?_eq_some_iff.mp hi).1
  have hnot : i ∉ s.partialSlabs := fun hm => ((h.tracks.some_iff i).mp hm).2 hnil
  have hlen : (s.slabs.set i sl').length = s.slabs.length := List.length_set ..
  refine ⟨htracks, fun j => ?_, ?_, h.full_nodup.filter _, ?_, ?_⟩
  · change j ∈ s.fullSlabs.filter (· ≠ i) ↔ j < (s.slabs.set i sl').length ∧ _
    rw [hlen, List.mem_filter, decide_eq_true_iff, h.full_iff]
    by_cases hji : j = i
    · rw [hji, Function.update_self]
      exact iff_of_false (fun hm => hm.2 rfl) (fun hm => hxs hm.2)
    · rw [Function.update_of_ne hji]
      exact and_iff_left hji
  · change (s.partialSlabs ++ [i]).Nodup
    rw [← List.concat_eq_append]
    exact h.partial_nodup.concat hnot
  · exact h.slabNdx.trans (congrArg (· % 2 ^ 16) hlen.symm)
  · exact hlen.trans_le h.few

theorem Placed.stay (h : Placed s frees) (hiff : xs = [] ↔ frees i = [])
    (htracks : Tracks { s with slabs := s.slabs.set i sl' } (Function.update frees i xs)) :
    Placed { s with slabs := s.slabs.set i sl' } (Function.update frees i xs) := by
  have hlen : (s.slabs.set i sl').length = s.slabs.length := List.length_set ..
  refine ⟨htracks, fun j => ?_, h.partial_nodup, h.full_nodup, ?_, ?_⟩
  · change j ∈ s.fullSlabs ↔ j < (s.slabs.set i sl').length ∧ _
    rw [hlen, h.full_iff]
    by_cases hji : j = i
    · rw [hji, Function.update_self, hiff]
    · rw [Function.update_of_ne hji]
  · exact h.slabNdx.trans (congrArg (· % 2 ^ 16) hlen.symm)
  · exact hlen.trans_le h.few

end Lists

section Operations

variable {s : Slabs} {live : Set Nat}

theorem Lends.allocate (h : Lends s live) (hfull : s.full = false) :
    ∃ handle s', s.allocate = .ok (handle, s') ∧ handle ∉ live ∧ InRange s handle ∧
      Lends s' (insert handle live) := by
  obtain ⟨frees, hplaced, hlive⟩ := h
  obtain ⟨i, x, xs, sl, sl', s', hi, hcons, hallocate, hcap, htracks, hslabs, hs'⟩ :=
    hplaced.tracks.allocate hfull
  obtain ⟨_, hholds⟩ := hplaced.tracks.slab i sl hi
  have hmem : x ∈ frees i := hcons ▸ List.mem_cons_self ..
  have hx : x < sl.capacity := hholds.below x hmem
  have hx16 := hplaced.tracks.lt hi hx
  have hnodup := List.nodup_cons.mp (hcons ▸ hholds.nodup)
  have hplaced' : Placed s' (Function.update frees i xs) := by
    by_cases hnil : xs = []
    · subst hnil
      rw [if_pos rfl] at hs'
      rw [hs'] at htracks ⊢
      exact hplaced.moveToFull hi (hcons ▸ List.cons_ne_nil _ _) htracks
    · rw [if_neg hnil] at hs'
      rw [hs'] at htracks ⊢
      exact hplaced.stay (iff_of_false hnil (hcons ▸ List.cons_ne_nil _ _)) htracks
  refine ⟨handleOf i x, s', hallocate, fun hm => ?_, ?_, _, hplaced', fun handle => ?_⟩
  · obtain ⟨j, y, hlent, heq⟩ := (hlive _).mp hm
    obtain ⟨rfl, rfl⟩ := handleOf_inj (hplaced.tracks.lent_lt hlent) hx16 heq
    obtain ⟨_, _, _, hnot⟩ := hlent
    exact hnot hmem
  · refine ⟨sl, ?_, ?_⟩
    · rw [slabIndex_handleOf i hx16]
      exact hi
    · rw [entryIndex_handleOf i hx16]
      exact hx
  · rw [Set.mem_insert_iff, hlive]
    constructor
    · rintro (rfl | ⟨j, y, hlent, rfl⟩)
      · exact ⟨i, x, (isLent_set hi hslabs hcap i x).mpr (by rw [if_pos rfl]; exact ⟨hx, hnodup.1⟩), rfl⟩
      · refine ⟨j, y, (isLent_set hi hslabs hcap j y).mpr ?_, rfl⟩
        by_cases hji : j = i
        · subst hji
          obtain ⟨sl'', hj, hy, hnot⟩ := hlent
          rw [hi, Option.some.injEq] at hj
          rw [if_pos rfl, hj]
          exact ⟨hy, fun hin => hnot (hcons ▸ List.mem_cons_of_mem _ hin)⟩
        · rw [if_neg hji]
          exact hlent
    · rintro ⟨j, y, hlent, rfl⟩
      rw [isLent_set hi hslabs hcap] at hlent
      by_cases hji : j = i
      · subst hji
        rw [if_pos rfl] at hlent
        by_cases hyx : y = x
        · exact Or.inl (by rw [hyx])
        · refine Or.inr ⟨j, y, ⟨sl, hi, hlent.1, fun hin => ?_⟩, rfl⟩
          rw [hcons] at hin
          exact (List.mem_cons.mp hin).elim hyx hlent.2
      · rw [if_neg hji] at hlent
        exact Or.inr ⟨j, y, hlent, rfl⟩

theorem Lends.free (h : Lends s live) {handle : Nat} (hm : handle ∈ live) :
    ∃ s', s.free handle = .ok s' ∧ Lends s' (live \ {handle}) := by
  obtain ⟨frees, hplaced, hlive⟩ := h
  obtain ⟨i, x, hlent, rfl⟩ := (hlive _).mp hm
  have hx16 := hplaced.tracks.lent_lt hlent
  obtain ⟨sl, hi, hx, hnot⟩ := hlent
  obtain ⟨sl', s', hfree, hcap, htracks, hslabs, hs'⟩ := hplaced.tracks.free hi hx hnot
  have hplaced' : Placed s' (Function.update frees i (x :: frees i)) := by
    by_cases hnil : frees i = []
    · rw [if_pos hnil] at hs'
      rw [hs'] at htracks ⊢
      exact hplaced.moveToPartial hi hnil (List.cons_ne_nil _ _) htracks
    · rw [if_neg hnil] at hs'
      rw [hs'] at htracks ⊢
      exact hplaced.stay (iff_of_false (List.cons_ne_nil _ _) hnil) htracks
  refine ⟨s', hfree, _, hplaced', fun handle => ?_⟩
  rw [Set.mem_sdiff, Set.mem_singleton_iff, hlive]
  constructor
  · rintro ⟨⟨j, y, hlent, rfl⟩, hne⟩
    refine ⟨j, y, (isLent_set hi hslabs hcap j y).mpr ?_, rfl⟩
    by_cases hji : j = i
    · subst hji
      obtain ⟨sl'', hj, hy, hout⟩ := hlent
      rw [hi, Option.some.injEq] at hj
      rw [if_pos rfl, hj]
      refine ⟨hy, fun hin => ?_⟩
      exact (List.mem_cons.mp hin).elim (fun heq => hne (heq ▸ rfl)) hout
    · rw [if_neg hji]
      exact hlent
  · rintro ⟨j, y, hlent, rfl⟩
    have hy16 := htracks.lent_lt hlent
    rw [isLent_set hi hslabs hcap] at hlent
    by_cases hji : j = i
    · subst hji
      rw [if_pos rfl, List.mem_cons, not_or] at hlent
      refine ⟨⟨j, y, ⟨sl, hi, hlent.1, hlent.2.2⟩, rfl⟩, fun heq => hlent.2.1 ?_⟩
      exact (handleOf_inj hy16 hx16 heq).2
    · rw [if_neg hji] at hlent
      exact ⟨⟨j, y, hlent, rfl⟩, fun heq => hji (handleOf_inj hy16 hx16 heq).1⟩

theorem Lends.get (h : Lends s live) {handle : Nat} (hm : handle ∈ live) : s.get handle = .ok () := by
  obtain ⟨frees, hplaced, hlive⟩ := h
  obtain ⟨i, x, hlent, rfl⟩ := (hlive _).mp hm
  have hx16 := hplaced.tracks.lent_lt hlent
  obtain ⟨sl, hi, hx, hnot⟩ := hlent
  obtain ⟨_, hholds⟩ := hplaced.tracks.slab i sl hi
  rw [Slabs.get, slabIndex_handleOf i hx16, entryIndex_handleOf i hx16, hi]
  change sl.get x = _
  rw [Slab.get, check_of hx, ok_bind, check_of (hholds.lent x hx hnot)]

theorem Lends.lt (h : Lends s live) {handle : Nat} (hm : handle ∈ live) : handle < 2 ^ 32 - 1 := by
  obtain ⟨frees, hplaced, hlive⟩ := h
  obtain ⟨i, x, ⟨sl, hi, hx, _⟩, rfl⟩ := (hlive _).mp hm
  have hfew := hplaced.few
  have hilt := (List.getElem?_eq_some_iff.mp hi).1
  have hcap := (hplaced.tracks.slab i sl hi).2.capacity_le
  rw [handleOf_eq i (by omega)]
  omega

theorem Lends.extend (h : Lends s live) {capacity : Nat} (hpos : 0 < capacity) (hle : capacity ≤ 32768)
    (hfew : s.slabs.length < 2 ^ 16) : Lends (s.extend (Slab.ofCapacity capacity)) live := by
  obtain ⟨frees, hplaced, hlive⟩ := h
  have hndx : s.slabNdx = s.slabs.length := hplaced.slabNdx.trans (Nat.mod_eq_of_lt hfew)
  have htracks := hplaced.tracks.extend hndx hpos hle hfew
  have hlen : (s.extend (Slab.ofCapacity capacity)).slabs.length = s.slabs.length + 1 := by
    simp [Slabs.extend]
  have hnot : s.slabs.length ∉ s.partialSlabs := by
    intro hm
    exact lt_irrefl _ ((hplaced.tracks.some_iff _).mp hm).1
  have hrange : List.range capacity ≠ [] := by
    simpa using hpos.ne'
  refine ⟨_, ⟨htracks, fun i => ?_, ?_, hplaced.full_nodup, ?_, ?_⟩, fun handle => ?_⟩
  · rw [hlen]
    change i ∈ s.fullSlabs ↔ _
    rw [hplaced.full_iff]
    by_cases hil : i = s.slabs.length
    · rw [hil, Function.update_self]
      exact iff_of_false (fun hm => lt_irrefl _ hm.1) (fun hm => hrange hm.2)
    · rw [Function.update_of_ne hil]
      exact and_congr_left (fun _ => by omega)
  · change (s.partialSlabs ++ [s.slabs.length % 2 ^ 16]).Nodup
    rw [Nat.mod_eq_of_lt hfew, ← List.concat_eq_append]
    exact hplaced.partial_nodup.concat hnot
  · rw [hlen]
    change (s.slabNdx + 1) % 2 ^ 16 = _
    rw [hndx]
  · rw [hlen]
    exact hfew
  · rw [hlive]
    refine exists_congr (fun i => exists_congr (fun x => and_congr_left (fun _ => ?_)))
    rw [IsLent, IsLent]
    by_cases hil : i = s.slabs.length
    · subst hil
      rw [Function.update_self]
      constructor
      · rintro ⟨sl, hi, _⟩
        exact absurd (List.getElem?_eq_some_iff.mp hi).1 (lt_irrefl _)
      · rintro ⟨sl, hi, hx, hout⟩
        have hsl : sl.capacity = capacity := by
          simp only [Slabs.extend, List.getElem?_concat_length, Option.some.injEq] at hi
          exact hi ▸ rfl
        exact absurd (List.mem_range.mpr (hsl ▸ hx)) hout
    · have hsame : (s.extend (Slab.ofCapacity capacity)).slabs[i]? = s.slabs[i]? := by
        simp only [Slabs.extend, List.getElem?_append]
        by_cases hlt : i < s.slabs.length
        · rw [if_pos hlt]
        · rw [if_neg hlt, List.getElem?_eq_none (by simp; omega), List.getElem?_eq_none (by omega)]
      rw [Function.update_of_ne hil, hsame]

theorem lends_empty : Lends {} ∅ := by
  refine ⟨fun _ => [], ⟨⟨fun i sl hi => ?_, fun i => ?_⟩, fun i => ?_, List.nodup_nil, List.nodup_nil,
    rfl, Nat.zero_le _⟩, fun handle => ?_⟩
  · exact absurd hi (by simp)
  · simp
  · simp
  · refine iff_of_false (Set.notMem_empty _) ?_
    rintro ⟨i, x, ⟨sl, hi, _⟩, _⟩
    exact absurd hi (by simp)

theorem Lends.slab_full (h : Lends s live) {i : Nat} {sl : Slab} (hi : s.slabs[i]? = some sl) :
    (i ∈ s.fullSlabs ↔ sl.full = true) ∧ (sl.full = true ↔ ∀ x < sl.capacity, handleOf i x ∈ live) := by
  obtain ⟨frees, hplaced, hlive⟩ := h
  obtain ⟨_, hholds⟩ := hplaced.tracks.slab i sl hi
  rw [hplaced.full_iff, hholds.full_iff]
  refine ⟨and_iff_right (List.getElem?_eq_some_iff.mp hi).1, fun hnil x hx => ?_, fun hall => ?_⟩
  · exact (hlive _).mpr ⟨i, x, ⟨sl, hi, hx, hnil ▸ List.not_mem_nil⟩, rfl⟩
  · refine List.eq_nil_iff_forall_not_mem.mpr (fun x hx => ?_)
    have hlt := hholds.below x hx
    obtain ⟨j, y, hlent, heq⟩ := (hlive _).mp (hall x hlt)
    obtain ⟨rfl, rfl⟩ := handleOf_inj (hplaced.tracks.lent_lt hlent) (hplaced.tracks.lt hi hlt) heq
    obtain ⟨_, _, _, hnot⟩ := hlent
    exact hnot hx

/-- Past its last slab index a full pool cannot grow: the slab that is added
passes for the first one. -/
theorem Lends.allocate_extend (h : Lends s live) (hfull : s.full = true) (hmany : 2 ^ 16 ≤ s.slabs.length)
    (slab : Slab) : (s.extend slab).allocate = .error .assertion := by
  obtain ⟨frees, hplaced, _⟩ := h
  have hlen : s.slabs.length = 2 ^ 16 := le_antisymm hplaced.few hmany
  have hnil : s.partialSlabs = [] := by
    rwa [full, decide_eq_true_iff, List.length_eq_zero_iff] at hfull
  have hpos : 0 < s.slabs.length := by omega
  have hget : s.slabs[0]? = some s.slabs[0] := List.getElem?_eq_getElem hpos
  have hnone : frees 0 = [] := by
    by_contra hne
    exact List.not_mem_nil (hnil ▸ (hplaced.tracks.some_iff 0).mpr ⟨hpos, hne⟩)
  have hslab : s.slabs[0].full = true := (hplaced.tracks.slab 0 _ hget).2.full_iff.mpr hnone
  have hfirst : (s.slabs ++ [{ slab with slabNdx := s.slabNdx }])[0]? = some s.slabs[0] := by
    rw [List.getElem?_append_left hpos, hget]
  rw [Slabs.allocate, Slabs.extend]
  simp only [hnil, hlen, List.nil_append, Nat.mod_self, hfirst]
  rw [check_of_not (by simp [hslab])]
  rfl

theorem Lends.perm_range (h : Lends s live) :
    (s.partialSlabs ++ s.fullSlabs).Perm (List.range s.slabs.length) := by
  obtain ⟨frees, hplaced, _⟩ := h
  refine (List.perm_ext_iff_of_nodup ?_ List.nodup_range).mpr (fun i => ?_)
  · rw [List.nodup_append]
    refine ⟨hplaced.partial_nodup, hplaced.full_nodup, fun a ha b hb hab => ?_⟩
    rw [← hab] at hb
    exact ((hplaced.tracks.some_iff a).mp ha).2 ((hplaced.full_iff a).mp hb).2
  · rw [List.mem_append, List.mem_range, hplaced.tracks.some_iff, hplaced.full_iff]
    tauto

theorem Lends.full_iff (h : Lends s live) :
    s.full = true ↔ ∀ i sl, s.slabs[i]? = some sl → ∀ x < sl.capacity, handleOf i x ∈ live := by
  have hperm := h.perm_range
  have hempty : s.full = true ↔ s.partialSlabs = [] := by
    rw [full, decide_eq_true_iff, List.length_eq_zero_iff]
  rw [hempty]
  constructor
  · intro hnil i sl hi
    rw [hnil, List.nil_append] at hperm
    have hm := hperm.mem_iff.mpr (List.mem_range.mpr (List.getElem?_eq_some_iff.mp hi).1)
    exact (h.slab_full hi).2.mp ((h.slab_full hi).1.mp hm)
  · intro hall
    refine List.eq_nil_iff_forall_not_mem.mpr (fun i hm => ?_)
    have hlt := List.mem_range.mp (hperm.mem_iff.mp (List.mem_append_left _ hm))
    have hi : s.slabs[i]? = some s.slabs[i] := List.getElem?_eq_getElem hlt
    have hfull := (h.slab_full hi).1.mpr ((h.slab_full hi).2.mpr (hall i _ hi))
    have hnodup := hperm.nodup_iff.mpr List.nodup_range
    exact (List.nodup_append.mp hnodup).2.2 i hm i hfull rfl

end Operations

/-- What a pool does for the callers that hold the live handles. -/
structure Sound (s : State) : Prop where
  allocates : s.pool.full = false →
    ∃ handle pool, s.pool.allocate = .ok (handle, pool) ∧ handle ∉ s.live ∧ InRange s.pool handle
  frees : ∀ handle ∈ s.live, ∃ pool, s.pool.free handle = .ok pool
  full_iff : s.pool.full = true ↔
    ∀ i sl, s.pool.slabs[i]? = some sl → ∀ x < sl.capacity, handleOf i x ∈ s.live
  placed : (s.pool.partialSlabs ++ s.pool.fullSlabs).Perm (List.range s.pool.slabs.length)
  slab_full : ∀ i sl, s.pool.slabs[i]? = some sl → (i ∈ s.pool.fullSlabs ↔ sl.full = true) ∧
    (sl.full = true ↔ ∀ x < sl.capacity, handleOf i x ∈ s.live)

theorem Lends.sound {s : State} (h : Lends s.pool s.live) : Sound s where
  allocates hfull := by
    obtain ⟨handle, pool, hallocate, hnot, hrange, _⟩ := h.allocate hfull
    exact ⟨handle, pool, hallocate, hnot, hrange⟩
  frees handle hm := by
    obtain ⟨pool, hfree, _⟩ := h.free hm
    exact ⟨pool, hfree⟩
  full_iff := h.full_iff
  placed := h.perm_range
  slab_full _ _ hi := h.slab_full hi

theorem Lends.step {s s' : State} {op : Op} (h : Lends s.pool s.live) (hs : Step s op s') :
    Lends s'.pool s'.live := by
  obtain ⟨hallowed, hattempt⟩ := hs
  cases op with
  | extend capacity =>
      obtain ⟨hpos, hle, hfew⟩ := hallowed
      cases hattempt
      exact h.extend hpos hle hfew
  | allocate =>
      obtain ⟨handle, pool, hallocate, _, _, hlends⟩ := h.allocate hallowed
      rw [State.attempt, hallocate, ok_bind] at hattempt
      cases hattempt
      rw [Finset.coe_insert]
      exact hlends
  | free handle =>
      obtain ⟨pool, hfree, hlends⟩ := h.free hallowed
      rw [State.attempt, hfree, ok_bind] at hattempt
      cases hattempt
      rw [Finset.coe_erase]
      exact hlends

/-- No allocation returns a handle that is in a caller's hands. -/
theorem run_sound {ts : List (State × Op × State)} {s : State} (h : Run Step {} ts s) : Sound s := by
  refine Lends.sound (h.invariant (fun s => Lends s.pool s.live) ?_ (fun _ _ _ hinv hs => hinv.step hs))
  rw [Finset.coe_empty]
  exact lends_empty

/-- Three entries of two slabs are lent, and two of them come back. -/
def lendAndReturn : List Op :=
  [.extend 2, .extend 1, .allocate, .allocate, .allocate, .free 1, .free 65536, .allocate]

theorem run_sound_returned : ∃ ts s, Run Step {} ts s ∧ s.live = {0, 1} ∧ Sound s := by
  have hends : (follow State.apply {} lendAndReturn).any (fun r => r.2.live = {0, 1}) = true := by decide
  obtain ⟨⟨ts, s⟩, hfollow, hlive⟩ := (Option.any_eq_true _ _).mp hends
  have hrun := run_follow State.apply (fun _ _ _ => State.step_of_apply) _ _ hfollow
  exact ⟨ts, s, hrun, of_decide_eq_true hlive, run_sound hrun⟩

end Tyrdbs.Slabs
