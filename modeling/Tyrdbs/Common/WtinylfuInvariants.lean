import Tyrdbs.Common.Wtinylfu
import Mathlib.Data.List.Nodup
import Mathlib.Data.List.Perm.Basic

namespace Tyrdbs.Wtinylfu

open Outcome

variable {Key Item : Type}

/-- The map, the elements and the three lists tell the same story. -/
structure Linked (c : Wtinylfu Key Item) : Prop where
  nodup : ∀ l, (c.lru l).list.Nodup
  tagged : ∀ l, ∀ it ∈ (c.lru l).list, ∃ e, c.nodes it = some e ∧ e.location = l
  listed : ∀ it e, c.nodes it = some e → it ∈ (c.lru e.location).list
  mapped : ∀ it e, c.nodes it = some e → c.map e.key = some it
  pointed : ∀ k it, c.map k = some it → ∃ e, c.nodes it = some e ∧ e.key = k
  counted : ∀ l, (c.lru l).items = (c.lru l).list.length
  below : ∀ it e, c.nodes it = some e → it < c.fresh

/-- Counters never wrap, even where a list holds one item too many. -/
def Roomy (c : Wtinylfu Key Item) : Prop := ∀ l, 0 < (c.lru l).maxItems ∧ (c.lru l).maxItems + 2 < 2 ^ 32

structure Consistent (c : Wtinylfu Key Item) : Prop extends Linked c where
  roomy : Roomy c
  bounded : ∀ l, (c.lru l).items ≤ (c.lru l).maxItems

structure SameBounds (c c' : Wtinylfu Key Item) : Prop where
  emptyItem : c'.emptyItem = c.emptyItem
  maxItems : ∀ l, (c'.lru l).maxItems = (c.lru l).maxItems

theorem SameBounds.refl (c : Wtinylfu Key Item) : SameBounds c c := ⟨rfl, fun _ => rfl⟩

theorem SameBounds.trans {c c' c'' : Wtinylfu Key Item} (h : SameBounds c c') (h' : SameBounds c' c'') :
    SameBounds c c'' :=
  ⟨h'.emptyItem.trans h.emptyItem, fun l => (h'.maxItems l).trans (h.maxItems l)⟩

theorem SameBounds.roomy {c c' : Wtinylfu Key Item} (h : SameBounds c c') (hr : Roomy c) : Roomy c' :=
  fun l => by rw [h.maxItems l]; exact hr l

def all (c : Wtinylfu Key Item) : List Nat :=
  (c.lru .window).list ++ (c.lru .mainA1).list ++ (c.lru .mainA2).list

def pair (c : Wtinylfu Key Item) (it : Nat) : Option (Key × Item) :=
  (c.nodes it).map (fun e => (e.key, e.item))

def residents (c : Wtinylfu Key Item) : Multiset (Key × Item) := c.all.filterMap c.pair

theorem mem_all {c : Wtinylfu Key Item} {it : Nat} : it ∈ c.all ↔ ∃ l, it ∈ (c.lru l).list := by
  simp only [all, List.mem_append]
  constructor
  · rintro ((h | h) | h)
    · exact ⟨_, h⟩
    · exact ⟨_, h⟩
    · exact ⟨_, h⟩
  · rintro ⟨l, h⟩
    cases l with
    | window => exact Or.inl (Or.inl h)
    | mainA1 => exact Or.inl (Or.inr h)
    | mainA2 => exact Or.inr h

namespace Linked

variable {c : Wtinylfu Key Item}

theorem location_unique (h : Linked c) {l : Location} {it : Nat} {e : Entry Key Item}
    (hm : it ∈ (c.lru l).list) (he : c.nodes it = some e) : e.location = l := by
  obtain ⟨e', he', hl⟩ := h.tagged l it hm
  rw [he, Option.some.injEq] at he'
  rw [he', hl]

theorem mem_list_iff (h : Linked c) {l : Location} {it : Nat} {e : Entry Key Item}
    (he : c.nodes it = some e) : it ∈ (c.lru l).list ↔ e.location = l :=
  ⟨fun hm => h.location_unique hm he, fun hl => hl ▸ h.listed it e he⟩

theorem disjoint (h : Linked c) {l l' : Location} (hne : l ≠ l') :
    List.Disjoint (c.lru l).list (c.lru l').list := by
  intro it hm hm'
  obtain ⟨e, he, hl⟩ := h.tagged l it hm
  exact hne (hl.symm.trans (h.location_unique hm' he))

theorem all_nodup (h : Linked c) : c.all.Nodup := by
  have h12 : (c.lru .window).list.Disjoint (c.lru .mainA1).list := h.disjoint (by decide)
  have h13 : (c.lru .window).list.Disjoint (c.lru .mainA2).list := h.disjoint (by decide)
  have h23 : (c.lru .mainA1).list.Disjoint (c.lru .mainA2).list := h.disjoint (by decide)
  refine List.Nodup.append (List.Nodup.append (h.nodup _) (h.nodup _) h12) (h.nodup _) ?_
  exact List.disjoint_append_left.mpr ⟨h13, h23⟩

theorem mem_all_of (h : Linked c) {it : Nat} {e : Entry Key Item} (he : c.nodes it = some e) : it ∈ c.all :=
  mem_all.mpr ⟨_, h.listed it e he⟩

theorem mem_residents (h : Linked c) {k : Key} {x : Item} :
    (k, x) ∈ c.residents ↔ ∃ it e, c.map k = some it ∧ c.nodes it = some e ∧ e.item = x := by
  rw [residents, Multiset.mem_coe, List.mem_filterMap]
  constructor
  · rintro ⟨it, _, hp⟩
    obtain ⟨e, he, hpair⟩ := Option.map_eq_some_iff.mp hp
    obtain ⟨rfl, rfl⟩ := Prod.mk.injEq .. ▸ hpair
    exact ⟨it, e, h.mapped it e he, he, rfl⟩
  · rintro ⟨it, e, hk, he, rfl⟩
    obtain ⟨e', he', rfl⟩ := h.pointed k it hk
    rw [he, Option.some.injEq] at he'
    exact ⟨it, h.mem_all_of he, by rw [pair, he, he', Option.map_some]⟩

theorem items_pos (h : Linked c) {it : Nat} {e : Entry Key Item} (he : c.nodes it = some e) :
    0 < (c.lru e.location).items := by
  rw [h.counted]
  exact List.length_pos_of_mem (h.listed it e he)

end Linked

section Moves

variable (c : Wtinylfu Key Item) (l source : Location) (it : Nat)

theorem lruMove_list (k : Location) : ((c.lruMove l it source).lru k).list =
    if k = l then it :: (if k = source then (c.lru k).list.erase it else (c.lru k).list)
    else if k = source then (c.lru k).list.erase it else (c.lru k).list := by
  simp only [lruMove, modify, Function.update_apply]
  by_cases hl : k = l <;> by_cases hs : k = source <;> by_cases hls : l = source <;> grind

theorem lruMove_maxItems (k : Location) : ((c.lruMove l it source).lru k).maxItems = (c.lru k).maxItems := by
  simp only [lruMove, modify, Function.update_apply]
  grind

theorem lruMove_items (k : Location) (hs : 0 < (c.lru source).items)
    (hb : ∀ l, (c.lru l).items + 1 < 2 ^ 32) : ((c.lruMove l it source).lru k).items =
    if l = source then (c.lru k).items
    else if k = l then (c.lru k).items + 1
    else if k = source then (c.lru k).items - 1 else (c.lru k).items := by
  have hsb := hb source
  have hlb := hb l
  simp only [lruMove, modify, Function.update_apply, u32]
  grind

theorem lruMove_all_perm (hm : it ∈ (c.lru source).list) : (c.lruMove l it source).all.Perm c.all := by
  have hpos : 0 < (c.lru source).list.count it := List.count_pos_iff.mpr hm
  refine List.perm_iff_count.mpr (fun a => ?_)
  simp only [all, List.count_append, lruMove_list]
  by_cases ha : a = it
  · subst ha
    cases l <;> cases source <;> simp <;> omega
  · have hne : it ≠ a := Ne.symm ha
    cases l <;> cases source <;> simp [List.count_cons_of_ne hne, List.count_erase_of_ne ha]

end Moves

/-- An element changes lists: its location is written and it moves to the
front of the other list. -/
def relocate (c : Wtinylfu Key Item) (it : Nat) (l source : Location) : Wtinylfu Key Item :=
  (c.setLocation it l).lruMove l it source

section Relocation

variable {c : Wtinylfu Key Item} {it : Nat} {e : Entry Key Item}

theorem setLocation_self (he : c.nodes it = some e) : c.setLocation it e.location = c := by
  have hsame : (c.nodes it).map (fun e' => { e' with location := e.location }) = c.nodes it := by
    rw [he]
    rfl
  rw [setLocation, hsame, Function.update_eq_self]

theorem relocate_nodes (he : c.nodes it = some e) (l source : Location) (k : Nat) :
    (c.relocate it l source).nodes k = if k = it then some { e with location := l } else c.nodes k := by
  change Function.update c.nodes it ((c.nodes it).map (fun e => { e with location := l })) k = _
  rw [he, Function.update_apply]
  rfl

theorem relocate_pair (l source : Location) : (c.relocate it l source).pair = c.pair := by
  funext k
  change (Function.update c.nodes it ((c.nodes it).map (fun e => { e with location := l })) k).map _ = _
  by_cases hk : k = it
  · subst hk
    rw [Function.update_self, Option.map_map]
    rfl
  · rw [Function.update_of_ne hk]
    rfl

theorem relocate_residents (h : Linked c) (he : c.nodes it = some e) (l : Location) :
    (c.relocate it l e.location).residents = c.residents := by
  have hperm : (c.relocate it l e.location).all.Perm c.all :=
    lruMove_all_perm (c.setLocation it l) l e.location it (h.listed it e he)
  rw [residents, residents, relocate_pair]
  exact Multiset.coe_eq_coe.mpr (hperm.filterMap _)

theorem relocate_sameBounds (l source : Location) : SameBounds c (c.relocate it l source) :=
  ⟨rfl, lruMove_maxItems (c.setLocation it l) l source it⟩

theorem relocate_list (l source k : Location) : ((c.relocate it l source).lru k).list =
    if k = l then it :: (if k = source then (c.lru k).list.erase it else (c.lru k).list)
    else if k = source then (c.lru k).list.erase it else (c.lru k).list :=
  lruMove_list (c.setLocation it l) l source it k

theorem mem_relocate_list (h : Linked c) (he : c.nodes it = some e) (l k : Location) (a : Nat) :
    a ∈ ((c.relocate it l e.location).lru k).list ↔ if a = it then k = l else a ∈ (c.lru k).list := by
  have hnodup := h.nodup k
  have hit : it ∈ (c.lru k).list ↔ e.location = k := h.mem_list_iff he
  rw [relocate_list]
  by_cases ha : a = it
  · rw [if_pos ha, ha]
    by_cases hk : k = l
    · rw [if_pos hk]
      exact iff_of_true (List.mem_cons_self ..) hk
    · rw [if_neg hk]
      refine iff_of_false ?_ hk
      by_cases hks : k = e.location
      · rw [if_pos hks]
        exact hnodup.not_mem_erase
      · rw [if_neg hks, hit]
        exact fun heq => hks heq.symm
  · rw [if_neg ha]
    by_cases hk : k = l <;> by_cases hks : k = e.location
    · rw [if_pos hk, if_pos hks, List.mem_cons, List.mem_erase_of_ne ha, or_iff_right ha]
    · rw [if_pos hk, if_neg hks, List.mem_cons, or_iff_right ha]
    · rw [if_neg hk, if_pos hks, List.mem_erase_of_ne ha]
    · rw [if_neg hk, if_neg hks]

theorem relocate_items (h : Linked c) (he : c.nodes it = some e) (hb : ∀ l, (c.lru l).items + 1 < 2 ^ 32)
    (l k : Location) : ((c.relocate it l e.location).lru k).items =
    if l = e.location then (c.lru k).items
    else if k = l then (c.lru k).items + 1
    else if k = e.location then (c.lru k).items - 1 else (c.lru k).items :=
  lruMove_items (c.setLocation it l) l e.location it k (h.items_pos he) hb

theorem relocate_linked (h : Linked c) (he : c.nodes it = some e)
    (hb : ∀ l, (c.lru l).items + 1 < 2 ^ 32) (l : Location) : Linked (c.relocate it l e.location) := by
  have hmem := mem_relocate_list h he l
  have hnodes := relocate_nodes he l e.location
  have hlisted := h.listed it e he
  constructor
  · intro k
    rw [relocate_list]
    have hnodup := h.nodup k
    have hit : it ∈ (c.lru k).list ↔ e.location = k := h.mem_list_iff he
    by_cases hk : k = l <;> by_cases hks : k = e.location
    · rw [if_pos hk, if_pos hks]
      exact List.nodup_cons.mpr ⟨hnodup.not_mem_erase, hnodup.erase it⟩
    · rw [if_pos hk, if_neg hks]
      exact List.nodup_cons.mpr ⟨fun hm => hks (hit.mp hm).symm, hnodup⟩
    · rw [if_neg hk, if_pos hks]
      exact hnodup.erase it
    · rw [if_neg hk, if_neg hks]
      exact hnodup
  · intro k a ha
    rw [hmem] at ha
    rw [hnodes]
    by_cases hait : a = it
    · rw [if_pos hait] at ha ⊢
      exact ⟨_, rfl, ha.symm⟩
    · rw [if_neg hait] at ha ⊢
      exact h.tagged k a ha
  · intro a e' he'
    rw [hnodes] at he'
    rw [hmem]
    by_cases hait : a = it
    · rw [if_pos hait, Option.some.injEq] at he'
      rw [if_pos hait, ← he']
    · rw [if_neg hait] at he' ⊢
      exact h.listed a e' he'
  · intro a e' he'
    rw [hnodes] at he'
    by_cases hait : a = it
    · rw [if_pos hait, Option.some.injEq] at he'
      subst he' hait
      exact h.mapped a e he
    · rw [if_neg hait] at he'
      exact h.mapped a e' he'
  · intro k a hk
    obtain ⟨e', he', hkey⟩ := h.pointed k a hk
    rw [hnodes]
    by_cases hait : a = it
    · subst hait
      rw [he, Option.some.injEq] at he'
      exact ⟨_, if_pos rfl, he' ▸ hkey⟩
    · rw [if_neg hait]
      exact ⟨e', he', hkey⟩
  · intro k
    have hpos := List.length_pos_of_mem hlisted
    have herase := List.length_erase_of_mem hlisted
    rw [relocate_items h he hb, relocate_list, h.counted]
    by_cases hl : l = e.location
    · rw [if_pos hl, hl]
      by_cases hk : k = e.location
      · rw [if_pos hk, if_pos hk, hk, List.length_cons, herase]
        omega
      · rw [if_neg hk, if_neg hk]
    · rw [if_neg hl]
      by_cases hk : k = l
      · rw [if_pos hk, if_pos hk, if_neg (fun heq => hl (hk ▸ heq)), List.length_cons]
      · rw [if_neg hk, if_neg hk]
        by_cases hks : k = e.location
        · rw [if_pos hks, if_pos hks, hks, herase]
        · rw [if_neg hks, if_neg hks]
  · intro a e' he'
    rw [hnodes] at he'
    by_cases hait : a = it
    · exact hait ▸ h.below it e he
    · rw [if_neg hait] at he'
      exact h.below a e' he'

end Relocation

section Drops

variable {c : Wtinylfu Key Item} {l : Location} {it : Nat} {e : Entry Key Item}

theorem exists_candidate (h : Linked c) (hne : (c.lru l).items ≠ 0) :
    ∃ it e, (c.lru l).list.getLast? = some it ∧ c.nodes it = some e ∧ e.location = l := by
  have hlist : (c.lru l).list ≠ [] := by
    intro hnil
    exact hne (by rw [h.counted, hnil, List.length_nil])
  obtain ⟨e, he, hloc⟩ := h.tagged l _ (List.getLast_mem hlist)
  exact ⟨_, e, List.getLast?_eq_some_getLast hlist, he, hloc⟩

theorem evictionCandidate_eq (hl : (c.lru l).list.getLast? = some it) : c.evictionCandidate l = .ok it := by
  rw [evictionCandidate, hl]

theorem deref_eq (he : c.nodes it = some e) : c.deref it = .ok e := by
  rw [deref, he]

variable [DecidableEq Key]

/-- The state after an element was erased from the map and from its list. -/
def dropped (c : Wtinylfu Key Item) (l : Location) (it : Nat) (key : Key) : Wtinylfu Key Item :=
  { (c.erase key).modify l (fun r => { r with items := r.items - 1, list := r.list.erase it }) with
    nodes := Function.update c.nodes it none }

theorem dropCandidate_eq (hne : (c.lru l).items ≠ 0) (hl : (c.lru l).list.getLast? = some it)
    (he : c.nodes it = some e) : c.dropCandidate l = .ok (e.item, c.dropped l it e.key) := by
  have hsize : (c.erase e.key).size l ≠ 0 := hne
  simp only [dropCandidate, evictionCandidate_eq hl, deref_eq he, lruEvict, check_of hsize, ok_bind]
  rfl

theorem dropped_lru (l : Location) (it : Nat) (k : Key) (l' : Location) : (c.dropped l it k).lru l' =
    if l' = l then { c.lru l with items := (c.lru l).items - 1, list := (c.lru l).list.erase it }
    else c.lru l' :=
  Function.update_apply ..

theorem dropped_sameBounds (l : Location) (it : Nat) (k : Key) : SameBounds c (c.dropped l it k) := by
  refine ⟨rfl, fun l' => ?_⟩
  rw [dropped_lru]
  split
  · simp_all
  · rfl

theorem dropped_items (l : Location) (it : Nat) (k : Key) (l' : Location) :
    ((c.dropped l it k).lru l').items = if l' = l then (c.lru l).items - 1 else (c.lru l').items := by
  rw [dropped_lru]
  split <;> rfl

theorem dropped_linked (h : Linked c) (he : c.nodes it = some e) :
    Linked (c.dropped e.location it e.key) := by
  have hnodes : ∀ a e', (c.dropped e.location it e.key).nodes a = some e' → a ≠ it ∧ c.nodes a = some e' := by
    intro a e' ha
    have ha : Function.update c.nodes it none a = some e' := ha
    by_cases hait : a = it
    · rw [hait, Function.update_self] at ha
      cases ha
    · exact ⟨hait, by rwa [Function.update_of_ne hait] at ha⟩
  have hkept : ∀ a, a ≠ it → (c.dropped e.location it e.key).nodes a = c.nodes a :=
    fun a ha => Function.update_of_ne ha ..
  have hlist : ∀ k, ((c.dropped e.location it e.key).lru k).list =
      if k = e.location then (c.lru k).list.erase it else (c.lru k).list := by
    intro k
    rw [dropped_lru]
    by_cases hk : k = e.location
    · rw [if_pos hk, if_pos hk, hk]
    · rw [if_neg hk, if_neg hk]
  have hmem : ∀ k a, a ≠ it → (a ∈ ((c.dropped e.location it e.key).lru k).list ↔ a ∈ (c.lru k).list) := by
    intro k a ha
    rw [hlist]
    split
    · exact List.mem_erase_of_ne ha
    · rfl
  have hgone : ∀ k, it ∉ ((c.dropped e.location it e.key).lru k).list := by
    intro k
    rw [hlist]
    by_cases hk : k = e.location
    · rw [if_pos hk]
      exact (h.nodup k).not_mem_erase
    · rw [if_neg hk]
      exact fun hm => hk (h.location_unique hm he).symm
  constructor
  · intro k
    rw [hlist]
    split
    · exact (h.nodup k).erase it
    · exact h.nodup k
  · intro k a ha
    have hait : a ≠ it := fun heq => hgone k (heq ▸ ha)
    rw [hkept a hait]
    exact h.tagged k a ((hmem k a hait).mp ha)
  · intro a e' ha
    obtain ⟨hait, ha⟩ := hnodes a e' ha
    exact (hmem _ a hait).mpr (h.listed a e' ha)
  · intro a e' ha
    obtain ⟨hait, ha⟩ := hnodes a e' ha
    have hkey : e'.key ≠ e.key := by
      intro heq
      have hboth := h.mapped a e' ha
      rw [heq, h.mapped it e he, Option.some.injEq] at hboth
      exact hait hboth.symm
    exact (Function.update_of_ne hkey ..).trans (h.mapped a e' ha)
  · intro k a ha
    have ha : Function.update c.map e.key none k = some a := ha
    by_cases hk : k = e.key
    · rw [hk, Function.update_self] at ha
      cases ha
    · rw [Function.update_of_ne hk] at ha
      obtain ⟨e', he', hkey⟩ := h.pointed k a ha
      have hait : a ≠ it := by
        intro heq
        rw [heq, he, Option.some.injEq] at he'
        exact hk (he' ▸ hkey.symm)
      exact ⟨e', (hkept a hait).trans he', hkey⟩
  · intro k
    rw [dropped_items, hlist]
    by_cases hk : k = e.location
    · rw [if_pos hk, if_pos hk, hk, h.counted, List.length_erase_of_mem (h.listed it e he)]
    · rw [if_neg hk, if_neg hk]
      exact h.counted k
  · intro a e' ha
    exact h.below a e' (hnodes a e' ha).2

theorem dropped_residents (h : Linked c) (he : c.nodes it = some e) :
    c.residents = (e.key, e.item) ::ₘ (c.dropped e.location it e.key).residents := by
  have hlisted := h.listed it e he
  have hall : (c.dropped e.location it e.key).all = c.all.erase it := by
    have hnot : ∀ l, l ≠ e.location → it ∉ (c.lru l).list :=
      fun l hl hm => hl (h.location_unique hm he).symm
    rw [all, all, dropped_lru, dropped_lru, dropped_lru]
    cases hloc : e.location with
    | window =>
        rw [hloc] at hlisted
        simp [List.erase_append_left, hlisted]
    | mainA1 =>
        rw [hloc] at hlisted hnot
        simp [List.erase_append_left, List.erase_append_right, hlisted, hnot .window (by decide)]
    | mainA2 =>
        rw [hloc] at hlisted hnot
        simp [List.erase_append_right, hnot .window (by decide), hnot .mainA1 (by decide)]
  have hperm : c.all.Perm (it :: c.all.erase it) := List.perm_cons_erase (h.mem_all_of he)
  have hpair : c.pair it = some (e.key, e.item) := by rw [pair, he]; rfl
  have hrest : (c.all.erase it).filterMap (c.dropped e.location it e.key).pair =
      (c.all.erase it).filterMap c.pair := by
    refine List.filterMap_congr (fun a ha => ?_)
    have hait : a ≠ it := fun heq => h.all_nodup.not_mem_erase (heq ▸ ha)
    exact congrArg _ (Function.update_of_ne hait ..)
  rw [residents, residents, hall, hrest]
  have hlist := hperm.filterMap c.pair
  rw [List.filterMap_cons_some hpair] at hlist
  exact Multiset.coe_eq_coe.mpr hlist

end Drops

end Tyrdbs.Wtinylfu
