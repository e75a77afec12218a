import Tyrdbs.Common.SlabList

namespace Tyrdbs.SlabList

open Runs Outcome Links
open Slab (Fault)
open Slabs (Lends)

structure System (T : Type) where
  pool : EntryPool T
  lists : Nat → SlabList := fun _ => {}

/-- An item is given where one of the overloads with an item is called. -/
inductive Insertion (T : Type)
  | pushFront (item : Option T)
  | pushBack (item : Option T)
  | insertBefore (p : Nat)
  | insertAfter (p : Nat)

inductive Removal
  | erase (e : Nat)
  | popFront
  | popBack

inductive Op (T : Type)
  | insert (l : Nat) (i : Insertion T)
  | remove (l : Nat) (r : Removal)

section Model

variable {T : Type} (extendSize : Nat)

def Insertion.run (i : Insertion T) (pool : EntryPool T) (l : SlabList) :
    Except Fault (Nat × EntryPool T × SlabList) :=
  match i with
  | .pushFront none => SlabList.pushFront extendSize pool l
  | .pushFront (some item) => SlabList.pushFrontItem extendSize pool l item
  | .pushBack none => SlabList.pushBack extendSize pool l
  | .pushBack (some item) => SlabList.pushBackItem extendSize pool l item
  | .insertBefore p => SlabList.insertBefore extendSize pool l p
  | .insertAfter p => SlabList.insertAfter extendSize pool l p

def Removal.run (r : Removal) (pool : EntryPool T) (l : SlabList) : Except Fault (EntryPool T × SlabList) :=
  match r with
  | .erase e => SlabList.erase pool l e
  | .popFront => SlabList.popFront pool l
  | .popBack => SlabList.popBack pool l

def Insertion.prescribes (i : Insertion T) (e : Nat) (xs : List Nat) : List Nat :=
  match i with
  | .pushFront _ => e :: xs
  | .pushBack _ => xs ++ [e]
  | .insertBefore p => placeBefore p e xs
  | .insertAfter p => placeAfter p e xs

def Removal.prescribes (r : Removal) (xs : List Nat) : List Nat :=
  match r with
  | .erase e => xs.erase e
  | .popFront => xs.tail
  | .popBack => xs.dropLast

def System.insert (s : System T) (l : Nat) (i : Insertion T) : Except Fault (Nat × System T) := do
  let (e, pool, list) ← i.run extendSize s.pool (s.lists l)
  return (e, { pool := pool, lists := Function.update s.lists l list })

def System.remove (s : System T) (l : Nat) (r : Removal) : Except Fault (System T) := do
  let (pool, list) ← r.run s.pool (s.lists l)
  return { pool := pool, lists := Function.update s.lists l list }

/-- The lists, until an assertion fails, and the handles that each should hold. -/
structure State (T : Type) where
  system : Except Fault (System T)
  contents : Nat → List Nat := fun _ => []

def State.initial [Inhabited T] : State T where
  system := .ok { pool := { entries := fun _ => { item := default } } }

def State.apply (s : State T) : Op T → State T
  | .insert l i =>
      match s.system.bind (fun sys => sys.insert extendSize l i) with
      | .error fault => { s with system := .error fault }
      | .ok (e, sys) =>
          { system := .ok sys, contents := Function.update s.contents l (i.prescribes e (s.contents l)) }
  | .remove l r =>
      match s.system.bind (fun sys => sys.remove l r) with
      | .error fault => { s with system := .error fault }
      | .ok sys => { system := .ok sys, contents := Function.update s.contents l (r.prescribes (s.contents l)) }

/-- Positions are handles of the list itself, and what is popped is there. -/
def Insertion.Allowed (xs : List Nat) : Insertion T → Prop
  | .insertBefore p => p ∈ xs
  | .insertAfter p => p ∈ xs
  | _ => True

def Removal.Allowed (xs : List Nat) : Removal → Prop
  | .erase e => e ∈ xs
  | _ => xs ≠ []

def Op.Allowed (s : State T) : Op T → Prop
  | .insert l i => i.Allowed (s.contents l)
  | .remove l r => r.Allowed (s.contents l)

def Step (s : State T) (op : Op T) (s' : State T) : Prop := op.Allowed s ∧ s' = s.apply extendSize op

/-- A list and the sequence of handles that it should be. -/
structure IsSequence (pool : EntryPool T) (l : SlabList) (xs : List Nat) : Prop where
  nodup : (invalidHandle :: xs).Nodup
  visits : Visits (fun e => (pool.entries e).next) l.front xs invalidHandle
  back : l.back = xs.getLast?.getD invalidHandle
  inverse : ∀ a ∈ xs, ∀ b ∈ xs, (pool.entries a).next = b ↔ (pool.entries b).prev = a
  front_prev : ∀ a ∈ xs.head?, (pool.entries a).prev = invalidHandle
  size : l.size = xs.length
  readable : ∀ e ∈ xs, getEntry pool e = .ok (pool.entries e)

/-- Each list is the sequence that the operations prescribe, and no entry is in two lists. -/
def State.Sequenced (s : State T) : Prop :=
  ∃ sys, s.system = .ok sys ∧ (∀ l, IsSequence sys.pool (sys.lists l) (s.contents l)) ∧
    ∀ l l' e, e ∈ s.contents l → e ∈ s.contents l' → l = l'

/-- An insertion is at an end of its list. -/
def Insertion.AtEnd (xs : List Nat) : Insertion T → Prop
  | .insertBefore p => xs.head? = some p
  | .insertAfter p => xs.getLast? = some p
  | _ => True

/-- An insertion is at an end of its list, and finds an entry or a slab index for a new slab. -/
def Op.Sound (s : State T) : Op T → Prop
  | .insert l i => i.AtEnd (s.contents l) ∧ ∀ sys, s.system = .ok sys → HasRoom sys.pool.slabs
  | .remove _ _ => True

end Model

section Invariants

variable {T : Type} {extendSize : Nat} {sys : System T} {contents : Nat → List Nat}

def held (contents : Nat → List Nat) : Set Nat := { e | ∃ l, e ∈ contents l }

structure Ordered (sys : System T) (contents : Nat → List Nat) : Prop where
  lends : Lends sys.pool.slabs (held contents)
  linked : ∀ l, Linked (nextOf sys.pool (sys.lists l)) (prevOf sys.pool (sys.lists l)) invalidHandle (contents l)
  size : ∀ l, (sys.lists l).size = (contents l).length
  apart : ∀ l l' e, e ∈ contents l → e ∈ contents l' → l = l'

theorem Ordered.strings (h : Ordered sys contents) (l : Nat) :
    Strings sys.pool (sys.lists l) (contents l) (held contents) where
  lends := h.lends
  linked := h.linked l
  live _ he := ⟨l, he⟩

theorem Ordered.isSequence (h : Ordered sys contents) (l : Nat) :
    IsSequence sys.pool (sys.lists l) (contents l) := by
  have hlinked := h.linked l
  have hvalid : ∀ e ∈ contents l, e ≠ invalidHandle := fun e he => (h.lends.lt ⟨l, he⟩).ne
  refine ⟨hlinked.nodup, ?_, ?_, fun a ha b hb => ?_, fun a ha => ?_, h.size l,
    fun e he => getEntry_spec h.lends ⟨l, he⟩⟩
  · have hvisits := hlinked.visits
    rw [nextOf_invalid] at hvisits
    exact hvisits.congr (fun c hc => (nextOf_entry (hvalid c hc)).symm)
  · have hback := hlinked.back_getLast?
    rwa [prevOf_invalid] at hback
  · have hinverse := hlinked.inverse (List.mem_cons_of_mem _ ha) (List.mem_cons_of_mem _ hb)
    rwa [nextOf_entry (hvalid a ha), prevOf_entry (hvalid b hb)] at hinverse
  · have hmem : a ∈ contents l := List.mem_of_head? ha
    have hfirst : nextOf sys.pool (sys.lists l) invalidHandle = a := by
      have hright := hlinked.between_front.right
      rw [List.head?_append, Option.mem_def.mp ha] at hright
      exact (Option.some.inj hright).symm
    have hinverse := hlinked.inverse (List.mem_cons_self ..) (List.mem_cons_of_mem _ hmem)
    rw [← prevOf_entry (hvalid a hmem)]
    exact hinverse.mp hfirst

theorem length_lt {slabs : Slabs} {live : Set Nat} (h : Lends slabs live) {xs : List Nat} (hnodup : xs.Nodup)
    (hlive : ∀ e ∈ xs, e ∈ live) : xs.length < 2 ^ 32 := by
  have hsub : xs ⊆ List.range (2 ^ 32 - 1) := fun e he => List.mem_range.mpr (h.lt (hlive e he))
  have hle := (List.subperm_of_subset hnodup hsub).length_le
  rw [List.length_range] at hle
  omega

theorem Ordered.other (h : Ordered sys contents) {l : Nat} {pool : EntryPool T}
    (hsame : ∀ c ∈ contents l, pool.entries c = sys.pool.entries c) :
    Linked (nextOf pool (sys.lists l)) (prevOf pool (sys.lists l)) invalidHandle (contents l) := by
  have hvalid : ∀ e ∈ contents l, e ≠ invalidHandle := fun e he => (h.lends.lt ⟨l, he⟩).ne
  refine (h.linked l).congr (fun c hc => ?_) (fun c hc => ?_)
  · rcases List.mem_cons.mp hc with rfl | hc
    · rw [nextOf_invalid, nextOf_invalid]
    · rw [nextOf_entry (hvalid c hc), nextOf_entry (hvalid c hc), hsame c hc]
  · rcases List.mem_cons.mp hc with rfl | hc
    · rw [prevOf_invalid, prevOf_invalid]
    · rw [prevOf_entry (hvalid c hc), prevOf_entry (hvalid c hc), hsame c hc]

theorem mem_held_update {l c : Nat} {xs : List Nat} :
    c ∈ held (Function.update contents l xs) ↔ c ∈ xs ∨ ∃ l', l' ≠ l ∧ c ∈ contents l' := by
  constructor
  · rintro ⟨l', hc⟩
    by_cases hl : l' = l
    · subst hl
      rw [Function.update_self] at hc
      exact Or.inl hc
    · rw [Function.update_of_ne hl] at hc
      exact Or.inr ⟨l', hl, hc⟩
  · rintro (hc | ⟨l', hl, hc⟩)
    · exact ⟨l, by rwa [Function.update_self]⟩
    · exact ⟨l', by rwa [Function.update_of_ne hl]⟩

theorem Ordered.insert (h : Ordered sys contents) {l e : Nat} {pool : EntryPool T} {list : SlabList}
    {ys zs : List Nat} (hxs : contents l = ys ++ zs) (hnot : e ∉ held contents)
    (hlends : Lends pool.slabs (Insert.insert e (held contents)))
    (hsize : list.size = ((sys.lists l).size + 1) % 2 ^ 32)
    (hlinked : Linked (nextOf pool list) (prevOf pool list) invalidHandle (ys ++ e :: zs))
    (hsame : ∀ c, c ≠ e → c ∉ contents l → pool.entries c = sys.pool.entries c) :
    Ordered { pool := pool, lists := Function.update sys.lists l list }
      (Function.update contents l (ys ++ e :: zs)) := by
  have hmem : ∀ c, c ∈ ys ++ e :: zs ↔ c = e ∨ c ∈ contents l := by
    intro c
    rw [hxs, List.mem_append, List.mem_cons, List.mem_append]
    exact or_left_comm
  have hnew : ∀ l', e ∉ contents l' := fun l' hm => hnot ⟨l', hm⟩
  have hheld : held (Function.update contents l (ys ++ e :: zs)) = Insert.insert e (held contents) := by
    ext c
    rw [mem_held_update, hmem, or_assoc]
    refine or_congr_right ⟨?_, fun ⟨l', hc⟩ => ?_⟩
    · rintro (hc | ⟨l', _, hc⟩)
      · exact ⟨l, hc⟩
      · exact ⟨l', hc⟩
    · by_cases hl : l' = l
      · exact Or.inl (hl ▸ hc)
      · exact Or.inr ⟨l', hl, hc⟩
  refine ⟨hheld ▸ hlends, fun l' => ?_, fun l' => ?_, fun l₁ l₂ c hc₁ hc₂ => ?_⟩
  · by_cases hl : l' = l
    · subst hl
      simpa only [Function.update_self] using hlinked
    · simp only [Function.update_of_ne hl]
      exact h.other (fun c hc => hsame c (fun heq => hnew l' (heq ▸ hc)) (fun hcl => hl (h.apart l' l c hc hcl)))
  · by_cases hl : l' = l
    · subst hl
      have hlt := length_lt hlends (List.nodup_cons.mp hlinked.nodup).2
        (fun c hc => ((hmem c).mp hc).imp_right (fun hc => ⟨l', hc⟩))
      have hlength : (ys ++ e :: zs).length = (contents l').length + 1 := by
        rw [hxs, List.length_append, List.length_append, List.length_cons]
        omega
      simp only [Function.update_self]
      rw [hsize, h.size, hlength, Nat.mod_eq_of_lt (hlength ▸ hlt)]
    · simp only [Function.update_of_ne hl]
      exact h.size l'
  · by_cases h₁ : l₁ = l <;> by_cases h₂ : l₂ = l
    · rw [h₁, h₂]
    · rw [h₁, Function.update_self, hmem] at hc₁
      rw [Function.update_of_ne h₂] at hc₂
      rcases hc₁ with rfl | hc₁
      · exact absurd hc₂ (hnew l₂)
      · exact h₁.trans (h.apart l l₂ c hc₁ hc₂)
    · rw [Function.update_of_ne h₁] at hc₁
      rw [h₂, Function.update_self, hmem] at hc₂
      rcases hc₂ with rfl | hc₂
      · exact absurd hc₁ (hnew l₁)
      · exact (h.apart l₁ l c hc₁ hc₂).trans h₂.symm
    · rw [Function.update_of_ne h₁] at hc₁
      rw [Function.update_of_ne h₂] at hc₂
      exact h.apart l₁ l₂ c hc₁ hc₂

theorem Ordered.remove (h : Ordered sys contents) {l e : Nat} {pool : EntryPool T} {list : SlabList}
    {ys zs : List Nat} (hxs : contents l = ys ++ e :: zs)
    (hlends : Lends pool.slabs (held contents \ {e}))
    (hsize : list.size = ((sys.lists l).size + 2 ^ 32 - 1) % 2 ^ 32)
    (hlinked : Linked (nextOf pool list) (prevOf pool list) invalidHandle (ys ++ zs))
    (hsame : ∀ c, c ∉ contents l → pool.entries c = sys.pool.entries c) :
    Ordered { pool := pool, lists := Function.update sys.lists l list }
      (Function.update contents l (ys ++ zs)) := by
  have hnodup := (List.nodup_cons.mp (h.linked l).nodup).2
  have hnot : e ∉ ys ++ zs := by
    rw [hxs] at hnodup
    exact (List.nodup_cons.mp (List.nodup_middle.mp hnodup)).1
  have hmem : ∀ c, c ∈ ys ++ zs ↔ c ∈ contents l ∧ c ≠ e := by
    intro c
    rw [hxs, List.mem_append, List.mem_append, List.mem_cons]
    constructor
    · intro hc
      exact ⟨hc.imp_right Or.inr, fun heq => hnot (heq ▸ List.mem_append.mpr hc)⟩
    · rintro ⟨hc | rfl | hc, hne⟩
      · exact Or.inl hc
      · exact absurd rfl hne
      · exact Or.inr hc
  have hin : e ∈ contents l := by simp [hxs]
  have hheld : held (Function.update contents l (ys ++ zs)) = held contents \ {e} := by
    ext c
    rw [mem_held_update, hmem, Set.mem_sdiff, Set.mem_singleton_iff]
    constructor
    · rintro (⟨hc, hne⟩ | ⟨l', hl, hc⟩)
      · exact ⟨⟨l, hc⟩, hne⟩
      · exact ⟨⟨l', hc⟩, fun heq => hl (h.apart l' l e (heq ▸ hc) hin)⟩
    · rintro ⟨⟨l', hc⟩, hne⟩
      by_cases hl : l' = l
      · exact Or.inl ⟨hl ▸ hc, hne⟩
      · exact Or.inr ⟨l', hl, hc⟩
  have hold : ∀ l' c, c ∈ Function.update contents l (ys ++ zs) l' → c ∈ contents l' := by
    intro l' c hc
    by_cases hl : l' = l
    · subst hl
      rw [Function.update_self, hmem] at hc
      exact hc.1
    · rwa [Function.update_of_ne hl] at hc
  refine ⟨hheld ▸ hlends, fun l' => ?_, fun l' => ?_, fun l₁ l₂ c hc₁ hc₂ =>
    h.apart l₁ l₂ c (hold l₁ c hc₁) (hold l₂ c hc₂)⟩
  · by_cases hl : l' = l
    · subst hl
      simpa only [Function.update_self] using hlinked
    · simp only [Function.update_of_ne hl]
      exact h.other (fun c hc => hsame c (fun hcl => hl (h.apart l' l c hc hcl)))
  · by_cases hl : l' = l
    · subst hl
      have hlt := length_lt h.lends hnodup (fun c hc => ⟨l', hc⟩)
      have hlength : (contents l').length = (ys ++ zs).length + 1 := by
        rw [hxs, List.length_append, List.length_append, List.length_cons]
        omega
      simp only [Function.update_self]
      rw [hsize, h.size]
      omega
    · simp only [Function.update_of_ne hl]
      exact h.size l'

theorem notMem_of_new {slabs : Slabs} {e : Nat} (hlends : Lends slabs (Insert.insert e (held contents)))
    (hnot : e ∉ held contents) (l : Nat) : e ∉ invalidHandle :: contents l := by
  rw [List.mem_cons, not_or]
  exact ⟨(hlends.lt (Set.mem_insert e _)).ne, fun hm => hnot ⟨l, hm⟩⟩

theorem Ordered.insertBefore_front (h : Ordered sys contents) (hpos : 0 < extendSize) (hle : extendSize ≤ 32768)
    (hroom : HasRoom sys.pool.slabs) (l : Nat) :
    ∃ e pool list, SlabList.insertBefore extendSize sys.pool (sys.lists l) (sys.lists l).front =
        .ok (e, pool, list) ∧
      Ordered { pool := pool, lists := Function.update sys.lists l list }
        (Function.update contents l (e :: contents l)) := by
  obtain ⟨e, pool, list, hinsert, hnot, hlends, hsize, hnext, hprev, hsame⟩ :=
    (h.strings l).insertBefore hpos hle hroom (Or.inl rfl)
  have hlinked := h.linked l
  have hstop : invalidHandle ∈ invalidHandle :: contents l := List.mem_cons_self ..
  have hfresh := notMem_of_new hlends hnot l
  have hother : ∀ c ∈ invalidHandle :: contents l, c ≠ e := fun c hc heq => hfresh (heq ▸ hc)
  obtain ⟨hfrontMem, hfrontPrev⟩ := hlinked.prev_next hstop
  have hbetween := hlinked.between_front
  rw [nextOf_invalid] at hfrontMem hfrontPrev hbetween
  refine ⟨e, pool, list, hinsert, h.insert (List.nil_append _).symm hnot hlends hsize ?_ hsame⟩
  rw [if_pos rfl] at hnext
  refine Linked.insert hlinked hbetween hfresh (fun c hc hca => ?_) (fun c hc hcb => ?_) ⟨?_, ?_⟩ ⟨?_, ?_⟩
  · rw [hnext, Function.update_of_ne (hother c hc), Function.update_of_ne hca]
  · rw [hprev, Function.update_of_ne (hother c hc), Function.update_of_ne hcb]
  · rw [hnext, Function.update_of_ne (hother _ hstop), Function.update_self]
  · rw [hprev, Function.update_self, hfrontPrev]
  · rw [hnext, Function.update_self]
  · rw [hprev, Function.update_of_ne (hother _ hfrontMem), Function.update_self]

theorem Ordered.insertAfter_back (h : Ordered sys contents) (hpos : 0 < extendSize) (hle : extendSize ≤ 32768)
    (hroom : HasRoom sys.pool.slabs) (l : Nat) :
    ∃ e pool list, SlabList.insertAfter extendSize sys.pool (sys.lists l) (sys.lists l).back =
        .ok (e, pool, list) ∧
      Ordered { pool := pool, lists := Function.update sys.lists l list }
        (Function.update contents l (contents l ++ [e])) := by
  obtain ⟨e, pool, list, hinsert, hnot, hlends, hsize, hnext, hprev, hsame⟩ :=
    (h.strings l).insertAfter hpos hle hroom (Or.inl rfl)
  have hlinked := h.linked l
  have hstop : invalidHandle ∈ invalidHandle :: contents l := List.mem_cons_self ..
  have hfresh := notMem_of_new hlends hnot l
  have hother : ∀ c ∈ invalidHandle :: contents l, c ≠ e := fun c hc heq => hfresh (heq ▸ hc)
  obtain ⟨hbackMem, hbackNext⟩ := hlinked.next_prev hstop
  have hbetween := hlinked.between_back
  rw [prevOf_invalid] at hbackMem hbackNext hbetween
  rw [if_pos rfl] at hprev
  have hxs : contents l = contents l ++ [] := (List.append_nil _).symm
  rw [hxs] at hlinked hfresh
  refine ⟨e, pool, list, hinsert, h.insert hxs hnot hlends hsize ?_ hsame⟩
  refine Linked.insert hlinked hbetween hfresh (fun c hc hca => ?_) (fun c hc hcb => ?_) ⟨?_, ?_⟩ ⟨?_, ?_⟩
  · rw [List.append_nil] at hc
    rw [hnext, Function.update_of_ne (hother c hc), Function.update_of_ne hca]
  · rw [List.append_nil] at hc
    rw [hprev, Function.update_of_ne (hother c hc), Function.update_of_ne hcb]
  · rw [hnext, Function.update_of_ne (hother _ hbackMem), Function.update_self]
  · rw [hprev, Function.update_self]
  · rw [hnext, Function.update_self, hbackNext]
  · rw [hprev, Function.update_of_ne (hother _ hstop), Function.update_self]

/-- The neighbours of an entry that leaves are linked to each other, wherever it was. -/
theorem Ordered.erase (h : Ordered sys contents) {l e : Nat} {ys zs : List Nat} (hxs : contents l = ys ++ e :: zs) :
    ∃ pool list, SlabList.erase sys.pool (sys.lists l) e = .ok (pool, list) ∧
      Ordered { pool := pool, lists := Function.update sys.lists l list }
        (Function.update contents l (ys ++ zs)) := by
  have hin : e ∈ contents l := by simp [hxs]
  obtain ⟨pool, list, herase, hlends, hsize, hnext, hprev, hsame⟩ := (h.strings l).erase hin
  have hlinked := h.linked l
  rw [hxs] at hlinked
  have hother : ∀ c ∈ invalidHandle :: (ys ++ zs), c ≠ e := fun c hc heq => hlinked.notMem_sides (heq ▸ hc)
  have hbetween := hlinked.around
  have hleftMem : prevOf sys.pool (sys.lists l) e ∈ invalidHandle :: (ys ++ zs) :=
    List.cons_subset_cons _ (List.subset_append_left ys zs) hbetween.left_mem
  have hrightMem : nextOf sys.pool (sys.lists l) e ∈ invalidHandle :: (ys ++ zs) :=
    List.cons_subset_cons _ (List.subset_append_right ys zs) hbetween.right_mem
  refine ⟨pool, list, herase, h.remove hxs hlends hsize ?_ hsame⟩
  refine hlinked.erase hbetween (fun c hc hca => ?_) (fun c hc hcb => ?_) ⟨?_, ?_⟩
  · rw [hnext c (hother c hc), if_neg hca]
  · rw [hprev c (hother c hc), if_neg hcb]
  · rw [hnext _ (hother _ hleftMem), if_pos rfl]
  · rw [hprev _ (hother _ hrightMem), if_pos rfl]

theorem Ordered.item (h : Ordered sys contents) (e : Nat) (item : T) :
    Ordered { sys with pool := put sys.pool e { sys.pool.entries e with item := item } } contents := by
  have hnext : ∀ c, ((put sys.pool e { sys.pool.entries e with item := item }).entries c).next =
      (sys.pool.entries c).next := put_keeps Entry.next rfl
  have hprev : ∀ c, ((put sys.pool e { sys.pool.entries e with item := item }).entries c).prev =
      (sys.pool.entries c).prev := put_keeps Entry.prev rfl
  refine ⟨h.lends, fun l => ?_, h.size, h.apart⟩
  have hlinked := h.linked l
  rw [nextOf, prevOf] at hlinked ⊢
  simp only [hnext, hprev]
  exact hlinked

theorem Ordered.system_insert (h : Ordered sys contents) (hpos : 0 < extendSize) (hle : extendSize ≤ 32768)
    (hroom : HasRoom sys.pool.slabs) {l : Nat} {i : Insertion T} (hend : i.AtEnd (contents l)) :
    ∃ e sys', sys.insert extendSize l i = .ok (e, sys') ∧
      Ordered sys' (Function.update contents l (i.prescribes e (contents l))) := by
  obtain ⟨e, pool, list, hbefore, hfront⟩ := h.insertBefore_front hpos hle hroom l
  obtain ⟨e', pool', list', hafter, hback⟩ := h.insertAfter_back hpos hle hroom l
  have hvalid : invalidHandle ∉ contents l := (List.nodup_cons.mp (h.linked l).nodup).1
  cases i with
  | pushFront item =>
      cases item with
      | none => exact ⟨e, _, by rw [System.insert, Insertion.run, pushFront, hbefore]; rfl, hfront⟩
      | some item =>
          have hheld : e ∈ held (Function.update contents l (e :: contents l)) := ⟨l, by simp⟩
          refine ⟨e, _, ?_, hfront.item e item⟩
          rw [System.insert, Insertion.run, pushFrontItem, pushFront, hbefore]
          simp only [ok_bind, getEntry_spec hfront.lends hheld]
          rfl
  | pushBack item =>
      cases item with
      | none => exact ⟨e', _, by rw [System.insert, Insertion.run, pushBack, hafter]; rfl, hback⟩
      | some item =>
          have hheld : e' ∈ held (Function.update contents l (contents l ++ [e'])) := ⟨l, by simp⟩
          refine ⟨e', _, ?_, hback.item e' item⟩
          rw [System.insert, Insertion.run, pushBackItem, pushBack, hafter]
          simp only [ok_bind, getEntry_spec hback.lends hheld]
          rfl
  | insertBefore p =>
      obtain ⟨rest, hxs⟩ := List.head?_eq_some_iff.mp hend
      have hp : (sys.lists l).front = p := front_eq (hxs ▸ h.linked l)
      refine ⟨e, _, by rw [System.insert, Insertion.run, ← hp, hbefore]; rfl, ?_⟩
      rw [Insertion.prescribes, hxs, placeBefore, if_pos rfl, ← hxs]
      exact hfront
  | insertAfter p =>
      obtain ⟨rest, hxs⟩ := List.getLast?_eq_some_iff.mp hend
      have hlinked := h.linked l
      rw [hxs] at hlinked
      have hp : (sys.lists l).back = p := back_eq hlinked
      have hnot : p ∉ rest := fun hm => hlinked.notMem_sides (by simp [hm])
      refine ⟨e', _, by rw [System.insert, Insertion.run, ← hp, hafter]; rfl, ?_⟩
      rw [Insertion.prescribes, hxs, placeAfter_append hnot]
      rw [hxs, List.append_assoc] at hback
      exact hback

theorem Ordered.system_remove (h : Ordered sys contents) {l : Nat} {r : Removal}
    (hallowed : r.Allowed (contents l)) :
    ∃ sys', sys.remove l r = .ok sys' ∧
      Ordered sys' (Function.update contents l (r.prescribes (contents l))) := by
  cases r with
  | erase e =>
      obtain ⟨ys, zs, hxs⟩ := List.append_of_mem hallowed
      obtain ⟨pool, list, herase, hordered⟩ := h.erase hxs
      have hnot : e ∉ ys := fun hm => (hxs ▸ h.linked l).notMem_sides (by simp [hm])
      refine ⟨_, by rw [System.remove, Removal.run, herase]; rfl, ?_⟩
      rw [Removal.prescribes, hxs, List.erase_append_right _ hnot, List.erase_cons_head]
      exact hordered
  | popFront =>
      obtain ⟨x, rest, hxs⟩ := List.exists_cons_of_ne_nil hallowed
      obtain ⟨pool, list, herase, hordered⟩ := h.erase (show contents l = [] ++ x :: rest from hxs)
      have hx : (sys.lists l).front = x := front_eq (hxs ▸ h.linked l)
      refine ⟨_, by rw [System.remove, Removal.run, SlabList.popFront, hx, herase]; rfl, ?_⟩
      rw [Removal.prescribes, hxs]
      exact hordered
  | popBack =>
      have hxs := (List.dropLast_append_getLast hallowed).symm
      obtain ⟨pool, list, herase, hordered⟩ := h.erase hxs
      have hx : (sys.lists l).back = (contents l).getLast hallowed := back_eq (hxs ▸ h.linked l)
      refine ⟨_, by rw [System.remove, Removal.run, SlabList.popBack, hx, herase]; rfl, ?_⟩
      rw [List.append_nil] at hordered
      exact hordered

theorem System.insert_none (h : Ordered sys contents) (hroom : ¬ HasRoom sys.pool.slabs) (l : Nat)
    (i : Insertion T) : sys.insert extendSize l i = .error .assertion := by
  have hbefore : ∀ p, SlabList.insertBefore extendSize sys.pool (sys.lists l) p = .error .assertion := by
    intro p
    rw [SlabList.insertBefore, allocateEntry_none h.lends hroom]
    rfl
  have hafter : ∀ p, SlabList.insertAfter extendSize sys.pool (sys.lists l) p = .error .assertion := by
    intro p
    rw [SlabList.insertAfter, allocateEntry_none h.lends hroom]
    rfl
  cases i with
  | pushFront item =>
      cases item with
      | none => rw [System.insert, Insertion.run, pushFront, hbefore]; rfl
      | some item => rw [System.insert, Insertion.run, pushFrontItem, pushFront, hbefore]; rfl
  | pushBack item =>
      cases item with
      | none => rw [System.insert, Insertion.run, pushBack, hafter]; rfl
      | some item => rw [System.insert, Insertion.run, pushBackItem, pushBack, hafter]; rfl
  | insertBefore p => rw [System.insert, Insertion.run, hbefore]; rfl
  | insertAfter p => rw [System.insert, Insertion.run, hafter]; rfl

/-- Before an entry that is not the first one, the entry in front of it keeps its link. -/
theorem Ordered.insertBefore_inner (h : Ordered sys contents) (hpos : 0 < extendSize) (hle : extendSize ≤ 32768)
    (hroom : HasRoom sys.pool.slabs) {l p : Nat} (hp : p ∈ contents l) (hinner : (contents l).head? ≠ some p) :
    ∃ e sys', sys.insert extendSize l (.insertBefore p) = .ok (e, sys') ∧
      ¬ IsSequence sys'.pool (sys'.lists l) (placeBefore p e (contents l)) := by
  obtain ⟨e, pool, list, hinsert, hnot, hlends, hsize, hnext, hprev, hsame⟩ :=
    (h.strings l).insertBefore hpos hle hroom (Or.inr hp)
  have hlinked := h.linked l
  have hstop : invalidHandle ∈ invalidHandle :: contents l := List.mem_cons_self ..
  have hpmem : p ∈ invalidHandle :: contents l := List.mem_cons_of_mem _ hp
  have hfront : p ≠ (sys.lists l).front := by
    intro heq
    obtain ⟨x, rest, hxs⟩ := List.exists_cons_of_ne_nil (List.ne_nil_of_mem hp)
    have hx : (sys.lists l).front = x := front_eq (hxs ▸ hlinked)
    exact hinner (by rw [hxs, List.head?_cons, heq, hx])
  -- the entry before p
  obtain ⟨hqmem, hqnext⟩ := hlinked.next_prev hpmem
  have hq : prevOf sys.pool (sys.lists l) p ∈ contents l := by
    refine (List.mem_cons.mp hqmem).resolve_left (fun heq => hfront ?_)
    rw [heq, nextOf_invalid] at hqnext
    exact hqnext.symm
  have hqe : prevOf sys.pool (sys.lists l) p ≠ e := fun heq => hnot ⟨l, heq ▸ hq⟩
  have hpe : p ≠ e := fun heq => hnot ⟨l, heq ▸ hp⟩
  have hqvalid : prevOf sys.pool (sys.lists l) p ≠ invalidHandle := (h.lends.lt ⟨l, hq⟩).ne
  have hevalid : e ≠ invalidHandle := (hlends.lt (Set.mem_insert e _)).ne
  refine ⟨e, _, by rw [System.insert, Insertion.run, hinsert]; rfl, fun hsequence => ?_⟩
  have hinverse := hsequence.inverse _ ((mem_placeBefore hp).mpr (Or.inr hq)) e
    ((mem_placeBefore hp).mpr (Or.inl rfl))
  simp only at hinverse
  rw [← nextOf_entry (l := list) hqvalid, ← prevOf_entry (l := list) hevalid, hnext, hprev, if_neg hfront,
    Function.update_of_ne hqe, Function.update_self, hqnext] at hinverse
  exact hpe (hinverse.mpr rfl)

theorem Ordered.insertAfter_inner (h : Ordered sys contents) (hpos : 0 < extendSize) (hle : extendSize ≤ 32768)
    (hroom : HasRoom sys.pool.slabs) {l p : Nat} (hp : p ∈ contents l) (hinner : (contents l).getLast? ≠ some p) :
    ∃ e sys', sys.insert extendSize l (.insertAfter p) = .ok (e, sys') ∧
      ¬ IsSequence sys'.pool (sys'.lists l) (placeAfter p e (contents l)) := by
  obtain ⟨e, pool, list, hinsert, hnot, hlends, hsize, hnext, hprev, hsame⟩ :=
    (h.strings l).insertAfter hpos hle hroom (Or.inr hp)
  have hlinked := h.linked l
  have hpmem : p ∈ invalidHandle :: contents l := List.mem_cons_of_mem _ hp
  have hback : p ≠ (sys.lists l).back := by
    intro heq
    have hne : contents l ≠ [] := List.ne_nil_of_mem hp
    have hx := hlinked.back_getLast?
    rw [prevOf_invalid, List.getLast?_eq_some_getLast hne, Option.getD_some] at hx
    exact hinner (by rw [List.getLast?_eq_some_getLast hne, heq, hx])
  -- the entry after p
  obtain ⟨hrmem, hrprev⟩ := hlinked.prev_next hpmem
  have hr : nextOf sys.pool (sys.lists l) p ∈ contents l := by
    refine (List.mem_cons.mp hrmem).resolve_left (fun heq => hback ?_)
    rw [heq, prevOf_invalid] at hrprev
    exact hrprev.symm
  have hre : nextOf sys.pool (sys.lists l) p ≠ e := fun heq => hnot ⟨l, heq ▸ hr⟩
  have hpe : p ≠ e := fun heq => hnot ⟨l, heq ▸ hp⟩
  have hrvalid : nextOf sys.pool (sys.lists l) p ≠ invalidHandle := (h.lends.lt ⟨l, hr⟩).ne
  have hevalid : e ≠ invalidHandle := (hlends.lt (Set.mem_insert e _)).ne
  refine ⟨e, _, by rw [System.insert, Insertion.run, hinsert]; rfl, fun hsequence => ?_⟩
  have hinverse := hsequence.inverse e ((mem_placeAfter hp).mpr (Or.inl rfl)) _
    ((mem_placeAfter hp).mpr (Or.inr hr))
  simp only at hinverse
  rw [← nextOf_entry (l := list) hevalid, ← prevOf_entry (l := list) hrvalid, hnext, hprev, if_neg hback,
    Function.update_of_ne hre, Function.update_self, hrprev] at hinverse
  exact hpe (hinverse.mp rfl)

end Invariants

section Runs

variable {T : Type} {extendSize : Nat} {s s' : State T}

/-- The lists are in order, and no assertion has failed. -/
def State.Inv (s : State T) : Prop := ∃ sys, s.system = .ok sys ∧ Ordered sys s.contents

theorem State.inv_initial [Inhabited T] : (State.initial : State T).Inv := by
  refine ⟨_, rfl, ?_, fun l => ?_, fun _ => rfl, fun l l' e he => absurd he List.not_mem_nil⟩
  · have hnone : held (State.initial : State T).contents = ∅ := by
      ext e
      exact iff_of_false (fun ⟨l, he⟩ => List.not_mem_nil he) (Set.notMem_empty e)
    rw [hnone]
    exact Slabs.lends_empty
  · exact linked_nil nextOf_invalid prevOf_invalid

theorem State.Inv.sequenced (h : s.Inv) : s.Sequenced := by
  obtain ⟨sys, hsys, hordered⟩ := h
  exact ⟨sys, hsys, hordered.isSequence, hordered.apart⟩

theorem State.apply_insert {sys sys' : System T} {l e : Nat} {i : Insertion T} (hsys : s.system = .ok sys)
    (h : sys.insert extendSize l i = .ok (e, sys')) : s.apply extendSize (.insert l i) =
      { system := .ok sys', contents := Function.update s.contents l (i.prescribes e (s.contents l)) } := by
  have hbind : s.system.bind (fun sys => sys.insert extendSize l i) = .ok (e, sys') := by
    rw [hsys]
    exact h
  rw [State.apply, hbind]

theorem State.Inv.step (h : s.Inv) (hpos : 0 < extendSize) (hle : extendSize ≤ 32768) {op : Op T}
    (hstep : Step extendSize s op s') (hsound : op.Sound s) : s'.Inv := by
  obtain ⟨sys, hsys, hordered⟩ := h
  obtain ⟨hallowed, rfl⟩ := hstep
  cases op with
  | insert l i =>
      obtain ⟨e, sys', hinsert, hordered'⟩ := hordered.system_insert hpos hle (hsound.2 sys hsys) hsound.1
      rw [State.apply_insert hsys hinsert]
      exact ⟨sys', rfl, hordered'⟩
  | remove l r =>
      obtain ⟨sys', hremove, hordered'⟩ := hordered.system_remove hallowed
      have hbind : s.system.bind (fun sys => sys.remove l r) = .ok sys' := by
        rw [hsys]
        exact hremove
      rw [State.apply, hbind]
      exact ⟨sys', rfl, hordered'⟩

theorem State.Inv.breaks (h : s.Inv) (hpos : 0 < extendSize) (hle : extendSize ≤ 32768) {op : Op T}
    (hstep : Step extendSize s op s') (hsound : ¬ op.Sound s) : ¬ s'.Sequenced := by
  obtain ⟨sys, hsys, hordered⟩ := h
  obtain ⟨hallowed, rfl⟩ := hstep
  cases op with
  | remove l r => exact absurd trivial hsound
  | insert l i =>
      by_cases hroom : HasRoom sys.pool.slabs
      · have hend : ¬ i.AtEnd (s.contents l) := by
          intro hend
          refine hsound ⟨hend, fun sys' hsys' => ?_⟩
          rw [hsys, Except.ok.injEq] at hsys'
          exact hsys' ▸ hroom
        have hinner : ∃ e sys', sys.insert extendSize l i = .ok (e, sys') ∧
            ¬ IsSequence sys'.pool (sys'.lists l) (i.prescribes e (s.contents l)) := by
          cases i with
          | pushFront item => exact absurd trivial hend
          | pushBack item => exact absurd trivial hend
          | insertBefore p => exact hordered.insertBefore_inner hpos hle hroom hallowed hend
          | insertAfter p => exact hordered.insertAfter_inner hpos hle hroom hallowed hend
        obtain ⟨e, sys', hinsert, hnot⟩ := hinner
        rw [State.apply_insert hsys hinsert]
        rintro ⟨sys'', hsys'', hsequence, _⟩
        have hl := hsequence l
        simp only [Function.update_self] at hl
        exact hnot (Except.ok.inj hsys'' ▸ hl)
      · have hbind : s.system.bind (fun sys => sys.insert extendSize l i) = .error .assertion := by
          rw [hsys]
          exact System.insert_none hordered hroom l i
        rw [State.apply, hbind]
        rintro ⟨sys', hsys', _⟩
        exact absurd hsys' (by simp)

variable [Inhabited T]

/-- The lists are the sequences that the operations prescribe as long as
nothing is inserted between two entries. -/
theorem sequenced_iff (hpos : 0 < extendSize) (hle : extendSize ≤ 32768) {ts : List (State T × Op T × State T)}
    (h : Run (Step extendSize) State.initial ts s) :
    (∀ v ∈ visited State.initial ts, v.Sequenced) ↔ ∀ t ∈ ts, t.2.1.Sound t.1 :=
  h.exact (fun s op => op.Sound s) State.Inv State.Sequenced State.inv_initial (fun _ hinv => hinv.sequenced)
    (fun _ _ _ hinv hstep hsound => hinv.step hpos hle hstep hsound)
    (fun _ _ _ hinv hstep hsound => hinv.breaks hpos hle hstep hsound)

/-- Two lists that share a pool, and entries that leave from the middle and from both ends. -/
def shared : List (Op Nat) :=
  [.insert 0 (.pushBack none), .insert 1 (.pushFront (some 5)), .insert 0 (.pushBack (some 7)),
    .insert 0 (.insertBefore 0), .insert 0 (.insertAfter 2), .remove 0 (.erase 0), .remove 0 .popFront,
    .remove 1 .popBack]

def State.links (s : State T) (e : Nat) : Option (Nat × Nat) :=
  match s.system with
  | .ok sys => some ((sys.pool.entries e).prev, (sys.pool.entries e).next)
  | .error _ => none

instance (xs : List Nat) (i : Insertion T) : Decidable (i.Allowed xs) :=
  match i with
  | .pushFront _ => isTrue trivial
  | .pushBack _ => isTrue trivial
  | .insertBefore p => (inferInstance : Decidable (p ∈ xs))
  | .insertAfter p => (inferInstance : Decidable (p ∈ xs))

instance (xs : List Nat) (r : Removal) : Decidable (r.Allowed xs) :=
  match r with
  | .erase e => (inferInstance : Decidable (e ∈ xs))
  | .popFront => (inferInstance : Decidable (xs ≠ []))
  | .popBack => (inferInstance : Decidable (xs ≠ []))

instance (s : State T) (op : Op T) : Decidable (op.Allowed s) :=
  match op with
  | .insert l i => (inferInstance : Decidable (i.Allowed (s.contents l)))
  | .remove l r => (inferInstance : Decidable (r.Allowed (s.contents l)))

theorem sequenced_iff_shared : ∃ ts s, Run (Step 8) (State.initial : State Nat) ts s ∧
    s.contents 0 = [2, 4] ∧
    ((∀ v ∈ visited State.initial ts, v.Sequenced) ↔ ∀ t ∈ ts, t.2.1.Sound t.1) := by
  have hrun := run_of_allowed (State.apply 8) (fun s op => op.Allowed s) shared State.initial (by decide)
  exact ⟨_, _, hrun, by decide, sequenced_iff (by decide) (by decide) hrun⟩

/-- A third entry that is inserted before the second one is missed from the front. -/
def between : List (Op Nat) := [.insert 0 (.pushBack none), .insert 0 (.pushBack none), .insert 0 (.insertBefore 1)]

theorem not_sequenced_between : ¬ ∀ ts s, Run (Step 4) (State.initial : State Nat) ts s →
    ∀ v ∈ visited State.initial ts, v.Sequenced := by
  intro h
  have hrun := run_of_allowed (State.apply 4) (fun s op => op.Allowed s) between State.initial (by decide)
  obtain ⟨sys, hsys, hsequence, _⟩ := h _ _ hrun _ hrun.mem_visited
  have hinverse := (hsequence 0).inverse 0 (by decide) 2 (by decide)
  have hfirst : (between.foldl (State.apply 4) State.initial).links 0 = some (invalidHandle, 1) := by decide
  have hnew : (between.foldl (State.apply 4) State.initial).links 2 = some (0, 1) := by decide
  simp only [State.links, hsys, Option.some.injEq, Prod.mk.injEq] at hfirst hnew
  rw [hfirst.2, hnew.1] at hinverse
  exact absurd (hinverse.mpr rfl) (by decide)

end Runs

end Tyrdbs.SlabList
