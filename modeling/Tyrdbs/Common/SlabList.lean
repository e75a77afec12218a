import Tyrdbs.Library.Links
import Tyrdbs.Common.SlabRuns

namespace Tyrdbs

open Outcome Links
open Slab (Fault)
open Slabs (Lends)

structure Entry (T : Type) where
  prev : Nat := 0
  next : Nat := 0
  item : T

/-- The pool of entries that lists share, and the objects of its slabs by
their handles. -/
structure EntryPool (T : Type) where
  slabs : Slabs := {}
  entries : Nat → Entry T

def SlabList.invalidHandle : Nat := 2 ^ 32 - 1

/-- The handles of its entries are of a pool that is passed along. -/
structure SlabList where
  front : Nat := SlabList.invalidHandle
  back : Nat := SlabList.invalidHandle
  size : Nat := 0

namespace SlabList

variable {T : Type}

section Operations

variable (extendSize : Nat)

def allocateEntry (pool : EntryPool T) : Except Fault (Nat × EntryPool T) := do
  let slabs := if pool.slabs.full then pool.slabs.extend (Slab.ofCapacity extendSize) else pool.slabs
  let (e, slabs) ← slabs.allocate
  return (e, { pool with slabs := slabs })

def freeEntry (pool : EntryPool T) (handle : Nat) : Except Fault (EntryPool T) := do
  check (handle ≠ invalidHandle) .assertion
  let slabs ← pool.slabs.free handle
  return { pool with slabs := slabs }

def getEntry (pool : EntryPool T) (handle : Nat) : Except Fault (Entry T) := do
  check (handle ≠ invalidHandle) .assertion
  pool.slabs.get handle
  return pool.entries handle

def put (pool : EntryPool T) (handle : Nat) (entry : Entry T) : EntryPool T :=
  { pool with entries := Function.update pool.entries handle entry }

def insertBefore (pool : EntryPool T) (l : SlabList) (p : Nat) :
    Except Fault (Nat × EntryPool T × SlabList) := do
  let (e, pool) ← allocateEntry extendSize pool
  let _ ← getEntry pool e
  if l.front = invalidHandle then do
    check (l.back = invalidHandle) .assertion
    check (p = invalidHandle) .assertion
    let pool := put pool e { pool.entries e with prev := invalidHandle, next := invalidHandle }
    return (e, pool, { front := e, back := e, size := (l.size + 1) % 2 ^ 32 })
  else do
    check (l.back ≠ invalidHandle) .assertion
    check (p ≠ invalidHandle) .assertion
    let _ ← getEntry pool p
    let pool := put pool e { pool.entries e with prev := (pool.entries p).prev }
    let pool := put pool p { pool.entries p with prev := e }
    let pool := put pool e { pool.entries e with next := p }
    return (e, pool, { l with
      front := if p = l.front then e else l.front
      size := (l.size + 1) % 2 ^ 32 })

def insertAfter (pool : EntryPool T) (l : SlabList) (p : Nat) :
    Except Fault (Nat × EntryPool T × SlabList) := do
  let (e, pool) ← allocateEntry extendSize pool
  let l := { l with size := (l.size + 1) % 2 ^ 32 }
  let _ ← getEntry pool e
  if l.front = invalidHandle then do
    check (l.back = invalidHandle) .assertion
    check (p = invalidHandle) .assertion
    let pool := put pool e { pool.entries e with prev := invalidHandle, next := invalidHandle }
    return (e, pool, { l with front := e, back := e })
  else do
    check (l.back ≠ invalidHandle) .assertion
    check (p ≠ invalidHandle) .assertion
    let _ ← getEntry pool p
    let pool := put pool e { pool.entries e with next := (pool.entries p).next }
    let pool := put pool p { pool.entries p with next := e }
    let pool := put pool e { pool.entries e with prev := p }
    return (e, pool, { l with back := if p = l.back then e else l.back })

def pushFront (pool : EntryPool T) (l : SlabList) : Except Fault (Nat × EntryPool T × SlabList) :=
  insertBefore extendSize pool l l.front

def pushBack (pool : EntryPool T) (l : SlabList) : Except Fault (Nat × EntryPool T × SlabList) :=
  insertAfter extendSize pool l l.back

def pushFrontItem (pool : EntryPool T) (l : SlabList) (item : T) :
    Except Fault (Nat × EntryPool T × SlabList) := do
  let (e, pool, l) ← pushFront extendSize pool l
  let _ ← getEntry pool e
  return (e, put pool e { pool.entries e with item := item }, l)

def pushBackItem (pool : EntryPool T) (l : SlabList) (item : T) :
    Except Fault (Nat × EntryPool T × SlabList) := do
  let (e, pool, l) ← pushBack extendSize pool l
  let _ ← getEntry pool e
  return (e, put pool e { pool.entries e with item := item }, l)

end Operations

def linkNext (pool : EntryPool T) (handle next : Nat) : Except Fault (EntryPool T) :=
  if handle = invalidHandle then .ok pool else do
    let entry ← getEntry pool handle
    return put pool handle { entry with next := next }

def linkPrev (pool : EntryPool T) (handle prev : Nat) : Except Fault (EntryPool T) :=
  if handle = invalidHandle then .ok pool else do
    let entry ← getEntry pool handle
    return put pool handle { entry with prev := prev }

/-- The links of the entry are read again after each write, as through a reference. -/
def erase (pool : EntryPool T) (l : SlabList) (e : Nat) : Except Fault (EntryPool T × SlabList) := do
  let entry ← getEntry pool e
  let pool ← linkNext pool entry.prev entry.next
  let entry := pool.entries e
  let pool ← linkPrev pool entry.next entry.prev
  let entry := pool.entries e
  let l := { l with
    front := if l.front = e then entry.next else l.front
    back := if l.back = e then entry.prev else l.back }
  let pool ← freeEntry pool e
  return (pool, { l with size := (l.size + 2 ^ 32 - 1) % 2 ^ 32 })

def popFront (pool : EntryPool T) (l : SlabList) : Except Fault (EntryPool T × SlabList) :=
  erase pool l l.front

def popBack (pool : EntryPool T) (l : SlabList) : Except Fault (EntryPool T × SlabList) :=
  erase pool l l.back

theorem put_keeps {β : Type} (f : Entry T → β) {pool : EntryPool T} {handle : Nat} {entry : Entry T}
    (hf : f entry = f (pool.entries handle)) (c : Nat) :
    f ((put pool handle entry).entries c) = f (pool.entries c) := by
  simp only [put, Function.update_apply]
  split_ifs with hc
  · rw [hf, hc]
  · rfl

def nextOf (pool : EntryPool T) (l : SlabList) : Nat → Nat :=
  Function.update (fun h => (pool.entries h).next) invalidHandle l.front

def prevOf (pool : EntryPool T) (l : SlabList) : Nat → Nat :=
  Function.update (fun h => (pool.entries h).prev) invalidHandle l.back

section Links

variable {pool : EntryPool T} {l : SlabList}

@[simp] theorem nextOf_invalid : nextOf pool l invalidHandle = l.front := Function.update_self ..

@[simp] theorem prevOf_invalid : prevOf pool l invalidHandle = l.back := Function.update_self ..

theorem nextOf_entry {h : Nat} (hne : h ≠ invalidHandle) : nextOf pool l h = (pool.entries h).next :=
  Function.update_of_ne hne ..

theorem prevOf_entry {h : Nat} (hne : h ≠ invalidHandle) : prevOf pool l h = (pool.entries h).prev :=
  Function.update_of_ne hne ..

theorem front_eq {x : Nat} {xs : List Nat} (h : Linked (nextOf pool l) (prevOf pool l) invalidHandle (x :: xs)) :
    l.front = x := by
  rw [← nextOf_invalid]
  exact h.front_eq

theorem back_eq {x : Nat} {xs : List Nat} (h : Linked (nextOf pool l) (prevOf pool l) invalidHandle (xs ++ [x])) :
    l.back = x := by
  rw [← prevOf_invalid]
  exact h.back_eq

end Links

section Specs

variable {extendSize : Nat} {pool : EntryPool T} {l : SlabList} {live : Set Nat} {xs : List Nat}

theorem getEntry_spec (h : Lends pool.slabs live) {e : Nat} (he : e ∈ live) :
    getEntry pool e = .ok (pool.entries e) := by
  have hvalid : e ≠ invalidHandle := (h.lt he).ne
  rw [getEntry, check_of hvalid, ok_bind, h.get he]
  rfl

theorem freeEntry_spec (h : Lends pool.slabs live) {e : Nat} (he : e ∈ live) :
    ∃ slabs, freeEntry pool e = .ok { pool with slabs := slabs } ∧ Lends slabs (live \ {e}) := by
  have hvalid : e ≠ invalidHandle := (h.lt he).ne
  obtain ⟨slabs, hfree, hlends⟩ := h.free he
  refine ⟨slabs, ?_, hlends⟩
  rw [freeEntry, check_of hvalid, ok_bind, hfree]
  rfl

theorem linkNext_spec (h : Lends pool.slabs live) {handle : Nat} (hm : handle = invalidHandle ∨ handle ∈ live)
    (next : Nat) :
    ∃ pool', linkNext pool handle next = .ok pool' ∧ pool'.slabs = pool.slabs ∧
      (∀ c, c ≠ invalidHandle → (pool'.entries c).next = if c = handle then next else (pool.entries c).next) ∧
      (∀ c, (pool'.entries c).prev = (pool.entries c).prev) ∧
      ∀ c, c = invalidHandle ∨ c ≠ handle → pool'.entries c = pool.entries c := by
  by_cases hvalid : handle = invalidHandle
  · rw [linkNext, if_pos hvalid]
    refine ⟨pool, rfl, rfl, fun c hc => (if_neg (hvalid ▸ hc)).symm, fun _ => rfl, fun _ _ => rfl⟩
  · rw [linkNext, if_neg hvalid, getEntry_spec h (hm.resolve_left hvalid), ok_bind]
    refine ⟨_, rfl, rfl, fun c _ => ?_, put_keeps Entry.prev rfl, fun c hc => ?_⟩
    · simp only [put, Function.update_apply]
      split_ifs <;> rfl
    · exact Function.update_of_ne (hc.elim (fun heq => heq ▸ Ne.symm hvalid) id) ..

theorem linkPrev_spec (h : Lends pool.slabs live) {handle : Nat} (hm : handle = invalidHandle ∨ handle ∈ live)
    (prev : Nat) :
    ∃ pool', linkPrev pool handle prev = .ok pool' ∧ pool'.slabs = pool.slabs ∧
      (∀ c, c ≠ invalidHandle → (pool'.entries c).prev = if c = handle then prev else (pool.entries c).prev) ∧
      (∀ c, (pool'.entries c).next = (pool.entries c).next) ∧
      ∀ c, c = invalidHandle ∨ c ≠ handle → pool'.entries c = pool.entries c := by
  by_cases hvalid : handle = invalidHandle
  · rw [linkPrev, if_pos hvalid]
    refine ⟨pool, rfl, rfl, fun c hc => (if_neg (hvalid ▸ hc)).symm, fun _ => rfl, fun _ _ => rfl⟩
  · rw [linkPrev, if_neg hvalid, getEntry_spec h (hm.resolve_left hvalid), ok_bind]
    refine ⟨_, rfl, rfl, fun c _ => ?_, put_keeps Entry.next rfl, fun c hc => ?_⟩
    · simp only [put, Function.update_apply]
      split_ifs <;> rfl
    · exact Function.update_of_ne (hc.elim (fun heq => heq ▸ Ne.symm hvalid) id) ..

/-- There is an entry left, or a slab index for another slab. -/
def HasRoom (slabs : Slabs) : Prop := slabs.full = true → slabs.slabs.length < 2 ^ 16

theorem allocateEntry_spec (hpos : 0 < extendSize) (hle : extendSize ≤ 32768) (h : Lends pool.slabs live)
    (hroom : HasRoom pool.slabs) :
    ∃ e slabs, allocateEntry extendSize pool = .ok (e, { pool with slabs := slabs }) ∧ e ∉ live ∧
      e ≠ invalidHandle ∧ Lends slabs (insert e live) ∧
      ∀ c ∈ insert e live, getEntry { pool with slabs := slabs } c = .ok (pool.entries c) := by
  obtain ⟨slabs, heq, hlends, hfull⟩ : ∃ slabs, (if pool.slabs.full then
      pool.slabs.extend (Slab.ofCapacity extendSize) else pool.slabs) = slabs ∧ Lends slabs live ∧
      slabs.full = false := by
    cases hfull : pool.slabs.full with
    | true => exact ⟨_, rfl, h.extend hpos hle (hroom hfull), by simp [Slabs.full, Slabs.extend]⟩
    | false => exact ⟨_, rfl, h, hfull⟩
  obtain ⟨e, slabs', hallocate, hnot, _, hlends'⟩ := hlends.allocate hfull
  refine ⟨e, slabs', ?_, hnot, (hlends'.lt (Set.mem_insert e live)).ne, hlends', fun c hc => getEntry_spec hlends' hc⟩
  rw [allocateEntry, heq, hallocate]
  rfl

theorem allocateEntry_none (h : Lends pool.slabs live) (hroom : ¬ HasRoom pool.slabs) :
    allocateEntry extendSize pool = .error .assertion := by
  rw [HasRoom, Classical.not_imp, not_lt] at hroom
  rw [allocateEntry, if_pos hroom.1, h.allocate_extend hroom.1 hroom.2]
  rfl

/-- A list and the entries of the pool that it links. -/
structure Strings (pool : EntryPool T) (l : SlabList) (xs : List Nat) (live : Set Nat) : Prop where
  lends : Lends pool.slabs live
  linked : Linked (nextOf pool l) (prevOf pool l) invalidHandle xs
  live : ∀ x ∈ xs, x ∈ live

theorem Strings.empty_iff (h : Strings pool l xs live) :
    (l.front = invalidHandle ↔ xs = []) ∧ (l.back = invalidHandle ↔ xs = []) := by
  have hnot := (List.nodup_cons.mp h.linked.nodup).1
  by_cases hnil : xs = []
  · subst hnil
    have hfront := h.linked.visits
    have hback := (h.linked.inverse (List.mem_singleton_self _) (List.mem_singleton_self _)).mp hfront
    rw [nextOf_invalid] at hfront
    rw [prevOf_invalid] at hback
    exact ⟨iff_of_true hfront rfl, iff_of_true hback rfl⟩
  · obtain ⟨hfront, hback⟩ := h.linked.ends_mem hnil
    rw [nextOf_invalid] at hfront
    rw [prevOf_invalid] at hback
    exact ⟨iff_of_false (fun heq => hnot (heq ▸ hfront)) hnil, iff_of_false (fun heq => hnot (heq ▸ hback)) hnil⟩

theorem Strings.insertBefore (h : Strings pool l xs live) (hpos : 0 < extendSize) (hle : extendSize ≤ 32768)
    (hroom : HasRoom pool.slabs) {p : Nat} (hp : p = l.front ∨ p ∈ xs) :
    ∃ e pool' l', insertBefore extendSize pool l p = .ok (e, pool', l') ∧ e ∉ live ∧
      Lends pool'.slabs (insert e live) ∧ l'.size = (l.size + 1) % 2 ^ 32 ∧
      nextOf pool' l' = Function.update
        (if p = l.front then Function.update (nextOf pool l) invalidHandle e else nextOf pool l) e p ∧
      prevOf pool' l' = Function.update (Function.update (prevOf pool l) p e) e (prevOf pool l p) ∧
      ∀ c, c ≠ e → c ∉ xs → pool'.entries c = pool.entries c := by
  obtain ⟨e, slabs, hallocate, hnot, hvalid, hlends, hreads⟩ := allocateEntry_spec hpos hle h.lends hroom
  have hreadNew := hreads e (Set.mem_insert e live)
  obtain ⟨hfrontIff, hbackIff⟩ := h.empty_iff
  rw [SlabList.insertBefore, hallocate]
  simp only [ok_bind, hreadNew]
  by_cases hnil : xs = []
  · have hfront := hfrontIff.mpr hnil
    have hback := hbackIff.mpr hnil
    have hpe : p = invalidHandle := by
      rcases hp with rfl | hp
      · exact hfront
      · rw [hnil] at hp
        exact absurd hp List.not_mem_nil
    rw [if_pos hfront, check_of hback, ok_bind, check_of hpe, ok_bind]
    refine ⟨e, _, _, rfl, hnot, hlends, rfl, ?_, ?_, fun c hc _ => Function.update_of_ne hc ..⟩
    · rw [if_pos (hpe.trans hfront.symm), hpe]
      funext c
      simp only [nextOf, put, Function.update_apply]
      split_ifs <;> simp_all
    · rw [hpe, prevOf_invalid, hback]
      funext c
      simp only [prevOf, put, Function.update_apply]
      split_ifs <;> simp_all
  · have hfront : l.front ≠ invalidHandle := fun heq => hnil (hfrontIff.mp heq)
    have hback : l.back ≠ invalidHandle := fun heq => hnil (hbackIff.mp heq)
    have hpxs : p ∈ xs := by
      rcases hp with rfl | hp
      · have hends := (h.linked.ends_mem hnil).1
        rwa [nextOf_invalid] at hends
      · exact hp
    have hpe : p ≠ e := fun heq => hnot (heq ▸ h.live p hpxs)
    have hpvalid : p ≠ invalidHandle := (h.lends.lt (h.live p hpxs)).ne
    have hread := hreads p (Set.mem_insert_of_mem e (h.live p hpxs))
    rw [if_neg hfront, check_of hback, ok_bind, check_of hpvalid, ok_bind, hread]
    refine ⟨e, _, _, rfl, hnot, hlends, rfl, ?_, ?_, fun c hc hcxs => ?_⟩
    · funext c
      simp only [nextOf, put, Function.update_apply]
      split_ifs <;> simp_all
    · rw [prevOf_entry hpvalid]
      funext c
      simp only [prevOf, put, Function.update_apply]
      split_ifs <;> simp_all
    · have hcp : c ≠ p := fun heq => hcxs (heq ▸ hpxs)
      simp only [put, Function.update_of_ne hc, Function.update_of_ne hcp]

theorem Strings.insertAfter (h : Strings pool l xs live) (hpos : 0 < extendSize) (hle : extendSize ≤ 32768)
    (hroom : HasRoom pool.slabs) {p : Nat} (hp : p = l.back ∨ p ∈ xs) :
    ∃ e pool' l', insertAfter extendSize pool l p = .ok (e, pool', l') ∧ e ∉ live ∧
      Lends pool'.slabs (insert e live) ∧ l'.size = (l.size + 1) % 2 ^ 32 ∧
      nextOf pool' l' = Function.update (Function.update (nextOf pool l) p e) e (nextOf pool l p) ∧
      prevOf pool' l' = Function.update
        (if p = l.back then Function.update (prevOf pool l) invalidHandle e else prevOf pool l) e p ∧
      ∀ c, c ≠ e → c ∉ xs → pool'.entries c = pool.entries c := by
  obtain ⟨e, slabs, hallocate, hnot, hvalid, hlends, hreads⟩ := allocateEntry_spec hpos hle h.lends hroom
  have hreadNew := hreads e (Set.mem_insert e live)
  obtain ⟨hfrontIff, hbackIff⟩ := h.empty_iff
  rw [SlabList.insertAfter, hallocate]
  simp only [ok_bind, hreadNew]
  by_cases hnil : xs = []
  · have hfront := hfrontIff.mpr hnil
    have hback := hbackIff.mpr hnil
    have hpe : p = invalidHandle := by
      rcases hp with rfl | hp
      · exact hback
      · rw [hnil] at hp
        exact absurd hp List.not_mem_nil
    rw [if_pos hfront, check_of hback, ok_bind, check_of hpe, ok_bind]
    refine ⟨e, _, _, rfl, hnot, hlends, rfl, ?_, ?_, fun c hc _ => Function.update_of_ne hc ..⟩
    · rw [hpe, nextOf_invalid, hfront]
      funext c
      simp only [nextOf, put, Function.update_apply]
      split_ifs <;> simp_all
    · rw [if_pos (hpe.trans hback.symm), hpe]
      funext c
      simp only [prevOf, put, Function.update_apply]
      split_ifs <;> simp_all
  · have hfront : l.front ≠ invalidHandle := fun heq => hnil (hfrontIff.mp heq)
    have hback : l.back ≠ invalidHandle := fun heq => hnil (hbackIff.mp heq)
    have hpxs : p ∈ xs := by
      rcases hp with rfl | hp
      · have hends := (h.linked.ends_mem hnil).2
        rwa [prevOf_invalid] at hends
      · exact hp
    have hpe : p ≠ e := fun heq => hnot (heq ▸ h.live p hpxs)
    have hpvalid : p ≠ invalidHandle := (h.lends.lt (h.live p hpxs)).ne
    have hread := hreads p (Set.mem_insert_of_mem e (h.live p hpxs))
    rw [if_neg hfront, check_of hback, ok_bind, check_of hpvalid, ok_bind, hread]
    refine ⟨e, _, _, rfl, hnot, hlends, rfl, ?_, ?_, fun c hc hcxs => ?_⟩
    · rw [nextOf_entry hpvalid]
      funext c
      simp only [nextOf, put, Function.update_apply]
      split_ifs <;> simp_all
    · funext c
      simp only [prevOf, put, Function.update_apply]
      split_ifs <;> simp_all
    · have hcp : c ≠ p := fun heq => hcxs (heq ▸ hpxs)
      simp only [put, Function.update_of_ne hc, Function.update_of_ne hcp]

theorem Strings.erase (h : Strings pool l xs live) {e : Nat} (he : e ∈ xs) :
    ∃ pool' l', erase pool l e = .ok (pool', l') ∧ Lends pool'.slabs (live \ {e}) ∧
      l'.size = (l.size + 2 ^ 32 - 1) % 2 ^ 32 ∧
      (∀ c, c ≠ e → nextOf pool' l' c = if c = prevOf pool l e then nextOf pool l e else nextOf pool l c) ∧
      (∀ c, c ≠ e → prevOf pool' l' c = if c = nextOf pool l e then prevOf pool l e else prevOf pool l c) ∧
      ∀ c, c ∉ xs → pool'.entries c = pool.entries c := by
  have hmem : e ∈ invalidHandle :: xs := List.mem_cons_of_mem _ he
  have hstop : invalidHandle ∈ invalidHandle :: xs := List.mem_cons_self ..
  have hvalid : e ≠ invalidHandle := (h.lends.lt (h.live e he)).ne
  have hnext : nextOf pool l e = (pool.entries e).next := nextOf_entry hvalid
  have hprev : prevOf pool l e = (pool.entries e).prev := prevOf_entry hvalid
  have hneighbour : ∀ c, c ∈ invalidHandle :: xs → c = invalidHandle ∨ c ∈ live := fun c hc =>
    (List.mem_cons.mp hc).imp_right (h.live c)
  have hnextMem : (pool.entries e).next ∈ invalidHandle :: xs := hnext ▸ (h.linked.prev_next hmem).1
  have hprevMem : (pool.entries e).prev ∈ invalidHandle :: xs := hprev ▸ (h.linked.next_prev hmem).1
  -- the ends of the list are read before any write
  have hfront : l.front = e ↔ (pool.entries e).prev = invalidHandle := by
    rw [← hprev, ← h.linked.inverse hstop hmem, nextOf_invalid]
  have hback : l.back = e ↔ (pool.entries e).next = invalidHandle := by
    rw [← hnext, h.linked.inverse hmem hstop, prevOf_invalid]
  have hnextNe : (pool.entries e).next ≠ e := hnext ▸ h.linked.next_ne he
  have hprevNe : e ≠ (pool.entries e).prev := by
    intro heq
    exact h.linked.next_ne he ((h.linked.inverse hmem hmem).mpr (hprev.trans heq.symm))
  obtain ⟨pool₁, hlink₁, hslabs₁, hnext₁, hprev₁, hsame₁⟩ :=
    linkNext_spec h.lends (hneighbour _ hprevMem) (pool.entries e).next
  have hentry₁ : pool₁.entries e = pool.entries e := hsame₁ e (Or.inr hprevNe)
  obtain ⟨pool₂, hlink₂, hslabs₂, hprev₂, hnext₂, hsame₂⟩ :=
    linkPrev_spec (hslabs₁ ▸ h.lends) (hneighbour _ hnextMem) (pool.entries e).prev
  have hentry₂ : pool₂.entries e = pool.entries e := (hsame₂ e (Or.inr hnextNe.symm)).trans hentry₁
  have hlends₂ : Lends pool₂.slabs live := by
    rw [hslabs₂, hslabs₁]
    exact h.lends
  obtain ⟨slabs, hfree, hlends⟩ := freeEntry_spec hlends₂ (h.live e he)
  rw [SlabList.erase, getEntry_spec h.lends (h.live e he), ok_bind, hlink₁, ok_bind]
  simp only [hentry₁, hlink₂, ok_bind, hentry₂, hfree]
  refine ⟨_, _, rfl, hlends, rfl, fun c hc => ?_, fun c hc => ?_, fun c hc => ?_⟩
  · rw [hprev, hnext]
    by_cases hinvalid : c = invalidHandle
    · rw [hinvalid, nextOf_invalid, nextOf_invalid]
      exact if_congr (hfront.trans eq_comm) rfl rfl
    · rw [nextOf_entry hinvalid, nextOf_entry hinvalid]
      exact (hnext₂ c).trans (hnext₁ c hinvalid)
  · rw [hprev, hnext]
    by_cases hinvalid : c = invalidHandle
    · rw [hinvalid, prevOf_invalid, prevOf_invalid]
      exact if_congr (hback.trans eq_comm) rfl rfl
    · rw [prevOf_entry hinvalid, prevOf_entry hinvalid]
      exact (hprev₂ c hinvalid).trans (if_congr Iff.rfl rfl (hprev₁ c))
  · have hother : ∀ d, d ∈ invalidHandle :: xs → c = invalidHandle ∨ c ≠ d := by
      intro d hd
      by_cases hcd : c = d
      · subst hcd
        exact (List.mem_cons.mp hd).imp_right (fun hm => absurd hm hc)
      · exact Or.inr hcd
    exact (hsame₂ c (hother _ hnextMem)).trans (hsame₁ c (hother _ hprevMem))

end Specs

end SlabList

end Tyrdbs
