import Tyrdbs.Common.Slabs
import Tyrdbs.Common.WtinylfuOperations
import Tyrdbs.Common.WtinylfuRuns
import Tyrdbs.Storage.Disk

namespace Tyrdbs.Storage

open Outcome

/-- What stops the program while pages are handed out. -/
inductive Stop
  | cache (fault : Wtinylfu.Fault)
  | pages (fault : Slab.Fault)
  | latch
  | assertion
  deriving DecidableEq

/-- std::hash of an integer. -/
def hash64 (key : UInt64) : UInt64 := key

/-- The memory pages and which of them hold pages of files. -/
structure PageCache where
  pages : Slabs
  cache : Wtinylfu UInt64 Nat

namespace PageCache

def parts : Nat → Nat → List Nat
  | 0, _ => []
  | rounds + 1, totalSize =>
      if totalSize = 0 then []
      else
        let partSize := min totalSize (1 <<< 27)
        partSize >>> pageBits :: parts rounds (totalSize - partSize)

def construct (clzOfZero : UInt32) (cacheBits : Nat) : PageCache where
  pages := Slabs.ofCapacities (parts (1 <<< cacheBits) (1 <<< (cacheBits + pageBits)))
  cache := Wtinylfu.construct clzOfZero (1 <<< cacheBits) invalidHandle

def free (c : PageCache) (page : Nat) : Except Stop PageCache := do
  let pages ← (c.pages.free page).mapError .pages
  return { c with pages := pages }

def freeUnlessInvalid (c : PageCache) (page : Nat) : Except Stop PageCache :=
  if page ≠ invalidHandle then c.free page else .ok c

def allocatePage (c : PageCache) : Except Stop (Nat × PageCache) := do
  let (page, pages) ← c.pages.allocate.mapError .pages
  return (page, { c with pages := pages })

def allocate (c : PageCache) : Except Stop (Nat × PageCache) := do
  if c.pages.full then
    let (oldPage, cache) ← (c.cache.evict hash64).mapError .cache
    let c ← freeUnlessInvalid { c with cache := cache } oldPage
    c.allocatePage
  else c.allocatePage

def add (c : PageCache) (key : UInt64) (page : Nat) : Except Stop PageCache := do
  let (oldPage, cache) ← (c.cache.set hash64 key page).mapError .cache
  freeUnlessInvalid { c with cache := cache } oldPage

def get (c : PageCache) (key : UInt64) : Except Stop (Nat × PageCache) := do
  let (page, cache) ← (c.cache.get hash64 key).mapError .cache
  return (page, { c with cache := cache })

def cached (c : PageCache) : Multiset Nat := c.cache.residents.map Prod.snd

/-- Every page is free, in the cache, or held by someone, and only one of
these. -/
structure Owned (c : PageCache) (held : Multiset Nat) : Prop where
  consistent : c.cache.Consistent
  emptyItem : c.cache.emptyItem = invalidHandle
  split : ∃ free, c.pages.Holds free ∧ c.pages.all = free + c.cached + held
  nodup : c.pages.all.Nodup

variable {c : PageCache} {held : Multiset Nat} {page : Nat}

theorem yields_mapError {α ε ε' : Type} {P : α → Prop} {x : Except ε α}
    (h : Yields (fun _ => False) P x) (f : ε → ε') : Yields (fun _ => False) P (x.mapError f) := by
  obtain ⟨a, rfl, ha⟩ := h.exists_ok
  exact ha

theorem Owned.valid (h : Owned c held) (hm : page ∈ c.pages.all) : page ≠ invalidHandle := by
  obtain ⟨free, ⟨frees, htracks, _⟩, _⟩ := h.split
  obtain ⟨i, x, sl, hi, hx, rfl⟩ := Slabs.mem_all hm
  have hcap := (htracks.slab i sl hi).2.capacity_le
  rw [Slabs.handleOf_eq i (by omega), invalidHandle]
  omega

theorem Owned.cached_mem (h : Owned c held) (hm : page ∈ c.cached) : page ∈ c.pages.all := by
  obtain ⟨free, _, hsplit⟩ := h.split
  rw [hsplit]
  exact Multiset.mem_add.mpr (Or.inl (Multiset.mem_add.mpr (Or.inr hm)))

theorem Owned.held_mem (h : Owned c held) (hm : page ∈ held) : page ∈ c.pages.all := by
  obtain ⟨free, _, hsplit⟩ := h.split
  rw [hsplit]
  exact Multiset.mem_add.mpr (Or.inr hm)

theorem Owned.held_nodup (h : Owned c held) : held.Nodup := by
  obtain ⟨free, _, hsplit⟩ := h.split
  exact (Multiset.nodup_add.mp (hsplit ▸ h.nodup)).2.1

theorem Owned.not_cached (h : Owned c held) (hm : page ∈ held) : page ∉ c.cached := by
  obtain ⟨free, _, hsplit⟩ := h.split
  have hdis := (Multiset.nodup_add.mp (hsplit ▸ h.nodup)).2.2
  exact fun hc => Multiset.disjoint_left.mp hdis (Multiset.mem_add.mpr (Or.inr hc)) hm

theorem Owned.not_free (h : Owned c held) (hm : page ∈ held) {free : Multiset Nat}
    (hsplit : c.pages.all = free + c.cached + held) : page ∉ free := by
  have hdis := (Multiset.nodup_add.mp (hsplit ▸ h.nodup)).2.2
  exact fun hf => Multiset.disjoint_left.mp hdis (Multiset.mem_add.mpr (Or.inl hf)) hm

theorem get_yields (h : Owned c held) {key : UInt64} (hkey : key ≠ 0) :
    Yields (fun _ => False) (fun r => Owned r.2 held ∧ r.2.pages = c.pages ∧
      r.2.cache.residents = c.cache.residents ∧
      ((r.1 = invalidHandle ∧ ∀ x, (key, x) ∉ c.cache.residents) ∨ (key, r.1) ∈ c.cache.residents))
      (c.get key) := by
  refine Yields.bind (yields_mapError (Wtinylfu.get_yields h.consistent hkey) _) ?_
  rintro ⟨x, d⟩ ⟨hd, hsame, hres, hcases⟩
  have hcached : (⟨c.pages, d⟩ : PageCache).cached = c.cached := congrArg (Multiset.map Prod.snd) hres
  refine ⟨⟨hd, hsame.emptyItem.trans h.emptyItem, ?_, h.nodup⟩, rfl, hres, ?_⟩
  · obtain ⟨free, hholds, hsplit⟩ := h.split
    exact ⟨free, hholds, by rw [hcached]; exact hsplit⟩
  · rw [← h.emptyItem]
    exact hcases

theorem free_yields (h : Owned c (page ::ₘ held)) :
    Yields (fun _ => False) (fun c' => Owned c' held ∧ c'.cache = c.cache ∧ c'.pages.all = c.pages.all)
      (c.free page) := by
  obtain ⟨free, hholds, hsplit⟩ := h.split
  have hm : page ∈ c.pages.all := h.held_mem (Multiset.mem_cons_self ..)
  have hnot : page ∉ free := h.not_free (Multiset.mem_cons_self ..) hsplit
  obtain ⟨pages, hfree, hholds', hall⟩ := hholds.free hm hnot
  rw [PageCache.free, hfree]
  refine ⟨⟨h.consistent, h.emptyItem, ⟨_, hholds', ?_⟩, hall ▸ h.nodup⟩, rfl, hall⟩
  rw [hall, hsplit, Multiset.add_cons, Multiset.cons_add, Multiset.cons_add]
  rfl

theorem allocatePage_yields {free : Multiset Nat} (h : Owned c held) (hholds : c.pages.Holds free)
    (hsplit : c.pages.all = free + c.cached + held) (hne : free ≠ 0) :
    Yields (fun _ => False) (fun r => Owned r.2 (r.1 ::ₘ held) ∧ r.2.cache = c.cache ∧
      r.2.pages.all = c.pages.all) c.allocatePage := by
  obtain ⟨page, rest, pages, hallocate, rfl, hholds', hall⟩ := hholds.allocate hne
  rw [allocatePage, hallocate]
  refine ⟨⟨h.consistent, h.emptyItem, ⟨_, hholds', ?_⟩, hall ▸ h.nodup⟩, rfl, hall⟩
  rw [hall, hsplit, Multiset.add_cons, Multiset.cons_add, Multiset.cons_add]
  rfl

theorem freeUnlessInvalid_yields (h : Owned c (page ::ₘ held)) :
    Yields (fun _ => False) (fun c' => Owned c' held ∧ c'.cache = c.cache ∧ c'.pages.all = c.pages.all)
      (c.freeUnlessInvalid page) := by
  have hvalid : page ≠ invalidHandle := h.valid (h.held_mem (Multiset.mem_cons_self ..))
  rw [freeUnlessInvalid, if_pos hvalid]
  exact free_yields h

theorem card_split {free : Multiset Nat} (hsplit : c.pages.all = free + c.cached + held) :
    c.pages.all.card = free.card + c.cached.card + held.card := by
  rw [hsplit, Multiset.card_add, Multiset.card_add]

/-- What evictions leave is what was there, and every page is still accounted
for. -/
def Shrinks (c c' : PageCache) : Prop :=
  c'.cache.residents ≤ c.cache.residents ∧ c'.pages.all = c.pages.all

/-- A page can be had as long as not all of them are held. -/
theorem allocate_yields (h : Owned c held) (hroom : held.card < c.pages.all.card) :
    Yields (fun _ => False) (fun r => Owned r.2 (r.1 ::ₘ held) ∧ Shrinks c r.2) c.allocate := by
  obtain ⟨free, hholds, hsplit⟩ := h.split
  rw [allocate]
  by_cases hfull : c.pages.full = true
  · have hzero := hholds.full_iff.mp hfull
    subst hzero
    rw [if_pos hfull]
    refine Yields.bind (yields_mapError (Wtinylfu.evict_yields h.consistent) _) ?_
    rintro ⟨x, d⟩ ⟨hd, hsame, ⟨_, hres, _⟩ | ⟨k, hres⟩⟩
    · have hcard := card_split hsplit
      rw [cached, hres] at hcard
      simp at hcard
      omega
    · have hcached : c.cached = x ::ₘ (⟨c.pages, d⟩ : PageCache).cached := by
        rw [cached, hres, Multiset.map_cons]
        rfl
      have hd' : Owned ⟨c.pages, d⟩ (x ::ₘ held) := by
        refine ⟨hd, hsame.emptyItem.trans h.emptyItem, ⟨0, hholds, ?_⟩, h.nodup⟩
        rw [hcached] at hsplit
        rw [Multiset.add_cons, ← Multiset.cons_add, ← Multiset.add_cons]
        exact hsplit
      refine (freeUnlessInvalid_yields hd').bind ?_
      rintro e ⟨he, hcache, hall⟩
      obtain ⟨free', hholds', hsplit'⟩ := he.split
      have hne : free' ≠ 0 := by
        rintro rfl
        have hcard := card_split hsplit
        have hcard' := card_split hsplit'
        have hsame : e.cached = (⟨c.pages, d⟩ : PageCache).cached := by rw [cached, hcache]; rfl
        rw [hall] at hcard'
        rw [hsame] at hcard'
        rw [hcached, Multiset.card_cons] at hcard
        have hcard' : c.pages.all.card = _ := hcard'
        omega
      refine (allocatePage_yields he hholds' hsplit' hne).mono ?_
      rintro ⟨p, e'⟩ ⟨he', hcache', hall'⟩
      refine ⟨he', ?_, hall'.trans hall⟩
      rw [hcache', hcache, hres]
      exact Multiset.le_cons_self _ _
  · rw [if_neg hfull]
    have hne : free ≠ 0 := fun hz => hfull (hholds.full_iff.mpr hz)
    refine (allocatePage_yields h hholds hsplit hne).mono ?_
    rintro ⟨p, e⟩ ⟨he, hcache, hall⟩
    exact ⟨he, by rw [hcache], hall⟩

theorem allocate_fails (h : Owned c held) (hnone : held.card = c.pages.all.card) :
    c.allocate = .error (.pages .assertion) := by
  obtain ⟨free, hholds, hsplit⟩ := h.split
  have hcard := card_split hsplit
  have hzero : free = 0 := Multiset.card_eq_zero.mp (by omega)
  have hcached : c.cached = 0 := Multiset.card_eq_zero.mp (by omega)
  subst hzero
  have hempty : c.cache.residents = 0 := by
    rw [cached] at hcached
    exact Multiset.map_eq_zero.mp hcached
  obtain ⟨⟨x, d⟩, hevict, _, _, hcases⟩ := (@Wtinylfu.evict_yields _ _ hash64 _ _ h.consistent).exists_ok
  rcases hcases with ⟨hx, _, hd⟩ | ⟨k, hres⟩
  · have hx : x = invalidHandle := hx.trans h.emptyItem
    have hd : d = c.cache := hd
    rw [allocate, if_pos (hholds.full_iff.mpr rfl), hevict, hx, hd]
    change (do let c ← freeUnlessInvalid c invalidHandle; c.allocatePage) = _
    rw [freeUnlessInvalid, if_neg (not_not.mpr rfl), ok_bind, allocatePage, hholds.allocate_none]
    rfl
  · rw [hempty] at hres
    exact absurd hres.symm (Multiset.cons_ne_zero)

/-- The page of an absent key enters the cache; what it displaces is free. -/
theorem add_yields {key : UInt64} (h : Owned c (page ::ₘ held)) (hkey : key ≠ 0)
    (habsent : ∀ x, (key, x) ∉ c.cache.residents) :
    Yields (fun _ => False) (fun c' => Owned c' held ∧ c'.pages.all = c.pages.all ∧
      (key, page) ∈ c'.cache.residents ∧ c'.cache.residents ≤ (key, page) ::ₘ c.cache.residents)
      (c.add key page) := by
  have hnone : c.cache.map key = none := by
    rw [← Option.not_isSome_iff_eq_none, Wtinylfu.isSome_map_iff h.consistent.toLinked]
    exact fun ⟨x, hx⟩ => habsent x hx
  refine Yields.bind (yields_mapError (Wtinylfu.set_yields h.consistent hkey hnone) _) ?_
  rintro ⟨x, e⟩ ⟨he, hsame, d, hback, hres⟩
  obtain ⟨free, hholds, hsplit⟩ := h.split
  have hempty : e.emptyItem = invalidHandle := hsame.emptyItem.trans h.emptyItem
  have hres : e.residents = (key, page) ::ₘ d.residents := hres
  have hcached : (⟨c.pages, e⟩ : PageCache).cached = page ::ₘ d.residents.map Prod.snd := by
    rw [cached, hres, Multiset.map_cons]
  have hmem : (key, page) ∈ e.residents := hres ▸ Multiset.mem_cons_self ..
  change Yields _ _ (freeUnlessInvalid ⟨c.pages, e⟩ x)
  rcases hback with ⟨hx, hsub⟩ | ⟨k, hsub⟩
  · have hx : x = invalidHandle := hx.trans h.emptyItem
    rw [freeUnlessInvalid, if_neg (not_not.mpr hx)]
    refine ⟨⟨he, hempty, ⟨free, hholds, ?_⟩, h.nodup⟩, rfl, hmem, ?_⟩
    · rw [hcached, ← hsub, Multiset.add_cons, Multiset.cons_add, ← Multiset.add_cons]
      exact hsplit
    · change e.residents ≤ _
      rw [hres, hsub]
  · have hown : Owned ⟨c.pages, e⟩ (x ::ₘ held) := by
      refine ⟨he, hempty, ⟨free, hholds, ?_⟩, h.nodup⟩
      have hold : c.cached = x ::ₘ d.residents.map Prod.snd := by
        rw [cached, hsub, Multiset.map_cons]
      rw [hold] at hsplit
      rw [hcached]
      refine hsplit.trans ?_
      simp only [Multiset.add_cons, Multiset.cons_add]
      exact Multiset.cons_swap ..
    refine (freeUnlessInvalid_yields hown).mono ?_
    rintro c' ⟨hc', hcache, hall⟩
    refine ⟨hc', hall, hcache ▸ hmem, ?_⟩
    rw [hcache]
    change e.residents ≤ _
    rw [hres, hsub]
    exact Multiset.cons_le_cons _ (Multiset.le_cons_self _ _)

end PageCache

end Tyrdbs.Storage
