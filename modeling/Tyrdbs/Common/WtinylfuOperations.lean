import Tyrdbs.Common.WtinylfuInvariants

namespace Tyrdbs.Wtinylfu

open Outcome

variable {Key Item : Type} {hash : Key → UInt64} {c c' : Wtinylfu Key Item}

/-- An operation drops nothing and returns the empty item, or hands back the
item it drops. -/
def HandsBack (c c' : Wtinylfu Key Item) (x : Item) : Prop :=
  (x = c.emptyItem ∧ c.residents = c'.residents) ∨ ∃ k, c.residents = (k, x) ::ₘ c'.residents

theorem HandsBack.subset {x : Item} (h : HandsBack c c' x) : c'.residents ⊆ c.residents := by
  rcases h with ⟨_, h⟩ | ⟨k, h⟩
  · exact h ▸ Multiset.Subset.refl _
  · rw [h]
    exact Multiset.subset_cons _ _

theorem map_eq_none_of_subset (h : Linked c) (h' : Linked c') (hsub : c'.residents ⊆ c.residents) {k : Key}
    (hk : c.map k = none) : c'.map k = none := by
  cases hk' : c'.map k with
  | none => rfl
  | some it =>
      obtain ⟨e, he, rfl⟩ := h'.pointed k it hk'
      have hmem := hsub (h'.mem_residents.mpr ⟨it, e, hk', he, rfl⟩)
      obtain ⟨it', _, hmap, _⟩ := h.mem_residents.mp hmem
      rw [hk] at hmap
      cases hmap

theorem Consistent.items_lt (h : Consistent c) (l : Location) : (c.lru l).items + 1 < 2 ^ 32 := by
  have hb := h.bounded l
  have hr := (h.roomy l).2
  omega

theorem increment_linked (h : Linked c) (k : Key) : Linked (c.increment hash k) :=
  ⟨h.nodup, h.tagged, h.listed, h.mapped, h.pointed, h.counted, h.below⟩

/-- A hit moves the element, nothing else. -/
def Touched (c c' : Wtinylfu Key Item) (it : Nat) (x : Item) : Prop :=
  Consistent c' ∧ SameBounds c c' ∧ c'.residents = c.residents ∧ ∃ e, c'.nodes it = some e ∧ e.item = x

theorem Touched.of_increment {it : Nat} {x : Item} {k : Key} (h : Touched (c.increment hash k) c' it x) :
    Touched c c' it x :=
  ⟨h.1, ⟨h.2.1.emptyItem, h.2.1.maxItems⟩, h.2.2.1, h.2.2.2⟩

theorem relocate_touched {it : Nat} {e : Entry Key Item} (h : Linked c) (hr : Roomy c)
    (hb : ∀ l, (c.lru l).items ≤ (c.lru l).maxItems) (he : c.nodes it = some e) (l : Location)
    (hfit : l = e.location ∨ (c.lru l).items < (c.lru l).maxItems) :
    Touched c (c.relocate it l e.location) it e.item := by
  have hlt : ∀ l, (c.lru l).items + 1 < 2 ^ 32 := fun l => by
    have h1 := hb l
    have h2 := (hr l).2
    omega
  have hsame : SameBounds c (c.relocate it l e.location) := relocate_sameBounds l e.location
  refine ⟨⟨relocate_linked h he hlt l, hsame.roomy hr, fun k => ?_⟩, hsame, relocate_residents h he l,
    _, (relocate_nodes he l e.location it).trans (if_pos rfl), rfl⟩
  rw [hsame.maxItems, relocate_items h he hlt]
  have hk := hb k
  by_cases hl : l = e.location
  · rw [if_pos hl]
    exact hk
  · rw [if_neg hl]
    have hfit := hfit.resolve_left hl
    by_cases hkl : k = l
    · rw [if_pos hkl, hkl]
      exact hfit
    · rw [if_neg hkl]
      split <;> omega

theorem swap_touched {it : Nat} {e : Entry Key Item} (h : Consistent c) (he : c.nodes it = some e)
    (hloc : e.location = .mainA1) (hfull : (c.lru .mainA2).items = (c.lru .mainA2).maxItems) :
    ∃ it1, (c.relocate it .mainA2 .mainA1).evictionCandidate .mainA2 = .ok it1 ∧
      Touched c ((c.relocate it .mainA2 .mainA1).relocate it1 .mainA1 .mainA2) it e.item := by
  have hmoved := relocate_linked h.toLinked he h.items_lt .mainA2
  have hitems : ∀ k, ((c.relocate it .mainA2 .mainA1).lru k).items =
      if k = .mainA2 then (c.lru k).items + 1 else if k = .mainA1 then (c.lru k).items - 1
      else (c.lru k).items := by
    intro k
    have hk := relocate_items h.toLinked he h.items_lt .mainA2 k
    rwa [hloc, if_neg (by decide)] at hk
  have hsame : SameBounds c (c.relocate it .mainA2 .mainA1) := relocate_sameBounds _ _
  have hres := relocate_residents h.toLinked he .mainA2
  have hpos := h.items_pos he
  rw [hloc] at hmoved hres hpos
  have hne : ((c.relocate it .mainA2 .mainA1).lru .mainA2).items ≠ 0 := by
    rw [hitems, if_pos rfl]
    omega
  have hlt : ∀ k, ((c.relocate it .mainA2 .mainA1).lru k).items + 1 < 2 ^ 32 := by
    intro k
    have hb := h.bounded k
    have hr := (h.roomy k).2
    rw [hitems]
    split
    · omega
    · split <;> omega
  obtain ⟨it1, e1, hlast, he1, hloc1⟩ := exists_candidate hmoved hne
  have hlinked := relocate_linked hmoved he1 hlt .mainA1
  have hres' := relocate_residents hmoved he1 .mainA1
  rw [hloc1] at hlinked hres'
  have hsame' : SameBounds c ((c.relocate it .mainA2 .mainA1).relocate it1 .mainA1 .mainA2) :=
    hsame.trans (relocate_sameBounds _ _)
  refine ⟨it1, evictionCandidate_eq hlast, ⟨hlinked, hsame'.roomy h.roomy, fun k => ?_⟩, hsame', ?_, ?_⟩
  · have hk := relocate_items hmoved he1 hlt .mainA1 k
    rw [hloc1, if_neg (by decide), hitems] at hk
    rw [hsame'.maxItems, hk]
    have hb := h.bounded k
    cases k <;> simp <;> omega
  · exact hres'.trans hres
  · have hfirst : (c.relocate it .mainA2 .mainA1).nodes it = some { e with location := .mainA2 } :=
      (relocate_nodes he .mainA2 .mainA1 it).trans (if_pos rfl)
    have hsecond := relocate_nodes he1 .mainA1 .mainA2 it
    by_cases hsame : it = it1
    · rw [if_pos hsame] at hsecond
      rw [← hsame, hfirst, Option.some.injEq] at he1
      exact ⟨_, hsecond, by rw [← he1]⟩
    · rw [if_neg hsame, hfirst] at hsecond
      exact ⟨_, hsecond, rfl⟩

theorem touch_touched {it : Nat} {e : Entry Key Item} (h : Consistent c) (he : c.nodes it = some e) :
    Yields (fun _ => False) (fun c' => Touched c c' it e.item) (c.touch hash it) := by
  have h1 : Consistent (c.increment hash e.key) := ⟨increment_linked h.toLinked e.key, h.roomy, h.bounded⟩
  have he1 : (c.increment hash e.key).nodes it = some e := he
  rw [touch, deref_eq he, ok_bind]
  cases hloc : e.location with
  | window =>
      have hstep := relocate_touched h1.toLinked h1.roomy h1.bounded he1 .window (Or.inl hloc.symm)
      rw [hloc, relocate] at hstep
      rw [← hloc, setLocation_self he1, hloc] at hstep
      exact hstep.of_increment
  | mainA2 =>
      have hstep := relocate_touched h1.toLinked h1.roomy h1.bounded he1 .mainA2 (Or.inl hloc.symm)
      rw [hloc, relocate] at hstep
      rw [← hloc, setLocation_self he1, hloc] at hstep
      exact hstep.of_increment
  | mainA1 =>
      by_cases hfull : (c.lru .mainA2).items = (c.lru .mainA2).maxItems
      · obtain ⟨it1, hcand, hstep⟩ := swap_touched h1 he1 hloc hfull
        have hisFull : (c.increment hash e.key).isFull .mainA2 = true := decide_eq_true hfull
        have hcand : (((c.increment hash e.key).setLocation it .mainA2).lruMove .mainA2 it
            .mainA1).evictionCandidate .mainA2 = .ok it1 := hcand
        simp only [hisFull, if_true, hcand, ok_bind]
        exact hstep.of_increment
      · have hisFull : (c.increment hash e.key).isFull .mainA2 = false := decide_eq_false hfull
        have hfit : (c.lru .mainA2).items < (c.lru .mainA2).maxItems :=
          lt_of_le_of_ne (h.bounded _) hfull
        have hstep := relocate_touched h1.toLinked h1.roomy h1.bounded he1 .mainA2 (Or.inr hfit)
        rw [hloc] at hstep
        simp only [hisFull, Bool.false_eq_true, if_false]
        exact hstep.of_increment

theorem checkSizes_ok (h : Consistent c) : c.checkSizes = .ok () := by
  have hw : c.size .window ≤ (c.lru .window).maxItems := h.bounded .window
  have h1 : c.size .mainA1 ≤ (c.lru .mainA1).maxItems := h.bounded .mainA1
  have h2 : c.size .mainA2 ≤ (c.lru .mainA2).maxItems := h.bounded .mainA2
  rw [checkSizes, check_of hw, check_of h1, check_of h2]
  rfl

section Keyed

variable [DecidableEq Key]

theorem dropCandidate_yields (h : Consistent c) {l : Location} (hne : (c.lru l).items ≠ 0) :
    Yields (fun _ => False) (fun r => Consistent r.2 ∧ SameBounds c r.2 ∧
      (∃ k, c.residents = (k, r.1) ::ₘ r.2.residents) ∧
      (∀ k, (r.2.lru k).items = if k = l then (c.lru k).items - 1 else (c.lru k).items) ∧
      ∀ a e, c.nodes a = some e → e.location ≠ l → r.2.nodes a = some e) (c.dropCandidate l) := by
  obtain ⟨it, e, hlast, he, hloc⟩ := exists_candidate h.toLinked hne
  rw [dropCandidate_eq hne hlast he]
  have hsame : SameBounds c (c.dropped l it e.key) := dropped_sameBounds l it e.key
  have hlinked := dropped_linked h.toLinked he
  have hres := dropped_residents h.toLinked he
  rw [hloc] at hlinked hres
  have hitems : ∀ k, ((c.dropped l it e.key).lru k).items =
      if k = l then (c.lru k).items - 1 else (c.lru k).items := by
    intro k
    rw [dropped_items]
    split
    next hk => rw [hk]
    next => rfl
  refine ⟨⟨hlinked, hsame.roomy h.roomy, fun k => ?_⟩, hsame, ⟨e.key, hres⟩, hitems, ?_⟩
  · have hk := h.bounded k
    rw [hsame.maxItems, hitems]
    split <;> omega
  · intro a e' ha hl
    have hait : a ≠ it := by
      intro heq
      rw [heq, he, Option.some.injEq] at ha
      exact hl (ha ▸ hloc)
    exact (Function.update_of_ne hait ..).trans ha

theorem evictWorseCandidate_yields (h : Consistent c) (hw : (c.lru .window).items ≠ 0)
    (h1 : (c.lru .mainA1).items ≠ 0) :
    Yields (fun _ => False) (fun r => Consistent r.2 ∧ SameBounds c r.2 ∧
      (∃ k, c.residents = (k, r.1) ::ₘ r.2.residents) ∧
      (r.2.lru .window).items < (c.lru .window).items) (c.evictWorseCandidate hash) := by
  obtain ⟨it1, e1, hlast1, he1, hloc1⟩ := exists_candidate h.toLinked hw
  obtain ⟨it2, e2, hlast2, he2, hloc2⟩ := exists_candidate h.toLinked h1
  rw [evictWorseCandidate]
  simp only [evictionCandidate_eq hlast1, evictionCandidate_eq hlast2, deref_eq he1, deref_eq he2, ok_bind]
  split
  · refine (dropCandidate_yields h h1).bind ?_
    rintro ⟨x, d⟩ ⟨hd, hsame, ⟨k, hres⟩, hitems, hkept⟩
    have hnode : d.nodes it1 = some e1 := hkept it1 e1 he1 (by rw [hloc1]; decide)
    have hroom : (d.lru .mainA1).items < (d.lru .mainA1).maxItems := by
      have hb := h.bounded .mainA1
      have hi := hitems .mainA1
      rw [if_pos rfl] at hi
      rw [hsame.maxItems, hi]
      omega
    have hmoved := relocate_touched hd.toLinked hd.roomy hd.bounded hnode .mainA1 (Or.inr hroom)
    have hcount := relocate_items hd.toLinked hnode hd.items_lt .mainA1 .window
    rw [hloc1] at hmoved hcount
    rw [if_neg (by decide), if_neg (by decide), if_pos rfl, hitems, if_neg (by decide)] at hcount
    refine ⟨hmoved.1, hsame.trans hmoved.2.1, ⟨k, ?_⟩, ?_⟩
    · rw [hres]
      exact congrArg _ hmoved.2.2.1.symm
    · change ((d.relocate it1 .mainA1 .window).lru .window).items < _
      rw [hcount]
      omega
  · refine (dropCandidate_yields h hw).mono ?_
    rintro ⟨x, d⟩ ⟨hd, hsame, hres, hitems, _⟩
    refine ⟨hd, hsame, hres, ?_⟩
    have hi := hitems .window
    rw [if_pos rfl] at hi
    change (d.lru .window).items < _
    rw [hi]
    omega

theorem evictIfNecessary_yields (h : Consistent c) :
    Yields (fun _ => False) (fun r => Consistent r.2 ∧ SameBounds c r.2 ∧ HandsBack c r.2 r.1 ∧
      (r.2.lru .window).items < (r.2.lru .window).maxItems) (c.evictIfNecessary hash) := by
  rw [evictIfNecessary]
  by_cases hfull : (c.lru .window).items = (c.lru .window).maxItems
  · have hisFull : c.isFull .window = true := decide_eq_true hfull
    have hw : (c.lru .window).items ≠ 0 := by
      rw [hfull]
      exact (h.roomy .window).1.ne'
    simp only [hisFull, Bool.true_eq_false, if_false]
    by_cases hfull1 : (c.lru .mainA1).items = (c.lru .mainA1).maxItems
    · have hisFull1 : c.isFull .mainA1 = true := decide_eq_true hfull1
      have h1 : (c.lru .mainA1).items ≠ 0 := by
        rw [hfull1]
        exact (h.roomy .mainA1).1.ne'
      simp only [hisFull1, Bool.true_eq_false, if_false]
      refine (evictWorseCandidate_yields h hw h1).mono ?_
      rintro ⟨x, d⟩ ⟨hd, hsame, hres, hlt⟩
      refine ⟨hd, hsame, Or.inr hres, ?_⟩
      rw [hsame.maxItems, ← hfull]
      exact hlt
    · have hisFull1 : c.isFull .mainA1 = false := decide_eq_false hfull1
      obtain ⟨it, e, hlast, he, hloc⟩ := exists_candidate h.toLinked hw
      have hroom : (c.lru .mainA1).items < (c.lru .mainA1).maxItems := lt_of_le_of_ne (h.bounded _) hfull1
      have hmoved := relocate_touched h.toLinked h.roomy h.bounded he .mainA1 (Or.inr hroom)
      have hcount := relocate_items h.toLinked he h.items_lt .mainA1 .window
      rw [hloc] at hmoved hcount
      rw [if_neg (by decide), if_neg (by decide), if_pos rfl] at hcount
      simp only [hisFull1, if_true, evictionCandidate_eq hlast, ok_bind]
      refine ⟨hmoved.1, hmoved.2.1, Or.inl ⟨rfl, hmoved.2.2.1.symm⟩, ?_⟩
      have hbound := hmoved.2.1.maxItems .window
      change ((c.relocate it .mainA1 .window).lru .window).items <
        ((c.relocate it .mainA1 .window).lru .window).maxItems
      rw [hcount, hbound]
      omega
  · have hisFull : c.isFull .window = false := decide_eq_false hfull
    simp only [hisFull, if_true]
    exact ⟨h, SameBounds.refl c, Or.inl ⟨rfl, rfl⟩, lt_of_le_of_ne (h.bounded _) hfull⟩

theorem get_yields [Inhabited Key] (h : Consistent c) {key : Key} (hkey : key ≠ default) :
    Yields (fun _ => False) (fun r => Consistent r.2 ∧ SameBounds c r.2 ∧ r.2.residents = c.residents ∧
      ((r.1 = c.emptyItem ∧ ∀ x, (key, x) ∉ c.residents) ∨ (key, r.1) ∈ c.residents)) (c.get hash key) := by
  rw [get, check_of hkey, ok_bind]
  cases hmap : c.map key with
  | none =>
      refine ⟨h, SameBounds.refl c, rfl, Or.inl ⟨rfl, fun x hx => ?_⟩⟩
      obtain ⟨_, _, hsome, _⟩ := h.mem_residents.mp hx
      rw [hmap] at hsome
      cases hsome
  | some it =>
      obtain ⟨e, he, rfl⟩ := h.pointed key it hmap
      refine (touch_touched h he).bind ?_
      rintro d ⟨hd, hsame, hres, e', he', hitem⟩
      rw [checkSizes_ok hd, ok_bind, deref_eq he', ok_bind]
      refine ⟨hd, hsame, hres, Or.inr ?_⟩
      rw [hitem]
      exact h.mem_residents.mpr ⟨it, e, hmap, he, rfl⟩

section Insertion

variable (hash) (c) in
def inserted (key : Key) (item : Item) : Wtinylfu Key Item :=
  { (c.increment hash key).modify .window (fun r =>
      { r with items := u32 (r.items + 1), list := c.fresh :: r.list }) with
    nodes := Function.update c.nodes c.fresh (some { key := key, item := item })
    fresh := c.fresh + 1
    map := Function.update c.map key (some c.fresh) }

variable {key : Key} {item : Item}

theorem create_setItem [Inhabited Item] (hw : (c.lru .window).items ≠ (c.lru .window).maxItems)
    (hk : c.map key = none) :
    ∃ d, c.create hash key = .ok (c.fresh, d) ∧ d.setItem c.fresh item = c.inserted hash key item := by
  have hsize : c.size .window ≠ (c.lru .window).maxItems := hw
  refine ⟨c.inserted hash key default, ?_, ?_⟩
  · rw [create, lruCreate, check_of hsize, ok_bind]
    change (check (c.map key = none) Fault.assertion >>= _) = _
    rw [check_of hk]
    rfl
  · simp only [setItem, inserted, Function.update_self, Option.map_some, Function.update_idem]

theorem inserted_lru (l : Location) : (c.inserted hash key item).lru l = if l = .window
    then { c.lru .window with items := u32 ((c.lru .window).items + 1)
                              list := c.fresh :: (c.lru .window).list }
    else c.lru l :=
  Function.update_apply ..

theorem inserted_nodes (a : Nat) : (c.inserted hash key item).nodes a =
    if a = c.fresh then some { key := key, item := item } else c.nodes a :=
  Function.update_apply ..

theorem inserted_map (k : Key) :
    (c.inserted hash key item).map k = if k = key then some c.fresh else c.map k :=
  Function.update_apply ..

theorem inserted_sameBounds : SameBounds c (c.inserted hash key item) := by
  refine ⟨rfl, fun l => ?_⟩
  rw [inserted_lru]
  split
  next hl => rw [hl]
  next => rfl

omit [DecidableEq Key] in
theorem Linked.fresh_notMem (h : Linked c) (l : Location) : c.fresh ∉ (c.lru l).list := by
  intro hm
  obtain ⟨e, he, _⟩ := h.tagged l _ hm
  exact (h.below _ e he).false

theorem inserted_linked (h : Linked c) (hk : c.map key = none) (hlt : (c.lru .window).items + 1 < 2 ^ 32) :
    Linked (c.inserted hash key item) := by
  have hold : ∀ a e, c.nodes a = some e → a ≠ c.fresh := fun a e ha => (h.below a e ha).ne
  have hkeys : ∀ a e, c.nodes a = some e → e.key ≠ key := by
    intro a e ha heq
    have hm := h.mapped a e ha
    rw [heq, hk] at hm
    cases hm
  constructor
  · intro l
    rw [inserted_lru]
    split
    · exact List.nodup_cons.mpr ⟨h.fresh_notMem .window, h.nodup .window⟩
    · exact h.nodup l
  · intro l a ha
    rw [inserted_lru] at ha
    rw [inserted_nodes]
    by_cases hl : l = .window
    · rw [if_pos hl] at ha
      rcases List.mem_cons.mp ha with hfresh | ha
      · exact ⟨_, if_pos hfresh, hl.symm⟩
      · obtain ⟨e, he, hloc⟩ := h.tagged .window a ha
        exact ⟨e, (if_neg (hold a e he)).trans he, hloc.trans hl.symm⟩
    · rw [if_neg hl] at ha
      obtain ⟨e, he, hloc⟩ := h.tagged l a ha
      exact ⟨e, (if_neg (hold a e he)).trans he, hloc⟩
  · intro a e ha
    rw [inserted_nodes] at ha
    by_cases hfresh : a = c.fresh
    · rw [if_pos hfresh, Option.some.injEq] at ha
      rw [← ha, hfresh, inserted_lru, if_pos rfl]
      exact List.mem_cons_self ..
    · rw [if_neg hfresh] at ha
      have hm := h.listed a e ha
      rw [inserted_lru]
      by_cases hl : e.location = .window
      · rw [if_pos hl]
        exact List.mem_cons_of_mem _ (hl ▸ hm)
      · rw [if_neg hl]
        exact hm
  · intro a e ha
    rw [inserted_nodes] at ha
    rw [inserted_map]
    by_cases hfresh : a = c.fresh
    · rw [if_pos hfresh, Option.some.injEq] at ha
      rw [← ha, if_pos rfl, hfresh]
    · rw [if_neg hfresh] at ha
      rw [if_neg (hkeys a e ha)]
      exact h.mapped a e ha
  · intro k a ha
    rw [inserted_map] at ha
    rw [inserted_nodes]
    by_cases hkk : k = key
    · rw [if_pos hkk, Option.some.injEq] at ha
      exact ⟨_, if_pos ha.symm, hkk.symm⟩
    · rw [if_neg hkk] at ha
      obtain ⟨e, he, hkey⟩ := h.pointed k a ha
      exact ⟨e, (if_neg (hold a e he)).trans he, hkey⟩
  · intro l
    rw [inserted_lru]
    by_cases hl : l = .window
    · rw [if_pos hl]
      change u32 ((c.lru .window).items + 1) = (c.lru .window).list.length + 1
      rw [u32, Nat.mod_eq_of_lt hlt, h.counted]
    · rw [if_neg hl]
      exact h.counted l
  · intro a e ha
    rw [inserted_nodes] at ha
    change a < c.fresh + 1
    by_cases hfresh : a = c.fresh
    · omega
    · rw [if_neg hfresh] at ha
      have := h.below a e ha
      omega

theorem inserted_residents (h : Linked c) :
    (c.inserted hash key item).residents = (key, item) ::ₘ c.residents := by
  have hall : (c.inserted hash key item).all = c.fresh :: c.all := by
    rw [all, all, inserted_lru, inserted_lru, inserted_lru]
    rfl
  have hpair : (c.inserted hash key item).pair c.fresh = some (key, item) := by
    rw [pair, inserted_nodes, if_pos rfl]
    rfl
  have hrest : c.all.filterMap (c.inserted hash key item).pair = c.all.filterMap c.pair := by
    refine List.filterMap_congr (fun a ha => ?_)
    obtain ⟨l, hl⟩ := mem_all.mp ha
    have hne : a ≠ c.fresh := fun heq => h.fresh_notMem l (heq ▸ hl)
    rw [pair, inserted_nodes, if_neg hne, pair]
  rw [residents, hall, List.filterMap_cons_some hpair, hrest]
  rfl

theorem inserted_consistent (h : Consistent c) (hk : c.map key = none)
    (hroom : (c.lru .window).items < (c.lru .window).maxItems) : Consistent (c.inserted hash key item) := by
  have hsame : SameBounds c (c.inserted hash key item) := inserted_sameBounds
  refine ⟨inserted_linked h.toLinked hk (h.items_lt .window), hsame.roomy h.roomy, fun l => ?_⟩
  rw [hsame.maxItems, inserted_lru]
  by_cases hl : l = .window
  · rw [if_pos hl, hl]
    change u32 ((c.lru .window).items + 1) ≤ _
    rw [u32, Nat.mod_eq_of_lt (h.items_lt .window)]
    exact hroom
  · rw [if_neg hl]
    exact h.bounded l

end Insertion

variable [Inhabited Key] [Inhabited Item]

/-- A key that is set is resident afterwards; the item dropped for it is
handed back. -/
theorem set_yields (h : Consistent c) {key : Key} {item : Item} (hkey : key ≠ default)
    (habsent : c.map key = none) :
    Yields (fun _ => False) (fun r => Consistent r.2 ∧ SameBounds c r.2 ∧
      ∃ d, HandsBack c d r.1 ∧ r.2.residents = (key, item) ::ₘ d.residents) (c.set hash key item) := by
  rw [set, check_of hkey, ok_bind, check_of habsent, ok_bind]
  refine (evictIfNecessary_yields h).bind ?_
  rintro ⟨x, d⟩ ⟨hd, hsame, hback, hroom⟩
  have hk : d.map key = none := map_eq_none_of_subset h.toLinked hd.toLinked hback.subset habsent
  obtain ⟨d', hcreate, hitem⟩ := @create_setItem _ _ hash _ _ _ item _ hroom.ne hk
  have hfinal : Consistent (d.inserted hash key item) := inserted_consistent hd hk hroom
  simp only [hcreate, ok_bind, hitem, checkSizes_ok hfinal]
  exact ⟨hfinal, hsame.trans inserted_sameBounds, d, hback, inserted_residents hd.toLinked⟩

omit [DecidableEq Key] [Inhabited Key] [Inhabited Item] in
theorem residents_eq_zero (h : Linked c) (hz : ∀ l, (c.lru l).items = 0) : c.residents = 0 := by
  have hnil : ∀ l, (c.lru l).list = [] := fun l => List.length_eq_zero_iff.mp (h.counted l ▸ hz l)
  rw [residents, all, hnil, hnil, hnil]
  rfl

omit [Inhabited Key] [Inhabited Item] in
theorem evict_yields (h : Consistent c) :
    Yields (fun _ => False) (fun r => Consistent r.2 ∧ SameBounds c r.2 ∧
      ((r.1 = c.emptyItem ∧ c.residents = 0 ∧ r.2 = c) ∨ ∃ k, c.residents = (k, r.1) ::ₘ r.2.residents))
      (c.evict hash) := by
  have hdrop : ∀ l, (c.lru l).items ≠ 0 → Yields (fun _ => False) (fun r => Consistent r.2 ∧ SameBounds c r.2 ∧
      ((r.1 = c.emptyItem ∧ c.residents = 0 ∧ r.2 = c) ∨ ∃ k, c.residents = (k, r.1) ::ₘ r.2.residents))
      (c.dropCandidate l) :=
    fun l hl => (dropCandidate_yields h hl).mono (fun r hr => ⟨hr.1, hr.2.1, Or.inr hr.2.2.1⟩)
  rw [evict]
  by_cases hsome : c.size .window ≠ 0 ∨ c.size .mainA1 ≠ 0
  · rw [if_pos hsome]
    by_cases hw : c.size .window = 0
    · rw [if_pos hw]
      exact hdrop .mainA1 (hsome.resolve_left (fun hn => hn hw))
    · rw [if_neg hw]
      by_cases h1 : c.size .mainA1 = 0
      · rw [if_pos h1]
        exact hdrop .window hw
      · rw [if_neg h1]
        exact (evictWorseCandidate_yields h hw h1).mono (fun r hr => ⟨hr.1, hr.2.1, Or.inr hr.2.2.1⟩)
  · rw [if_neg hsome]
    rw [not_or, not_not, not_not] at hsome
    by_cases h2 : c.size .mainA2 = 0
    · rw [if_pos h2]
      refine ⟨h, SameBounds.refl c, Or.inl ⟨rfl, residents_eq_zero h.toLinked (fun l => ?_), rfl⟩⟩
      cases l with
      | window => exact hsome.1
      | mainA1 => exact hsome.2
      | mainA2 => exact h2
    · rw [if_neg h2]
      exact hdrop .mainA2 h2

end Keyed

end Tyrdbs.Wtinylfu
