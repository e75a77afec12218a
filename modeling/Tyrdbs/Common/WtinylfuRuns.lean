import Tyrdbs.Common.WtinylfuOperations
import Tyrdbs.Library.Runs
import Mathlib.Data.Multiset.Filter

namespace Tyrdbs.Wtinylfu

open Outcome Runs

variable {Key Item : Type}

inductive Op (Key Item : Type)
  | get (key : Key)
  | set (key : Key) (item : Item)
  | evict

variable [DecidableEq Key] [Inhabited Key] [DecidableEq Item] [Inhabited Item] (hash : Key → UInt64)

def Op.apply (c : Wtinylfu Key Item) : Op Key Item → Except Fault (Item × Wtinylfu Key Item)
  | .get key => c.get hash key
  | .set key item => c.set hash key item
  | .evict => c.evict hash

omit [DecidableEq Key] [DecidableEq Item] [Inhabited Item] in
/-- A key is not the empty one, and it is set only while it is absent. -/
def Admits (c : Wtinylfu Key Item) : Op Key Item → Prop
  | .get key => key ≠ default
  | .set key _ => key ≠ default ∧ c.map key = none
  | .evict => True

def Step (c : Wtinylfu Key Item) (a : Op Key Item × Item) (c' : Wtinylfu Key Item) : Prop :=
  Admits c a.1 ∧ a.1.apply hash c = .ok (a.2, c')

abbrev Trace (Key Item : Type) :=
  List (Wtinylfu Key Item × (Op Key Item × Item) × Wtinylfu Key Item)

def itemSet (key : Key) (last : Option Item) : Op Key Item → Option Item
  | .set k item => if k = key then some item else last
  | _ => last

def lastSet (ts : Trace Key Item) (key : Key) : Option Item :=
  ts.foldl (fun last t => itemSet key last t.2.1.1) none

def handedIn : Op Key Item → Option Item
  | .set _ item => some item
  | _ => none

def returnedIn (emptyItem : Item) : Op Key Item × Item → Option Item
  | (.get _, _) => none
  | (_, x) => if x = emptyItem then none else some x

def handed (ts : Trace Key Item) : Multiset Item := ts.filterMap (fun t => handedIn t.2.1.1)

def returned (emptyItem : Item) (ts : Trace Key Item) : Multiset Item :=
  ts.filterMap (fun t => returnedIn emptyItem t.2.1)

def keysOf (c : Wtinylfu Key Item) (l : Location) : List Key :=
  (c.lru l).list.filterMap (fun it => (c.nodes it).map Entry.key)

structure Represented (c : Wtinylfu Key Item) : Prop where
  keys : ∀ k, (c.map k).isSome ↔ ∃ l, k ∈ c.keysOf l
  nodup : ∀ l, (c.keysOf l).Nodup
  disjoint : ∀ l l', l ≠ l' → List.Disjoint (c.keysOf l) (c.keysOf l')
  points : ∀ k it, c.map k = some it → ∃ e, c.nodes it = some e ∧ e.key = k ∧ it ∈ (c.lru e.location).list
  tags : ∀ l, ∀ it ∈ (c.lru l).list, ∃ e, c.nodes it = some e ∧ e.location = l
  counters : ∀ l, c.size l = (c.lru l).list.length
  bounded : ∀ l, c.size l ≤ (c.lru l).maxItems

/-- What is asked of a cache after a run: it is represented well, no operation
fails, a hit answers what was set last, and no item is lost or returned twice.
The empty item stands for no item. -/
structure Upheld (emptyItem : Item) (ts : Trace Key Item) (c : Wtinylfu Key Item) : Prop where
  represented : Represented c
  proceeds : ∀ op, Admits c op → ∃ x c', op.apply hash c = .ok (x, c')
  answers : ∀ k, (c.map k).isSome → ∃ x c', lastSet ts k = some x ∧ c.get hash k = .ok (x, c')
  accounted : (handed ts).filter (· ≠ emptyItem) =
    (c.residents.map Prod.snd).filter (· ≠ emptyItem) + returned emptyItem ts

/-- The representation is kept for every type of keys and items, every run. -/
def Sound (maxItems : Nat) : Prop :=
  ∀ (Key Item : Type) [DecidableEq Key] [Inhabited Key] [DecidableEq Item] [Inhabited Item]
    (hash : Key → UInt64) (clzOfZero : UInt32) (emptyItem : Item) (ts : Trace Key Item)
    (c : Wtinylfu Key Item), Run (Step hash) (construct clzOfZero maxItems emptyItem) ts c →
    Upheld hash emptyItem ts c

section Representation

variable {c : Wtinylfu Key Item}

omit [DecidableEq Key] [Inhabited Key] [DecidableEq Item] [Inhabited Item]

theorem mem_keysOf (h : Linked c) {l : Location} {k : Key} :
    k ∈ c.keysOf l ↔ ∃ it e, c.map k = some it ∧ c.nodes it = some e ∧ e.location = l := by
  rw [keysOf, List.mem_filterMap]
  constructor
  · rintro ⟨it, hm, hk⟩
    obtain ⟨e, he, rfl⟩ := Option.map_eq_some_iff.mp hk
    exact ⟨it, e, h.mapped it e he, he, h.location_unique hm he⟩
  · rintro ⟨it, e, hk, he, rfl⟩
    obtain ⟨e', he', rfl⟩ := h.pointed k it hk
    refine ⟨it, h.listed it e he, ?_⟩
    rw [he']
    rfl

theorem Consistent.represented (h : Consistent c) : Represented c := by
  refine ⟨fun k => ?_, fun l => ?_, fun l l' hne k hk hk' => ?_, fun k it hk => ?_, h.tagged, h.counted,
    h.bounded⟩
  · rw [Option.isSome_iff_exists]
    constructor
    · rintro ⟨it, hk⟩
      obtain ⟨e, he, _⟩ := h.pointed k it hk
      exact ⟨e.location, (mem_keysOf h.toLinked).mpr ⟨it, e, hk, he, rfl⟩⟩
    · rintro ⟨l, hl⟩
      obtain ⟨it, _, hk, _⟩ := (mem_keysOf h.toLinked).mp hl
      exact ⟨it, hk⟩
  · refine (h.nodup l).filterMap ?_
    intro a b k ha hb
    obtain ⟨e, he, rfl⟩ := Option.map_eq_some_iff.mp ha
    obtain ⟨e', he', hkey⟩ := Option.map_eq_some_iff.mp hb
    have hm := h.mapped b e' he'
    rw [hkey, h.mapped a e he, Option.some.injEq] at hm
    exact hm
  · obtain ⟨it, e, hm, he, hl⟩ := (mem_keysOf h.toLinked).mp hk
    obtain ⟨it', e', hm', he', hl'⟩ := (mem_keysOf h.toLinked).mp hk'
    rw [hm, Option.some.injEq] at hm'
    subst hm'
    rw [he, Option.some.injEq] at he'
    subst he'
    exact hne (hl.symm.trans hl')
  · obtain ⟨e, he, hkey⟩ := h.pointed k it hk
    exact ⟨e, he, hkey, h.listed it e he⟩

theorem isSome_map_iff (h : Linked c) {k : Key} : (c.map k).isSome ↔ ∃ x, (k, x) ∈ c.residents := by
  rw [Option.isSome_iff_exists]
  constructor
  · rintro ⟨it, hk⟩
    obtain ⟨e, he, _⟩ := h.pointed k it hk
    exact ⟨e.item, h.mem_residents.mpr ⟨it, e, hk, he, rfl⟩⟩
  · rintro ⟨x, hx⟩
    obtain ⟨it, _, hk, _⟩ := h.mem_residents.mp hx
    exact ⟨it, hk⟩

theorem residents_unique (h : Linked c) {k : Key} {x y : Item} (hx : (k, x) ∈ c.residents)
    (hy : (k, y) ∈ c.residents) : x = y := by
  obtain ⟨it, e, hk, he, rfl⟩ := h.mem_residents.mp hx
  obtain ⟨it', e', hk', he', rfl⟩ := h.mem_residents.mp hy
  rw [hk, Option.some.injEq] at hk'
  subst hk'
  rw [he, Option.some.injEq] at he'
  rw [he']

end Representation

section Accounts

variable {hash} {c c' : Wtinylfu Key Item} {emptyItem : Item} {ts : Trace Key Item}

omit [DecidableEq Item] in
theorem apply_yields (h : Consistent c) {op : Op Key Item} (ha : Admits c op) :
    Yields (fun _ => False) (fun r => Consistent r.2 ∧ SameBounds c r.2) (op.apply hash c) := by
  cases op with
  | get key => exact (get_yields h ha).mono (fun r hr => ⟨hr.1, hr.2.1⟩)
  | set key item => exact (set_yields h ha.1 ha.2).mono (fun r hr => ⟨hr.1, hr.2.1⟩)
  | evict => exact (evict_yields h).mono (fun r hr => ⟨hr.1, hr.2.1⟩)

omit [Inhabited Key] [DecidableEq Item] [Inhabited Item] in
theorem lastSet_append (t : Wtinylfu Key Item × (Op Key Item × Item) × Wtinylfu Key Item) (k : Key) :
    lastSet (ts ++ [t]) k = itemSet k (lastSet ts k) t.2.1.1 := by
  rw [lastSet, lastSet, List.foldl_append]
  rfl

omit [DecidableEq Key] [Inhabited Key] [DecidableEq Item] [Inhabited Item] in
theorem handed_append (t : Wtinylfu Key Item × (Op Key Item × Item) × Wtinylfu Key Item) :
    handed (ts ++ [t]) = handed ts + ((handedIn t.2.1.1).toList : Multiset Item) := by
  rw [handed, handed, List.filterMap_append, ← Multiset.coe_add]
  cases h : handedIn t.2.1.1 <;> simp [h]

omit [DecidableEq Key] [Inhabited Key] [Inhabited Item] in
theorem returned_append (t : Wtinylfu Key Item × (Op Key Item × Item) × Wtinylfu Key Item) :
    returned emptyItem (ts ++ [t]) =
      returned emptyItem ts + ((returnedIn emptyItem t.2.1).toList : Multiset Item) := by
  rw [returned, returned, List.filterMap_append, ← Multiset.coe_add]
  cases h : returnedIn emptyItem t.2.1 <;> simp [h]

/-- What holds between a run and the cache it leads to. -/
structure Kept (emptyItem : Item) (ts : Trace Key Item) (c : Wtinylfu Key Item) : Prop where
  consistent : Consistent c
  sameEmpty : c.emptyItem = emptyItem
  lastSet : ∀ k x, (k, x) ∈ c.residents → k ≠ default ∧ lastSet ts k = some x
  accounted : (handed ts).filter (· ≠ emptyItem) =
    (c.residents.map Prod.snd).filter (· ≠ emptyItem) + returned emptyItem ts

def visible (emptyItem : Item) (s : Multiset (Key × Item)) : Multiset Item :=
  (s.map Prod.snd).filter (· ≠ emptyItem)

omit [DecidableEq Key] [Inhabited Key] [Inhabited Item] in
theorem visible_cons (k : Key) (x : Item) (s : Multiset (Key × Item)) :
    visible emptyItem ((k, x) ::ₘ s) = visible emptyItem s + Multiset.filter (· ≠ emptyItem) {x} := by
  rw [visible, Multiset.map_cons, ← Multiset.singleton_add, Multiset.filter_add, add_comm]
  rfl

omit [DecidableEq Key] [Inhabited Key] [Inhabited Item] in
theorem HandsBack.visible {x : Item} (h : HandsBack c c' x) (he : c.emptyItem = emptyItem) :
    visible emptyItem c.residents =
      visible emptyItem c'.residents + Multiset.filter (· ≠ emptyItem) {x} := by
  rcases h with ⟨rfl, hres⟩ | ⟨k, hres⟩
  · rw [hres, he]
    simp
  · rw [hres, visible_cons]

omit [DecidableEq Key] [Inhabited Key] [Inhabited Item] in
theorem returnedIn_toList {op : Op Key Item} (hop : ∀ k, op ≠ .get k) (x : Item) :
    ((returnedIn emptyItem (op, x)).toList : Multiset Item) = Multiset.filter (· ≠ emptyItem) {x} := by
  cases op with
  | get key => exact absurd rfl (hop key)
  | set key item => by_cases hx : x = emptyItem <;> simp [returnedIn, hx, Multiset.filter_singleton]
  | evict => by_cases hx : x = emptyItem <;> simp [returnedIn, hx, Multiset.filter_singleton]

theorem kept_step (h : Kept emptyItem ts c) {a : Op Key Item × Item} (hs : Step hash c a c') :
    Kept emptyItem (ts ++ [(c, a, c')]) c' := by
  obtain ⟨op, x⟩ := a
  obtain ⟨hadmits, happly⟩ := hs
  obtain ⟨hc', hsame⟩ := (apply_yields h.consistent hadmits).of_ok happly
  have hempty : c'.emptyItem = emptyItem := hsame.emptyItem.trans h.sameEmpty
  have haccounted : (handed ts).filter (· ≠ emptyItem) =
      visible emptyItem c.residents + returned emptyItem ts := h.accounted
  cases op with
  | get key =>
      obtain ⟨_, _, hres, _⟩ := (get_yields h.consistent hadmits).of_ok happly
      have hres : c'.residents = c.residents := hres
      refine ⟨hc', hempty, fun k y hy => ?_, ?_⟩
      · rw [lastSet_append]
        exact h.lastSet k y (hres ▸ hy)
      · rw [handed_append, returned_append, hres]
        simpa [handedIn, returnedIn] using h.accounted
  | set key item =>
      obtain ⟨hkey, habsent⟩ := hadmits
      obtain ⟨_, _, d, hback, hres⟩ := (set_yields h.consistent hkey habsent).of_ok happly
      have hres : c'.residents = (key, item) ::ₘ d.residents := hres
      refine ⟨hc', hempty, fun k y hy => ?_, ?_⟩
      · rw [hres, Multiset.mem_cons] at hy
        rw [lastSet_append]
        rcases hy with hy | hy
        · obtain ⟨rfl, rfl⟩ := Prod.mk.injEq .. ▸ hy
          exact ⟨hkey, if_pos rfl⟩
        · have hold := hback.subset hy
          have hne : key ≠ k := by
            rintro rfl
            have hsome := (isSome_map_iff h.consistent.toLinked).mpr ⟨y, hold⟩
            rw [habsent] at hsome
            cases hsome
          exact ⟨(h.lastSet k y hold).1, (if_neg hne).trans (h.lastSet k y hold).2⟩
      · rw [handed_append, returned_append, returnedIn_toList (by simp), Multiset.filter_add, haccounted,
          hback.visible h.sameEmpty]
        change _ = visible emptyItem c'.residents + _
        rw [hres, visible_cons]
        simp only [handedIn, Option.toList_some, Multiset.coe_singleton]
        ac_rfl
  | evict =>
      obtain ⟨_, hsame', hcases⟩ := (evict_yields h.consistent).of_ok happly
      have hback : HandsBack c c' x := by
        rcases hcases with ⟨hx, _, heq⟩ | hres
        · exact Or.inl ⟨hx, congrArg residents heq.symm⟩
        · exact Or.inr hres
      refine ⟨hc', hempty, fun k y hy => ?_, ?_⟩
      · rw [lastSet_append]
        exact h.lastSet k y (hback.subset hy)
      · rw [handed_append, returned_append, returnedIn_toList (by simp), Multiset.filter_add, haccounted,
          hback.visible h.sameEmpty]
        change _ = visible emptyItem c'.residents + _
        simp only [handedIn, Option.toList_none, Multiset.coe_nil, Multiset.filter_zero, add_zero]
        ac_rfl

theorem Kept.upheld (h : Kept emptyItem ts c) : Upheld hash emptyItem ts c := by
  refine ⟨h.consistent.represented, fun op ha => ?_, fun k hk => ?_, h.accounted⟩
  · obtain ⟨⟨x, c'⟩, happly, _⟩ := (@apply_yields _ _ _ _ _ hash _ h.consistent op ha).exists_ok
    exact ⟨x, c', happly⟩
  · obtain ⟨x, hx⟩ := (isSome_map_iff h.consistent.toLinked).mp hk
    obtain ⟨hkey, hlast⟩ := h.lastSet k x hx
    obtain ⟨⟨y, c'⟩, hget, _, _, _, hcases⟩ := (@get_yields _ _ hash _ _ _ h.consistent k hkey).exists_ok
    rcases hcases with ⟨_, hnone⟩ | hy
    · exact absurd hx (hnone x)
    · have hxy : x = y := residents_unique h.consistent.toLinked hx hy
      exact ⟨x, c', hlast, hxy ▸ hget⟩

end Accounts

section Construction

variable {maxItems : Nat} {emptyItem : Item} {clzOfZero : UInt32}

omit [DecidableEq Key] [Inhabited Key] [DecidableEq Item] [Inhabited Item] in
theorem construct_linked : Linked (construct clzOfZero maxItems emptyItem : Wtinylfu Key Item) :=
  ⟨fun _ => List.nodup_nil, fun _ _ h => absurd h List.not_mem_nil, fun _ _ h => absurd h.symm (by simp [construct]),
    fun _ _ h => absurd h.symm (by simp [construct]), fun _ _ h => absurd h.symm (by simp [construct]),
    fun _ => rfl, fun _ _ h => absurd h.symm (by simp [construct])⟩

theorem mainA1Max_le (h : 100 ≤ maxItems) : windowMax maxItems + mainA1Max maxItems < maxItems := by
  have hle : u32 (2 * (maxItems - windowMax maxItems)) ≤ 2 * (maxItems - windowMax maxItems) := Nat.mod_le _ _
  rw [mainA1Max, windowMax] at *
  omega

theorem maxItemsOf_pos (h : 100 ≤ maxItems) (h1 : mainA1Max maxItems ≠ 0) (l : Location) :
    0 < maxItemsOf maxItems l := by
  have hle := mainA1Max_le h
  cases l with
  | window => exact Nat.div_pos h (by decide)
  | mainA1 => exact Nat.pos_of_ne_zero h1
  | mainA2 =>
      change 0 < mainA2Max maxItems
      rw [mainA2Max]
      omega

theorem maxItemsOf_lt (h : 100 ≤ maxItems) (h32 : maxItems < 2 ^ 32) (h1 : mainA1Max maxItems ≠ 0)
    (l : Location) : maxItemsOf maxItems l + 2 < 2 ^ 32 := by
  have hle := mainA1Max_le h
  have hw : 0 < windowMax maxItems := Nat.div_pos h (by decide)
  cases l with
  | window =>
      change windowMax maxItems + 2 < 2 ^ 32
      omega
  | mainA1 =>
      change mainA1Max maxItems + 2 < 2 ^ 32
      omega
  | mainA2 =>
      change mainA2Max maxItems + 2 < 2 ^ 32
      rw [mainA2Max]
      omega

omit [DecidableEq Key] [Inhabited Key] [DecidableEq Item] [Inhabited Item] in
theorem construct_consistent (h : 100 ≤ maxItems) (h32 : maxItems < 2 ^ 32) (h1 : mainA1Max maxItems ≠ 0) :
    Consistent (construct clzOfZero maxItems emptyItem : Wtinylfu Key Item) :=
  ⟨construct_linked, fun l => ⟨maxItemsOf_pos h h1 l, maxItemsOf_lt h h32 h1 l⟩, fun _ => Nat.zero_le _⟩

theorem mainA1Max_two_pow {bits : Nat} (h7 : 7 ≤ bits) (h32 : bits < 32) : mainA1Max (2 ^ bits) ≠ 0 := by
  have hlow : 2 ^ 7 ≤ 2 ^ bits := Nat.pow_le_pow_right (by decide) h7
  have hhigh : 2 ^ bits ≤ 2 ^ 31 := Nat.pow_le_pow_right (by decide) (by omega)
  rw [mainA1Max, windowMax, u32]
  generalize 2 ^ bits = n at hlow hhigh
  have hsmall : 2 * (n - n / 100) < 2 ^ 32 := by omega
  rw [Nat.mod_eq_of_lt hsmall]
  omega

omit [DecidableEq Key] [Inhabited Key] [DecidableEq Item] [Inhabited Item] in
theorem construct_two_pow_consistent {bits : Nat} (h7 : 7 ≤ bits) (h32 : bits < 32) :
    Consistent (construct clzOfZero (1 <<< bits) emptyItem : Wtinylfu Key Item) := by
  have hlow : 2 ^ 7 ≤ 2 ^ bits := Nat.pow_le_pow_right (by decide) h7
  have hhigh : 2 ^ bits ≤ 2 ^ 31 := Nat.pow_le_pow_right (by decide) (by omega)
  rw [Nat.one_shiftLeft]
  exact construct_consistent (by omega) (by omega) (mainA1Max_two_pow h7 h32)

theorem sound_of_mainA1Max (h : 100 ≤ maxItems) (h32 : maxItems < 2 ^ 32) (h1 : mainA1Max maxItems ≠ 0) :
    Sound maxItems := by
  intro Key Item _ _ _ _ hash clzOfZero emptyItem ts c hrun
  have hkept : Kept emptyItem ts c := by
    induction hrun with
    | refl => exact ⟨construct_consistent h h32 h1, rfl, fun _ _ hx => absurd hx (Multiset.notMem_zero _), rfl⟩
    | tail _ hs ih => exact kept_step ih hs
  exact hkept.upheld

end Construction

section Overflow

variable {maxItems : Nat} {clzOfZero : UInt32}

/-- The cache after the keys 1, 2, .., n were set into a window with room for
them. -/
structure Filled (maxItems n : Nat) (c : Wtinylfu Nat Nat) : Prop where
  linked : Linked c
  maxItems : ∀ l, (c.lru l).maxItems = maxItemsOf maxItems l
  window : (c.lru .window).items = n
  others : ∀ l, l ≠ .window → (c.lru l).items = 0
  absent : ∀ k, n < k → c.map k = none

theorem Filled.checkSizes {n : Nat} {c : Wtinylfu Nat Nat} (h : Filled maxItems n c)
    (hn : n ≤ windowMax maxItems) : c.checkSizes = .ok () := by
  have hw : c.size .window ≤ (c.lru .window).maxItems := by
    rw [h.maxItems, size, h.window]
    exact hn
  have h1 : c.size .mainA1 ≤ (c.lru .mainA1).maxItems := by
    rw [size, h.others _ (by decide)]
    exact Nat.zero_le _
  have h2 : c.size .mainA2 ≤ (c.lru .mainA2).maxItems := by
    rw [size, h.others _ (by decide)]
    exact Nat.zero_le _
  rw [Wtinylfu.checkSizes, check_of hw, check_of h1, check_of h2]
  rfl

theorem Filled.step {hash : Nat → UInt64} {n : Nat} {c : Wtinylfu Nat Nat} (h : Filled maxItems n c)
    (hn : n < windowMax maxItems) (h32 : maxItems < 2 ^ 32) :
    ∃ x c', Step hash c (.set (n + 1) 0, x) c' ∧ Filled maxItems (n + 1) c' := by
  have habsent := h.absent (n + 1) n.lt_succ_self
  have hmax : (c.lru .window).maxItems = windowMax maxItems := h.maxItems .window
  have hroom : (c.lru .window).items ≠ (c.lru .window).maxItems := by
    rw [hmax, h.window]
    exact hn.ne
  have hisFull : c.isFull .window = false := decide_eq_false hroom
  have hnone : c.evictIfNecessary hash = .ok (c.emptyItem, c) := by
    rw [evictIfNecessary, hisFull]
    rfl
  have hlt : n + 1 < 2 ^ 32 := by
    rw [windowMax] at hn
    omega
  have hfilled : Filled maxItems (n + 1) (c.inserted hash (n + 1) 0) := by
    refine ⟨inserted_linked h.linked habsent (h.window ▸ hlt), fun l => ?_, ?_, fun l hl => ?_, fun k hk => ?_⟩
    · rw [inserted_sameBounds.maxItems, h.maxItems]
    · rw [inserted_lru, if_pos rfl]
      change u32 ((c.lru .window).items + 1) = n + 1
      rw [h.window, u32, Nat.mod_eq_of_lt hlt]
    · rw [inserted_lru, if_neg hl]
      exact h.others l hl
    · rw [inserted_map, if_neg (by omega)]
      exact h.absent k (by omega)
  obtain ⟨d, hcreate, hitem⟩ := @create_setItem _ _ hash c _ (n + 1) 0 _ hroom habsent
  refine ⟨c.emptyItem, _, ⟨⟨Nat.succ_ne_zero n, habsent⟩, ?_⟩, hfilled⟩
  have hkey : n + 1 ≠ default := Nat.succ_ne_zero n
  change c.set hash (n + 1) 0 = _
  rw [set, check_of hkey, ok_bind, check_of habsent, ok_bind, hnone, ok_bind]
  simp only [hcreate, ok_bind, hitem, hfilled.checkSizes hn]
  rfl

theorem exists_filled (h32 : maxItems < 2 ^ 32) (hash : Nat → UInt64) (n : Nat)
    (hn : n ≤ windowMax maxItems) :
    ∃ ts c, Run (Step hash) (construct clzOfZero maxItems 0) ts c ∧ Filled maxItems n c := by
  induction n with
  | zero => exact ⟨_, _, Run.refl, construct_linked, fun _ => rfl, rfl, fun _ _ => rfl, fun _ _ => rfl⟩
  | succ n ih =>
      obtain ⟨ts, c, hrun, hfilled⟩ := ih (Nat.le_of_succ_le hn)
      obtain ⟨x, c', hs, hnext⟩ := @Filled.step _ hash _ _ hfilled hn h32
      exact ⟨_, c', Run.tail hrun hs, hnext⟩

theorem Filled.set_fails {hash : Nat → UInt64} {c : Wtinylfu Nat Nat}
    (h : Filled maxItems (windowMax maxItems) c) (h1 : mainA1Max maxItems = 0) (hpos : 0 < windowMax maxItems) :
    c.set hash (windowMax maxItems + 1) 0 = .error .endIterator := by
  have habsent := h.absent _ (Nat.lt_succ_self (windowMax maxItems))
  have hfull : c.isFull .window = true := decide_eq_true (h.window.trans (h.maxItems .window).symm)
  have hfull1 : c.isFull .mainA1 = true :=
    decide_eq_true ((h.others .mainA1 (by decide)).trans ((h.maxItems .mainA1).trans h1).symm)
  obtain ⟨it, e, hlast, _⟩ := exists_candidate h.linked (h.window ▸ hpos.ne')
  have hnil : (c.lru .mainA1).list = [] := by
    have hcount := h.linked.counted .mainA1
    rw [h.others .mainA1 (by decide)] at hcount
    exact List.length_eq_zero_iff.mp hcount.symm
  have hend : c.evictionCandidate .mainA1 = .error .endIterator := by
    rw [evictionCandidate, hnil]
    rfl
  have hevict : c.evictIfNecessary hash = .error .endIterator := by
    rw [evictIfNecessary, hfull, hfull1, evictWorseCandidate, evictionCandidate_eq hlast, hend]
    rfl
  have hkey : windowMax maxItems + 1 ≠ default := Nat.succ_ne_zero _
  rw [set, check_of hkey, ok_bind, check_of habsent, ok_bind, hevict]
  rfl

theorem not_sound (h100 : 100 ≤ maxItems) (h32 : maxItems < 2 ^ 32) (h1 : mainA1Max maxItems = 0) :
    ¬ Sound maxItems := by
  intro hsound
  obtain ⟨ts, c, hrun, hfilled⟩ := @exists_filled maxItems 0 h32 (fun _ => 0) _ le_rfl
  have hpos : 0 < windowMax maxItems := Nat.div_pos h100 (by decide)
  have hadmits : Admits c (.set (windowMax maxItems + 1) 0) :=
    ⟨Nat.succ_ne_zero _, hfilled.absent _ (Nat.lt_succ_self _)⟩
  obtain ⟨x, c', happly⟩ := (hsound Nat Nat (fun _ => 0) 0 0 ts c hrun).proceeds _ hadmits
  have hfails : Op.apply (fun _ => 0) c (.set (windowMax maxItems + 1) 0) = .error .endIterator :=
    hfilled.set_fails h1 hpos
  rw [hfails] at happly
  cases happly

end Overflow

/-- The representation is kept in all runs exactly when the 32-bit product in
the constructor leaves A1 room for an item. -/
theorem sound_iff_mainA1Max {maxItems : Nat} (h100 : 100 ≤ maxItems) (h32 : maxItems < 2 ^ 32) :
    Sound maxItems ↔ u32 (2 * (maxItems - maxItems / 100)) / 10 ≠ 0 :=
  ⟨fun hsound h1 => not_sound h100 h32 h1 hsound, sound_of_mainA1Max h100 h32⟩

theorem sound_iff_mainA1Max_smallest : Sound 100 ↔ u32 (2 * (100 - 100 / 100)) / 10 ≠ 0 :=
  sound_iff_mainA1Max (by decide) (by decide)

theorem not_sound_wrapped : ¬ ∀ maxItems, 100 ≤ maxItems → maxItems < 2 ^ 32 → Sound maxItems :=
  fun h => not_sound (by decide) (by decide) (by decide) (h 2169175402 (by decide) (by decide))

end Tyrdbs.Wtinylfu
