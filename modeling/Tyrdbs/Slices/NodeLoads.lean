import Tyrdbs.Library.Slots
import Tyrdbs.Slices.NodeCache

namespace Tyrdbs.Slices.NodeCache

open Outcome Runs Slots Storage

variable {z : Codec} {s : NodeCache} {key : NodeKey}

/-- While no node is asked for during its load, a latch entry belongs to one
loading call and nobody waits. -/
structure EntryInv (s : NodeCache) (key : NodeKey) (e : LatchEntry (Option Nat)) : Prop where
  valid : key ≠ default
  empty : e.value = none
  single : e.refCount = 1
  queue : e.cond = []
  loader : ∃ (i : Nat) (d : Option Nat), s.calls[i]? = some ⟨key, .loading, d⟩
  absent : ∀ c, s.cache = some c → ∀ x, (key, x) ∉ c.residents

structure CacheInv (c : Wtinylfu NodeKey (Option Nat)) : Prop where
  consistent : c.Consistent
  emptyItem : c.emptyItem = none
  items : ∀ key x, (key, x) ∈ c.residents → x ≠ none

def CallInv (s : NodeCache) (c : GetCall) : Prop :=
  c.during = none ∧ match c.phase with
    | .loading => s.cache ≠ none → ∃ e, s.latch.entries.find c.key = some e
    | .returned _ => True
    | _ => False

structure Inv (s : NodeCache) : Prop where
  cache : ∀ c, s.cache = some c → CacheInv c
  latchless : s.cache = none → ∀ key, s.latch.entries.find key = none
  emptyValue : s.latch.emptyValue = none
  entry : ∀ key e, s.latch.entries.find key = some e → s.EntryInv key e
  call : ∀ (i : Nat) (c : GetCall), s.calls[i]? = some c → s.CallInv c
  oneLoad : ∀ (key : NodeKey) (i j : Nat) (d d' : Option Nat), s.calls[i]? = some ⟨key, .loading, d⟩ →
    s.calls[j]? = some ⟨key, .loading, d'⟩ → i = j

theorem Inv.shared (h : s.Inv) : Shared s := by
  refine ⟨h.oneLoad, fun i j node key hi => ?_⟩
  have hduring := (h.call i _ hi).1
  cases hduring

theorem Inv.touched (h : s.Inv) {c d : Wtinylfu NodeKey (Option Nat)} (hc : s.cache = some c)
    (hd : d.Consistent) (hsame : c.SameBounds d) (hres : d.residents = c.residents) :
    ({ s with cache := some d } : NodeCache).Inv := by
  have hold := h.cache c hc
  refine ⟨fun c' hc' => ?_, fun hnone => ?_, h.emptyValue, fun k e he => ?_, fun i b hi => ?_, h.oneLoad⟩
  · rw [Option.some.injEq] at hc'
    subst hc'
    exact ⟨hd, hsame.emptyItem.trans hold.emptyItem, fun k x hx => hold.items k x (hres ▸ hx)⟩
  · cases hnone
  · have hentry := h.entry k e he
    refine ⟨hentry.valid, hentry.empty, hentry.single, hentry.queue, hentry.loader, fun c' hc' x hx => ?_⟩
    rw [Option.some.injEq] at hc'
    rw [← hc', hres] at hx
    exact hentry.absent c hc x hx
  · obtain ⟨hduring, hphase⟩ := h.call i b hi
    refine ⟨hduring, ?_⟩
    obtain ⟨k, phase, during⟩ := b
    cases phase with
    | loading => exact fun _ => hphase (by rw [hc]; exact Option.some_ne_none c)
    | waiting n => exact hphase
    | leaving n => exact hphase
    | returned n => exact trivial

theorem push_get {c b : GetCall} {i : Nat} (hi : (s.push c).calls[i]? = some b) :
    s.calls[i]? = some b ∨ i = s.calls.length ∧ b = c := by
  have hrep := (replaced_append s.calls c).get i
  change (s.calls ++ [c])[i]? = some b at hi
  rw [hrep] at hi
  by_cases heq : i = s.calls.length
  · rw [if_pos heq, Option.some.injEq] at hi
    exact Or.inr ⟨heq, hi.symm⟩
  · rw [if_neg heq] at hi
    exact Or.inl hi

theorem get_push {c b : GetCall} {i : Nat} (hi : s.calls[i]? = some b) : (s.push c).calls[i]? = some b := by
  have hlt := (List.getElem?_eq_some_iff.mp hi).1
  change (s.calls ++ [c])[i]? = some b
  rw [List.getElem?_append_left hlt, hi]

theorem Inv.push_returned (h : s.Inv) (node : Nat) : (s.push ⟨key, .returned node, none⟩).Inv := by
  refine ⟨h.cache, h.latchless, h.emptyValue, fun k e he => ?_, fun i b hi => ?_, fun k i j d d' hi hj => ?_⟩
  · have hentry := h.entry k e he
    obtain ⟨i, d, hi⟩ := hentry.loader
    exact ⟨hentry.valid, hentry.empty, hentry.single, hentry.queue, ⟨i, d, get_push hi⟩, hentry.absent⟩
  · rcases push_get hi with hi | ⟨_, rfl⟩
    · exact h.call i b hi
    · exact ⟨rfl, trivial⟩
  · rcases push_get hi with hi | ⟨_, heq⟩
    · rcases push_get hj with hj | ⟨_, heq⟩
      · exact h.oneLoad k i j d d' hi hj
      · cases heq
    · cases heq

def firstEntry : LatchEntry (Option Nat) := { refCount := 1, value := none }

theorem Inv.push_loading (h : s.Inv) (hkey : key ≠ default)
    (hno : ∀ (i : Nat) (d : Option Nat), s.calls[i]? ≠ some ⟨key, .loading, d⟩) {latch : Latch NodeKey (Option Nat)}
    (hempty : latch.emptyValue = none)
    (hfind : ∀ k, latch.entries.find k = if s.cache ≠ none ∧ k = key then some firstEntry
      else s.latch.entries.find k)
    (habsent : ∀ c, s.cache = some c → ∀ x, (key, x) ∉ c.residents) :
    ({ s with latch := latch }.push ⟨key, .loading, none⟩).Inv := by
  have hget : ∀ {i : Nat} {b : GetCall}, s.calls[i]? = some b →
      ({ s with latch := latch }.push ⟨key, .loading, none⟩).calls[i]? = some b := fun hi => get_push hi
  refine ⟨h.cache, fun hnone k => ?_, hempty, fun k e he => ?_, fun i b hi => ?_, fun k i j d d' hi hj => ?_⟩
  · have hnone : s.cache = none := hnone
    change latch.entries.find k = none
    rw [hfind, if_neg (fun hboth => hboth.1 hnone)]
    exact h.latchless hnone k
  · have he : latch.entries.find k = some e := he
    rw [hfind] at he
    by_cases hboth : s.cache ≠ none ∧ k = key
    · rw [if_pos hboth, Option.some.injEq] at he
      rw [hboth.2, ← he]
      refine ⟨hkey, rfl, rfl, rfl, ⟨s.calls.length, none, ?_⟩, habsent⟩
      exact (replaced_append s.calls _).get_self
    · rw [if_neg hboth] at he
      have hentry := h.entry k e he
      obtain ⟨i, d, hi⟩ := hentry.loader
      exact ⟨hentry.valid, hentry.empty, hentry.single, hentry.queue, ⟨i, d, hget hi⟩, hentry.absent⟩
  · rcases push_get hi with hi | ⟨_, rfl⟩
    · obtain ⟨hduring, hphase⟩ := h.call i b hi
      refine ⟨hduring, ?_⟩
      obtain ⟨k, phase, during⟩ := b
      cases phase with
      | loading =>
          intro hsome
          obtain ⟨e, he⟩ := hphase hsome
          by_cases hk : k = key
          · exact absurd hi (hk ▸ hno i during)
          · exact ⟨e, (hfind k).trans ((if_neg (fun hboth => hk hboth.2)).trans he)⟩
      | waiting n => exact hphase
      | leaving n => exact hphase
      | returned n => exact trivial
    · exact ⟨rfl, fun hsome => ⟨firstEntry, (hfind key).trans (if_pos ⟨hsome, rfl⟩)⟩⟩
  · rcases push_get hi with hi | ⟨hi, heq⟩
    · rcases push_get hj with hj | ⟨_, heq⟩
      · exact h.oneLoad k i j d d' hi hj
      · cases heq
        exact absurd hi (hno i d)
    · rcases push_get hj with hj | ⟨hj, _⟩
      · cases heq
        exact absurd hj (hno j d')
      · exact hi.trans hj.symm

section Get

theorem findIdx?_none (hno : ∀ (i : Nat) (d : Option Nat), s.calls[i]? ≠ some ⟨key, .loading, d⟩) :
    s.calls.findIdx? (GetCall.isLoading key) = none := by
  rw [List.findIdx?_eq_none_iff]
  intro c hc
  obtain ⟨i, hi⟩ := List.mem_iff_getElem?.mp hc
  obtain ⟨k, phase, during⟩ := c
  cases phase with
  | loading =>
      rw [GetCall.isLoading, decide_eq_false, Bool.false_and]
      rintro rfl
      exact hno i during hi
  | waiting n => exact Bool.and_false _
  | leaving n => exact Bool.and_false _
  | returned n => exact Bool.and_false _

theorem get_none (hc : s.cache = none) :
    s.get key = .ok (s.push ⟨key, .loading, s.calls.findIdx? (GetCall.isLoading key)⟩) := by
  rw [get, hc]

theorem get_miss {c d : Wtinylfu NodeKey (Option Nat)} (hc : s.cache = some c)
    (hget : c.get NodeKey.hash key = .ok (none, d)) {latch : Latch NodeKey (Option Nat)}
    (hacquire : s.latch.acquire key = (none, latch)) :
    s.get key = .ok ({ s with cache := some d, latch := latch }.push
      ⟨key, .loading, s.calls.findIdx? (GetCall.isLoading key)⟩) := by
  rw [get, hc]
  simp only [hget, Except.mapError, ok_bind, hacquire]
  rfl

theorem get_hit {c d : Wtinylfu NodeKey (Option Nat)} {node : Nat} (hc : s.cache = some c)
    (hget : c.get NodeKey.hash key = .ok (some node, d)) :
    s.get key = .ok ({ s with cache := some d }.push
      ⟨key, .returned node, s.calls.findIdx? (GetCall.isLoading key)⟩) := by
  rw [get, hc]
  simp only [hget, Except.mapError, ok_bind]
  rfl

theorem Inv.unlatched (h : s.Inv) (hno : ∀ (i : Nat) (d : Option Nat), s.calls[i]? ≠ some ⟨key, .loading, d⟩) :
    s.latch.entries.find key = none := by
  cases he : s.latch.entries.find key with
  | none => rfl
  | some e =>
      obtain ⟨i, d, hi⟩ := (h.entry key e he).loader
      exact absurd hi (hno i d)

theorem acquire_first (h : s.Inv) (he : s.latch.entries.find key = none) :
    s.latch.acquire key = (none, s.latch.put key firstEntry) := by
  rw [Latch.acquire, he, Option.getD_none, h.emptyValue]
  rfl

theorem get_yields (h : s.Inv) (hkey : key ≠ default)
    (hno : ∀ (i : Nat) (d : Option Nat), s.calls[i]? ≠ some ⟨key, .loading, d⟩) :
    Yields (fun _ => False) Inv (s.get key) := by
  have hfind := h.unlatched hno
  cases hc : s.cache with
  | none =>
      rw [get_none hc, findIdx?_none hno]
      refine h.push_loading hkey hno h.emptyValue (fun k => ?_) (fun c hc' => ?_)
      · rw [if_neg (fun hboth => hboth.1 hc)]
      · rw [hc] at hc'
        cases hc'
  | some c =>
      have hcache := h.cache c hc
      obtain ⟨⟨x, d⟩, hget, hd, hsame, hres, hcases⟩ :=
        (Wtinylfu.get_yields hcache.consistent hkey : Yields _ _ (c.get NodeKey.hash key)).exists_ok
      have htouched := h.touched hc hd hsame hres
      cases x with
      | some node =>
          rw [get_hit hc hget, findIdx?_none hno]
          exact htouched.push_returned node
      | none =>
          have habsent : ∀ x, (key, x) ∉ c.residents := by
            rcases hcases with ⟨_, habsent⟩ | hmem
            · exact habsent
            · exact absurd rfl (hcache.items key none hmem)
          rw [get_miss hc hget (acquire_first h hfind), findIdx?_none hno]
          refine htouched.push_loading hkey hno h.emptyValue (fun k => ?_) (fun c' hc' x hx => ?_)
          · rw [Latch.find_put]
            by_cases hk : k = key
            · rw [if_pos hk, if_pos ⟨Option.some_ne_none d, hk⟩]
            · rw [if_neg hk, if_neg (fun hboth => hk hboth.2)]
          · rw [Option.some.injEq] at hc'
            rw [← hc', hres] at hx
            exact habsent x hx

theorem get_overlaps (h : s.Inv) (hkey : key ≠ default) {i : Nat} {d : Option Nat}
    (hi : s.calls[i]? = some ⟨key, .loading, d⟩) :
    ∃ s' d', s.get key = .ok s' ∧ s'.calls = s.calls ++ [⟨key, .loading, d'⟩] := by
  cases hc : s.cache with
  | none => exact ⟨_, _, get_none hc, rfl⟩
  | some c =>
      obtain ⟨_, hphase⟩ := h.call i _ hi
      obtain ⟨e, he⟩ := hphase (by rw [hc]; exact Option.some_ne_none c)
      have he : s.latch.entries.find key = some e := he
      have hentry := h.entry key e he
      obtain ⟨⟨x, d'⟩, hget, _, _, _, hcases⟩ :=
        (Wtinylfu.get_yields (h.cache c hc).consistent hkey : Yields _ _ (c.get NodeKey.hash key)).exists_ok
      have hx : x = none := by
        rcases hcases with ⟨hx, _⟩ | hmem
        · exact hx.trans (h.cache c hc).emptyItem
        · exact absurd hmem (hentry.absent c hc x)
      subst hx
      have hacquire : s.latch.acquire key = (none, s.latch.put key { e with refCount := e.refCount + 1 }) := by
        rw [Latch.acquire, he, Option.getD_some, hentry.empty]
      exact ⟨_, _, get_miss hc hget hacquire, rfl⟩

end Get

section LoadDone

variable {id : Nat} {d : Option Nat} {node : Node}

theorem loadDone_none (hc : s.cache = none) :
    s.loadDone id key node = .ok ({ s with nodes := s.nodes ++ [node] }.setPhase id (.returned s.nodes.length)) := by
  rw [loadDone, hc]
  rfl

theorem loadDone_last {c : Wtinylfu NodeKey (Option Nat)} {e : LatchEntry (Option Nat)} (hc : s.cache = some c)
    (he : s.latch.entries.find key = some e) (hsingle : e.refCount = 1) :
    s.loadDone id key node =
      (c.set NodeKey.hash key (some s.nodes.length)).mapError .cache >>= fun r =>
        .ok { s with
          cache := some r.2
          nodes := s.nodes ++ [node]
          latch := { s.latch with
            entries := (s.latch.entries.put key { e with released := true, cond := [] }).erase key }
          runQueue := s.runQueue ++ e.cond
          calls := (s.calls.modify id (fun b => { b with phase := .leaving s.nodes.length })).modify id
            (fun b => { b with phase := .returned s.nodes.length }) } := by
  have hput : (s.latch.put key { e with released := true, cond := [] }).entries.find key =
      some { e with released := true, cond := [] } := by rw [Latch.find_put, if_pos rfl]
  have hne : e.refCount ≠ 0 := by rw [hsingle]; exact one_ne_zero
  have hlast : e.refCount - 1 = 0 := by rw [hsingle]
  rw [loadDone]
  simp only [hc, Latch.release, Latch.entry_eq he, ok_bind]
  change leave _ _ _ _ = _
  rw [leave]
  simp only [setPhase, Latch.remove, Latch.entry_eq hput, ok_bind, check_of hne, hlast, if_true]
  rfl

theorem calls_done (hi : s.calls[id]? = some ⟨key, .loading, d⟩) (n : Nat) :
    Replaced s.calls ((s.calls.modify id (fun b => { b with phase := .leaving n })).modify id
      (fun b => { b with phase := .returned n })) id ⟨key, .returned n, d⟩ := by
  have hfirst := replaced_modify hi (fun b => { b with phase := .leaving n })
  exact hfirst.trans (replaced_modify hfirst.get_self (fun b => { b with phase := .returned n }))

theorem loading_of_replaced {calls : List GetCall} {n : Nat} (hrep : Replaced s.calls calls id ⟨key, .returned n, d⟩)
    {k : NodeKey} {i : Nat} {d' : Option Nat} (hi : calls[i]? = some ⟨k, .loading, d'⟩) :
    s.calls[i]? = some ⟨k, .loading, d'⟩ ∧ i ≠ id := by
  rw [hrep.get] at hi
  by_cases hid : i = id
  · rw [if_pos hid, Option.some.injEq] at hi
    cases hi
  · rw [if_neg hid] at hi
    exact ⟨hi, hid⟩

/-- The call whose load is done returns the node; its latch entry is gone and
others keep theirs. -/
theorem Inv.settled (h : s.Inv) (hi : s.calls[id]? = some ⟨key, .loading, d⟩) {s' : NodeCache} {n : Nat}
    (hrep : Replaced s.calls s'.calls id ⟨key, .returned n, d⟩) (hcache : ∀ c, s'.cache = some c → CacheInv c)
    (hsome : s'.cache = none ↔ s.cache = none) (hempty : s'.latch.emptyValue = none)
    (hfind : ∀ k, s'.latch.entries.find k = if k = key then none else s.latch.entries.find k)
    (habsent : ∀ k, k ≠ key → ∀ c, s.cache = some c → (∀ x, (k, x) ∉ c.residents) →
      ∀ c', s'.cache = some c' → ∀ x, (k, x) ∉ c'.residents) : s'.Inv := by
  refine ⟨hcache, fun hnone k => ?_, hempty, fun k e he => ?_, fun i b hb => ?_, fun k i j a a' hi hj => ?_⟩
  · rw [hfind, h.latchless (hsome.mp hnone) k, ite_self]
  · rw [hfind] at he
    by_cases hk : k = key
    · rw [if_pos hk] at he
      cases he
    · rw [if_neg hk] at he
      have hentry := h.entry k e he
      obtain ⟨i, a, hload⟩ := hentry.loader
      have hne : i ≠ id := by
        rintro rfl
        rw [hi, Option.some.injEq] at hload
        cases hload
        exact hk rfl
      refine ⟨hentry.valid, hentry.empty, hentry.single, hentry.queue, ⟨i, a, ?_⟩, ?_⟩
      · rw [hrep.get_of_ne hne, hload]
      · cases hc : s.cache with
        | none => exact fun c' hc' => by rw [hsome.mpr hc] at hc'; cases hc'
        | some c => exact habsent k hk c hc (hentry.absent c hc)
  · rw [hrep.get] at hb
    by_cases hid : i = id
    · rw [if_pos hid, Option.some.injEq] at hb
      rw [← hb]
      exact ⟨(h.call id _ hi).1, trivial⟩
    · rw [if_neg hid] at hb
      obtain ⟨hduring, hphase⟩ := h.call i b hb
      refine ⟨hduring, ?_⟩
      obtain ⟨k, phase, during⟩ := b
      cases phase with
      | loading =>
          intro hne
          obtain ⟨e, he⟩ := hphase (fun hnone => hne (hsome.mpr hnone))
          have hk : k ≠ key := by
            rintro rfl
            exact hid (h.oneLoad k i id during d hb hi)
          exact ⟨e, (hfind k).trans ((if_neg hk).trans he)⟩
      | waiting n => exact hphase
      | leaving n => exact hphase
      | returned n => exact trivial
  · exact h.oneLoad k i j a a' (loading_of_replaced hrep hi).1 (loading_of_replaced hrep hj).1

theorem loadDone_yields (h : s.Inv) (hi : s.calls[id]? = some ⟨key, .loading, d⟩) :
    Yields (fun _ => False) Inv (s.loadDone id key node) := by
  cases hc : s.cache with
  | none =>
      rw [loadDone_none hc]
      have hrep := replaced_modify hi (fun b => { b with phase := .returned s.nodes.length })
      refine h.settled hi hrep h.cache Iff.rfl h.emptyValue (fun k => ?_) (fun k _ c hc' => ?_)
      · change s.latch.entries.find k = _
        rw [h.latchless hc k, ite_self]
      · rw [hc] at hc'
        cases hc'
  | some c =>
      have hcache := h.cache c hc
      obtain ⟨e, he⟩ := (h.call id _ hi).2 (by rw [hc]; exact Option.some_ne_none c)
      have he : s.latch.entries.find key = some e := he
      have hentry := h.entry key e he
      have hmap : c.map key = none := by
        rw [← Option.not_isSome_iff_eq_none, Wtinylfu.isSome_map_iff hcache.consistent.toLinked]
        exact fun ⟨x, hx⟩ => hentry.absent c hc x hx
      rw [loadDone_last hc he hentry.single]
      refine Yields.bind (PageCache.yields_mapError
        (Wtinylfu.set_yields hcache.consistent hentry.valid hmap) _) ?_
      rintro ⟨x, c'⟩ ⟨hc', hsame, a, hback, hres⟩
      have hsub : ∀ k y, (k, y) ∈ c'.residents → (k, y) = (key, some s.nodes.length) ∨ (k, y) ∈ c.residents := by
        intro k y hy
        rw [hres] at hy
        exact (Multiset.mem_cons.mp hy).imp_right (fun hy => hback.subset hy)
      refine h.settled hi (calls_done hi s.nodes.length) (fun c'' hc'' => ?_)
        (iff_of_false (Option.some_ne_none c') (by rw [hc]; exact Option.some_ne_none c)) h.emptyValue
        (fun k => ?_) (fun k hk c₁ hc₁ habsent c₂ hc₂ y hy => ?_)
      · rw [Option.some.injEq] at hc''
        subst hc''
        refine ⟨hc', hsame.emptyItem.trans hcache.emptyItem, fun k y hy => ?_⟩
        rcases hsub k y hy with heq | hy
        · cases heq
          exact Option.some_ne_none _
        · exact hcache.items k y hy
      · change ((s.latch.entries.put key _).erase key).find k = _
        rw [Table.find_erase, Table.find_put]
        by_cases hk : k = key
        · rw [if_pos hk, if_pos hk]
        · rw [if_neg hk, if_neg hk, if_neg hk]
      · rw [hc, Option.some.injEq] at hc₁
        have hc₂ : c' = c₂ := Option.some.inj hc₂
        subst hc₁ hc₂
        rcases hsub k y hy with heq | hy
        · exact hk (congrArg Prod.fst heq)
        · exact habsent y hy

theorem loadDone_calls (h : s.Inv) (hi : s.calls[id]? = some ⟨key, .loading, d⟩) {s' : NodeCache}
    (hs : s.loadDone id key node = .ok s') : Replaced s.calls s'.calls id ⟨key, .returned s.nodes.length, d⟩ := by
  cases hc : s.cache with
  | none =>
      rw [loadDone_none hc, Except.ok.injEq] at hs
      subst hs
      exact replaced_modify hi (fun b => { b with phase := .returned s.nodes.length })
  | some c =>
      obtain ⟨e, he⟩ := (h.call id _ hi).2 (by rw [hc]; exact Option.some_ne_none c)
      rw [loadDone_last hc he (h.entry key e he).single] at hs
      cases hset : c.set NodeKey.hash key (some s.nodes.length) with
      | error stop =>
          rw [hset] at hs
          cases hs
      | ok x =>
          rw [hset] at hs
          rw [← Except.ok.inj hs]
          exact calls_done hi s.nodes.length

end LoadDone

theorem initial_inv {clzOfZero : UInt32} {cacheBits : Nat} {files : UInt64 → List Byte}
    (hbits : cacheBits = 0 ∨ 7 ≤ cacheBits ∧ cacheBits < 32) : (initial clzOfZero cacheBits files).Inv := by
  refine ⟨fun c hc => ?_, fun _ _ => rfl, rfl, fun k e he => ?_, fun i c hi => ?_, fun k i j d d' hi => ?_⟩
  · rw [initial] at hc
    rcases hbits with rfl | ⟨h7, h32⟩
    · cases hc
    · have hc : (if cacheBits = 0 then none else some _) = some c := hc
      rw [if_neg (by omega), Option.some.injEq] at hc
      subst hc
      exact ⟨Wtinylfu.construct_two_pow_consistent h7 h32, rfl,
        fun k x hx => absurd hx (Multiset.notMem_zero _)⟩
  · exact absurd he (by simp [initial])
  · exact absurd hi (by simp [initial])
  · exact absurd hi (by simp [initial])

def System.Inv : System → Prop
  | .running s => NodeCache.Inv s
  | .stopped _ => False

theorem step_of_ok {a : Action} {s' : NodeCache} (ha : Admits z s a) (h : s.apply a = .ok s') :
    Step z (.running s) a (.running s') := by
  have hstep := Step.mk s a ha
  rw [h] at hstep
  exact hstep

theorem step_inv {a : Action} (h : s.Inv) (ha : Admits z s a) (hover : ¬ Overlaps (.running s) a) :
    System.Inv (.after (s.apply a)) := by
  have hyields : Yields (fun _ => False) Inv (s.apply a) := by
    cases a with
    | get key => exact get_yields h ha (fun i d hi => hover ⟨i, d, hi⟩)
    | loadDone id node =>
        obtain ⟨key, d, _, hi, _⟩ := ha
        rw [apply, hi]
        exact loadDone_yields h hi
    | resume id =>
        -- nobody waits
        obtain ⟨_, key, node, d, hi⟩ := ha
        exact ((h.call id _ hi).2).elim
  obtain ⟨s', hs', hinv⟩ := hyields.exists_ok
  rw [hs']
  exact hinv

theorem step_breaks {a : Action} (h : s.Inv) (ha : Admits z s a) (hover : ¬ ¬ Overlaps (.running s) a) :
    ¬ System.Shared (.after (s.apply a)) := by
  cases a with
  | get key =>
      obtain ⟨i, d, hi⟩ := not_not.mp hover
      obtain ⟨s', d', hs', hcalls⟩ := get_overlaps h ha hi
      rw [apply, hs']
      intro hshared
      have hnew : s'.calls[s.calls.length]? = some ⟨key, .loading, d'⟩ := by
        rw [hcalls]
        exact (replaced_append _ _).get_self
      have hlt := (List.getElem?_eq_some_iff.mp hi).1
      have hold : s'.calls[i]? = some ⟨key, .loading, d⟩ := by
        rw [hcalls, List.getElem?_append_left hlt, hi]
      exact hlt.ne (NodeCache.Shared.oneLoad hshared key i s.calls.length d d' hold hnew)
  | loadDone id node => exact absurd (fun hfalse => hfalse) hover
  | resume id => exact absurd (fun hfalse => hfalse) hover

/-- In a run of any number of calls, in any order of their steps, loads are
shared exactly when there is nothing to share: no node is asked for while it
is being loaded. -/
theorem loads_shared_iff {clzOfZero : UInt32} {cacheBits : Nat} {files : UInt64 → List Byte}
    (hbits : cacheBits = 0 ∨ 7 ≤ cacheBits ∧ cacheBits < 32) {ts : List (System × Action × System)} {u : System}
    (hrun : Run (Step z) (.running (initial clzOfZero cacheBits files)) ts u) :
    (∀ v ∈ visited (.running (initial clzOfZero cacheBits files)) ts, System.Shared v) ↔
      ∀ t ∈ ts, ¬ Overlaps t.1 t.2.1 := by
  refine hrun.exact (fun u a => ¬ Overlaps u a) System.Inv System.Shared (initial_inv hbits)
    (fun v hv => ?_) (fun v a w hv hs hover => ?_) (fun v a w hv hs hover => ?_)
  · cases v with
    | running s => exact Inv.shared hv
    | stopped stop => exact hv
  · cases hs with
    | mk s a ha => exact step_inv hv ha hover
  · cases hs with
    | mk s a ha => exact step_breaks hv ha hover

section Concrete

/-- A codec for which the file of a node may hold anything. -/
def blank : Codec := ⟨fun _ => [0], fun _ => some (List.replicate nodeSize 0), fun _ => 0⟩

def blankFiles (_ : UInt64) : List Byte := List.replicate 9 0

def firstKey : NodeKey := ⟨1, 1⟩

theorem firstKey_valid : firstKey ≠ default := by decide

theorem returns_blank : returns (fun _ => true) (loadNode blank (blankFiles 1) [] 1) = true := by decide +kernel

def started : NodeCache := initial 0 7 blankFiles

def loadingFirst : NodeCache :=
  { started with latch := started.latch.put firstKey firstEntry }.push ⟨firstKey, .loading, none⟩

theorem get_started : started.apply (.get firstKey) = .ok loadingFirst :=
  @get_miss started firstKey _ _ rfl rfl _ rfl

def secondKey : NodeKey := ⟨1, 2⟩

theorem secondKey_valid : secondKey ≠ default := by decide

theorem keys_ne : firstKey ≠ secondKey := by decide

def loadingBoth : NodeCache :=
  { loadingFirst with latch := loadingFirst.latch.put secondKey firstEntry }.push ⟨secondKey, .loading, none⟩

theorem get_loadingFirst : loadingFirst.apply (.get secondKey) = .ok loadingBoth :=
  @get_miss loadingFirst secondKey _ _ rfl rfl _ rfl

theorem run_started : Run (Step blank) (.running started)
    [(.running started, .get firstKey, .running loadingFirst)] (.running loadingFirst) :=
  Run.tail Run.refl (step_of_ok (show Admits blank started (.get firstKey) from firstKey_valid) get_started)

theorem loadingFirst_inv : loadingFirst.Inv := by
  have hstarted : started.Inv := initial_inv (Or.inr (by decide))
  have hfirst := step_inv hstarted (show Admits blank started (.get firstKey) from firstKey_valid)
    (fun ⟨i, d, hi⟩ => absurd hi (by simp [started, initial]))
  rw [get_started] at hfirst
  exact hfirst

theorem secondKey_apart : ¬ Overlaps (.running loadingFirst) (.get secondKey) := by
  rintro ⟨i, d, hi⟩
  cases i with
  | zero => exact keys_ne (congrArg GetCall.key (Option.some.inj hi))
  | succ i => cases hi

theorem loadingBoth_inv : loadingBoth.Inv := by
  have hboth := step_inv loadingFirst_inv (show Admits blank loadingFirst (.get secondKey) from secondKey_valid) secondKey_apart
  rw [get_loadingFirst] at hboth
  exact hboth

/-- Two nodes are loaded at the same time, and once the first is there it is
asked for again. -/
theorem loads_shared_iff_twoNodes : ∃ (ts : List (System × Action × System)) (u : System), ts.length = 4 ∧
    Run (Step blank) (.running (initial 0 7 blankFiles)) ts u ∧
      ∀ v ∈ visited (.running (initial 0 7 blankFiles)) ts, System.Shared v := by
  obtain ⟨node, hnode, _⟩ := exists_of_returns returns_blank
  have hadmits : Admits blank loadingBoth (.loadDone 0 node) := ⟨firstKey, none, [], rfl, hnode⟩
  obtain ⟨s, hs, hinv⟩ := (loadDone_yields loadingBoth_inv (show loadingBoth.calls[0]? = some _ from rfl)).exists_ok
  have hcalls := loadDone_calls loadingBoth_inv rfl hs
  have hafter : ¬ Overlaps (.running s) (.get firstKey) := by
    rintro ⟨i, d, hi⟩
    obtain ⟨hi, hne⟩ := loading_of_replaced hcalls hi
    match i with
    | 0 => exact hne rfl
    | 1 => exact keys_ne (congrArg GetCall.key (Option.some.inj hi)).symm
  have hsecond : Admits blank loadingFirst (.get secondKey) := secondKey_valid
  have hrun := (((run_started.tail (step_of_ok hsecond get_loadingFirst)).tail (step_of_ok hadmits hs)).tail
    (Step.mk s (.get firstKey) firstKey_valid))
  refine ⟨_, _, rfl, hrun, (loads_shared_iff (Or.inr (by decide)) hrun).mpr fun t ht => ?_⟩
  simp only [List.mem_append, List.mem_singleton] at ht
  rcases ht with ((rfl | rfl) | rfl) | rfl
  · rintro ⟨i, d, hi⟩
    cases hi
  · exact secondKey_apart
  · exact id
  · exact hafter

theorem not_shared_overlapping : ¬ ∀ (z : Codec) (clzOfZero : UInt32) (cacheBits : Nat)
    (files : UInt64 → List Byte) (ts : List (System × Action × System)) (u : System),
    (cacheBits = 0 ∨ 7 ≤ cacheBits ∧ cacheBits < 32) →
      Run (Step z) (.running (initial clzOfZero cacheBits files)) ts u →
        ∀ v ∈ visited (.running (initial clzOfZero cacheBits files)) ts, System.Shared v := by
  intro h
  have hadmits : Admits blank loadingFirst (.get firstKey) := firstKey_valid
  have hrun := Run.tail run_started (Step.mk loadingFirst (.get firstKey) hadmits)
  have hover : Overlaps (.running loadingFirst) (.get firstKey) := ⟨0, none, rfl⟩
  exact step_breaks loadingFirst_inv hadmits (not_not.mpr hover)
    (h blank 0 7 blankFiles _ _ (Or.inr (by decide)) hrun _ hrun.mem_visited)

end Concrete

end Tyrdbs.Slices.NodeCache
