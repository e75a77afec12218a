import Tyrdbs.Storage.DiskReaderSteps

namespace Tyrdbs.Storage.DiskReader

open Outcome Runs Slots

variable {diskPageOf : UInt64 → Nat} {s : DiskReader} {total : Nat}

def initial (clzOfZero : UInt32) (cacheBits : Nat) (image memory : Nat → Page) : DiskReader where
  cache := PageCache.construct clzOfZero cacheBits
  image := image
  memory := memory

/-- A read that misses the page cache and the latch finds a page that no latch
entry holds. -/
def Fits (total : Nat) : System → Action → Prop
  | .running s, .read cacheId filePage _ =>
      (∃ page, s.resident (keyOf cacheId filePage) page) ∨
        (s.latch.entries.find (keyOf cacheId filePage)).isSome ∨ s.latch.entries.entries.length < total
  | _, _ => True

/-- What is asked of the calls of disk_reader::read. -/
structure Upheld (diskPageOf : UInt64 → Nat) (s : DiskReader) : Prop where
  oneRead : ∀ (key : UInt64) (i j p q d d' : Nat), s.calls[i]? = some ⟨key, .reading p d⟩ →
    s.calls[j]? = some ⟨key, .reading q d'⟩ → i = j
  bytes : ∀ (i : Nat) (key : UInt64) (p : Nat) (b : Page), s.calls[i]? = some ⟨key, .returned p b⟩ →
    b = s.contentOf diskPageOf key
  kept : ∀ (i : Nat) (c : Call), s.calls[i]? = some c → c.inside c.key = true →
    (∀ free, s.cache.pages.Holds free → c.page ∉ free) ∧ c.page ∉ s.cache.cached ∧
      ∀ (j : Nat) (b : Call), s.calls[j]? = some b → b.inside b.key = true → b.page = c.page → b.key = c.key
  added : ∀ key, s.adds key + (if (s.latch.entries.find key).isSome then 1 else 0) = s.episodes key
  notCached : ∀ key e, s.latch.entries.find key = some e → ∀ page, ¬ s.resident key page
  counted : ∀ key e, s.latch.entries.find key = some e → e.refCount = s.calls.countP (Call.inside key)
  awake : ∀ (i : Nat) (key : UInt64) (p : Nat), s.calls[i]? = some ⟨key, .waiting p⟩ →
    i ∈ s.runQueue ∨ ∃ j d : Nat, s.calls[j]? = some ⟨key, .reading p d⟩

def System.Upheld (diskPageOf : UInt64 → Nat) : System → Prop
  | .running s => DiskReader.Upheld diskPageOf s
  | .stopped _ => False

def System.Inv (diskPageOf : UInt64 → Nat) (total : Nat) : System → Prop
  | .running s => DiskReader.Inv diskPageOf s total
  | .stopped _ => False

theorem Inv.inside_entry (h : s.Inv diskPageOf total) {i : Nat} {c : Call} (hi : s.calls[i]? = some c)
    (hin : c.inside c.key = true) : ∃ e, s.latch.entries.find c.key = some e ∧ e.value = c.page := by
  have hc := (h.keys c.key).calls i c hi rfl
  obtain ⟨key, phase⟩ := c
  cases phase with
  | reading p d =>
      obtain ⟨e, he, hv, _⟩ := hc
      exact ⟨e, he, hv⟩
  | waiting p =>
      obtain ⟨e, he, hv, _⟩ := hc
      exact ⟨e, he, hv⟩
  | leaving p =>
      obtain ⟨e, he, hv, _⟩ := hc
      exact ⟨e, he, hv⟩
  | returned p b => simp [Call.inside] at hin

theorem Inv.upheld (h : s.Inv diskPageOf total) : Upheld diskPageOf s := by
  refine ⟨fun key => (h.keys key).oneReader, fun i key p b hi => (h.keys key).calls i _ hi rfl,
    fun i c hi hin => ?_, fun key => (h.keys key).counts, fun key e he => ((h.keys key).entry e he).absent,
    fun key e he => ?_, fun i key p hi => ?_⟩
  · obtain ⟨e, he, hv⟩ := h.inside_entry hi hin
    have hheld : c.page ∈ s.latch.held := hv ▸ h.value_held he
    refine ⟨fun free hfree => ?_, h.owned.not_cached hheld, fun j b hj hinb hpage => ?_⟩
    · obtain ⟨free', hfree', hsplit⟩ := h.owned.split
      rw [hfree.unique hfree']
      exact h.owned.not_free hheld hsplit
    · obtain ⟨e', he', hv'⟩ := h.inside_entry hj hinb
      by_contra hkey
      exact h.values_ne hkey he he' (hv'.trans (hpage.trans hv.symm))
  · have hcount := (h.keys key).count
    rw [he, Option.elim_some] at hcount
    exact hcount.symm
  · obtain ⟨e, he, hv, hq⟩ := (h.keys key).calls i _ hi rfl
    refine hq.imp_right (fun hq => ?_)
    have hentry := (h.keys key).entry e he
    have hr : e.released = false := by
      rw [← Bool.not_eq_true]
      intro hr
      rw [hentry.queue hr] at hq
      exact absurd hq List.not_mem_nil
    obtain ⟨j, d, hj⟩ := hentry.reader hr
    exact ⟨j, d, hv ▸ hj⟩

section Reads

variable {cacheId : UInt64} {filePage : UInt32} {extents : List Nat}

/-- A read is answered, waits or loads, as long as a page can be had. -/
theorem read_yields (h : s.Inv diskPageOf total) (ha : Admits diskPageOf s (.read cacheId filePage extents))
    (hfits : Fits total (.running s) (.read cacheId filePage extents)) :
    Yields (fun _ => False) (fun s' => s'.Inv diskPageOf total) (s.read cacheId filePage extents) := by
  obtain ⟨hfile, hkey, hdisk⟩ := ha
  obtain ⟨⟨page, cache⟩, hget, howned, hpages, hres, hcases⟩ := (PageCache.get_yields h.owned hkey).exists_ok
  have hmid := h.after_get howned hpages hres
  by_cases hpage : page = invalidHandle
  · subst hpage
    have habsent : ∀ p, ¬ s.resident (keyOf cacheId filePage) p := by
      rcases hcases with ⟨_, hnone⟩ | hmem
      · exact hnone
      · exact absurd rfl (h.owned.valid (h.owned.cached_mem (Multiset.mem_map_of_mem Prod.snd hmem)))
    cases he : s.latch.entries.find (keyOf cacheId filePage) with
    | some e =>
        have hvalue : e.value ≠ invalidHandle := h.owned.valid (h.owned.held_mem (h.value_held he))
        have hlast : s.calls[s.calls.length]? = none := List.getElem?_eq_none le_rfl
        have hrep := replaced_append s.calls ⟨keyOf cacheId filePage, .leaving e.value⟩
        have hcount := hrep.count (Call.inside (keyOf cacheId filePage))
        rw [hlast, (h.keys _).count, he] at hcount
        simp only [Call.inside, decide_true, Bool.and_true, Bool.toNat_true, Option.elim_none,
          Option.elim_some, Nat.add_zero] at hcount
        rw [read_join hfile hget he hvalue]
        exact waitFor_yields hmid hrep (fun b hb => absurd (hlast.symm.trans hb) (by simp)) he
          (Latch.updated_put he rfl) rfl rfl rfl rfl rfl rfl rfl (fun _ _ hq => hq) hcount
          (by simp [Call.inside]) rfl rfl
    | none =>
        have hroom : s.latch.held.card < cache.pages.all.card := by
          rw [Latch.card_held, hpages, h.size]
          rcases hfits with ⟨p, hp⟩ | hsome | hlt
          · exact absurd hp (habsent p)
          · rw [he] at hsome
            cases hsome
          · exact hlt
        rw [read_new hfile hget he h.emptyValue]
        refine (PageCache.allocate_yields howned hroom).bind ?_
        rintro ⟨p, cache'⟩ ⟨howned', hshrinks⟩
        have habsent' : ∀ p, ¬ ({ s with cache := cache } : DiskReader).resident (keyOf cacheId filePage) p := by
          intro p hp
          have hres : cache.cache.residents = s.cache.cache.residents := hres
          change (_, p) ∈ cache.cache.residents at hp
          rw [hres] at hp
          exact habsent p hp
        exact hmid.push_new hkey he habsent' hdisk howned' hshrinks
  · have hmem : (keyOf cacheId filePage, page) ∈ s.cache.cache.residents :=
      hcases.resolve_left (fun hnone => hpage hnone.1)
    rw [read_hit hfile hget hpage]
    have hp : ({ s with cache := cache } : DiskReader).resident (keyOf cacheId filePage) page := by
      change (_, _) ∈ cache.cache.residents
      rw [hres]
      exact hmem
    exact hmid.push_hit hp

theorem read_fails (h : s.Inv diskPageOf total) (ha : Admits diskPageOf s (.read cacheId filePage extents))
    (hfits : ¬ Fits total (.running s) (.read cacheId filePage extents)) :
    s.read cacheId filePage extents = .error (.pages .assertion) := by
  obtain ⟨hfile, hkey, hdisk⟩ := ha
  obtain ⟨⟨page, cache⟩, hget, howned, hpages, hres, hcases⟩ := (PageCache.get_yields h.owned hkey).exists_ok
  obtain ⟨hnone, hrest⟩ := not_or.mp hfits
  obtain ⟨hfind, hfull⟩ := not_or.mp hrest
  have hpage : page = invalidHandle := by
    rcases hcases with ⟨hpage, _⟩ | hmem
    · exact hpage
    · exact absurd ⟨page, hmem⟩ hnone
  subst hpage
  have he : s.latch.entries.find (keyOf cacheId filePage) = none := by
    rwa [Bool.not_eq_true, Option.isSome_eq_false_iff, Option.isNone_iff_eq_none] at hfind
  have hcard : s.latch.held.card = cache.pages.all.card := by
    obtain ⟨free, _, hsplit⟩ := howned.split
    have hle : s.latch.held.card ≤ cache.pages.all.card := by
      rw [hsplit, Multiset.card_add]
      exact Nat.le_add_left _ _
    rw [Latch.card_held, hpages, h.size] at *
    omega
  rw [read_new hfile hget he h.emptyValue, PageCache.allocate_fails howned hcard]
  rfl

end Reads

theorem step_inv {a : Action} (h : s.Inv diskPageOf total) (ha : Admits diskPageOf s a)
    (hfits : Fits total (.running s) a) : System.Inv diskPageOf total (.after (s.apply a)) := by
  have hyields : Yields (fun _ => False) (fun s' => s'.Inv diskPageOf total) (s.apply a) := by
    cases a with
    | read cacheId filePage extents => exact read_yields h ha hfits
    | readDone id =>
        obtain ⟨key, page, diskPage, hc⟩ := ha
        rw [apply, hc]
        exact readDone_yields h hc
    | resume id =>
        obtain ⟨_, key, page, hc⟩ := ha
        rw [apply, hc]
        exact resume_yields h hc
  obtain ⟨s', hs', hinv⟩ := hyields.exists_ok
  rw [hs']
  exact hinv

theorem step_breaks {a : Action} (h : s.Inv diskPageOf total) (ha : Admits diskPageOf s a)
    (hfits : ¬ Fits total (.running s) a) : ¬ System.Upheld diskPageOf (.after (s.apply a)) := by
  cases a with
  | read cacheId filePage extents =>
      rw [apply, read_fails h ha hfits]
      exact fun hfalse => hfalse
  | readDone id => exact absurd trivial hfits
  | resume id => exact absurd trivial hfits

section Initial

variable {clzOfZero : UInt32} {cacheBits : Nat} {image memory : Nat → Page}

theorem parts_spec (rounds n : Nat) (hr : n ≤ rounds) :
    (PageCache.parts rounds (n * pageSize)).sum = n ∧
      (∀ m ∈ PageCache.parts rounds (n * pageSize), 0 < m ∧ m ≤ 32768) ∧
      (PageCache.parts rounds (n * pageSize)).length ≤ (n + 32767) / 32768 := by
  have hsize : pageSize = 4096 := rfl
  induction rounds generalizing n with
  | zero =>
      obtain rfl : n = 0 := by omega
      exact ⟨rfl, fun m hm => absurd hm List.not_mem_nil, Nat.zero_le _⟩
  | succ rounds ih =>
      rw [PageCache.parts]
      by_cases hn : n = 0
      · subst hn
        rw [Nat.zero_mul, if_pos rfl]
        exact ⟨rfl, fun m hm => absurd hm List.not_mem_nil, Nat.zero_le _⟩
      · have hmul : n * pageSize ≠ 0 := by
          rw [hsize]
          omega
        have hpart : min (n * pageSize) (1 <<< 27) = min n 32768 * pageSize := by
          have hshift : (1 <<< 27 : Nat) = 32768 * 4096 := rfl
          rw [hsize, hshift]
          omega
        have hpages : (min n 32768 * pageSize) >>> pageBits = min n 32768 := by
          rw [Nat.shiftRight_eq_div_pow]
          exact Nat.mul_div_cancel _ (by decide)
        have hrest : n * pageSize - min n 32768 * pageSize = (n - min n 32768) * pageSize :=
          (Nat.sub_mul ..).symm
        obtain ⟨hsum, hall, hlen⟩ := ih (n - min n 32768) (by omega)
        simp only [if_neg hmul, hpart, hpages, hrest, List.sum_cons, List.length_cons]
        generalize PageCache.parts rounds ((n - min n 32768) * pageSize) = rest at hsum hall hlen
        refine ⟨by omega, fun m hm => ?_, ?_⟩
        · rcases List.mem_cons.mp hm with rfl | hm
          · omega
          · exact hall m hm
        · omega

theorem construct_owned (h7 : 7 ≤ cacheBits) (h32 : cacheBits < 32) :
    (PageCache.construct clzOfZero cacheBits).Owned 0 ∧
      (PageCache.construct clzOfZero cacheBits).pages.all.card = 2 ^ cacheBits := by
  have hshift : 1 <<< cacheBits = 2 ^ cacheBits := Nat.one_shiftLeft _
  have hbytes : 1 <<< (cacheBits + pageBits) = 2 ^ cacheBits * pageSize := by
    rw [Nat.one_shiftLeft, Nat.pow_add]
    rfl
  have hlow : 2 ^ 7 ≤ 2 ^ cacheBits := Nat.pow_le_pow_right (by decide) h7
  have hhigh : 2 ^ cacheBits ≤ 2 ^ 31 := Nat.pow_le_pow_right (by decide) (by omega)
  obtain ⟨hsum, hall, hlen⟩ := parts_spec (2 ^ cacheBits) (2 ^ cacheBits) le_rfl
  have hpages : (PageCache.construct clzOfZero cacheBits).pages =
      Slabs.ofCapacities (PageCache.parts (2 ^ cacheBits) (2 ^ cacheBits * pageSize)) := by
    rw [PageCache.construct, hshift, hbytes]
  have hcache : (PageCache.construct clzOfZero cacheBits).cache =
      Wtinylfu.construct clzOfZero (2 ^ cacheBits) invalidHandle := by
    rw [PageCache.construct, hshift]
  have hfresh := Slabs.fresh_ofCapacities _ hall (by omega)
  rw [← hpages, hsum] at hfresh
  refine ⟨⟨?_, ?_, ⟨_, hfresh.holds, ?_⟩, hfresh.nodup⟩, hfresh.card⟩
  · exact Wtinylfu.construct_two_pow_consistent h7 h32
  · rw [hcache]
    rfl
  · have hcached : (PageCache.construct clzOfZero cacheBits).cached = 0 := rfl
    rw [hcached, add_zero, add_zero]

theorem initial_inv (h7 : 7 ≤ cacheBits) (h32 : cacheBits < 32) :
    (initial clzOfZero cacheBits image memory).Inv diskPageOf (2 ^ cacheBits) := by
  obtain ⟨howned, hcard⟩ := @construct_owned clzOfZero cacheBits h7 h32
  refine ⟨howned, hcard, rfl, fun key => ⟨rfl, fun e he => ?_, fun i c hi => ?_, fun i j p q d d' hi => ?_,
    fun page hp => ?_, rfl⟩⟩
  · exact absurd he (by simp [initial])
  · exact absurd hi (by simp [initial])
  · exact absurd hi (by simp [initial])
  · exact absurd hp (Multiset.notMem_zero _)

/-- In a run of any number of reads, in any order of their steps, the calls
are served as they should exactly when no read has to load while every page is
held by the latch. -/
theorem reads_upheld_iff (h7 : 7 ≤ cacheBits) (h32 : cacheBits < 32)
    {ts : List (System × Action × System)} {u : System}
    (hrun : Run (Step diskPageOf) (.running (initial clzOfZero cacheBits image memory)) ts u) :
    (∀ v ∈ visited (.running (initial clzOfZero cacheBits image memory)) ts, System.Upheld diskPageOf v) ↔
      ∀ t ∈ ts, Fits (2 ^ cacheBits) t.1 t.2.1 := by
  refine hrun.exact (Fits (2 ^ cacheBits)) (System.Inv diskPageOf (2 ^ cacheBits)) (System.Upheld diskPageOf)
    (initial_inv h7 h32) (fun v hv => ?_) (fun v a w hv hs hfits => ?_) (fun v a w hv hs hfits => ?_)
  · cases v with
    | running s => exact Inv.upheld hv
    | stopped stop => exact hv
  · cases hs with
    | mk s a ha => exact step_inv hv ha hfits
  · cases hs with
    | mk s a ha => exact step_breaks hv ha hfits

end Initial

section Concrete

def perform (diskPageOf : UInt64 → Nat) : System → Action → Option System
  | .running s, .read cacheId filePage extents =>
      if filePage.toNat < 1 <<< filePagesBits ∧ keyOf cacheId filePage ≠ 0 ∧
          getDiskPage extents filePage.toNat = diskPageOf (keyOf cacheId filePage) then
        some (.after (s.apply (.read cacheId filePage extents)))
      else none
  | .running s, .readDone id =>
      match s.calls[id]? with
      | some ⟨_, .reading _ _⟩ => some (.after (s.apply (.readDone id)))
      | _ => none
  | .running s, .resume id =>
      match s.calls[id]? with
      | some ⟨_, .waiting _⟩ => if id ∈ s.runQueue then some (.after (s.apply (.resume id))) else none
      | _ => none
  | .stopped _, _ => none

theorem step_perform {diskPageOf : UInt64 → Nat} (u : System) (a : Action) (v : System)
    (h : perform diskPageOf u a = some v) : Step diskPageOf u a v := by
  match u, a with
  | .running s, .read cacheId filePage extents =>
      rw [perform] at h
      split at h
      case isTrue hadmits =>
        rw [Option.some.injEq] at h
        exact h ▸ Step.mk s _ hadmits
      case isFalse => cases h
  | .running s, .readDone id =>
      rw [perform] at h
      split at h
      case h_1 key page diskPage hc =>
        rw [Option.some.injEq] at h
        exact h ▸ Step.mk s _ ⟨key, page, diskPage, hc⟩
      case h_2 => cases h
  | .running s, .resume id =>
      rw [perform] at h
      split at h
      case h_1 key page hc =>
        split at h
        case isTrue hqueued =>
          rw [Option.some.injEq] at h
          exact h ▸ Step.mk s _ ⟨hqueued, key, page, hc⟩
        case isFalse => cases h
      case h_2 => cases h
  | .stopped stop, a => cases h

def emptyPage : Page := ⟨List.replicate pageSize 0, List.length_replicate⟩

/-- The engine with the smallest page cache, and files of one extent. -/
def small : System := .running (initial 0 7 (fun _ => emptyPage) (fun _ => emptyPage))

def performed (as : List Action) : Option (List (System × Action × System) × System) :=
  follow (perform (fun key => key.toNat % 2 ^ filePagesBits)) small as

/-- Two callers that share a disk read and one that comes when it is over. -/
def shared : List Action := [.read 1 5 [200], .read 1 5 [200], .readDone 0, .resume 1, .read 1 5 [200]]

def System.served (n : Nat) : System → Bool
  | .running s => s.calls.length == n && s.calls.all (fun c => !c.inside c.key)
  | .stopped _ => false

theorem served_shared : (performed shared).any (fun r => r.2.served 3) = true := by decide +kernel

theorem reads_upheld_iff_shared : ∃ ts u, u.served 3 = true ∧
    Run (Step (fun key => key.toNat % 2 ^ filePagesBits)) small ts u ∧
      ((∀ v ∈ visited small ts, System.Upheld (fun key => key.toNat % 2 ^ filePagesBits) v) ↔
        ∀ t ∈ ts, Fits (2 ^ 7) t.1 t.2.1) := by
  obtain ⟨⟨ts, u⟩, hfollow, hserved⟩ := (Option.any_eq_true _ _).mp served_shared
  have hrun := run_follow _ step_perform _ _ hfollow
  exact ⟨ts, u, hserved, hrun, reads_upheld_iff (by decide) (by decide) hrun⟩

def crowd (n : Nat) : List Action := (List.range n).map (fun i => .read 1 (UInt32.ofNat i) [200])

def System.isStopped : System → Bool
  | .running _ => false
  | .stopped _ => true

theorem isStopped_crowd : (performed (crowd 129)).any (fun r => r.2.isStopped) = true := by decide +kernel

theorem not_upheld_crowd : ¬ ∀ (cacheBits : Nat) (clzOfZero : UInt32) (diskPageOf : UInt64 → Nat)
    (image memory : Nat → Page) (ts : List (System × Action × System)) (u : System),
    7 ≤ cacheBits → cacheBits < 32 →
      Run (Step diskPageOf) (.running (initial clzOfZero cacheBits image memory)) ts u →
        ∀ v ∈ visited (.running (initial clzOfZero cacheBits image memory)) ts, System.Upheld diskPageOf v := by
  intro h
  obtain ⟨⟨ts, u⟩, hfollow, hstopped⟩ := (Option.any_eq_true _ _).mp isStopped_crowd
  have hrun := run_follow _ step_perform _ _ hfollow
  have hupheld := h 7 0 _ _ _ ts u le_rfl (by decide) hrun u hrun.mem_visited
  cases u with
  | running s => cases hstopped
  | stopped stop => exact hupheld

end Concrete

end Tyrdbs.Storage.DiskReader
