import Tyrdbs.Storage.DiskReader

namespace Tyrdbs.Storage

open Outcome Slots

def Call.page (c : Call) : Nat :=
  match c.phase with
  | .reading page _ => page
  | .waiting page => page
  | .leaving page => page
  | .returned page _ => page

def Call.inside (key : UInt64) (c : Call) : Bool :=
  decide (c.key = key) && match c.phase with
    | .returned _ _ => false
    | _ => true

namespace DiskReader

variable (diskPageOf : UInt64 → Nat) (s : DiskReader)

def contentOf (key : UInt64) : Page := s.image (diskPageOf key)

def resident (key : UInt64) (page : Nat) : Prop := (key, page) ∈ s.cache.cache.residents

/-- A latch entry against the page cache, the memory and the calls. -/
structure EntryInv (key : UInt64) (e : LatchEntry Nat) : Prop where
  nonzero : key ≠ 0
  absent : ∀ page, ¬ s.resident key page
  positive : 0 < e.refCount
  bytes : e.released = true → s.memory e.value = s.contentOf diskPageOf key
  queue : e.released = true → e.cond = []
  reader : e.released = false → ∃ (i diskPage : Nat), s.calls[i]? = some ⟨key, .reading e.value diskPage⟩

def CallInv (i : Nat) (c : Call) : Prop :=
  match c.phase with
  | .reading page diskPage => ∃ e, s.latch.entries.find c.key = some e ∧ e.value = page ∧
      e.released = false ∧ diskPage = diskPageOf c.key
  | .waiting page => ∃ e, s.latch.entries.find c.key = some e ∧ e.value = page ∧
      (i ∈ s.runQueue ∨ i ∈ e.cond)
  | .leaving page => ∃ e, s.latch.entries.find c.key = some e ∧ e.value = page ∧ e.released = true
  | .returned _ bytes => bytes = s.contentOf diskPageOf c.key

structure KeyInv (key : UInt64) : Prop where
  count : s.calls.countP (Call.inside key) = (s.latch.entries.find key).elim 0 LatchEntry.refCount
  entry : ∀ e, s.latch.entries.find key = some e → s.EntryInv diskPageOf key e
  calls : ∀ (i : Nat) (c : Call), s.calls[i]? = some c → c.key = key → s.CallInv diskPageOf i c
  oneReader : ∀ i j p q d d' : Nat, s.calls[i]? = some ⟨key, .reading p d⟩ →
    s.calls[j]? = some ⟨key, .reading q d'⟩ → i = j
  cached : ∀ page, s.resident key page → s.memory page = s.contentOf diskPageOf key
  counts : s.adds key + (if (s.latch.entries.find key).isSome then 1 else 0) = s.episodes key

/-- Pages are owned by the free list, the page cache or the latch, and all is
well with every key. -/
structure Inv (total : Nat) : Prop where
  owned : s.cache.Owned s.latch.held
  size : s.cache.pages.all.card = total
  emptyValue : s.latch.emptyValue = invalidHandle
  keys : ∀ key, s.KeyInv diskPageOf key

variable {diskPageOf s} {s' : DiskReader} {total : Nat}

structure Frame (s s' : DiskReader) (key : UInt64) : Prop where
  find : s'.latch.entries.find key = s.latch.entries.find key
  calls : ∀ (i : Nat) (c : Call), c.key = key → (s'.calls[i]? = some c ↔ s.calls[i]? = some c)
  count : s'.calls.countP (Call.inside key) = s.calls.countP (Call.inside key)
  residents : ∀ page, s'.resident key page → s.resident key page
  memory : ∀ page, (s.resident key page ∨ ∃ e, s.latch.entries.find key = some e ∧ e.value = page) →
    s'.memory page = s.memory page
  runQueue : ∀ i page : Nat, s.calls[i]? = some ⟨key, .waiting page⟩ → i ∈ s.runQueue → i ∈ s'.runQueue
  image : s'.image = s.image
  episodes : s'.episodes key = s.episodes key
  adds : s'.adds key = s.adds key

theorem KeyInv.frame {key : UInt64} (h : s.KeyInv diskPageOf key) (hf : Frame s s' key) :
    s'.KeyInv diskPageOf key := by
  have hcontent : ∀ k, s'.contentOf diskPageOf k = s.contentOf diskPageOf k :=
    fun k => congrFun hf.image _
  refine ⟨?_, fun e he => ?_, fun i c hc hkey => ?_, fun i j p q d d' hi hj => ?_, fun page hp => ?_, ?_⟩
  · rw [hf.count, hf.find]
    exact h.count
  · rw [hf.find] at he
    have hentry := h.entry e he
    refine ⟨hentry.nonzero, fun page hp => hentry.absent page (hf.residents page hp), hentry.positive,
      fun hr => ?_, hentry.queue, fun hr => ?_⟩
    · rw [hf.memory _ (Or.inr ⟨e, he, rfl⟩), hcontent]
      exact hentry.bytes hr
    · obtain ⟨i, d, hi⟩ := hentry.reader hr
      exact ⟨i, d, (hf.calls i _ rfl).mpr hi⟩
  · have hold := h.calls i c ((hf.calls i c hkey).mp hc) hkey
    obtain ⟨k, phase⟩ := c
    have hkey : k = key := hkey
    subst hkey
    cases phase with
    | reading p d => simpa only [CallInv, hf.find] using hold
    | waiting p =>
        obtain ⟨e, he, hv, hq⟩ := hold
        refine ⟨e, hf.find.trans he, hv, hq.imp_left (fun hq => ?_)⟩
        exact hf.runQueue i p ((hf.calls i _ rfl).mp hc) hq
    | leaving p => simpa only [CallInv, hf.find] using hold
    | returned p b => simpa only [CallInv, hcontent] using hold
  · exact h.oneReader i j p q d d' ((hf.calls i _ rfl).mp hi) ((hf.calls j _ rfl).mp hj)
  · rw [hf.memory _ (Or.inl (hf.residents page hp)), hcontent]
    exact h.cached page (hf.residents page hp)
  · rw [hf.adds, hf.find, hf.episodes]
    exact h.counts

theorem calls_frame {calls calls' : List Call} {i : Nat} {c : Call} (h : Replaced calls calls' i c)
    (hold : ∀ b, calls[i]? = some b → b.key = c.key) {key : UInt64} (hkey : key ≠ c.key) :
    (∀ (j : Nat) (b : Call), b.key = key → (calls'[j]? = some b ↔ calls[j]? = some b)) ∧
      calls'.countP (Call.inside key) = calls.countP (Call.inside key) := by
  have hnot : ∀ b : Call, b.key = c.key → Call.inside key b = false := by
    intro b hb
    rw [Call.inside, hb, decide_eq_false (Ne.symm hkey), Bool.false_and]
  constructor
  · intro j b hb
    rw [h.get]
    by_cases hj : j = i
    · rw [if_pos hj]
      refine iff_of_false (fun heq => ?_) (fun heq => ?_)
      · rw [Option.some.injEq] at heq
        exact hkey (hb ▸ heq ▸ rfl)
      · exact hkey (hb ▸ hold b (hj ▸ heq))
    · rw [if_neg hj]
  · have hcount := h.count (Call.inside key)
    rw [hnot c rfl] at hcount
    cases hi : calls[i]? with
    | none =>
        rw [hi] at hcount
        simpa using hcount
    | some b =>
        rw [hi, Option.elim_some, hnot b (hold b hi)] at hcount
        simpa using hcount

theorem CallInv.transfer {i : Nat} {c : Call} {e e' : LatchEntry Nat} (h : s.CallInv diskPageOf i c)
    (he : s.latch.entries.find c.key = some e) (he' : s'.latch.entries.find c.key = some e')
    (hvalue : e'.value = e.value) (himage : s'.image = s.image)
    (hreading : ∀ p d, c.phase = .reading p d → e'.released = e.released)
    (hreleased : e.released = true → e'.released = true)
    (hqueue : ∀ p, c.phase = .waiting p → (i ∈ s.runQueue ∨ i ∈ e.cond) → i ∈ s'.runQueue ∨ i ∈ e'.cond) :
    s'.CallInv diskPageOf i c := by
  obtain ⟨k, phase⟩ := c
  have he : s.latch.entries.find k = some e := he
  have hfind : ∀ f, s.latch.entries.find k = some f → f = e := by
    intro f hf
    rw [he, Option.some.injEq] at hf
    exact hf.symm
  cases phase with
  | reading p d =>
      obtain ⟨f, hf, hv, hr, hd⟩ := h
      rw [hfind f hf] at hv hr
      exact ⟨e', he', hvalue.trans hv, (hreading p d rfl).trans hr, hd⟩
  | waiting p =>
      obtain ⟨f, hf, hv, hq⟩ := h
      rw [hfind f hf] at hv hq
      exact ⟨e', he', hvalue.trans hv, hqueue p rfl hq⟩
  | leaving p =>
      obtain ⟨f, hf, hv, hr⟩ := h
      rw [hfind f hf] at hv hr
      exact ⟨e', he', hvalue.trans hv, hreleased hr⟩
  | returned p b =>
      rw [CallInv, contentOf, himage]
      exact h

theorem reader_of_replaced {calls : List Call} {id : Nat} {c : Call} (h : Replaced s.calls calls id c)
    (hne : ∀ p d, c.phase ≠ .reading p d) {i p d : Nat} {k : UInt64}
    (hi : calls[i]? = some ⟨k, .reading p d⟩) : s.calls[i]? = some ⟨k, .reading p d⟩ := by
  rw [h.get] at hi
  by_cases hid : i = id
  · rw [if_pos hid, Option.some.injEq] at hi
    exact absurd (congrArg Call.phase hi) (hne p d)
  · rwa [if_neg hid] at hi

theorem leave_last {id page : Nat} {key : UInt64} {e : LatchEntry Nat}
    (he : s.latch.entries.find key = some e) (hpos : e.refCount ≠ 0) (hlast : e.refCount - 1 = 0) :
    s.leave id key page = s.cache.add key page >>= fun cache => .ok { s with
      latch := { s.latch with entries := s.latch.entries.erase key }
      calls := s.calls.set id ⟨key, .returned page (s.memory page)⟩
      cache := cache
      adds := bump s.adds key } := by
  rw [leave, Latch.remove, Latch.entry_eq he, ok_bind, check_of hpos, ok_bind, if_pos hlast]
  rfl

theorem leave_notLast {id page : Nat} {key : UInt64} {e : LatchEntry Nat}
    (he : s.latch.entries.find key = some e) (hpos : e.refCount ≠ 0) (hlast : e.refCount - 1 ≠ 0) :
    s.leave id key page = .ok { s with
      latch := s.latch.put key { e with refCount := e.refCount - 1 }
      calls := s.calls.set id ⟨key, .returned page (s.memory page)⟩ } := by
  rw [leave, Latch.remove, Latch.entry_eq he, ok_bind, check_of hpos, ok_bind, if_neg hlast]
  rfl

/-- The values of different entries are different pages. -/
theorem Inv.values_ne (h : s.Inv diskPageOf total) {k k' : UInt64} {e e' : LatchEntry Nat} (hk : k' ≠ k)
    (he : s.latch.entries.find k = some e) (he' : s.latch.entries.find k' = some e') : e'.value ≠ e.value := by
  have hnodup := h.owned.held_nodup
  rw [Latch.held_of_find he] at hnodup
  have he'' : (s.latch.entries.erase k).find k' = some e' := by rw [Table.find_erase, if_neg hk, he']
  intro heq
  refine (Multiset.nodup_cons.mp hnodup).1 ?_
  rw [Latch.held, Table.values_of_find he'', Multiset.map_cons, heq]
  exact Multiset.mem_cons_self ..

theorem Inv.value_held (_h : s.Inv diskPageOf total) {k : UInt64} {e : LatchEntry Nat}
    (he : s.latch.entries.find k = some e) : e.value ∈ s.latch.held := by
  rw [Latch.held_of_find he]
  exact Multiset.mem_cons_self ..

theorem Inv.update (h : s.Inv diskPageOf total) {id : Nat} {key : UInt64} {e e' : LatchEntry Nat} {c : Call}
    (hrep : Replaced s.calls s'.calls id c) (hkey : c.key = key)
    (hold : ∀ b, s.calls[id]? = some b → b.key = key) (he : s.latch.entries.find key = some e)
    (hlatch : s.latch.Updated s'.latch key e') (hvalue : e'.value = e.value) (hcache : s'.cache = s.cache)
    (himage : s'.image = s.image) (hepisodes : s'.episodes = s.episodes) (hadds : s'.adds = s.adds)
    (hmemory : ∀ page, page ≠ e.value → s'.memory page = s.memory page)
    (hrun : ∀ i, i ≠ id → i ∈ s.runQueue → i ∈ s'.runQueue)
    (hcount : s'.calls.countP (Call.inside key) = e'.refCount) (hentry : s'.EntryInv diskPageOf key e')
    (hcall : s'.CallInv diskPageOf id c) (hnot : ∀ p d, c.phase ≠ .reading p d)
    (hreading : ∀ i p d : Nat, i ≠ id → s.calls[i]? = some ⟨key, .reading p d⟩ → e'.released = e.released)
    (hreleased : e.released = true → e'.released = true)
    (hqueue : ∀ i, i ≠ id → (i ∈ s.runQueue ∨ i ∈ e.cond) → i ∈ s'.runQueue ∨ i ∈ e'.cond) :
    s'.Inv diskPageOf total := by
  have hfind := hlatch.find
  have hres : ∀ k page, s'.resident k page ↔ s.resident k page := by
    intro k page
    rw [resident, resident, hcache]
  have hcached : ∀ k page, s.resident k page → page ≠ e.value := by
    intro k page hp heq
    refine h.owned.not_cached (h.value_held he) ?_
    exact heq ▸ Multiset.mem_map_of_mem Prod.snd hp
  refine ⟨?_, hcache ▸ h.size, ?_, fun k => ?_⟩
  · rw [hlatch.held, hcache]
    exact h.owned
  · exact hlatch.emptyValue.trans h.emptyValue
  by_cases hk : k = key
  · subst hk
    have hself : s'.latch.entries.find k = some e' := (hfind k).trans (if_pos rfl)
    refine ⟨by rw [hself]; exact hcount, fun f hf => ?_, fun i b hi hb => ?_, fun i j p q d d' hi hj => ?_,
      fun page hp => ?_, ?_⟩
    · rw [hself, Option.some.injEq] at hf
      exact hf ▸ hentry
    · rw [hrep.get] at hi
      by_cases hid : i = id
      · rw [if_pos hid, Option.some.injEq] at hi
        rw [hid, ← hi]
        exact hcall
      · rw [if_neg hid] at hi
        have hbefore : s.latch.entries.find b.key = some e := by rw [hb, he]
        have hafter : s'.latch.entries.find b.key = some e' := by rw [hb, hself]
        refine ((h.keys k).calls i b hi hb).transfer hbefore hafter hvalue himage (fun p d hphase => ?_)
          hreleased (fun _ _ hq => hqueue i hid hq)
        refine hreading i p d hid ?_
        rw [hi, ← hphase, ← hb]
    · exact (h.keys k).oneReader i j p q d d' (reader_of_replaced hrep hnot hi) (reader_of_replaced hrep hnot hj)
    · have hp := (hres k page).mp hp
      rw [hmemory page (hcached k page hp), contentOf, himage]
      exact (h.keys k).cached page hp
    · have hcounts := (h.keys k).counts
      rw [he] at hcounts
      rw [hself, hadds, hepisodes]
      exact hcounts
  · have hframe := calls_frame hrep (fun b hb => (hold b hb).trans hkey.symm) (fun heq => hk (heq.trans hkey))
    refine (h.keys k).frame ⟨(hfind k).trans (if_neg hk), hframe.1, hframe.2, fun page => (hres k page).mp,
      fun page hp => hmemory page ?_, fun i page hi hq => hrun i (fun heq => ?_) hq, himage,
      congrFun hepisodes k, congrFun hadds k⟩
    · rcases hp with hp | ⟨f, hf, rfl⟩
      · exact hcached k page hp
      · exact h.values_ne hk he hf
    · exact hk (hold _ (heq ▸ hi))

theorem leave_yields (h : s.Inv diskPageOf total) {id page : Nat} {key : UInt64}
    (hc : s.calls[id]? = some ⟨key, .leaving page⟩) :
    Yields (fun _ => False) (fun s' => s'.Inv diskPageOf total) (s.leave id key page) := by
  obtain ⟨e, he, hvalue, hreleased⟩ := (h.keys key).calls id _ hc rfl
  have he : s.latch.entries.find key = some e := he
  have hentry := (h.keys key).entry e he
  have hrep := replaced_set hc ⟨key, .returned page (s.memory page)⟩
  have hold : ∀ b, s.calls[id]? = some b → b.key = key := by
    intro b hb
    rw [hc, Option.some.injEq] at hb
    rw [← hb]
  have hbytes : s.memory page = s.contentOf diskPageOf key := hvalue ▸ hentry.bytes hreleased
  have hcount := hrep.count (Call.inside key)
  rw [hc, Option.elim_some, (h.keys key).count, he] at hcount
  simp only [Call.inside, decide_true, Bool.and_true, Bool.toNat_true, Bool.and_false, Bool.toNat_false,
    Option.elim_some, Nat.add_zero] at hcount
  by_cases hlast : e.refCount - 1 = 0
  · have howned := h.owned
    rw [Latch.held_of_find he, hvalue] at howned
    have habsent : ∀ x, (key, x) ∉ s.cache.cache.residents := hentry.absent
    rw [leave_last he hentry.positive.ne' hlast]
    refine Yields.bind (PageCache.add_yields howned hentry.nonzero habsent) ?_
    rintro cache ⟨hown, hall, hmem, hle⟩
    refine ⟨hown, hall ▸ h.size, h.emptyValue, fun k => ?_⟩
    by_cases hk : k = key
    · have hnone : (s.latch.entries.erase key).find k = none := by rw [Table.find_erase, if_pos hk]
      have hzero : (s.calls.set id ⟨key, .returned page (s.memory page)⟩).countP (Call.inside k) = 0 := by
        rw [hk]
        omega
      refine ⟨?_, fun e' he' => ?_, fun i c hi hkey => ?_, fun i j p q d d' hi hj => ?_, fun p hp => ?_, ?_⟩
      · rw [hnone]
        exact hzero
      · exact absurd (hnone.symm.trans he') (by simp)
      · rw [List.countP_eq_zero] at hzero
        have hout := hzero c (List.mem_of_getElem? hi)
        change (s.calls.set id _)[i]? = some c at hi
        rw [hrep.get] at hi
        by_cases hid : i = id
        · rw [if_pos hid, Option.some.injEq] at hi
          rw [← hi]
          exact hbytes
        · rw [if_neg hid] at hi
          have hc := (h.keys key).calls i c hi (hkey.trans hk)
          obtain ⟨k', phase⟩ := c
          have hkey : k' = k := hkey
          cases phase with
          | returned p b => exact hc
          | _ =>
              simp only [Call.inside, Bool.and_true, decide_eq_true_eq] at hout
              exact absurd hkey hout
      · subst hk
        exact (h.keys k).oneReader i j p q d d' (reader_of_replaced hrep (by simp) hi)
          (reader_of_replaced hrep (by simp) hj)
      · have hp : (k, p) ∈ (key, page) ::ₘ s.cache.cache.residents := Multiset.mem_of_le hle hp
        rcases Multiset.mem_cons.mp hp with hp | hp
        · obtain ⟨rfl, rfl⟩ := Prod.mk.injEq .. ▸ hp
          exact hbytes
        · exact absurd hp (hk ▸ habsent p)
      · have hcounts := (h.keys key).counts
        rw [he] at hcounts
        rw [hk] at hnone ⊢
        change bump s.adds key key + (if ((s.latch.entries.erase key).find key).isSome then 1 else 0) = _
        rw [hnone, bump, Function.update_self]
        exact hcounts
    · have hframe := calls_frame hrep hold hk
      refine (h.keys k).frame ⟨?_, hframe.1, hframe.2, fun p hp => ?_, fun _ _ => rfl, fun _ _ _ hq => hq, rfl,
        rfl, Function.update_of_ne hk ..⟩
      · exact Table.find_erase.trans (if_neg hk)
      · have hp : (k, p) ∈ (key, page) ::ₘ s.cache.cache.residents := Multiset.mem_of_le hle hp
        rcases Multiset.mem_cons.mp hp with hp | hp
        · exact absurd (congrArg Prod.fst hp) hk
        · exact hp
  · rw [leave_notLast he hentry.positive.ne' hlast]
    refine h.update hrep rfl hold he (Latch.updated_put he rfl) rfl rfl rfl rfl rfl (fun _ _ => rfl) (fun _ _ hq => hq) ?_ ?_ hbytes
      (by simp) (fun _ _ _ _ _ => rfl) (fun hr => hr) (fun _ _ hq => hq)
    · change (s.calls.set id _).countP (Call.inside key) = e.refCount - 1
      omega
    · refine ⟨hentry.nonzero, hentry.absent, Nat.pos_of_ne_zero hlast, hentry.bytes, hentry.queue, fun hr => ?_⟩
      exact absurd (hreleased.symm.trans hr) (by decide)

theorem readDone_yields (h : s.Inv diskPageOf total) {id page diskPage : Nat} {key : UInt64}
    (hc : s.calls[id]? = some ⟨key, .reading page diskPage⟩) :
    Yields (fun _ => False) (fun s' => s'.Inv diskPageOf total) (s.readDone id key page diskPage) := by
  obtain ⟨e, he, hvalue, hreleased, hdisk⟩ := (h.keys key).calls id _ hc rfl
  have he : s.latch.entries.find key = some e := he
  have hentry := (h.keys key).entry e he
  have hrep := replaced_set hc ⟨key, .leaving page⟩
  have hold : ∀ b, s.calls[id]? = some b → b.key = key := by
    intro b hb
    rw [hc, Option.some.injEq] at hb
    rw [← hb]
  have hcount := hrep.count (Call.inside key)
  rw [hc, Option.elim_some, (h.keys key).count, he] at hcount
  simp only [Call.inside, decide_true, Bool.and_true, Bool.toNat_true, Option.elim_some] at hcount
  rw [readDone, Latch.release]
  simp only [Latch.entry_eq he, ok_bind]
  have hmid : Inv diskPageOf { s with
      memory := Function.update s.memory page (s.image diskPage)
      latch := s.latch.put key { e with released := true, cond := [] }
      runQueue := s.runQueue ++ e.cond
      calls := s.calls.set id ⟨key, .leaving page⟩ } total := by
    refine h.update hrep rfl hold he (Latch.updated_put he rfl) rfl rfl rfl rfl rfl (fun p hp => ?_)
      (fun _ _ hq => List.mem_append_left _ hq) ?_ ?_ ?_ (by simp) (fun i p d hid hi => ?_) (fun _ => rfl)
      (fun i _ hq => Or.inl (List.mem_append.mpr hq))
    · exact Function.update_of_ne (fun heq => hp (heq.trans hvalue.symm)) ..
    · change (s.calls.set id _).countP (Call.inside key) = e.refCount
      omega
    · refine ⟨hentry.nonzero, hentry.absent, hentry.positive, fun _ => ?_, fun _ => rfl, fun hr => ?_⟩
      · change Function.update s.memory page (s.image diskPage) e.value = s.image (diskPageOf key)
        rw [hvalue, Function.update_self, hdisk]
      · exact absurd hr (by simp)
    · exact ⟨_, (Latch.find_put ..).trans (if_pos rfl), hvalue, rfl⟩
    · exact absurd ((h.keys key).oneReader i id p page d diskPage hi hc) hid
  exact leave_yields hmid hrep.get_self

theorem waitFor_released {id page : Nat} {key : UInt64} {e : LatchEntry Nat}
    (he : s.latch.entries.find key = some e) (hr : e.released = true) :
    s.waitFor id key page = leave { s with calls := s.calls.set id ⟨key, .leaving page⟩ } id key page := by
  rw [waitFor, Latch.mustWait, Latch.entry_eq he, ok_bind, hr]
  rfl

theorem waitFor_unreleased {id page : Nat} {key : UInt64} {e : LatchEntry Nat}
    (he : s.latch.entries.find key = some e) (hr : e.released = false) :
    s.waitFor id key page = .ok { s with
      latch := s.latch.put key { e with cond := e.cond ++ [id] }
      calls := s.calls.set id ⟨key, .waiting page⟩ } := by
  have hwait : s.latch.mustWait key = .ok true := by
    rw [Latch.mustWait, Latch.entry_eq he, ok_bind, hr]
    rfl
  rw [waitFor, hwait, ok_bind, if_pos rfl, Latch.wait, Latch.entry_eq he]
  rfl

theorem waitFor_yields (h : s.Inv diskPageOf total) {id page : Nat} {key : UInt64} {e e' : LatchEntry Nat}
    {b : Call} (hrep : Replaced s.calls s'.calls id b)
    (hold : ∀ b, s.calls[id]? = some b → b.key = key ∧ ∀ p d, b.phase ≠ .reading p d)
    (he : s.latch.entries.find key = some e) (hlatch : s.latch.Updated s'.latch key e')
    (hvalue : e'.value = e.value) (hpage : e.value = page) (hcache : s'.cache = s.cache)
    (himage : s'.image = s.image) (hepisodes : s'.episodes = s.episodes) (hadds : s'.adds = s.adds)
    (hmemory : s'.memory = s.memory) (hrun : ∀ i, i ≠ id → i ∈ s.runQueue → i ∈ s'.runQueue)
    (hcount : s'.calls.countP (Call.inside key) = e'.refCount) (hinside : b.inside key = true)
    (hreleased : e'.released = e.released) (hcond : e'.cond = e.cond) :
    Yields (fun _ => False) (fun s' => s'.Inv diskPageOf total) (s'.waitFor id key page) := by
  have hentry := (h.keys key).entry e he
  have hpos : 0 < e'.refCount := by
    rw [← hcount, List.countP_pos_iff]
    exact ⟨b, List.mem_of_getElem? hrep.get_self, hinside⟩
  have hself := hlatch.self
  have hset : ∀ phase, Replaced s.calls (s'.calls.set id ⟨key, phase⟩) id ⟨key, phase⟩ :=
    fun phase => hrep.trans (replaced_set hrep.get_self _)
  have hcount' : ∀ phase, Call.inside key ⟨key, phase⟩ = true →
      (s'.calls.set id ⟨key, phase⟩).countP (Call.inside key) = e'.refCount := by
    intro phase hphase
    have hc := (replaced_set hrep.get_self (⟨key, phase⟩ : Call)).count (Call.inside key)
    rw [hrep.get_self, Option.elim_some, hinside, hphase] at hc
    omega
  have hresident : ∀ k p, s'.resident k p ↔ s.resident k p := by
    intro k p
    rw [resident, resident, hcache]
  have habsent : ∀ p, ¬ s'.resident key p := fun p hp => hentry.absent p ((hresident key p).mp hp)
  have hcontent : s'.contentOf diskPageOf key = s.contentOf diskPageOf key := congrFun himage _
  cases hr : e.released with
  | true =>
      have hr' : e'.released = true := hreleased.trans hr
      rw [waitFor_released hself hr']
      have hmid : Inv diskPageOf { s' with calls := s'.calls.set id ⟨key, .leaving page⟩ } total := by
        refine h.update (hset _) rfl (fun b hb => (hold b hb).1) he hlatch hvalue hcache himage hepisodes hadds
          (fun p _ => congrFun hmemory p) hrun (hcount' _ (by simp [Call.inside])) ?_ ?_ (by simp)
          (fun _ _ _ _ _ => hreleased) (fun _ => hr') (fun i hi hq => ?_)
        · refine ⟨hentry.nonzero, habsent, hpos, fun _ => ?_, fun _ => hcond.trans (hentry.queue hr), fun hf => ?_⟩
          · rw [hvalue]
            exact (congrFun hmemory _).trans ((hentry.bytes hr).trans hcontent.symm)
          · exact absurd (hr'.symm.trans hf) (by decide)
        · exact ⟨e', hself, hvalue.trans hpage, hr'⟩
        · rw [hcond]
          exact hq.imp_left (hrun i hi)
      exact leave_yields hmid (hset _).get_self
  | false =>
      have hr' : e'.released = false := hreleased.trans hr
      rw [waitFor_unreleased hself hr']
      have hwaits : Inv diskPageOf { s' with
          latch := s'.latch.put key { e' with cond := e'.cond ++ [id] }
          calls := s'.calls.set id ⟨key, .waiting page⟩ } total := by
        refine h.update (hset _) rfl (fun b hb => (hold b hb).1) he (hlatch.put rfl) hvalue hcache himage hepisodes hadds
          (fun p _ => congrFun hmemory p) hrun (hcount' _ (by simp [Call.inside])) ?_ ?_ (by simp)
          (fun _ _ _ _ _ => hreleased) (fun ht => absurd (ht.symm.trans hr) (by decide)) (fun i hi hq => ?_)
        · refine ⟨hentry.nonzero, habsent, hpos, fun ht => ?_, fun ht => ?_, fun _ => ?_⟩
          · exact absurd (hr'.symm.trans ht) (by decide)
          · exact absurd (hr'.symm.trans ht) (by decide)
          · obtain ⟨i, d, hi⟩ := hentry.reader hr
            have hne : i ≠ id := fun heq => (hold _ (heq ▸ hi)).2 _ _ rfl
            refine ⟨i, d, ((hset _).get_of_ne hne).trans ?_⟩
            rw [hi, ← hvalue]
        · exact ⟨_, (Latch.find_put ..).trans (if_pos rfl), hvalue.trans hpage,
            Or.inr (List.mem_append_right _ (List.mem_singleton_self _))⟩
        · refine hq.imp (hrun i hi) (fun hq => List.mem_append_left _ ?_)
          rw [hcond]
          exact hq
      exact hwaits

theorem resume_yields (h : s.Inv diskPageOf total) {id page : Nat} {key : UInt64}
    (hc : s.calls[id]? = some ⟨key, .waiting page⟩) :
    Yields (fun _ => False) (fun s' => s'.Inv diskPageOf total) (s.resume id key page) := by
  obtain ⟨e, he, hvalue, _⟩ := (h.keys key).calls id _ hc rfl
  have he : s.latch.entries.find key = some e := he
  have hold : ∀ b, s.calls[id]? = some b → b.key = key ∧ ∀ p d, b.phase ≠ .reading p d := by
    intro b hb
    rw [hc, Option.some.injEq] at hb
    rw [← hb]
    exact ⟨rfl, fun _ _ heq => Phase.noConfusion heq⟩
  have hcount := (h.keys key).count
  rw [he] at hcount
  change Yields _ _ (waitFor { s with runQueue := s.runQueue.erase id } id key page)
  exact waitFor_yields h (replaced_self hc) hold he (Latch.updated_self he) rfl hvalue rfl rfl rfl rfl rfl
    (fun i hi hq => (List.mem_erase_of_ne hi).mpr hq) hcount (by simp [Call.inside]) rfl rfl

section Reads

variable {cacheId : UInt64} {filePage : UInt32} {extents : List Nat} {cache : PageCache} {page : Nat}

theorem read_hit (hfile : filePage.toNat < 1 <<< filePagesBits)
    (hget : s.cache.get (keyOf cacheId filePage) = .ok (page, cache)) (hpage : page ≠ invalidHandle) :
    s.read cacheId filePage extents = .ok { s with
      cache := cache
      calls := s.calls ++ [⟨keyOf cacheId filePage, .returned page (s.memory page)⟩] } := by
  simp only [read, check_of hfile, ok_bind, hget, if_pos hpage]
  rfl

theorem read_join {e : LatchEntry Nat} (hfile : filePage.toNat < 1 <<< filePagesBits)
    (hget : s.cache.get (keyOf cacheId filePage) = .ok (invalidHandle, cache))
    (he : s.latch.entries.find (keyOf cacheId filePage) = some e) (hvalue : e.value ≠ invalidHandle) :
    s.read cacheId filePage extents = waitFor { s with
      cache := cache
      latch := s.latch.put (keyOf cacheId filePage) { e with refCount := e.refCount + 1 }
      calls := s.calls ++ [⟨keyOf cacheId filePage, .leaving e.value⟩] }
      s.calls.length (keyOf cacheId filePage) e.value := by
  simp only [read, check_of hfile, ok_bind, hget, Latch.acquire, he, Option.getD_some, Option.isNone_some,
    Bool.false_eq_true, if_false, if_neg hvalue, ne_eq, not_true_eq_false]

theorem read_new (hfile : filePage.toNat < 1 <<< filePagesBits)
    (hget : s.cache.get (keyOf cacheId filePage) = .ok (invalidHandle, cache))
    (he : s.latch.entries.find (keyOf cacheId filePage) = none) (hempty : s.latch.emptyValue = invalidHandle) :
    s.read cacheId filePage extents = cache.allocate >>= fun r => .ok { s with
      cache := r.2
      latch := s.latch.put (keyOf cacheId filePage) { refCount := 1, value := r.1 }
      episodes := bump s.episodes (keyOf cacheId filePage)
      calls := s.calls ++ [⟨keyOf cacheId filePage, .reading r.1 (getDiskPage extents filePage.toNat)⟩] } := by
  have hself : (s.latch.put (keyOf cacheId filePage) { refCount := 1, value := invalidHandle }).entry
      (keyOf cacheId filePage) = .ok { refCount := 1, value := invalidHandle } :=
    Latch.entry_eq ((Latch.find_put ..).trans (if_pos rfl))
  simp only [read, check_of hfile, ok_bind, hget, Latch.acquire, he, Option.getD_none, Option.isNone_none,
    if_true, hempty, ne_eq, not_true_eq_false, if_false, Latch.set, Nat.zero_add]
  refine congrArg _ (funext (fun r => ?_))
  simp only [hself, ok_bind]
  rw [Latch.put_put]
  rfl

variable {diskPage : Nat}

theorem Inv.after_get (h : s.Inv diskPageOf total) (howned : cache.Owned s.latch.held)
    (hpages : cache.pages = s.cache.pages) (hres : cache.cache.residents = s.cache.cache.residents) :
    ({ s with cache := cache } : DiskReader).Inv diskPageOf total := by
  refine ⟨howned, hpages ▸ h.size, h.emptyValue, fun k => ?_⟩
  have hresident : ∀ p, ({ s with cache := cache } : DiskReader).resident k p → s.resident k p := by
    intro p hp
    rw [resident, ← hres]
    exact hp
  exact (h.keys k).frame ⟨rfl, fun _ _ _ => Iff.rfl, rfl, hresident, fun _ _ => rfl, fun _ _ _ hq => hq, rfl,
    rfl, rfl⟩

theorem Inv.push_hit (h : s.Inv diskPageOf total) {key : UInt64} (hp : s.resident key page) :
    ({ s with calls := s.calls ++ [⟨key, .returned page (s.memory page)⟩] } : DiskReader).Inv diskPageOf
      total := by
  have hrep := replaced_append s.calls ⟨key, .returned page (s.memory page)⟩
  have hnone : s.calls[s.calls.length]? = none := List.getElem?_eq_none le_rfl
  refine ⟨h.owned, h.size, h.emptyValue, fun k => ?_⟩
  by_cases hk : k = key
  · subst hk
    have hcount := hrep.count (Call.inside k)
    rw [hnone] at hcount
    simp only [Call.inside, Bool.and_false, Bool.toNat_false, Option.elim_none, Nat.add_zero] at hcount
    refine ⟨hcount.trans (h.keys k).count, fun e he => ?_, fun i c hi hkey => ?_, fun i j p q d d' hi hj => ?_,
      (h.keys k).cached, (h.keys k).counts⟩
    · exact absurd hp (((h.keys k).entry e he).absent page)
    · rw [hrep.get] at hi
      by_cases hid : i = s.calls.length
      · rw [if_pos hid, Option.some.injEq] at hi
        rw [← hi]
        exact (h.keys k).cached page hp
      · rw [if_neg hid] at hi
        exact (h.keys k).calls i c hi hkey
    · exact (h.keys k).oneReader i j p q d d' (reader_of_replaced hrep (by simp) hi)
        (reader_of_replaced hrep (by simp) hj)
  · have hframe := calls_frame hrep (fun b hb => absurd (hnone.symm.trans hb) (by simp)) hk
    exact (h.keys k).frame ⟨rfl, hframe.1, hframe.2, fun _ hp => hp, fun _ _ => rfl, fun _ _ _ hq => hq, rfl,
      rfl, rfl⟩

theorem Inv.push_new (h : s.Inv diskPageOf total) {key : UInt64} (hkey : key ≠ 0)
    (hnone : s.latch.entries.find key = none) (habsent : ∀ p, ¬ s.resident key p)
    (hdisk : diskPage = diskPageOf key) (howned : cache.Owned (page ::ₘ s.latch.held))
    (hshrinks : PageCache.Shrinks s.cache cache) :
    ({ s with
      cache := cache
      latch := s.latch.put key { refCount := 1, value := page }
      episodes := bump s.episodes key
      calls := s.calls ++ [⟨key, .reading page diskPage⟩] } : DiskReader).Inv diskPageOf total := by
  have hrep := replaced_append s.calls ⟨key, .reading page diskPage⟩
  have hlast : s.calls[s.calls.length]? = none := List.getElem?_eq_none le_rfl
  have hsub : ∀ k p, (k, p) ∈ cache.cache.residents → s.resident k p :=
    fun k p hp => Multiset.mem_of_le hshrinks.1 hp
  have hself : (s.latch.put key { refCount := 1, value := page }).entries.find key =
      some { refCount := 1, value := page } := (Latch.find_put ..).trans (if_pos rfl)
  refine ⟨?_, hshrinks.2 ▸ h.size, h.emptyValue, fun k => ?_⟩
  · rw [Latch.held_put_of_none hnone]
    exact howned
  by_cases hk : k = key
  · subst hk
    have hcount := hrep.count (Call.inside k)
    rw [hlast, (h.keys k).count, hnone] at hcount
    simp only [Call.inside, decide_true, Bool.and_true, Bool.toNat_true, Option.elim_none, Nat.add_zero,
      Nat.zero_add] at hcount
    have houtside : ∀ (i : Nat) (c : Call), s.calls[i]? = some c → c.key = k → ∃ p b, c.phase = .returned p b := by
      intro i c hi hkey
      have hc := (h.keys k).calls i c hi hkey
      have hzero := (h.keys k).count
      rw [hnone, Option.elim_none, List.countP_eq_zero] at hzero
      have hout := hzero c (List.mem_of_getElem? hi)
      rw [Call.inside, decide_eq_true hkey, Bool.true_and] at hout
      cases hphase : c.phase with
      | returned p b => exact ⟨p, b, rfl⟩
      | _ => simp [hphase] at hout
    refine ⟨by rw [hself]; exact hcount, fun e he => ?_, fun i c hi hkey => ?_, fun i j p q d d' hi hj => ?_,
      fun p hp => ?_, ?_⟩
    · rw [hself, Option.some.injEq] at he
      rw [← he]
      exact ⟨hkey, fun p hp => habsent p (hsub k p hp), Nat.one_pos, fun hr => absurd hr (by simp),
        fun _ => rfl, fun _ => ⟨_, _, hrep.get_self⟩⟩
    · rw [hrep.get] at hi
      by_cases hid : i = s.calls.length
      · rw [if_pos hid, Option.some.injEq] at hi
        rw [← hi]
        exact ⟨_, hself, rfl, rfl, hdisk⟩
      · rw [if_neg hid] at hi
        obtain ⟨p, b, hphase⟩ := houtside i c hi hkey
        have hc := (h.keys k).calls i c hi hkey
        rw [CallInv, hphase] at hc ⊢
        exact hc
    · rw [hrep.get] at hi hj
      have hnew : ∀ (i p d : Nat), (if i = s.calls.length then some (⟨k, .reading page diskPage⟩ : Call)
          else s.calls[i]?) = some ⟨k, .reading p d⟩ → i = s.calls.length := by
        intro i p d hi
        by_contra hid
        rw [if_neg hid] at hi
        obtain ⟨_, _, hphase⟩ := houtside i _ hi rfl
        exact Phase.noConfusion hphase
      exact (hnew i p d hi).trans (hnew j q d' hj).symm
    · exact absurd (hsub k p hp) (habsent p)
    · have hcounts := (h.keys k).counts
      rw [hnone] at hcounts
      rw [hself]
      change s.adds k + 1 = bump s.episodes k k
      rw [bump, Function.update_self]
      exact congrArg (· + 1) hcounts
  · have hframe := calls_frame hrep (fun b hb => absurd (hlast.symm.trans hb) (by simp)) hk
    exact (h.keys k).frame ⟨(Latch.find_put ..).trans (if_neg hk), hframe.1, hframe.2, hsub k, fun _ _ => rfl,
      fun _ _ _ hq => hq, rfl, Function.update_of_ne hk .., rfl⟩

end Reads

end DiskReader

end Tyrdbs.Storage
