import Tyrdbs.Storage.DiskReaderSteps

namespace Tyrdbs.Storage

open Outcome Slots

namespace PageCache

variable {c : PageCache} {held : Multiset Nat} {page : Nat}

theorem Owned.card_le (h : Owned c held) : held.card ≤ c.pages.all.card := by
  obtain ⟨free, _, hsplit⟩ := h.split
  rw [card_split hsplit]
  exact Nat.le_add_left ..

theorem allocate_owned (h : Owned c held) :
    Yields (fun _ => True) (fun r => Owned r.2 (r.1 ::ₘ held) ∧ r.2.pages.all = c.pages.all) c.allocate := by
  rcases Nat.lt_or_ge held.card c.pages.all.card with hroom | hfull
  · exact ((allocate_yields h hroom).mono (fun r hr => ⟨hr.1, hr.2.2⟩)).weaken (fun _ _ => trivial)
  · rw [allocate_fails h (Nat.le_antisymm h.card_le hfull)]
    trivial

/-- A key that is there, or is none, fails an assertion. -/
theorem add_owned (h : Owned c (page ::ₘ held)) (key : UInt64) :
    Yields (fun _ => True) (fun c' => Owned c' held ∧ c'.pages.all = c.pages.all) (c.add key page) := by
  by_cases hkey : key = 0
  · have hzero : ¬ key ≠ default := not_not.mpr hkey
    rw [add, Wtinylfu.set, check_of_not hzero]
    trivial
  by_cases habsent : c.cache.map key = none
  · have hnone : ∀ x, (key, x) ∉ c.cache.residents := by
      intro x hx
      have hsome := (Wtinylfu.isSome_map_iff h.consistent.toLinked).mpr ⟨x, hx⟩
      rw [habsent] at hsome
      cases hsome
    exact ((add_yields h hkey hnone).mono (fun c' hc => ⟨hc.1, hc.2.1⟩)).weaken (fun _ _ => trivial)
  · have hkey' : key ≠ default := hkey
    rw [add, Wtinylfu.set, check_of hkey', ok_bind, check_of_not habsent]
    trivial

theorem get_owned (h : Owned c held) (key : UInt64) :
    Yields (fun _ => True) (fun r => Owned r.2 held ∧ r.2.pages.all = c.pages.all) (c.get key) := by
  by_cases hkey : key = 0
  · have hzero : ¬ key ≠ default := not_not.mpr hkey
    rw [get, Wtinylfu.get, check_of_not hzero]
    trivial
  · refine ((get_yields h hkey).mono (fun r hr => ⟨hr.1, ?_⟩)).weaken (fun _ _ => trivial)
    rw [hr.2.1]

end PageCache

namespace DiskReader

/-- Every page is free, in the cache, in a latch entry or with others, and the
calls inside a latch entry go on with its page. -/
structure Paged (s : DiskReader) (others : Multiset Nat) : Prop where
  owned : s.cache.Owned (s.latch.held + others)
  emptyValue : s.latch.emptyValue = invalidHandle
  count : ∀ key, s.calls.countP (Call.inside key) = (s.latch.entries.find key).elim 0 LatchEntry.refCount
  linked : ∀ (i : Nat) (c : Call), s.calls[i]? = some c → c.inside c.key = true →
    ∃ e, s.latch.entries.find c.key = some e ∧ e.value = c.page

/-- What a step keeps. -/
def Keeps (s : DiskReader) (others : Multiset Nat) (s' : DiskReader) : Prop :=
  s'.Paged others ∧ s'.cache.pages.all = s.cache.pages.all

variable {s s' : DiskReader} {others : Multiset Nat} {id page : Nat} {key : UInt64} {e e' : LatchEntry Nat} {c : Call}

theorem Paged.same (h : s.Paged others) (hcache : s'.cache = s.cache) (hlatch : s'.latch = s.latch)
    (hcalls : s'.calls = s.calls) : s'.Paged others := by
  obtain ⟨howned, hempty, hcount, hlinked⟩ := h
  exact ⟨hcache ▸ hlatch ▸ howned, hlatch ▸ hempty, hlatch ▸ hcalls ▸ hcount, hlatch ▸ hcalls ▸ hlinked⟩

theorem Paged.update (h : s.Paged others) (id : Nat) (c' : Call) (hcache : s'.cache = s.cache)
    (he : s.latch.entries.find c'.key = some e) (hlatch : s.latch.Updated s'.latch c'.key e')
    (hvalue : e'.value = e.value)
    (hcalls : Replaced s.calls s'.calls id c') (hold : ∀ b, s.calls[id]? = some b → b.key = c'.key)
    (hcount : e'.refCount + s.calls[id]?.elim 0 (fun b => (b.inside c'.key).toNat) =
      e.refCount + (c'.inside c'.key).toNat)
    (hpage : c'.inside c'.key = true → e.value = c'.page) : s'.Paged others := by
  refine ⟨?_, hlatch.emptyValue.trans h.emptyValue, fun k => ?_, fun i b hb hin => ?_⟩
  · rw [hcache, hlatch.held]
    exact h.owned
  · by_cases hk : k = c'.key
    · subst hk
      have hsum := hcalls.count (Call.inside c'.key)
      rw [h.count, he, Option.elim_some] at hsum
      rw [hlatch.self, Option.elim_some]
      omega
    · rw [(calls_frame hcalls hold hk).2, h.count, hlatch.find, if_neg hk]
  · rw [hcalls.get] at hb
    by_cases hi : i = id
    · rw [if_pos hi] at hb
      obtain rfl := Option.some.inj hb
      exact ⟨e', hlatch.self, hvalue.trans (hpage hin)⟩
    · rw [if_neg hi] at hb
      obtain ⟨e₀, he₀, hv⟩ := h.linked i b hb hin
      rw [hlatch.find]
      by_cases hk : b.key = c'.key
      · rw [hk, he] at he₀
        rw [if_pos hk]
        exact ⟨e', rfl, hvalue.trans (Option.some.inj he₀ ▸ hv)⟩
      · rw [if_neg hk]
        exact ⟨e₀, he₀, hv⟩

theorem Paged.leave (h : s.Paged others) (hc : s.calls[id]? = some c) (hkey : c.key = key)
    (hin : c.inside c.key = true) (hpage : c.page = page) :
    Yields (fun _ => True) (s.Keeps others) (s.leave id key page) := by
  subst hkey hpage
  obtain ⟨e, he, hvalue⟩ := h.linked id c hc hin
  have hrep := replaced_set hc ⟨c.key, .returned c.page (s.memory c.page)⟩
  have hold : ∀ b, s.calls[id]? = some b → b.key = c.key := by
    intro b hb
    rw [hc] at hb
    rw [Option.some.inj hb]
  have hout : Call.inside c.key ⟨c.key, .returned c.page (s.memory c.page)⟩ = false := by simp [Call.inside]
  have hpos : e.refCount ≠ 0 := by
    have hcount := h.count c.key
    rw [he, Option.elim_some] at hcount
    have hmem : 0 < s.calls.countP (Call.inside c.key) :=
      List.countP_pos_iff.mpr ⟨c, List.mem_of_getElem? hc, hin⟩
    omega
  by_cases hlast : e.refCount - 1 = 0
  · rw [leave_last he hpos hlast]
    have howned := h.owned
    rw [Latch.held_of_find he, hvalue, Multiset.cons_add] at howned
    refine (PageCache.add_owned howned c.key).bind (fun cache hcache => ⟨⟨hcache.1, h.emptyValue, fun k => ?_,
      fun i b hb hbin => ?_⟩, hcache.2⟩)
    · change (s.calls.set id _).countP _ = ((s.latch.entries.erase c.key).find k).elim 0 _
      rw [Table.find_erase]
      by_cases hk : k = c.key
      · subst hk
        have hsum := hrep.count (Call.inside c.key)
        rw [hc, Option.elim_some, hin, hout, h.count, he, Option.elim_some] at hsum
        rw [if_pos rfl, Option.elim_none]
        simp only [Bool.toNat_true, Bool.toNat_false] at hsum
        omega
      · rw [if_neg hk, (calls_frame hrep hold hk).2, h.count]
    · change ∃ e, (s.latch.entries.erase c.key).find b.key = some e ∧ _
      have hb : (s.calls.set id _)[i]? = some b := hb
      rw [hrep.get] at hb
      by_cases hi : i = id
      · rw [if_pos hi] at hb
        obtain rfl := Option.some.inj hb
        exact absurd (hout.symm.trans hbin) (by simp)
      · rw [if_neg hi] at hb
        rw [Table.find_erase]
        by_cases hk : b.key = c.key
        · have htwo : 2 ≤ s.calls.countP (Call.inside c.key) := by
            have hsum := hrep.count (Call.inside c.key)
            rw [hc, Option.elim_some, hin, hout] at hsum
            have hset : (s.calls.set id ⟨c.key, .returned c.page (s.memory c.page)⟩)[i]? = some b := by
              rw [hrep.get, if_neg hi, hb]
            have hmem : 0 < (s.calls.set id ⟨c.key, .returned c.page (s.memory c.page)⟩).countP (Call.inside c.key) :=
              List.countP_pos_iff.mpr ⟨b, List.mem_of_getElem? hset, hk ▸ hbin⟩
            simp only [Bool.toNat_true, Bool.toNat_false] at hsum
            omega
          rw [h.count, he, Option.elim_some] at htwo
          omega
        · rw [if_neg hk]
          exact h.linked i b hb hbin
  · rw [leave_notLast he hpos hlast]
    refine ⟨h.update id ⟨c.key, .returned c.page (s.memory c.page)⟩ rfl he
      (Latch.updated_put he rfl) rfl hrep hold ?_ (fun hfalse => ?_), rfl⟩
    · rw [hc, Option.elim_some, hin, hout]
      simp only [Bool.toNat_true, Bool.toNat_false]
      omega
    · exact absurd (hout.symm.trans hfalse) (by simp)

theorem Paged.move (h : s.Paged others) (hc : s.calls[id]? = some c) (hkey : c.key = key)
    (hin : c.inside c.key = true) (hpage : c.page = page) (he : s.latch.entries.find key = some e)
    (hlatch : s.latch.Updated s'.latch key e') (hvalue : e'.value = e.value) (hcount : e'.refCount = e.refCount)
    {phase : Phase} (hcalls : s'.calls = s.calls.set id ⟨key, phase⟩) (hcache : s'.cache = s.cache)
    (hphase : Call.inside key ⟨key, phase⟩ = true) (hp : Call.page ⟨key, phase⟩ = page) : s'.Paged others := by
  subst hkey
  obtain ⟨e₀, he₀, hv⟩ := h.linked id c hc hin
  refine h.update id ⟨c.key, phase⟩ hcache he hlatch hvalue (hcalls ▸ replaced_set hc _) (fun b hb => ?_) ?_
    (fun _ => ?_)
  · rw [hc] at hb
    rw [Option.some.inj hb]
  · rw [hc, Option.elim_some, hin, hphase, hcount]
  · rw [he] at he₀
    rw [Option.some.inj he₀, hv, hpage]
    exact hp.symm

theorem Paged.waitFor (h : s.Paged others) (hc : s.calls[id]? = some c) (hkey : c.key = key)
    (hin : c.inside c.key = true) (hpage : c.page = page) :
    Yields (fun _ => True) (s.Keeps others) (s.waitFor id key page) := by
  obtain ⟨e, he, hvalue⟩ := h.linked id c hc hin
  rw [hkey] at he
  have hset : ∀ phase, (s.calls.set id ⟨key, phase⟩)[id]? = some ⟨key, phase⟩ :=
    fun phase => (replaced_set hc _).get_self
  cases hr : e.released with
  | true =>
      rw [waitFor_released he hr]
      have hmoved : Paged { s with calls := s.calls.set id ⟨key, .leaving page⟩ } others :=
        h.move hc hkey hin hpage he (Latch.updated_self he) rfl rfl rfl rfl (by simp [Call.inside]) rfl
      exact hmoved.leave (hset _) rfl (by simp [Call.inside]) rfl
  | false =>
      rw [waitFor_unreleased he hr]
      exact ⟨h.move hc hkey hin hpage he (Latch.updated_put he rfl) rfl rfl rfl rfl (by simp [Call.inside]) rfl, rfl⟩

theorem Paged.readDone (h : s.Paged others) {diskPage : Nat} (hc : s.calls[id]? = some ⟨key, .reading page diskPage⟩) :
    Yields (fun _ => True) (s.Keeps others) (s.readDone id key page diskPage) := by
  have hin : Call.inside key ⟨key, .reading page diskPage⟩ = true := by simp [Call.inside]
  obtain ⟨e, he, hvalue⟩ := h.linked id _ hc hin
  have he : s.latch.entries.find key = some e := he
  rw [DiskReader.readDone, Latch.release, Latch.entry_eq he]
  have hmoved : Paged { s with
      memory := Function.update s.memory page (s.image diskPage)
      latch := s.latch.put key { e with released := true, cond := [] }
      runQueue := s.runQueue ++ e.cond
      calls := s.calls.set id ⟨key, .leaving page⟩ } others :=
    h.move hc rfl hin rfl he (Latch.updated_put he rfl) rfl rfl rfl rfl (by simp [Call.inside]) rfl
  exact hmoved.leave (replaced_set hc _).get_self rfl (by simp [Call.inside]) rfl

theorem Paged.push (h : s.Paged others) (hcache : s'.cache = s.cache) (hlatch : s'.latch = s.latch)
    (hcalls : s'.calls = s.calls ++ [c]) (hout : c.inside c.key = false) : s'.Paged others := by
  have hrep := replaced_append s.calls c
  refine ⟨hcache ▸ hlatch ▸ h.owned, hlatch ▸ h.emptyValue, fun k => ?_, fun i b hb hin => ?_⟩
  · have hk : Call.inside k c = false := by
      by_cases hkey : c.key = k
      · exact hkey ▸ hout
      · rw [Call.inside, decide_eq_false hkey, Bool.false_and]
    rw [hcalls, hlatch, List.countP_append, List.countP_singleton, hk, h.count]
    rfl
  · rw [hcalls, hrep.get] at hb
    by_cases hi : i = s.calls.length
    · rw [if_pos hi] at hb
      obtain rfl := Option.some.inj hb
      exact absurd (hout.symm.trans hin) (by simp)
    · rw [if_neg hi] at hb
      rw [hlatch]
      exact h.linked i b hb hin

theorem Paged.begin (h : s.Paged others) {cache : PageCache} (he : s.latch.entries.find key = none)
    (hcache : cache.Owned (page ::ₘ (s.latch.held + others))) (hnew : s'.cache = cache)
    (hlatch : s'.latch = s.latch.put key { refCount := 1, value := page }) (hcalls : s'.calls = s.calls ++ [c])
    (hkey : c.key = key) (hin : c.inside key = true) (hpage : c.page = page) : s'.Paged others := by
  subst hkey
  have hrep := replaced_append s.calls c
  have hlast : s.calls[s.calls.length]? = none := List.getElem?_eq_none (Nat.le_refl _)
  refine ⟨?_, hlatch ▸ h.emptyValue, fun k => ?_, fun i b hb hbin => ?_⟩
  · rw [hnew, hlatch, Latch.held_put_of_none he, Multiset.cons_add]
    exact hcache
  · rw [hlatch, Latch.find_put, hcalls]
    have hsum := hrep.count (Call.inside k)
    rw [hlast, Option.elim_none, h.count] at hsum
    by_cases hk : k = c.key
    · subst hk
      rw [he, Option.elim_none, hin] at hsum
      rw [if_pos rfl, Option.elim_some]
      simpa using hsum
    · have hnot : c.inside k = false := by rw [Call.inside, decide_eq_false (Ne.symm hk), Bool.false_and]
      rw [hnot] at hsum
      rw [if_neg hk]
      simpa using hsum
  · rw [hcalls, hrep.get] at hb
    rw [hlatch, Latch.find_put]
    by_cases hi : i = s.calls.length
    · rw [if_pos hi] at hb
      obtain rfl := Option.some.inj hb
      exact ⟨_, if_pos rfl, hpage.symm⟩
    · rw [if_neg hi] at hb
      obtain ⟨e, hfind, hv⟩ := h.linked i b hb hbin
      have hne : b.key ≠ c.key := by
        intro heq
        rw [heq, he] at hfind
        cases hfind
      rw [if_neg hne]
      exact ⟨e, hfind, hv⟩

theorem Paged.read (h : s.Paged others) (cacheId : UInt64) (filePage : UInt32) (extents : List Nat) :
    Yields (fun _ => True) (s.Keeps others) (s.read cacheId filePage extents) := by
  by_cases hfile : filePage.toNat < 1 <<< filePagesBits
  case neg =>
    rw [DiskReader.read, check_of_not hfile]
    trivial
  have hget := PageCache.get_owned h.owned (keyOf cacheId filePage)
  cases hr : s.cache.get (keyOf cacheId filePage) with
  | error stop =>
      rw [DiskReader.read, check_of hfile, ok_bind]
      simp only [hr]
      trivial
  | ok r =>
      obtain ⟨p, cache⟩ := r
      rw [hr] at hget
      obtain ⟨howned, hall⟩ := hget
      have hmid : Paged { s with cache := cache } others := ⟨howned, h.emptyValue, h.count, h.linked⟩
      by_cases hp : p = invalidHandle
      · subst hp
        cases he : s.latch.entries.find (keyOf cacheId filePage) with
        | some e =>
            have hvalid : e.value ≠ invalidHandle := by
              refine h.owned.valid (h.owned.held_mem (Multiset.mem_add.mpr (Or.inl ?_)))
              rw [Latch.held_of_find he]
              exact Multiset.mem_cons_self ..
            rw [read_join hfile hr he hvalid]
            have hlast : s.calls[s.calls.length]? = none := List.getElem?_eq_none (Nat.le_refl _)
            have hjoin : Paged { s with
                cache := cache
                latch := s.latch.put (keyOf cacheId filePage) { e with refCount := e.refCount + 1 }
                calls := s.calls ++ [⟨keyOf cacheId filePage, .leaving e.value⟩] } others := by
              refine hmid.update s.calls.length ⟨keyOf cacheId filePage, .leaving e.value⟩ rfl he
                (Latch.updated_put he rfl) rfl (replaced_append s.calls _) (fun b hb => ?_) ?_ (fun _ => rfl)
              · exact absurd (hlast.symm.trans hb) (by simp)
              · change _ + s.calls[s.calls.length]?.elim 0 _ = _
                rw [hlast, Option.elim_none]
                simp [Call.inside]
            refine (hjoin.waitFor (replaced_append s.calls _).get_self rfl (by simp [Call.inside]) rfl).mono
              (fun s' hs' => ⟨hs'.1, hs'.2.trans hall⟩)
        | none =>
            rw [read_new hfile hr he h.emptyValue]
            refine (PageCache.allocate_owned howned).bind (fun a ha => ⟨?_, ha.2.trans hall⟩)
            exact hmid.begin he ha.1 rfl rfl rfl rfl (by simp [Call.inside]) rfl
      · rw [read_hit hfile hr hp]
        exact ⟨hmid.push rfl rfl rfl (by simp [Call.inside]), hall⟩

theorem Paged.apply (h : s.Paged others) (a : Action) : Yields (fun _ => True) (s.Keeps others) (s.apply a) := by
  cases a with
  | read cacheId filePage extents => exact h.read cacheId filePage extents
  | readDone id =>
      rw [DiskReader.apply]
      split
      case h_1 key page diskPage hc => exact h.readDone hc
      case h_2 => exact ⟨h, rfl⟩
  | resume id =>
      rw [DiskReader.apply]
      split
      case h_1 key page hc =>
        have hsame : Paged { s with runQueue := s.runQueue.erase id } others := h.same rfl rfl rfl
        exact hsame.waitFor hc rfl (by simp [Call.inside]) rfl
      case h_2 => exact ⟨h, rfl⟩

end DiskReader

end Tyrdbs.Storage
