import Tyrdbs.Storage.DiskReaderPages

namespace Tyrdbs.Storage

open Outcome Slots

namespace PageCache

variable {c c' : PageCache} {held : Multiset Nat} {page : Nat} {key : UInt64}

theorem add_residents (h : Owned c (page ::ₘ held)) (hadd : c.add key page = .ok c') :
    c'.cache.residents ≤ (key, page) ::ₘ c.cache.residents := by
  by_cases hkey : key = 0
  · have hzero : ¬ key ≠ default := not_not.mpr hkey
    rw [add, Wtinylfu.set, check_of_not hzero] at hadd
    cases hadd
  by_cases habsent : c.cache.map key = none
  · have hnone : ∀ x, (key, x) ∉ c.cache.residents := by
      intro x hx
      have hsome := (Wtinylfu.isSome_map_iff h.consistent.toLinked).mpr ⟨x, hx⟩
      rw [habsent] at hsome
      cases hsome
    exact ((add_yields h hkey hnone).of_ok hadd).2.2.2
  · have hkey' : key ≠ default := hkey
    rw [add, Wtinylfu.set, check_of hkey', ok_bind, check_of_not habsent] at hadd
    cases hadd

theorem allocate_residents (h : Owned c held) (hallocate : c.allocate = .ok (page, c')) :
    c'.cache.residents ≤ c.cache.residents := by
  rcases Nat.lt_or_ge held.card c.pages.all.card with hroom | hfull
  · exact ((allocate_yields h hroom).of_ok hallocate).2.1
  · rw [allocate_fails h (Nat.le_antisymm h.card_le hfull)] at hallocate
    cases hallocate

theorem get_residents (h : Owned c held) (hget : c.get key = .ok (page, c')) :
    c'.cache.residents = c.cache.residents ∧ (page = invalidHandle ∨ (key, page) ∈ c.cache.residents) := by
  by_cases hkey : key = 0
  · have hzero : ¬ key ≠ default := not_not.mpr hkey
    rw [get, Wtinylfu.get, check_of_not hzero] at hget
    cases hget
  · obtain ⟨-, -, hsame, hcase⟩ := (get_yields h hkey).of_ok hget
    exact ⟨hsame, hcase.imp_left And.left⟩

end PageCache

namespace DiskReader

/-- P says what bytes are those of a key, and R which disk page has them. All
pages that are kept for a key, or were given out for it, are its own. -/
structure Serves (s : DiskReader) (P : UInt64 → Page → Prop) (R : UInt64 → Nat → Prop) : Prop where
  residents : ∀ key page, s.resident key page → P key (s.memory page)
  entries : ∀ key e, s.latch.entries.find key = some e → e.released = true → P key (s.memory e.value)
  reading : ∀ key page diskPage, ⟨key, .reading page diskPage⟩ ∈ s.calls → R key diskPage
  returned : ∀ key page bytes, ⟨key, .returned page bytes⟩ ∈ s.calls → P key bytes

variable {s s' : DiskReader} {others : Multiset Nat} {id page diskPage : Nat} {key : UInt64} {e : LatchEntry Nat}
  {c c' : Call} {P P' : UInt64 → Page → Prop} {R R' : UInt64 → Nat → Prop}

theorem Serves.mono (h : s.Serves P R) (hP : ∀ key bytes, P key bytes → P' key bytes)
    (hR : ∀ key page diskPage, ⟨key, .reading page diskPage⟩ ∈ s.calls → R key diskPage → R' key diskPage)
    (hresidents : ∀ key page, s'.resident key page → P' key (s'.memory page))
    (hmemory : ∀ key e, s.latch.entries.find key = some e → s'.memory e.value = s.memory e.value)
    (hlatch : s'.latch = s.latch) (hcalls : s'.calls = s.calls) : s'.Serves P' R' := by
  refine ⟨hresidents, fun key e he hr => ?_, fun key page diskPage hc => ?_, fun key page bytes hc => ?_⟩
  · rw [hlatch] at he
    rw [hmemory key e he]
    exact hP key _ (h.entries key e he hr)
  · rw [hcalls] at hc
    exact hR key page diskPage hc (h.reading key page diskPage hc)
  · rw [hcalls] at hc
    exact hP key bytes (h.returned key page bytes hc)

theorem Serves.weaken (h : s.Serves P R) (hP : ∀ key bytes, P key bytes → P' key bytes)
    (hR : ∀ key diskPage, R key diskPage → R' key diskPage) : s.Serves P' R' :=
  h.mono hP (fun key _ diskPage _ => hR key diskPage) (fun key page hp => hP key _ (h.residents key page hp))
    (fun _ _ _ => rfl) rfl rfl

theorem Serves.update (h : s.Serves P R) (hcache : s'.cache = s.cache) (hmemory : s'.memory = s.memory)
    (hentries : ∀ k e', s'.latch.entries.find k = some e' → e'.released = true →
      ∃ e, s.latch.entries.find k = some e ∧ e.released = true ∧ e'.value = e.value)
    (hcalls : ∀ b ∈ s'.calls, b ∈ s.calls ∨ b = c)
    (hreading : ∀ page diskPage, c.phase = .reading page diskPage → R c.key diskPage)
    (hreturned : ∀ page bytes, c.phase = .returned page bytes → P c.key bytes) : s'.Serves P R := by
  refine ⟨fun k page hp => ?_, fun k e' he' hr => ?_, fun k page diskPage hc => ?_, fun k page bytes hc => ?_⟩
  · rw [resident, hcache] at hp
    rw [hmemory]
    exact h.residents k page hp
  · obtain ⟨e, he, her, hv⟩ := hentries k e' he' hr
    rw [hmemory, hv]
    exact h.entries k e he her
  · rcases hcalls _ hc with hc | rfl
    · exact h.reading k page diskPage hc
    · exact hreading page diskPage rfl
  · rcases hcalls _ hc with hc | rfl
    · exact h.returned k page bytes hc
    · exact hreturned page bytes rfl

theorem Serves.leave (h : s.Serves P R) (hp : s.Paged others) (hc : s.calls[id]? = some c) (hkey : c.key = key)
    (hin : c.inside c.key = true) (hpage : c.page = page) (hP : P key (s.memory page)) :
    Yields (fun _ => True) (fun s' => s'.Serves P R) (s.leave id key page) := by
  subst hkey hpage
  obtain ⟨e, he, hvalue⟩ := hp.linked id c hc hin
  by_cases hpos : e.refCount ≠ 0
  case neg =>
    rw [DiskReader.leave, Latch.remove, Latch.entry_eq he, ok_bind, check_of_not hpos]
    trivial
  by_cases hlast : e.refCount - 1 = 0
  · rw [leave_last he hpos hlast]
    have howned := hp.owned
    rw [Latch.held_of_find he, hvalue, Multiset.cons_add] at howned
    cases hadd : s.cache.add c.key c.page with
    | error stop => trivial
    | ok cache =>
        have hresidents := PageCache.add_residents howned hadd
        refine ⟨fun k page hk => ?_, fun k e' he' hr => ?_, fun k page diskPage hk => ?_, fun k page bytes hk => ?_⟩
        · rcases Multiset.mem_cons.mp (Multiset.mem_of_le hresidents hk) with heq | hold
          · obtain ⟨rfl, rfl⟩ := Prod.mk.inj heq
            exact hP
          · exact h.residents k page hold
        · change (s.latch.entries.erase c.key).find k = some e' at he'
          rw [Table.find_erase] at he'
          split at he'
          case isTrue => cases he'
          case isFalse => exact h.entries k e' he' hr
        · rcases List.mem_or_eq_of_mem_set hk with hk | hk
          · exact h.reading k page diskPage hk
          · cases hk
        · rcases List.mem_or_eq_of_mem_set hk with hk | hk
          · exact h.returned k page bytes hk
          · cases hk
            exact hP
  · rw [leave_notLast he hpos hlast]
    refine h.update (c := ⟨c.key, .returned c.page (s.memory c.page)⟩) rfl rfl (fun k e' he' hr => ?_)
      (fun b hb => List.mem_or_eq_of_mem_set hb) (fun _ _ hphase => by cases hphase) (fun page bytes hphase => ?_)
    · change (s.latch.put c.key _).entries.find k = some e' at he'
      rw [Latch.find_put] at he'
      split at he'
      case isTrue hk =>
        obtain rfl := Option.some.inj he'
        exact ⟨e, hk ▸ he, hr, rfl⟩
      case isFalse => exact ⟨e', he', hr, rfl⟩
    · cases hphase
      exact hP

theorem Serves.waitFor (h : s.Serves P R) (hp : s.Paged others) (hc : s.calls[id]? = some c) (hkey : c.key = key)
    (hin : c.inside c.key = true) (hpage : c.page = page) :
    Yields (fun _ => True) (fun s' => s'.Serves P R) (s.waitFor id key page) := by
  obtain ⟨e, he, hvalue⟩ := hp.linked id c hc hin
  rw [hkey] at he
  cases hr : e.released with
  | true =>
      rw [waitFor_released he hr]
      have hmoved : Serves { s with calls := s.calls.set id ⟨key, .leaving page⟩ } P R :=
        h.update rfl rfl (fun k e' he' hr' => ⟨e', he', hr', rfl⟩) (fun b hb => List.mem_or_eq_of_mem_set hb)
          (fun _ _ hphase => by cases hphase) (fun _ _ hphase => by cases hphase)
      have hpaged : Paged { s with calls := s.calls.set id ⟨key, .leaving page⟩ } others :=
        hp.move hc hkey hin hpage he (Latch.updated_self he) rfl rfl rfl rfl (by simp [Call.inside]) rfl
      refine hmoved.leave hpaged (replaced_set hc _).get_self rfl (by simp [Call.inside]) rfl ?_
      rw [show page = e.value from (hvalue.trans hpage).symm]
      exact h.entries key e he hr
  | false =>
      rw [waitFor_unreleased he hr]
      refine h.update (c := ⟨key, .waiting page⟩) rfl rfl (fun k e' he' hr' => ?_)
        (fun b hb => List.mem_or_eq_of_mem_set hb) (fun _ _ hphase => by cases hphase)
        (fun _ _ hphase => by cases hphase)
      change (s.latch.put key _).entries.find k = some e' at he'
      rw [Latch.find_put] at he'
      split at he'
      case isTrue =>
        obtain rfl := Option.some.inj he'
        rw [show _ = e.released from rfl, hr] at hr'
        cases hr'
      case isFalse => exact ⟨e', he', hr', rfl⟩

/-- The page that the disk delivers belongs to the latch entry of its key, and
to nobody else. -/
theorem Serves.readDone (h : s.Serves P R) (hp : s.Paged others) (hread : ∀ d, R key d → P key (s.image d))
    (hc : s.calls[id]? = some ⟨key, .reading page diskPage⟩) :
    Yields (fun _ => True) (fun s' => s'.Serves P R) (s.readDone id key page diskPage) := by
  have hin : Call.inside key ⟨key, .reading page diskPage⟩ = true := by simp [Call.inside]
  obtain ⟨e, he, hvalue⟩ := hp.linked id _ hc hin
  have he : s.latch.entries.find key = some e := he
  have hvalue : e.value = page := hvalue
  have hbytes : P key (s.image diskPage) := hread diskPage (h.reading key page diskPage (List.mem_of_getElem? hc))
  have hself : Function.update s.memory page (s.image diskPage) page = s.image diskPage := Function.update_self ..
  rw [DiskReader.readDone, Latch.release, Latch.entry_eq he]
  have hpaged : Paged { s with
      memory := Function.update s.memory page (s.image diskPage)
      latch := s.latch.put key { e with released := true, cond := [] }
      runQueue := s.runQueue ++ e.cond
      calls := s.calls.set id ⟨key, .leaving page⟩ } others :=
    hp.move hc rfl hin rfl he (Latch.updated_put he rfl) rfl rfl rfl rfl (by simp [Call.inside]) rfl
  have hmoved : Serves { s with
      memory := Function.update s.memory page (s.image diskPage)
      latch := s.latch.put key { e with released := true, cond := [] }
      runQueue := s.runQueue ++ e.cond
      calls := s.calls.set id ⟨key, .leaving page⟩ } P R := by
    have hheld : s.latch.held = page ::ₘ ({ s.latch with entries := s.latch.entries.erase key } : Latch UInt64 Nat).held :=
      hvalue ▸ Latch.held_of_find he
    refine ⟨fun k q hk => ?_, fun k e' he' hr => ?_, fun k q d hk => ?_, fun k q bytes hk => ?_⟩
    · have hq : q ≠ page := by
        rintro rfl
        refine hp.owned.not_cached (Multiset.mem_add.mpr (.inl ?_)) (Multiset.mem_map_of_mem Prod.snd hk)
        exact hheld ▸ Multiset.mem_cons_self ..
      change P k (Function.update s.memory page (s.image diskPage) q)
      rw [Function.update_of_ne hq]
      exact h.residents k q hk
    · change (s.latch.put key _).entries.find k = some e' at he'
      change P k (Function.update s.memory page (s.image diskPage) e'.value)
      rw [Latch.find_put] at he'
      split at he'
      case isTrue hk =>
        obtain rfl := Option.some.inj he'
        rw [hk, show LatchEntry.value _ = page from hvalue, hself]
        exact hbytes
      case isFalse hk =>
        have hne : e'.value ≠ page := by
          have hnodup := hp.owned.held_nodup
          rw [hheld, Multiset.cons_add] at hnodup
          intro heq
          refine (Multiset.nodup_cons.mp hnodup).1 (Multiset.mem_add.mpr (.inl ?_))
          have hfind : (s.latch.entries.erase key).find k = some e' := by rw [Table.find_erase, if_neg hk, he']
          rw [Latch.held, Table.values_of_find hfind, Multiset.map_cons, heq]
          exact Multiset.mem_cons_self ..
        rw [Function.update_of_ne hne]
        exact h.entries k e' he' hr
    · rcases List.mem_or_eq_of_mem_set hk with hk | hk
      · exact h.reading k q d hk
      · cases hk
    · rcases List.mem_or_eq_of_mem_set hk with hk | hk
      · exact h.returned k q bytes hk
      · cases hk
  refine hmoved.leave hpaged (replaced_set hc _).get_self rfl (by simp [Call.inside]) rfl ?_
  change P key (Function.update s.memory page (s.image diskPage) page)
  rw [hself]
  exact hbytes

theorem Serves.read (h : s.Serves P R) (hp : s.Paged others) (cacheId : UInt64) (filePage : UInt32)
    (extents : List Nat) (hR : R (keyOf cacheId filePage) (getDiskPage extents filePage.toNat)) :
    Yields (fun _ => True) (fun s' => s'.Serves P R) (s.read cacheId filePage extents) := by
  by_cases hfile : filePage.toNat < 1 <<< filePagesBits
  case neg =>
    rw [DiskReader.read, check_of_not hfile]
    trivial
  have howns := PageCache.get_owned hp.owned (keyOf cacheId filePage)
  cases hget : s.cache.get (keyOf cacheId filePage) with
  | error stop =>
      rw [DiskReader.read, check_of hfile, ok_bind]
      simp only [hget]
      trivial
  | ok r =>
      obtain ⟨p, cache⟩ := r
      rw [hget] at howns
      obtain ⟨howned, -⟩ := howns
      obtain ⟨hsame, hcase⟩ := PageCache.get_residents hp.owned hget
      have hmid : Paged { s with cache := cache } others := ⟨howned, hp.emptyValue, hp.count, hp.linked⟩
      have hserves : Serves { s with cache := cache } P R :=
        ⟨fun k page hk => h.residents k page (Multiset.mem_of_le hsame.le hk), h.entries, h.reading, h.returned⟩
      by_cases hpage : p = invalidHandle
      · subst hpage
        cases he : s.latch.entries.find (keyOf cacheId filePage) with
        | some e =>
            have hvalid : e.value ≠ invalidHandle := by
              refine hp.owned.valid (hp.owned.held_mem (Multiset.mem_add.mpr (Or.inl ?_)))
              rw [Latch.held_of_find he]
              exact Multiset.mem_cons_self ..
            rw [read_join hfile hget he hvalid]
            have hlast : s.calls[s.calls.length]? = none := List.getElem?_eq_none (Nat.le_refl _)
            have hjoin : Paged { s with
                cache := cache
                latch := s.latch.put (keyOf cacheId filePage) { e with refCount := e.refCount + 1 }
                calls := s.calls ++ [⟨keyOf cacheId filePage, .leaving e.value⟩] } others := by
              refine hmid.update s.calls.length ⟨keyOf cacheId filePage, .leaving e.value⟩ rfl he
                (Latch.updated_put he rfl) rfl (replaced_append s.calls _) (fun b hb => ?_) ?_ (fun _ => rfl)
              · exact absurd (hlast.symm.trans hb) (by simp)
              · change _ + s.calls[s.calls.length]?.elim 0 _ = _
                rw [hlast, Option.elim_none]
                simp [Call.inside]
            refine Serves.waitFor (hserves.update (c := ⟨keyOf cacheId filePage, .leaving e.value⟩) rfl rfl
              (fun k e' he' hr => ?_) (fun b hb => ?_) (fun _ _ hphase => by cases hphase)
              (fun _ _ hphase => by cases hphase)) hjoin (replaced_append s.calls _).get_self rfl
              (by simp [Call.inside]) rfl
            · change (s.latch.put _ _).entries.find k = some e' at he'
              rw [Latch.find_put] at he'
              split at he'
              case isTrue hk =>
                obtain rfl := Option.some.inj he'
                exact ⟨e, hk ▸ he, hr, rfl⟩
              case isFalse => exact ⟨e', he', hr, rfl⟩
            · exact (List.mem_append.mp hb).imp_right List.mem_singleton.mp
        | none =>
            rw [read_new hfile hget he hp.emptyValue]
            cases hallocate : cache.allocate with
            | error stop => trivial
            | ok r =>
                obtain ⟨page, cache'⟩ := r
                have hle := PageCache.allocate_residents howned hallocate
                refine ⟨fun k q hk => hserves.residents k q (Multiset.mem_of_le hle hk), fun k e' he' hr => ?_,
                  fun k q d hk => ?_, fun k q bytes hk => ?_⟩
                · change (s.latch.put _ _).entries.find k = some e' at he'
                  rw [Latch.find_put] at he'
                  split at he'
                  case isTrue =>
                    obtain rfl := Option.some.inj he'
                    cases hr
                  case isFalse => exact h.entries k e' he' hr
                · rcases List.mem_append.mp hk with hk | hk
                  · exact h.reading k q d hk
                  · cases List.mem_singleton.mp hk
                    exact hR
                · rcases List.mem_append.mp hk with hk | hk
                  · exact h.returned k q bytes hk
                  · cases List.mem_singleton.mp hk
      · rw [read_hit hfile hget hpage]
        refine hserves.update (c := ⟨keyOf cacheId filePage, .returned p (s.memory p)⟩) rfl rfl
          (fun k e' he' hr => ⟨e', he', hr, rfl⟩) (fun b hb => (List.mem_append.mp hb).imp_right List.mem_singleton.mp)
          (fun _ _ hphase => by cases hphase) (fun q bytes hphase => ?_)
        cases hphase
        exact h.residents _ p (hcase.resolve_left hpage)

/-- Whatever the reader does, if the disk pages it is sent to are right. -/
theorem Serves.apply (h : s.Serves P R) (hp : s.Paged others) (hread : ∀ key d, R key d → P key (s.image d))
    {a : Action} (hR : ∀ cacheId filePage extents, a = .read cacheId filePage extents →
      R (keyOf cacheId filePage) (getDiskPage extents filePage.toNat)) :
    Yields (fun _ => True) (fun s' => s'.Serves P R) (s.apply a) := by
  cases a with
  | read cacheId filePage extents => exact h.read hp cacheId filePage extents (hR _ _ _ rfl)
  | readDone id =>
      rw [DiskReader.apply]
      split
      case h_1 key page diskPage hc => exact h.readDone hp (hread key) hc
      case h_2 => exact h
  | resume id =>
      rw [DiskReader.apply]
      split
      case h_1 key page hc =>
        have hpaged : Paged { s with runQueue := s.runQueue.erase id } others := hp.same rfl rfl rfl
        have hserves : Serves { s with runQueue := s.runQueue.erase id } P R :=
          ⟨h.residents, h.entries, h.reading, h.returned⟩
        exact hserves.waitFor hpaged hc rfl (by simp [Call.inside]) rfl
      case h_2 => exact h

end DiskReader

end Tyrdbs.Storage
