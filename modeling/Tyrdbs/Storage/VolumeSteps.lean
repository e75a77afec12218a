import Tyrdbs.Storage.VolumeContents

namespace Tyrdbs.Storage.DiskWriter

open Allocator Outcome Bytes

variable {s s' : DiskWriter} {t e page total maxDirty : Nat} {flush : Flush} {ds : List Descriptor} {f : FileWriter}

theorem mem_dirty (he : e ∈ s.states) (hm : page ∈ (s.files e).pages) : page ∈ s.dirty :=
  Multiset.mem_add.mpr (.inl (Multiset.mem_of_le (List.le_sum_of_mem (List.mem_map_of_mem he)) hm))

theorem memPage_mem_dirty (he : e ∈ s.states) (hpage : (s.files e).memPage ≠ invalidHandle) :
    (s.files e).memPage ∈ s.dirty := by
  refine mem_dirty he (Multiset.mem_add.mpr (.inl ?_))
  rw [FileWriter.page_of_valid hpage]
  exact Multiset.mem_singleton_self _

theorem cached_mem_dirty (he : e ∈ s.states) (hm : page ∈ (s.files e).cachedPages) : page ∈ s.dirty :=
  mem_dirty he (Multiset.mem_add.mpr (.inr hm))

theorem flight_mem_dirty {x : Stage} (hx : x ∈ s.threads) (hf : x.flush? = some flush) (hm : page ∈ flush.cachedPages) :
    page ∈ s.dirty := by
  refine Multiset.mem_add.mpr (.inr (Multiset.mem_of_le (List.le_sum_of_mem (List.mem_map_of_mem hx)) ?_))
  rw [Stage.pages, hf]
  exact hm

theorem ahead_mem_dirty (hm : page ∈ s.ahead e) : page ∈ s.dirty := by
  obtain ⟨x, hx, hp⟩ := List.mem_flatMap.mp hm
  rw [Stage.ahead] at hp
  cases hu : x.unplaced with
  | none =>
      rw [hu] at hp
      cases hp
  | some flush =>
      rw [hu, Option.elim_some] at hp
      split at hp
      · exact flight_mem_dirty hx (Stage.flush_of_unplaced hu) hp
      · cases hp

theorem coming_mem_dirty (he : e ∈ s.states) (hm : page ∈ s.coming e) : page ∈ s.dirty :=
  (List.mem_append.mp hm).elim ahead_mem_dirty (cached_mem_dirty he)

theorem Ledger.buffer (h : s.Ledger total maxDirty 0) (ho : s.Orderly) (he : e ∈ s.states)
    (hpage : (s.files e).memPage ≠ invalidHandle) :
    (s.files e).memPage ∉ (s.setFile e { s.files e with memPage := invalidHandle }).dirty ∧
      (∀ key, ¬ s.reader.resident key (s.files e).memPage) ∧
      ∀ key x, s.reader.latch.entries.find key = some x → x.value ≠ (s.files e).memPage := by
  have hdirty := dirty_setFile (List.nodup_append.mp ho.nodup).1 he { s.files e with memPage := invalidHandle }
  rw [FileWriter.pages, FileWriter.pages, FileWriter.page_of_valid hpage,
    show FileWriter.page { s.files e with memPage := invalidHandle } = 0 from if_pos rfl, zero_add, ← add_assoc] at hdirty
  have hsplit := add_right_cancel hdirty
  have howned := h.reader.owned
  rw [← hsplit, add_zero, add_comm _ {(s.files e).memPage}, Multiset.singleton_add] at howned
  have hmem : (s.files e).memPage ∈ s.reader.latch.held +
      ((s.files e).memPage ::ₘ (s.setFile e { s.files e with memPage := invalidHandle }).dirty) :=
    Multiset.mem_add.mpr (.inr (Multiset.mem_cons_self ..))
  have hnodup := howned.held_nodup
  refine ⟨?_, fun key hr => ?_, fun key x hx heq => ?_⟩
  · exact (Multiset.nodup_cons.mp (Multiset.nodup_add.mp hnodup).2.1).1
  · exact howned.not_cached hmem (Multiset.mem_map_of_mem Prod.snd hr)
  · refine Multiset.disjoint_left.mp (Multiset.nodup_add.mp hnodup).2.2 ?_ (Multiset.mem_cons_self ..)
    rw [Latch.held_of_find hx, heq]
    exact Multiset.mem_cons_self ..

theorem Contents.quiet (h : s.Contents ds) (hq : Quiet s s') : s'.Contents ds := by
  have hg := hq.grows
  have hfile : ∀ e, s'.files e = s.files e := fun e => by rw [hq.files]
  have hid : ∀ e, s'.cacheId e = s.cacheId e := fun e => by rw [cacheId, hfile, cacheId]
  refine ⟨hq.next ▸ h.ids, fun id hle => ?_, fun e he hopen => ?_, fun flush hf => ?_, fun flush diskPage rest hr => ?_,
    fun d hd => ?_, ?_⟩
  · rw [hq.written]
    exact h.unwritten id (hq.next ▸ hle)
  · rw [hfile] at hopen
    exact (h.files e (hq.states ▸ he) hopen).frame hg (hfile e) (by rw [hq.written]) (hq.ahead e)
      (fun _ _ => by rw [hq.reader]) (fun _ _ => by rw [hq.reader]) (fun _ _ _ hr _ => (hq.arriving _).mpr hr)
  · rw [base, hfile]
    exact h.unplaced flush (hq.unplaced flush hf)
  · obtain ⟨hopen, harrives⟩ := h.arriving flush diskPage rest ((hq.arriving _).mp hr)
    rw [hfile]
    exact ⟨hopen, harrives.frame hg (by rw [hfile]) (hid _) (fun _ _ => by rw [hq.reader])⟩
  · exact (h.commited d hd).frame hg (fun _ _ => by rw [hq.reader])
  · rw [hq.reader]
    exact h.reader.weaken (fun key bytes hc => hc.grows hg) (fun _ _ hr => hr)

section Update

variable (h : s.Contents ds) (hg : Grows s s') (hnext : s'.nextCacheId = s.nextCacheId) (hstates : s'.states = s.states)
  (hthreads : s'.threads = s.threads) (hother : ∀ k, k ≠ e → s'.files k = s.files k)
  (hextents : (s'.files e).descriptor.extents = (s.files e).descriptor.extents) (hid : s'.cacheId e = s.cacheId e)
  (hcommited : (s'.files e).commited = (s.files e).commited)
  (himage : s'.reader.image = s.reader.image)
include h hg hnext hstates hthreads hother hextents hid hcommited himage

theorem Contents.update (hunwritten : ∀ id, s.nextCacheId ≤ id → s'.written id = [])
    (hself : (s.files e).commited = false → s'.Faithful e)
    (hwritten : ∀ k ∈ s.states, k ≠ e → s'.written (s.cacheId k) = s.written (s.cacheId k))
    (hmemory : ∀ k ∈ s.states, k ≠ e → ∀ page, page ∈ s.coming k ∨ page = (s.files k).memPage ∧ page ≠ invalidHandle →
      s'.reader.memory page = s.reader.memory page)
    (hflights : ∀ x ∈ s.threads, ∀ flush, x.flush? = some flush → ∀ page ∈ flush.cachedPages,
      s'.reader.memory page = s.reader.memory page)
    (hreader : s'.reader.Serves s'.Caches (Reads ds)) : s'.Contents ds := by
  have hahead : ∀ k, s'.ahead k = s.ahead k := fun k => by rw [DiskWriter.ahead, hthreads, DiskWriter.ahead]
  have harr : s'.arriving = s.arriving := by rw [DiskWriter.arriving, hthreads, DiskWriter.arriving]
  have hall : ∀ k, (s'.files k).descriptor.extents = (s.files k).descriptor.extents ∧ s'.cacheId k = s.cacheId k ∧
      (s'.files k).commited = (s.files k).commited := by
    intro k
    by_cases hk : k = e
    · exact hk ▸ ⟨hextents, hid, hcommited⟩
    · rw [cacheId, hother k hk]
      exact ⟨rfl, rfl, rfl⟩
  refine ⟨hnext ▸ h.ids, fun id hle => hunwritten id (hnext ▸ hle), fun k hk hopen => ?_, fun flush hf => ?_,
    fun flush diskPage rest hr => ?_, fun d hd => ?_, hreader⟩
  · rw [(hall k).2.2] at hopen
    rw [hstates] at hk
    by_cases hke : k = e
    · subst hke
      exact hself hopen
    · exact (h.files k hk hopen).frame hg (hother k hke) (hwritten k hk hke) (hahead k) (hmemory k hk hke)
        (fun _ _ => by rw [himage]) (fun _ _ _ hr _ => harr ▸ hr)
  · rw [DiskWriter.unplaced, hthreads] at hf
    rw [base, (hall _).1]
    exact h.unplaced flush hf
  · rw [harr] at hr
    obtain ⟨hopen, harrives⟩ := h.arriving flush diskPage rest hr
    obtain ⟨x, hx, hxr⟩ := List.mem_filterMap.mp hr
    rw [(hall _).2.2]
    exact ⟨hopen, harrives.frame hg (hall _).1 (hall _).2.1 (hflights x hx flush (Stage.flush_of_arriving hxr))⟩
  · exact (h.commited d hd).frame hg (fun _ _ => by rw [himage])

end Update

theorem coming_congr (hcached : (s'.files e).cachedPages = (s.files e).cachedPages) (hthreads : s'.threads = s.threads) :
    s'.coming e = s.coming e := by
  rw [DiskWriter.coming, hcached, DiskWriter.ahead, hthreads, DiskWriter.coming, DiskWriter.ahead]

theorem Faithful.update (h : s.Faithful e) (hg : Grows s s')
    (hextents : (s'.files e).descriptor.extents = (s.files e).descriptor.extents) (hid : s'.cacheId e = s.cacheId e)
    (hcoming : s'.coming e = s.coming e)
    (harriving : ∀ flush diskPage rest, (flush, diskPage, rest) ∈ s.arriving → flush.state = e →
      (flush, diskPage, rest) ∈ s'.arriving)
    (himage : s'.reader.image = s.reader.image)
    (hmemory : ∀ page ∈ s.coming e, s'.reader.memory page = s.reader.memory page)
    (hsize : (s'.files e).descriptor.size = (s'.written (s.cacheId e)).length)
    (hoffset : (s'.files e).bufferOffset ≤ pageSize)
    (hlength : (s'.written (s.cacheId e)).length = s.filled e * pageSize + (s'.files e).bufferOffset ∨
      (s'.files e).flushed = true ∧ (s'.files e).memPage = invalidHandle ∧
        (s'.written (s.cacheId e)).length ≤ s.filled e * pageSize)
    (hempty : (s'.files e).memPage = invalidHandle → (s'.files e).bufferOffset = 0)
    (hbuffer : (s'.files e).memPage ≠ invalidHandle →
      (s'.reader.memory (s'.files e).memPage).bytes.take (s'.files e).bufferOffset =
        (s'.written (s.cacheId e)).drop (s.filled e * pageSize)) : s'.Faithful e := by
  have hbase : s'.base e = s.base e := by rw [DiskWriter.base, hextents, DiskWriter.base]
  have hfilled : s'.filled e = s.filled e := by rw [filled, hbase, hcoming, filled]
  refine ⟨?_, ?_, hoffset, fun hcase => ?_, fun hpage => ?_, fun hpage => ?_, fun i page hi => ?_, fun k page hk => ?_⟩
  · rw [hid]
    exact h.known.trans_le hg.next
  · rw [hid]
    exact hsize
  · rw [hid, hfilled]
    rcases hlength with hlength | ⟨hflushed, hpage, -⟩
    · exact hlength
    · rw [hflushed, hpage] at hcase
      rcases hcase with hcase | hcase
      · cases hcase
      · exact absurd rfl hcase
  · rw [hid, hfilled]
    rcases hlength with hlength | ⟨-, -, hle⟩
    · rw [hlength, hempty hpage, Nat.add_zero]
    · exact hle
  · rw [hid, hfilled]
    exact hbuffer hpage
  · rw [hcoming] at hi
    rw [hid, hbase, hmemory page (List.mem_of_getElem? hi)]
    exact (h.coming i page hi).grows hg
  · rw [hextents] at hk
    rw [hid, hbase, himage]
    rcases h.stored k page hk with hkept | ⟨flush, diskPage, rest, hr, hstate, hle⟩
    · exact .inl (hkept.grows hg)
    · exact .inr ⟨flush, diskPage, rest, harriving flush diskPage rest hr hstate, hstate, hle⟩

theorem Contents.give (h : s.Contents ds) (hp : s.reader.Paged (s.dirty + 0)) (ho : s.Orderly) {cache : PageCache}
    (he : e ∈ s.states) (hopen : (s.files e).flushed = false) (hpage : (s.files e).memPage = invalidHandle)
    (hallocate : s.reader.cache.allocate = .ok (page, cache)) : (s.give e page cache).Contents ds := by
  have hself : (s.give e page cache).files e = { s.files e with memPage := page } := setFile_self ..
  have hother : ∀ k, k ≠ e → (s.give e page cache).files k = s.files k := fun k hk => Function.update_of_ne hk _ _
  have hid := cacheId_give s e page cache
  have hoffset : (s.files e).bufferOffset = 0 := (ho.files e).buffer hpage
  have hg : Grows s (s.give e page cache) := by
    refine grows_of_written rfl rfl (fun _ hk => hk) (fun k => ⟨hid k, fun hk => ?_⟩)
    by_cases hke : k = e
    · exact hke ▸ hopen
    · rwa [hother k hke] at hk
  refine h.update hg rfl rfl rfl hother (by rw [hself]) (hid e) (by rw [hself]) rfl h.unwritten (fun hc => ?_) (fun _ _ _ => rfl)
    (fun _ _ _ _ _ => rfl) (fun _ _ _ _ _ _ => rfl) ?_
  · have hfaithful := h.files e he hc
    have hlength := hfaithful.length (.inl hopen)
    refine hfaithful.update hg (by rw [hself]) (hid e) (coming_congr (by rw [hself]) rfl) (fun _ _ _ hr _ => hr) rfl
      (fun _ _ => rfl)
      (by rw [hself]; exact hfaithful.size) (by rw [hself]; exact hfaithful.offset) (by rw [hself]; exact .inl hlength)
      (fun _ => by rw [hself]; exact hoffset) (fun _ => ?_)
    rw [hself]
    dsimp only
    rw [hoffset, List.take_zero]
    refine (List.drop_eq_nil_of_le ?_).symm
    change (s.written _).length ≤ _
    rw [hlength, hoffset, Nat.add_zero]
  · refine h.reader.mono (fun key bytes hc => hc.grows hg) (fun _ _ _ _ hr => hr) (fun key q hq => ?_) (fun _ _ _ => rfl)
      rfl rfl
    exact (h.reader.residents key q (Multiset.mem_of_le (PageCache.allocate_residents hp.owned hallocate) hq)).grows hg

theorem grows_put (s : DiskWriter) (data : List Byte) (he : e ∈ s.states) (hopen : (s.files e).flushed = false) :
    Grows s (s.put e data) := by
  refine ⟨Nat.le_refl _, fun id => ?_, fun k hk hk' => .inr ⟨hk, cacheId_put s e data k, ?_⟩⟩
  · by_cases hid : id = s.cacheId e
    · subst hid
      exact .inr ⟨⟨data, Function.update_self ..⟩, e, he, rfl, hopen⟩
    · exact .inl (Function.update_of_ne hid _ _)
  · rw [← (put_kept s e data k).1]
    exact hk'

theorem Contents.put (h : s.Contents ds) (hl : s.Ledger total maxDirty 0) (ho : s.Orderly) (hturns : s.Turns)
    {data : List Byte} (he : e ∈ s.states) (hopen : (s.files e).flushed = false)
    (hpage : (s.files e).memPage ≠ invalidHandle)
    (hroom : (s.files e).commited = false → (s.files e).bufferOffset + data.length ≤ pageSize) :
    (s.put e data).Contents ds := by
  obtain ⟨hclean, hresident, hentry⟩ := hl.buffer ho he hpage
  have hg := grows_put s data he hopen
  have hself := put_self s e data
  have hmemory : ∀ q, q ≠ (s.files e).memPage → (s.put e data).reader.memory q = s.reader.memory q :=
    fun q hq => Function.update_of_ne hq _ _
  have hcoming : ∀ k ∈ s.states, ∀ q ∈ s.coming k, q ≠ (s.files e).memPage := by
    rintro k hk q hq rfl
    refine hclean (coming_mem_dirty hk ?_)
    have hcached : ((s.setFile e { s.files e with memPage := invalidHandle }).files k).cachedPages =
        (s.files k).cachedPages := by
      by_cases hke : k = e
      · subst hke
        rw [setFile_self]
      · exact congrArg FileWriter.cachedPages (Function.update_of_ne hke _ _)
    rw [DiskWriter.coming, hcached]
    exact hq
  have hwritten : (s.put e data).written (s.cacheId e) = s.written (s.cacheId e) ++ data := Function.update_self ..
  refine h.update hg rfl rfl rfl (fun k hk => by rw [put_files, Function.update_of_ne hk]) (by rw [hself])
    (cacheId_put s e data e) (by rw [hself]) rfl (fun id hle => ?_) (fun hc => ?_) (fun k hk hke => ?_)
    (fun k hk hke q hq => hmemory q ?_) (fun x hx flush hf q hq => hmemory q ?_) ?_
  · rw [← h.unwritten id hle]
    exact Function.update_of_ne (Nat.ne_of_gt ((hturns.ids e he).trans_le hle)) _ _
  · have hfaithful := h.files e he hc
    have hlength := hfaithful.length (.inl hopen)
    refine hfaithful.update hg (by rw [hself]) (cacheId_put s e data e) (coming_congr (by rw [hself]) rfl)
      (fun _ _ _ hr _ => hr) rfl
      (fun q hq => hmemory q (hcoming e he q hq)) ?_ (by rw [hself]; exact hroom hc) (.inl ?_) (fun hq => ?_) (fun _ => ?_)
    · rw [hself, hwritten, List.length_append, ← hfaithful.size]
    · rw [hself, hwritten, List.length_append, hlength, Nat.add_assoc]
    · rw [hself] at hq
      exact absurd hq hpage
    · have hbytes : (s.put e data).reader.memory (s.files e).memPage =
          (s.reader.memory (s.files e).memPage).copy (s.files e).bufferOffset data := Function.update_self ..
      have hsize := (s.reader.memory (s.files e).memPage).size_eq
      rw [hself]
      dsimp only
      rw [hbytes, hwritten, Page.copy, take_splice (hsize ▸ hroom hc), hfaithful.buffer hpage,
        List.drop_append_of_le_length (by rw [hlength]; exact Nat.le_add_right _ _)]
  · exact Function.update_of_ne (fun heq => hke (hturns.distinct k hk e he heq)) _ _
  · rcases hq with hq | ⟨rfl, hvalid⟩
    · exact hcoming k hk q hq
    · have hsame : (s.setFile e { s.files e with memPage := invalidHandle }).files k = s.files k :=
        Function.update_of_ne hke _ _
      have hdirty := memPage_mem_dirty (s := s.setFile e { s.files e with memPage := invalidHandle }) hk (hsame ▸ hvalid)
      exact fun heq => hclean (heq ▸ hsame ▸ hdirty)
  · rintro rfl
    exact hclean (flight_mem_dirty hx hf hq)
  · refine h.reader.mono (fun key bytes hc => hc.grows hg) (fun _ _ _ _ hr => hr) (fun key q hq => ?_)
      (fun key x hx => hmemory _ (hentry key x hx)) rfl rfl
    have hne : q ≠ (s.files e).memPage := fun heq => hresident key (heq ▸ hq)
    rw [hmemory q hne]
    exact (h.reader.residents key q hq).grows hg

/-- A page that is complete, or the last one, joins the pages that are to come
to the disk. -/
theorem Contents.push (h : s.Contents ds) (he : e ∈ s.states) (hpage : (s.files e).memPage ≠ invalidHandle)
    (hdistinct : ∀ k ∈ s.states, s.cacheId k = s.cacheId e → k = e)
    (hfull : (s.files e).bufferOffset = pageSize ∨ (s.files e).flushed = true) : (s.pushPage e).Contents ds := by
  have hself : (s.pushPage e).files e = { s.files e with
      cachedPages := (s.files e).cachedPages ++ [(s.files e).memPage], memPage := invalidHandle, bufferOffset := 0 } :=
    setFile_self ..
  have hother : ∀ k, k ≠ e → (s.pushPage e).files k = s.files k := fun k hk => Function.update_of_ne hk _ _
  have hid := cacheId_pushPage s e
  have hg : Grows s (s.pushPage e) := by
    refine grows_of_written rfl rfl (fun _ hk => hk) (fun k => ⟨hid k, fun hk => ?_⟩)
    by_cases hke : k = e
    · rw [hke, hself] at hk
      exact hke ▸ hk
    · rwa [hother k hke] at hk
  refine h.update hg rfl rfl rfl hother (by rw [hself]) (hid e) (by rw [hself]) rfl h.unwritten (fun hc => ?_) (fun _ _ _ => rfl)
    (fun _ _ _ _ _ => rfl) (fun _ _ _ _ _ _ => rfl)
    (h.reader.weaken (fun key bytes hc => hc.grows hg) (fun _ _ hr => hr))
  have hfaithful := h.files e he hc
  have hlength := hfaithful.length (.inr hpage)
  have hbase : (s.pushPage e).base e = s.base e := by rw [DiskWriter.base, hself, DiskWriter.base]
  have hcoming : (s.pushPage e).coming e = s.coming e ++ [(s.files e).memPage] := by
    rw [DiskWriter.coming, hself, DiskWriter.coming, List.append_assoc]
    rfl
  have hfilled : (s.pushPage e).filled e = s.filled e + 1 := by
    rw [filled, hbase, hcoming, List.length_append, List.length_singleton, ← Nat.add_assoc, filled]
  have hnext : (s.filled e + 1) * pageSize = s.filled e * pageSize + pageSize := Nat.succ_mul _ _
  refine ⟨?_, ?_, ?_, fun hcase => ?_, fun _ => ?_, fun hinvalid => ?_, fun i q hi => ?_, fun k q hk => ?_⟩
  · rw [hid]
    exact hfaithful.known
  · rw [hid, hself]
    exact hfaithful.size
  · rw [hself]
    exact Nat.zero_le _
  · rw [hself] at hcase
    have hopen : (s.files e).flushed = false := hcase.resolve_right (fun hinvalid => hinvalid rfl)
    have hsize : (s.files e).bufferOffset = pageSize := hfull.resolve_right (by rw [hopen]; exact Bool.false_ne_true)
    rw [hid, hself, hfilled, hnext, Nat.add_zero]
    change (s.written (s.cacheId e)).length = _
    rw [hlength, hsize]
  · rw [hid, hfilled, hnext]
    exact hlength.le.trans (Nat.add_le_add_left hfaithful.offset _)
  · rw [hself] at hinvalid
    exact absurd rfl hinvalid
  · rw [hcoming] at hi
    rw [hid, hbase]
    rcases Nat.lt_or_ge i (s.coming e).length with hlt | hge
    · rw [List.getElem?_append_left hlt] at hi
      exact (hfaithful.coming i q hi).grows hg
    · rw [List.getElem?_append_right hge] at hi
      obtain ⟨hlt, rfl⟩ := List.getElem?_eq_some_iff.mp hi
      have hindex : i = (s.coming e).length := by
        rw [List.length_singleton] at hlt
        omega
      subst hindex
      rw [List.getElem_singleton]
      refine ⟨hfaithful.known, ?_, fun k hk hkid hopen => ?_⟩
      · change slice (s.written (s.cacheId e)) (s.filled e * pageSize) pageSize <+:
          (s.reader.memory (s.files e).memPage).bytes
        rw [slice, ← hfaithful.buffer hpage]
        exact (List.take_prefix _ _).trans (List.take_prefix _ _)
      · change (s.filled e + 1) * pageSize ≤ (s.written (s.cacheId e)).length
        have hke : k = e := hdistinct k hk ((hid k).symm.trans hkid)
        have hopen' : (s.files e).flushed = false := by
          rw [hke, hself] at hopen
          exact hopen
        have hsize : (s.files e).bufferOffset = pageSize := hfull.resolve_right (by rw [hopen']; exact Bool.false_ne_true)
        rw [hlength, hnext, hsize]
  · rw [hself] at hk
    rw [hid, hbase]
    exact (hfaithful.stored k q hk).imp_left (fun hkept => hkept.grows hg)

theorem Contents.mark (h : s.Contents ds) (ho : s.Orderly) (he : e ∈ s.states) (hopen : (s.files e).flushed = false) :
    (s.mark e).Contents ds := by
  have hself : (s.mark e).files e = { s.files e with flushed := true } := setFile_self ..
  have hother := (mark_files s e).2.2
  have hid := cacheId_mark s e
  have hg : Grows s (s.mark e) := by
    refine grows_of_written rfl rfl (fun _ hk => hk) (fun k => ⟨hid k, fun hk => ?_⟩)
    by_cases hke : k = e
    · exact hke ▸ hopen
    · rwa [hother k hke] at hk
  refine h.update hg rfl rfl rfl hother (by rw [hself]) (hid e) (by rw [hself]) rfl h.unwritten (fun hc => ?_)
    (fun _ _ _ => rfl) (fun _ _ _ _ _ => rfl) (fun _ _ _ _ _ _ => rfl)
    (h.reader.weaken (fun key bytes hc => hc.grows hg) (fun _ _ hr => hr))
  have hfaithful := h.files e he hc
  refine hfaithful.update hg (by rw [hself]) (hid e) (coming_congr (by rw [hself]) rfl) (fun _ _ _ hr _ => hr) rfl
    (fun _ _ => rfl) (by rw [hself]; exact hfaithful.size) (by rw [hself]; exact hfaithful.offset)
    (by rw [hself]; exact .inl (hfaithful.length (.inl hopen))) (fun hpage => ?_) (fun hpage => ?_)
  · rw [hself] at hpage ⊢
    exact (ho.files e).buffer hpage
  · rw [hself] at hpage ⊢
    exact hfaithful.buffer hpage

theorem mem_filterMap_set {α β : Type} (f : α → Option β) {xs : List α} {i : Nat} {a b : α} (ha : xs[i]? = some a)
    {r : β} : r ∈ (xs.set i b).filterMap f ↔
      f b = some r ∨ ∃ (j : Nat) (x : α), j ≠ i ∧ xs[j]? = some x ∧ f x = some r := by
  rw [List.mem_filterMap]
  constructor
  · rintro ⟨x, hx, hr⟩
    obtain ⟨j, hj⟩ := List.getElem?_of_mem hx
    by_cases hji : j = i
    · subst hji
      rw [List.getElem?_set_self (List.getElem?_eq_some_iff.mp ha).1] at hj
      exact .inl (Option.some.inj hj ▸ hr)
    · rw [List.getElem?_set_ne (Ne.symm hji)] at hj
      exact .inr ⟨j, x, hji, hj, hr⟩
  · rintro (hr | ⟨j, x, hji, hj, hr⟩)
    · exact ⟨b, List.mem_of_getElem? (List.getElem?_set_self (List.getElem?_eq_some_iff.mp ha).1), hr⟩
    · exact ⟨x, List.mem_of_getElem? ((List.getElem?_set_ne (Ne.symm hji)).trans hj), hr⟩

theorem filePageAfter_base (hlt : s.base e < 2 ^ 32) : filePageAfter (s.files e).descriptor.extents = s.base e := by
  rw [base, length_pagesOf] at hlt ⊢
  exact filePageAfter_eq hlt

theorem Contents.take (h : s.Contents ds) {wait : Bool} (ht : s.threads[t]? = some (.flushPages e wait))
    (hu : s.Unflushed e) (hbase : s.base e < 2 ^ 32) :
    ((s.take e).setStage t (.allocate (s.taking e wait))).Contents ds := by
  generalize hs' : (s.take e).setStage t (.allocate (s.taking e wait)) = s'
  have hthreads : s'.threads = s.threads.set t (.allocate (s.taking e wait)) := hs' ▸ rfl
  have hreader : s'.reader = s.reader := hs' ▸ rfl
  have hself : s'.files e = { s.files e with cachedPages := [] } := by
    rw [← hs']
    exact setFile_self ..
  have hother : ∀ k, k ≠ e → s'.files k = s.files k := by
    intro k hk
    rw [← hs']
    exact Function.update_of_ne hk _ _
  have hextents : ∀ k, (s'.files k).descriptor.extents = (s.files k).descriptor.extents ∧
      (s'.files k).commited = (s.files k).commited ∧ (s'.files k).flushed = (s.files k).flushed ∧
        s'.cacheId k = s.cacheId k := by
    intro k
    by_cases hk : k = e
    · rw [cacheId, hk, hself]
      exact ⟨rfl, rfl, rfl, rfl⟩
    · rw [cacheId, hother k hk]
      exact ⟨rfl, rfl, rfl, rfl⟩
  have hg : Grows s s' :=
    grows_of_written (hs' ▸ rfl) (hs' ▸ rfl) (fun _ hk => by rw [← hs'] at hk; exact hk)
      (fun k => ⟨(hextents k).2.2.2, fun hk => (hextents k).2.2.1 ▸ hk⟩)
  have harr : s'.arriving = s.arriving := by
    rw [DiskWriter.arriving, hthreads]
    exact filterMap_set _ ht rfl
  have hahead : ∀ k, k ≠ e → s'.ahead k = s.ahead k := by
    intro k hk
    rw [DiskWriter.ahead, hthreads]
    refine flatMap_set _ ht ?_
    rw [Stage.ahead_of_others (fun call hc => ?_), Stage.ahead_of_others (fun call hc => by cases hc)]
    obtain rfl := Option.some.inj hc
    exact hk.symm
  have hcoming : s'.coming e = s.coming e := by
    have hnone : s.ahead e = [] := by
      rw [DiskWriter.ahead, List.flatMap_eq_nil_iff]
      exact fun x hx => Stage.ahead_of_others (fun call hc => hu x hx call hc)
    have hget : (s.threads.set t (.allocate (s.taking e wait)))[t]? = some (.allocate (s.taking e wait)) :=
      List.getElem?_set_self (List.getElem?_eq_some_iff.mp ht).1
    have hall : s'.ahead e = (s.files e).cachedPages := by
      rw [DiskWriter.ahead, hthreads, flatMap_of_others _ hget (fun j x hj hx => ?_)]
      · exact Stage.ahead_of_unplaced (show _ = some (s.taking e wait) from rfl)
      · rw [List.getElem?_set_ne (Ne.symm hj)] at hx
        exact Stage.ahead_of_others (fun call hc => hu x (List.mem_of_getElem? hx) call hc)
    rw [DiskWriter.coming, hself, hall, DiskWriter.coming, hnone, List.append_nil, List.nil_append]
  refine ⟨hs' ▸ h.ids, hs' ▸ h.unwritten, fun k hk hopen => ?_, fun flush hf => ?_,
    fun flush diskPage rest hr => ?_,
    fun d hd => (h.commited d hd).frame hg (fun _ _ => by rw [hreader]), ?_⟩
  · rw [(hextents k).2.1] at hopen
    have hk : k ∈ s.states := by
      rw [← hs'] at hk
      exact hk
    have hfaithful := h.files k hk hopen
    by_cases hke : k = e
    · subst hke
      exact hfaithful.same hg (by rw [hself]) (by rw [hself]) (by rw [hself]) (by rw [hself]) hcoming (hs' ▸ rfl)
        (fun _ _ => by rw [hreader]) (fun _ _ => by rw [hreader]) (fun _ _ _ hr _ => harr ▸ hr)
    · exact hfaithful.frame hg (hother k hke) (hs' ▸ rfl) (hahead k hke) (fun _ _ => by rw [hreader])
        (fun _ _ => by rw [hreader]) (fun _ _ _ hr _ => harr ▸ hr)
  · rw [base, (hextents _).1]
    rw [DiskWriter.unplaced, hthreads] at hf
    rcases (mem_filterMap_set _ ht).mp hf with hnew | ⟨j, x, -, hx, hr⟩
    · obtain rfl := Option.some.inj hnew
      exact filePageAfter_base hbase
    · exact h.unplaced flush (List.mem_filterMap.mpr ⟨x, List.mem_of_getElem? hx, hr⟩)
  · rw [harr] at hr
    obtain ⟨hopen, harrives⟩ := h.arriving flush diskPage rest hr
    exact ⟨(hextents _).2.1.trans hopen, harrives.frame hg (hextents _).1 (hextents _).2.2.2 (fun _ _ => by rw [hreader])⟩
  · rw [hreader]
    exact h.reader.weaken (fun key bytes hc => hc.grows hg) (fun _ _ hr => hr)

end Tyrdbs.Storage.DiskWriter
