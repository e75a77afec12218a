import Tyrdbs.Storage.DiskReaderPages
import Tyrdbs.Storage.DiskReaderRuns
import Tyrdbs.Storage.WriterOrder

namespace Tyrdbs.Storage

open Outcome Runs

def FileWriter.page (f : FileWriter) : Multiset Nat := if f.memPage = invalidHandle then 0 else {f.memPage}

def FileWriter.pages (f : FileWriter) : Multiset Nat := f.page + (f.cachedPages : Multiset Nat)

theorem FileWriter.page_of_valid {f : FileWriter} (h : f.memPage ≠ invalidHandle) : f.page = {f.memPage} := if_neg h

theorem FileWriter.page_of_invalid {f : FileWriter} (h : f.memPage = invalidHandle) : f.page = 0 := if_pos h

def Stage.pages (stage : Stage) : Multiset Nat := ((stage.flush?.map Flush.cachedPages).getD [] : List Nat)

namespace DiskReader

variable {s : DiskReader} {others : Multiset Nat} {page : Nat} {cache : PageCache}

theorem Paged.take (h : s.Paged others) (hcache : cache.Owned (page ::ₘ (s.latch.held + others))) :
    Paged { s with cache := cache } (page ::ₘ others) := by
  refine ⟨?_, h.emptyValue, h.count, h.linked⟩
  rw [Multiset.add_cons]
  exact hcache

theorem Paged.give (h : s.Paged (page ::ₘ others)) (hcache : cache.Owned (s.latch.held + others)) :
    Paged { s with cache := cache } others := ⟨hcache, h.emptyValue, h.count, h.linked⟩

theorem Paged.owned_cons (h : s.Paged (page ::ₘ others)) : s.cache.Owned (page ::ₘ (s.latch.held + others)) := by
  have howned := h.owned
  rwa [Multiset.add_cons] at howned

end DiskReader

namespace DiskWriter

def currentPages (s : DiskWriter) : Multiset Nat := (s.states.map (fun e => (s.files e).page)).sum

def cachedPages (s : DiskWriter) : Multiset Nat := (s.states.map (fun e => ((s.files e).cachedPages : Multiset Nat))).sum

def flightPages (s : DiskWriter) : Multiset Nat := (s.threads.map Stage.pages).sum

/-- The pages that are dirty: those of writers and those in flight. -/
def dirty (s : DiskWriter) : Multiset Nat := (s.states.map (fun e => (s.files e).pages)).sum + s.flightPages

/-- Every page of the engine is at one place, and the dirty ones are counted. As
long as some are in the cache or free, a page can be had. -/
structure Conserved (s : DiskWriter) (cacheBits writeCacheBits : Nat) : Prop where
  size : s.reader.cache.pages.all.card = 2 ^ cacheBits
  nodup : s.reader.cache.pages.all.Nodup
  split : ∃ free, s.reader.cache.pages.Holds free ∧ s.reader.cache.pages.all =
    free + s.reader.cache.cached + s.reader.latch.held + s.currentPages + s.cachedPages + s.flightPages
  count : s.dirtyPages = s.currentPages.card + s.cachedPages.card + s.flightPages.card
  bound : s.dirtyPages ≤ 2 ^ writeCacheBits
  room : (s.reader.latch.held + s.currentPages + s.cachedPages + s.flightPages).card < 2 ^ cacheBits →
    ∃ r, s.reader.cache.allocate = .ok r

/-- The same, with the contexts that share the latch entries, and some pages
that are counted as dirty and are nowhere. -/
structure Ledger (s : DiskWriter) (total maxDirty : Nat) (lost : Multiset Nat) : Prop where
  reader : s.reader.Paged (s.dirty + lost)
  size : s.reader.cache.pages.all.card = total
  count : s.dirtyPages = s.dirty.card + lost.card
  bound : s.dirtyPages ≤ s.maxDirtyPages
  limit : s.maxDirtyPages = maxDirty

structure Pages (s : DiskWriter) (total maxDirty : Nat) : Prop where
  reader : s.reader.Paged s.dirty
  size : s.reader.cache.pages.all.card = total
  count : s.dirtyPages = s.dirty.card
  bound : s.dirtyPages ≤ s.maxDirtyPages
  limit : s.maxDirtyPages = maxDirty

variable {s s' : DiskWriter} {t e total maxDirty : Nat} {lost : Multiset Nat} {stage stage' : Stage} {f : FileWriter}

theorem dirty_eq (s : DiskWriter) : s.dirty = s.currentPages + s.cachedPages + s.flightPages := by
  rw [dirty, currentPages, cachedPages, ← List.sum_map_add]
  rfl

theorem Pages.conserved {cacheBits writeCacheBits : Nat} (h : s.Pages (2 ^ cacheBits) (2 ^ writeCacheBits)) :
    s.Conserved cacheBits writeCacheBits := by
  obtain ⟨free, hholds, hsplit⟩ := h.reader.owned.split
  refine ⟨h.size, h.reader.owned.nodup, ⟨free, hholds, ?_⟩, ?_, h.limit ▸ h.bound, fun hroom => ?_⟩
  · rw [hsplit, dirty_eq]
    ac_rfl
  · rw [h.count, dirty_eq, Multiset.card_add, Multiset.card_add]
  · rw [← h.size, add_assoc, add_assoc, ← add_assoc s.currentPages, ← dirty_eq] at hroom
    obtain ⟨r, hr, _⟩ := (PageCache.allocate_yields h.reader.owned hroom).exists_ok
    exact ⟨r, hr⟩

theorem pages_iff : s.Pages total maxDirty ↔ s.Ledger total maxDirty 0 := by
  constructor
  · rintro ⟨hreader, hsize, hcount, hbound, hlimit⟩
    exact ⟨(add_zero s.dirty).symm ▸ hreader, hsize, hcount, hbound, hlimit⟩
  · rintro ⟨hreader, hsize, hcount, hbound, hlimit⟩
    exact ⟨add_zero s.dirty ▸ hreader, hsize, hcount, hbound, hlimit⟩

theorem dirty_setStage (ht : s.threads[t]? = some stage) (stage' : Stage) :
    (s.setStage t stage').dirty + stage.pages = s.dirty + stage'.pages := by
  have hsum := Slots.sum_set Stage.pages ht stage'
  change _ + ((s.threads.set t stage').map Stage.pages).sum + _ = _ + (s.threads.map Stage.pages).sum + _
  rw [add_assoc, hsum, add_assoc]
  rfl

theorem dirty_setFile (hnodup : s.states.Nodup) (he : e ∈ s.states) (f : FileWriter) :
    (s.setFile e f).dirty + (s.files e).pages = s.dirty + f.pages := by
  have hsum := Slots.sum_update (fun k => (s.files k).pages) (fun k => (Function.update s.files e f k).pages) hnodup he
    (fun k hk => by rw [Function.update_of_ne hk])
  rw [Function.update_self] at hsum
  change (s.states.map (fun k => (Function.update s.files e f k).pages)).sum + s.flightPages + _ = _
  rw [add_right_comm, hsum, dirty, add_right_comm]

theorem dirty_free (he : e ∈ s.states) : (s.free e).dirty + (s.files e).pages = s.dirty := by
  have hsum := ((List.perm_cons_erase he).map (fun k => (s.files k).pages)).sum_eq
  change ((s.states.erase e).map (fun k => (s.files k).pages)).sum + s.flightPages + _ = _ + s.flightPages
  rw [hsum, List.map_cons, List.sum_cons]
  ac_rfl

theorem dirty_allocate (h : s.Orderly) : s.allocate.dirty = s.dirty := by
  have hnew := h.fresh_notMem
  have hold : s.states.map (fun k => (s.allocate.files k).pages) = s.states.map (fun k => (s.files k).pages) := by
    refine List.map_congr_left (fun k hk => congrArg FileWriter.pages (Function.update_of_ne ?_ _ _))
    exact fun heq : k = s.freed.headD s.fresh => hnew (heq ▸ hk)
  have hpages : (s.allocate.files (s.freed.headD s.fresh)).pages = 0 := by
    change (Function.update s.files _ _ _).pages = 0
    rw [Function.update_self]
    rfl
  change ((s.states ++ [s.freed.headD s.fresh]).map (fun k => (s.allocate.files k).pages)).sum + _ = _
  rw [List.map_append, List.sum_append, hold, List.map_singleton, List.sum_singleton, hpages, add_zero]
  rfl

theorem dirty_createThread (s : DiskWriter) (hstage : stage.pages = 0) : (s.createThread stage).dirty = s.dirty := by
  change _ + ((s.threads ++ [stage]).map Stage.pages).sum = _
  rw [List.map_append, List.sum_append, List.map_singleton, List.sum_singleton, hstage, add_zero]
  rfl

theorem Ledger.same (h : s.Ledger total maxDirty lost) (hdirty : s'.dirty = s.dirty)
    (hcache : s'.reader.cache = s.reader.cache) (hlatch : s'.reader.latch = s.reader.latch)
    (hcalls : s'.reader.calls = s.reader.calls) (hcount : s'.dirtyPages = s.dirtyPages)
    (hmax : s'.maxDirtyPages = s.maxDirtyPages) : s'.Ledger total maxDirty lost := by
  refine ⟨?_, hcache ▸ h.size, ?_, hcount ▸ hmax ▸ h.bound, hmax.trans h.limit⟩
  · rw [hdirty]
    exact h.reader.same hcache hlatch hcalls
  · rw [hcount, hdirty]
    exact h.count

theorem Ledger.setStage (h : s.Ledger total maxDirty lost) (ht : s.threads[t]? = some stage)
    (hpages : stage'.pages = stage.pages) : (s.setStage t stage').Ledger total maxDirty lost := by
  have hdirty := dirty_setStage ht stage'
  rw [hpages] at hdirty
  exact h.same (add_right_cancel hdirty) rfl rfl rfl rfl rfl

theorem Ledger.suspend (h : s.Ledger total maxDirty lost) (ht : s.threads[t]? = some stage)
    (hpages : stage'.pages = stage.pages) : (s.suspend t stage').Ledger total maxDirty lost :=
  (h.setStage ht hpages).same rfl rfl rfl rfl rfl rfl

theorem Ledger.yield (h : s.Ledger total maxDirty lost) (ht : s.threads[t]? = some stage)
    (hpages : stage'.pages = stage.pages) : (s.yield t stage').Ledger total maxDirty lost :=
  (h.setStage ht hpages).same rfl rfl rfl rfl rfl rfl

theorem Ledger.setFile (h : s.Ledger total maxDirty lost) (ho : s.Orderly) (he : e ∈ s.states)
    (hpages : f.pages = (s.files e).pages) : (s.setFile e f).Ledger total maxDirty lost := by
  have hdirty := dirty_setFile (List.nodup_append.mp ho.nodup).1 he f
  rw [hpages] at hdirty
  exact h.same (add_right_cancel hdirty) rfl rfl rfl rfl rfl

theorem Ledger.startGlobalFlush (h : s.Ledger total maxDirty lost) : s.startGlobalFlush.Ledger total maxDirty lost := by
  rw [DiskWriter.startGlobalFlush]
  split
  · exact h
  · exact h.same (dirty_createThread _ rfl) rfl rfl rfl rfl rfl

theorem Ledger.allocatePage (h : s.Ledger total maxDirty lost) (ho : s.Orderly) (ht : s.threads[t]? = some stage)
    (hfills : stage.fills = some e) (hpage : (s.files e).memPage = invalidHandle) (data : List Byte) :
    Yields (fun _ => True) (fun s' => s'.Ledger total maxDirty lost) (s.allocatePage t e data) := by
  have hstate := Stage.state_of_operand (Stage.operand_of_fills hfills)
  have hlive := ho.live stage (List.mem_of_getElem? ht) e hstate
  have hstage : stage.pages = 0 := by
    cases stage with
    | allocatePage | write => rfl
    | _ => cases hfills
  rw [DiskWriter.allocatePage]
  split
  case isTrue =>
    have hflush : Ledger { s.startGlobalFlush with dirtyPagesCond := s.startGlobalFlush.dirtyPagesCond ++ [t] } total
        maxDirty lost := h.startGlobalFlush.same rfl rfl rfl rfl rfl rfl
    exact hflush.suspend (startGlobalFlush_threads ht) hstage.symm
  case isFalse hroom =>
    refine (PageCache.allocate_owned h.reader.owned).bind ?_
    rintro ⟨page, cache⟩ ⟨howned, hall⟩
    have hvalid : page ≠ invalidHandle := howned.valid (howned.held_mem (Multiset.mem_cons_self ..))
    have hfile := dirty_setFile (List.nodup_append.mp ho.nodup).1 hlive { s.files e with memPage := page }
    have hthread : (s.setFile e { s.files e with memPage := page }).threads[t]? = some stage := ht
    have hstep := dirty_setStage hthread (.write e data)
    have hnew : ({ s.files e with memPage := page } : FileWriter).pages = page ::ₘ (s.files e).pages := by
      rw [FileWriter.pages, FileWriter.pages, FileWriter.page_of_valid hvalid, FileWriter.page_of_invalid hpage, zero_add,
        Multiset.singleton_add]
    have hdirty : ((s.setFile e { s.files e with memPage := page }).setStage t (.write e data)).dirty =
        page ::ₘ s.dirty := by
      rw [hnew, ← Multiset.singleton_add, ← add_assoc, add_right_comm] at hfile
      rw [hstage, add_zero] at hstep
      have hfill : (s.setFile e { s.files e with memPage := page }).dirty = s.dirty + {page} := by
        refine add_right_cancel (hfile.trans ?_)
        ac_rfl
      rw [hstep, hfill, show (Stage.write e data).pages = 0 from rfl, add_zero, add_comm, Multiset.singleton_add]
    refine ⟨?_, (congrArg Multiset.card hall).trans h.size, ?_, Nat.lt_of_not_le hroom, h.limit⟩
    · have htaken := h.reader.take howned
      rw [← Multiset.cons_add, ← hdirty] at htaken
      exact htaken
    · change s.dirtyPages + 1 = _
      refine Eq.trans ?_ (congrArg (Multiset.card · + lost.card) hdirty.symm)
      rw [h.count, Multiset.card_cons, add_right_comm]

theorem Ledger.put (h : s.Ledger total maxDirty lost) (ho : s.Orderly) (he : e ∈ s.states) (data : List Byte) :
    (s.put e data).Ledger total maxDirty lost := by
  have hfile := h.setFile ho he (f := { s.files e with
    bufferOffset := (s.files e).bufferOffset + data.length
    descriptor := { (s.files e).descriptor with size := (s.files e).descriptor.size + data.length } }) rfl
  exact hfile.same rfl rfl rfl rfl rfl rfl

theorem Ledger.pushPage (h : s.Ledger total maxDirty lost) (ho : s.Orderly) (he : e ∈ s.states)
    (hpage : (s.files e).memPage ≠ invalidHandle) : (s.pushPage e).Ledger total maxDirty lost := by
  refine h.setFile ho he ?_
  rw [FileWriter.pages, FileWriter.pages, FileWriter.page_of_valid hpage, FileWriter.page_of_invalid rfl, zero_add,
    ← Multiset.coe_add, add_comm]
  rfl

theorem Ledger.writeRound (h : s.Ledger total maxDirty lost) (ho : s.Orderly) {data : List Byte}
    (ht : s.threads[t]? = some (.write e data)) :
    Yields (fun _ => True) (fun s' => s'.Ledger total maxDirty lost) (s.writeRound t e data) := by
  have he := ho.live _ (List.mem_of_getElem? ht) e rfl
  rw [DiskWriter.writeRound]
  split
  · exact h.setStage ht rfl
  split
  case isTrue hpage => exact h.allocatePage ho ht rfl hpage data
  case isFalse _ hpage =>
    have hput := h.put ho he (data.take (min (pageSize - (s.files e).bufferOffset) data.length))
    have hordered := ho.put hpage (data.take (min (pageSize - (s.files e).bufferOffset) data.length))
    change Yields _ _ (if _ then _ else _)
    split
    · refine (hput.pushPage hordered he ?_).yield ht rfl
      rw [put_self]
      exact hpage
    · exact hput.setStage ht rfl

theorem Ledger.write (h : s.Ledger total maxDirty lost) (ht : s.threads[t]? = some .user) (data : List Byte) :
    Yields (fun _ => True) (fun s' => s'.Ledger total maxDirty lost) (s.write t e data) := by
  rw [DiskWriter.write]
  split
  · exact h
  · exact (Outcome.yields_true _).bind (fun _ _ => h.setStage ht rfl)

theorem Ledger.addPadding (h : s.Ledger total maxDirty lost) (ho : s.Orderly) (he : e ∈ s.states) :
    Yields (fun _ => True) (fun s' => s'.Ledger total maxDirty lost) (s.addPadding e) := by
  rw [DiskWriter.addPadding]
  refine (Outcome.yields_true _).bind (fun _ _ => ?_)
  split
  · exact h
  · exact h.put ho he _

theorem Ledger.flush (h : s.Ledger total maxDirty lost) (ho : s.Orderly) (he : e ∈ s.states)
    (ht : s.threads[t]? = some .user) :
    Yields (fun _ => True) (fun s' => s'.Ledger total maxDirty lost) (s.flush t e) := by
  rw [DiskWriter.flush]
  refine (Outcome.yields_true _).bind (fun _ _ => ?_)
  have hwf := ho.files e
  have hmark := h.setFile ho he (f := { s.files e with flushed := true }) rfl
  have hordered := ho.setFile_same (e := e) (f := { s.files e with flushed := true })
    ⟨hwf.buffer, fun _ => rfl⟩ rfl rfl
  change Yields _ _ (if _ then _ else _)
  split
  · exact (Outcome.yields_true _).bind (fun _ _ => hmark.setStage ht rfl)
  case isFalse hoffset =>
    rw [setFile_self] at hoffset
    refine (hmark.pushPage hordered he (fun hpage => hoffset ?_)).yield ht rfl
    rw [setFile_self] at hpage
    exact hwf.buffer hpage

theorem Ledger.commit (h : s.Ledger total maxDirty lost) (ho : s.Orderly) (he : e ∈ s.states) :
    Yields (fun _ => True) (fun s' => s'.Ledger total maxDirty lost) (s.commit e) := by
  rw [DiskWriter.commit]
  exact (Outcome.yields_true _).bind (fun _ _ => (Outcome.yields_true _).bind (fun _ _ => h.setFile ho he rfl))

theorem pages_returned (wait : Bool) : (if wait then .user else .sweep (s.next e) : Stage).pages = 0 := by
  cases wait <;> rfl

theorem Ledger.testLatch (h : s.Ledger total maxDirty lost) (ht : s.threads[t]? = some (.flush e)) :
    (s.testLatch t e).Ledger total maxDirty lost := by
  rw [DiskWriter.testLatch]
  split
  case h_1 waiting _ =>
    have hlatch : Ledger { s with latch := s.latch.put (s.files e).descriptor.cacheId (waiting ++ [t]) } total maxDirty lost :=
      h.same rfl rfl rfl rfl rfl rfl
    exact hlatch.suspend ht rfl
  case h_2 => exact h.setStage ht rfl

theorem Ledger.sweep (h : s.Ledger total maxDirty lost) {e : Option Nat} (ht : s.threads[t]? = some (.sweep e)) :
    (s.sweep t e).Ledger total maxDirty lost := by
  cases e with
  | none =>
      have hended : Ledger { s with globalFlushActive := false } total maxDirty lost := h.same rfl rfl rfl rfl rfl rfl
      exact hended.suspend ht rfl
  | some e =>
      rw [DiskWriter.sweep]
      split
      · exact h.setStage ht rfl
      · exact h.setStage ht rfl

theorem Ledger.takePages (h : s.Ledger total maxDirty lost) (ho : s.Orderly) {wait : Bool}
    (ht : s.threads[t]? = some (.flushPages e wait)) : (s.takePages t e wait).Ledger total maxDirty lost := by
  have he := ho.live _ (List.mem_of_getElem? ht) e rfl
  rw [DiskWriter.takePages]
  change Ledger (if _ then _ else _) _ _ _
  split
  · exact h.setStage ht (pages_returned wait)
  · have hfile := dirty_setFile (List.nodup_append.mp ho.nodup).1 he { s.files e with cachedPages := [] }
    have hthread : (s.setFile e { s.files e with cachedPages := [] }).threads[t]? = some (.flushPages e wait) := ht
    have hstep := dirty_setStage hthread (.allocate {
      state := e
      wait := wait
      cond := (s.files e).descriptor.cacheId
      cachedPages := (s.files e).cachedPages
      filePage := filePageAfter (s.files e).descriptor.extents })
    refine h.same (add_right_cancel (b := (s.files e).page) ?_) rfl rfl rfl rfl rfl
    change (DiskWriter.setStage _ t (.allocate _)).dirty + _ = _
    have hstage : (Stage.flushPages e wait).pages = 0 := rfl
    rw [hstage, add_zero] at hstep
    refine (congrArg (· + _) hstep).trans ?_
    have hleft : ({ s.files e with cachedPages := [] } : FileWriter).pages = (s.files e).page := add_zero _
    rw [hleft, FileWriter.pages, ← add_assoc] at hfile
    refine Eq.trans ?_ hfile
    exact add_right_comm ..

section Flushes

variable {flush : Flush}

theorem Ledger.allocateSpace (h : s.Ledger total maxDirty lost) (ht : s.threads[t]? = some (.allocate flush)) :
    (s.allocateSpace t flush).Ledger total maxDirty lost := by
  rw [DiskWriter.allocateSpace]
  split
  · have hcond : Ledger { s with allocationCond := s.allocationCond ++ [t] } total maxDirty lost :=
      h.same rfl rfl rfl rfl rfl rfl
    exact hcond.suspend ht rfl
  · have hprogress : Ledger { s with allocationInProgress := true } total maxDirty lost := h.same rfl rfl rfl rfl rfl rfl
    change Ledger (if _ then _ else _) _ _ _
    split
    · exact hprogress.suspend ht rfl
    · exact hprogress.setStage ht rfl

theorem Ledger.allocateBlocks (h : s.Ledger total maxDirty lost) (ho : s.Orderly)
    (ht : s.threads[t]? = some (.allocate flush)) : (s.allocateBlocks t flush).Ledger total maxDirty lost := by
  by_cases hpage : (s.blocks.allocate flush.cachedPages.length).1 = invalidHandle
  · rw [allocateBlocks_of_invalid hpage]
    exact h.allocateSpace ht
  · have hfile := h.setFile ho (ho.live _ (List.mem_of_getElem? ht) flush.state rfl) (f := s.extended flush) rfl
    have hblocks : Ledger ({ s with blocks := (s.blocks.allocate flush.cachedPages.length).2 }.setFile flush.state
        (s.extended flush)) total maxDirty lost := hfile.same rfl rfl rfl rfl rfl rfl
    rw [allocateBlocks_of_valid hpage]
    exact hblocks.setStage ht rfl

theorem Ledger.extendBlocks (h : s.Ledger total maxDirty lost) (ht : s.threads[t]? = some (.extend flush)) :
    (s.extendBlocks t flush).Ledger total maxDirty lost := by
  have hblocks : Ledger { s.enqueue s.allocationCond with
      blocks := s.blocks.extend growPages
      allocationInProgress := false
      allocationCond := [] } total maxDirty lost := h.same rfl rfl rfl rfl rfl rfl
  exact hblocks.setStage ht rfl

/-- What the page cache has been given, and what became of the rest. -/
structure Handed (s s' : DiskWriter) (others : Multiset Nat) : Prop where
  reader : s'.reader.Paged others
  all : s'.reader.cache.pages.all = s.reader.cache.pages.all
  count : s'.dirtyPages = s.dirtyPages
  max : s'.maxDirtyPages = s.maxDirtyPages

theorem Handed.after {s'' : DiskWriter} {m others : Multiset Nat} (h : Handed s' s'' others) (h' : Handed s s' m) :
    Handed s s'' others :=
  ⟨h.reader, h.all.trans h'.all, h.count.trans h'.count, h.max.trans h'.max⟩

theorem enterPages_handed (e : Nat) (others : Multiset Nat) : ∀ (pages : List Nat) (s : DiskWriter) (filePage : Nat),
    s.reader.Paged (pages + others) →
      Yields (fun _ => True) (fun s' => Handed s s' others) (s.enterPages e filePage pages) := by
  intro pages
  induction pages with
  | nil => exact fun s _ h => ⟨by rwa [Multiset.coe_nil, zero_add] at h, rfl, rfl, rfl⟩
  | cons page pages ih =>
      intro s filePage h
      rw [← Multiset.cons_coe, Multiset.cons_add] at h
      rw [DiskWriter.enterPages]
      refine (Outcome.yields_true _).bind (fun _ _ => ?_)
      refine (PageCache.add_owned h.owned_cons _).bind (fun cache hcache => ?_)
      have hgiven : DiskReader.Paged { s.reader with cache := cache } (pages + others) := h.give hcache.1
      refine (ih _ _ hgiven).mono (fun s' hs' => hs'.after (m := pages + others) ?_)
      exact ⟨hgiven, hcache.2, rfl, rfl⟩

theorem freePages_handed (others : Multiset Nat) : ∀ (pages : List Nat) (s : DiskWriter),
    s.reader.Paged (pages + others) → Yields (fun _ => True) (fun s' => Handed s s' others) (s.freePages pages) := by
  intro pages
  induction pages with
  | nil => exact fun s h => ⟨by rwa [Multiset.coe_nil, zero_add] at h, rfl, rfl, rfl⟩
  | cons page pages ih =>
      intro s h
      rw [← Multiset.cons_coe, Multiset.cons_add] at h
      have hfree := (PageCache.free_yields h.owned_cons).weaken (fun _ _ => trivial) (G := fun _ => True)
      rw [DiskWriter.freePages]
      refine hfree.bind (fun cache hcache => ?_)
      have hgiven : DiskReader.Paged { s.reader with cache := cache } (pages + others) := h.give hcache.1
      refine (ih _ hgiven).mono (fun s' hs' => hs'.after (m := pages + others) ?_)
      exact ⟨hgiven, hcache.2.2, rfl, rfl⟩

theorem Ledger.give (h : s.Ledger total maxDirty lost) {others pages : Multiset Nat} (hdirty : s.dirty = others + pages)
    (hreader : s'.reader.Paged (others + lost)) (hall : s'.reader.cache.pages.all = s.reader.cache.pages.all)
    (hdirty' : s'.dirty = others) (hcount : s'.dirtyPages = s.dirtyPages - pages.card)
    (hmax : s'.maxDirtyPages = s.maxDirtyPages) : s'.Ledger total maxDirty lost := by
  have hcard : s'.dirtyPages = others.card + lost.card := by
    rw [hcount, h.count, hdirty, Multiset.card_add, add_right_comm, Nat.add_sub_cancel]
  refine ⟨?_, ?_, ?_, ?_, hmax.trans h.limit⟩
  · rw [hdirty']
    exact hreader
  · rw [hall]
    exact h.size
  · rw [hdirty']
    exact hcard
  · rw [hmax, hcount]
    exact Nat.le_trans (Nat.sub_le ..) h.bound

theorem dirty_congr (hstates : s'.states = s.states) (hfiles : s'.files = s.files) (hthreads : s'.threads = s.threads) :
    s'.dirty = s.dirty := by
  rw [dirty, dirty, flightPages, flightPages, hstates, hfiles, hthreads]

theorem dirty_returned (ht : s.threads[t]? = some stage) (wait : Bool) :
    (s.returned t e wait).dirty + stage.pages = s.dirty := by
  have hstep := dirty_setStage ht (if wait then .user else .sweep (s.next e))
  rw [pages_returned, add_zero] at hstep
  exact hstep

theorem Ledger.finishFlush (h : s.Ledger total maxDirty lost) (ht : s.threads[t]? = some stage)
    (hstage : stage.pages = flush.cachedPages) :
    Yields (fun _ => True) (fun s' => s'.Ledger total maxDirty lost) (s.finishFlush t flush) := by
  have hsplit := dirty_returned (e := flush.state) ht flush.wait
  rw [hstage] at hsplit
  have hreader := h.reader
  rw [← hsplit, add_comm _ (flush.cachedPages : Multiset Nat), add_assoc] at hreader
  rw [DiskWriter.finishFlush]
  refine ((enterPages_handed flush.state _ flush.cachedPages s flush.filePage hreader).and
    (aside_enterPages flush.state flush.cachedPages s flush.filePage)).bind (fun s₁ hs₁ => ?_)
  obtain ⟨hh, ha⟩ := hs₁
  refine (Outcome.yields_true _).bind (fun _ _ => ?_)
  split
  · trivial
  case h_2 waiting _ =>
    change Ledger ((s₁.cleanPages flush.cachedPages.length).releaseLatch t flush waiting) total maxDirty lost
    refine h.give hsplit.symm hh.reader hh.all ?_ ?_ hh.max
    · have ht₁ : s₁.threads[t]? = some stage := ha.threads ▸ ht
      have hsplit₁ := dirty_returned (e := flush.state) ht₁ flush.wait
      rw [dirty_congr ha.states ha.files ha.threads, hstage] at hsplit₁
      refine add_right_cancel (Eq.trans ?_ (hsplit₁.trans hsplit.symm))
      exact congrArg (· + _) (dirty_congr rfl rfl rfl)
    · rw [Multiset.coe_card]
      exact congrArg (· - flush.cachedPages.length) hh.count

theorem Ledger.writeBatch (h : s.Ledger total maxDirty lost) {diskPage : Nat} {rest : List Nat}
    (ht : s.threads[t]? = some (.batch flush diskPage rest)) :
    Yields (fun _ => True) (fun s' => s'.Ledger total maxDirty lost) (s.writeBatch t flush diskPage rest) := by
  rw [DiskWriter.writeBatch]
  split
  · exact h.finishFlush ht rfl
  · exact h.suspend ht rfl

end Flushes

theorem Ledger.ioDone (h : s.Ledger total maxDirty lost) (t : Nat) : (s.ioDone t).Ledger total maxDirty lost := by
  rw [DiskWriter.ioDone]
  split
  case h_1 flush diskPage rest ht =>
    have hset : (s.setStage t (.batch flush (u32 (diskPage + (rest.take iovMax).length)) (rest.drop iovMax))).Ledger
        total maxDirty lost := h.setStage ht rfl
    exact hset.same rfl rfl rfl rfl rfl rfl
  case h_2 flush ht =>
    have hset : (s.setStage t (.extend flush)).Ledger total maxDirty lost := h.setStage ht rfl
    exact hset.same rfl rfl rfl rfl rfl rfl
  case h_3 => exact h

/-- What remove has given back, of a number of pages. -/
structure Removed (s s' : DiskWriter) (others : Multiset Nat) (pages : Nat) : Prop where
  reader : s'.reader.Paged others
  all : s'.reader.cache.pages.all = s.reader.cache.pages.all
  count : s'.dirtyPages = s.dirtyPages - pages
  max : s'.maxDirtyPages = s.maxDirtyPages

theorem removePage_removed {others : Multiset Nat} (h : s.reader.Paged (f.page + others)) :
    Yields (fun _ => True) (fun s' => Removed s s' others f.page.card) (s.removePage f.memPage) := by
  rw [DiskWriter.removePage]
  split
  case isTrue hpage =>
    rw [FileWriter.page_of_invalid hpage, zero_add] at h
    rw [FileWriter.page_of_invalid hpage]
    exact ⟨h, rfl, rfl, rfl⟩
  case isFalse hpage =>
    rw [FileWriter.page_of_valid hpage] at h ⊢
    refine (freePages_handed others [f.memPage] s h).bind (fun s₁ h₁ => ⟨h₁.reader, h₁.all, ?_, h₁.max⟩)
    exact congrArg (· - 1) h₁.count

theorem remove_removed {others : Multiset Nat} (h : s.reader.Paged ((s.files e).pages + others)) :
    Yields (fun _ => True) (fun s' => Removed s s' others (s.files e).pages.card) (s.remove e) := by
  rw [FileWriter.pages, add_assoc] at h
  rw [DiskWriter.remove]
  refine (removePage_removed h).bind (fun s₁ h₁ => (Outcome.yields_true _).bind (fun blocks _ => ?_))
  refine (freePages_handed others (s.files e).cachedPages { s₁ with blocks := blocks } h₁.reader).bind (fun s₂ h₂ => ?_)
  refine (Outcome.yields_true _).bind (fun _ _ => ⟨h₂.reader, h₂.all.trans h₁.all, ?_, h₂.max.trans h₁.max⟩)
  rw [FileWriter.pages, Multiset.card_add, Multiset.coe_card, Nat.sub_add_eq, ← h₁.count]
  exact congrArg (· - _) h₂.count

/-- The pages that nobody has any more after an action: those that a file had when it
was destroyed although it was committed. -/
def leftPages (s : DiskWriter) : Action → Multiset Nat
  | .destroy e => if (s.files e).commited then (s.files e).pages else 0
  | _ => 0

theorem Ledger.destroy (h : s.Ledger total maxDirty lost) (he : e ∈ s.states) :
    Yields (fun _ => True) (fun s' => s'.Ledger total maxDirty (s.leftPages (.destroy e) + lost)) (s.destroy e) := by
  have hsplit := dirty_free he
  rw [DiskWriter.destroy, leftPages]
  split
  case isTrue =>
    refine ⟨?_, h.size, ?_, h.bound, h.limit⟩
    · have hreader := h.reader
      rw [← hsplit, add_assoc] at hreader
      exact hreader.same rfl rfl rfl
    · have hcount := h.count
      rw [← hsplit, Multiset.card_add, add_assoc, ← Multiset.card_add] at hcount
      exact hcount
  case isFalse =>
    rw [zero_add]
    have hreader := h.reader
    rw [← hsplit, add_comm _ (s.files e).pages, add_assoc] at hreader
    refine ((remove_removed hreader).and (aside_remove e)).bind (fun s₁ hs₁ => ?_)
    obtain ⟨hr, ha⟩ := hs₁
    change Ledger (s₁.free e) total maxDirty lost
    refine h.give hsplit.symm hr.reader hr.all ?_ hr.count hr.max
    have hsplit₁ := dirty_free (s := s₁) (ha.states ▸ he)
    rw [dirty_congr ha.states ha.files ha.threads, ha.files] at hsplit₁
    exact add_right_cancel (hsplit₁.trans hsplit.symm)

theorem Ledger.go (h : s.Ledger total maxDirty lost) (ho : s.Orderly) (t : Nat) :
    Yields (fun _ => True) (fun s' => s'.Ledger total maxDirty lost) (s.go t) := by
  rw [DiskWriter.go]
  split
  case h_1 e data ht => exact h.allocatePage ho ht rfl (ho.pageless e data (List.mem_of_getElem? ht)) data
  case h_2 e data ht => exact h.writeRound ho ht
  case h_3 e ht => exact h.testLatch ht
  case h_4 e wait ht => exact h.takePages ho ht
  case h_5 flush ht => exact h.allocateBlocks ho ht
  case h_6 flush ht => exact h.extendBlocks ht
  case h_7 flush diskPage rest ht => exact h.writeBatch ht
  case h_8 ht => exact h.setStage ht rfl
  case h_9 e ht => exact h.sweep ht
  case h_10 => exact h

theorem Step.ledger_of_kept {a : Action} (hs : Step s a s') (ho : s.Orderly) (h : s.Ledger total maxDirty lost)
    (hkept : ∀ e, a ≠ .destroy e) : s'.Ledger total maxDirty lost := by
  obtain ⟨hadmits, happly⟩ := hs
  have hyields : Yields (fun _ => True) (fun s' => s'.Ledger total maxDirty lost) (s.apply a) := by
    cases a with
    | schedule t => exact h.same rfl rfl rfl rfl rfl rfl
    | start => exact h.same (dirty_createThread _ rfl) rfl rfl rfl rfl rfl
    | wake t =>
        have hset : (s.setStage t .user).Ledger total maxDirty lost := h.setStage hadmits rfl
        exact hset.same rfl rfl rfl rfl rfl rfl
    | ioDone t => exact h.ioDone t
    | read a =>
        refine (h.reader.apply a).bind (fun reader hreader => ⟨hreader.1, ?_, h.count, h.bound, h.limit⟩)
        exact (congrArg Multiset.card hreader.2).trans h.size
    | go =>
        obtain ⟨t, hcurrent⟩ := Option.ne_none_iff_exists'.mp hadmits
        simp only [apply, hcurrent]
        exact h.go ho t
    | create =>
        obtain ⟨t, hcurrent, ht⟩ := hadmits
        simp only [apply, hcurrent]
        exact h.same (dirty_allocate ho) rfl rfl rfl rfl rfl
    | pause =>
        obtain ⟨t, hcurrent, ht⟩ := hadmits
        simp only [apply, hcurrent]
        exact h.suspend ht rfl
    | write e data =>
        obtain ⟨t, hcurrent, ht⟩ := hadmits.user
        simp only [apply, hcurrent]
        exact h.write ht data
    | addPadding e =>
        obtain ⟨t, hcurrent, ht⟩ := hadmits.user
        simp only [apply, hcurrent]
        exact h.addPadding ho hadmits.live
    | flush e =>
        obtain ⟨t, hcurrent, ht⟩ := hadmits.user
        simp only [apply, hcurrent]
        exact h.flush ho hadmits.live ht
    | commit e =>
        obtain ⟨t, hcurrent, ht⟩ := hadmits.user
        simp only [apply, hcurrent]
        exact h.commit ho hadmits.live
    | destroy e => exact absurd rfl (hkept e)
    | unlink extents =>
        obtain ⟨t, hcurrent, ht⟩ := hadmits
        simp only [apply, hcurrent]
        exact (Outcome.yields_true _).bind (fun blocks _ => h.same rfl rfl rfl rfl rfl rfl)
  exact hyields.of_ok happly

theorem Step.ledger {a : Action} (hs : Step s a s') (ho : s.Orderly) (h : s.Ledger total maxDirty lost) :
    s'.Ledger total maxDirty (s.leftPages a + lost) := by
  by_cases hkept : ∃ e, a = .destroy e
  · obtain ⟨e, rfl⟩ := hkept
    obtain ⟨hadmits, happly⟩ := hs
    obtain ⟨t, hcurrent, -⟩ := hadmits.user
    simp only [apply, hcurrent] at happly
    exact (h.destroy hadmits.live).of_ok happly
  · have hnone : s.leftPages a = 0 := by
      cases a with
      | destroy e => exact absurd ⟨e, rfl⟩ hkept
      | _ => rfl
    rw [hnone, zero_add]
    exact hs.ledger_of_kept ho h (fun e he => hkept ⟨e, he⟩)

/-- No file that was committed is destroyed while it has pages. -/
def Emptied (s : DiskWriter) : Action → Prop
  | .destroy e => (s.files e).commited = true → (s.files e).memPage = invalidHandle ∧ (s.files e).cachedPages = []
  | _ => True

theorem pages_eq_zero {f : FileWriter} : f.pages = 0 ↔ f.memPage = invalidHandle ∧ f.cachedPages = [] := by
  rw [FileWriter.pages, add_eq_zero, Multiset.coe_eq_zero]
  refine and_congr_left' ⟨fun h => ?_, FileWriter.page_of_invalid⟩
  by_contra hvalid
  rw [FileWriter.page_of_valid hvalid] at h
  exact Multiset.singleton_ne_zero _ h

theorem emptied_iff {a : Action} : s.Emptied a ↔ s.leftPages a = 0 := by
  cases a with
  | destroy e =>
      rw [Emptied, leftPages, ← pages_eq_zero]
      split
      case isTrue hcommited => exact ⟨fun h => h hcommited, fun h _ => h⟩
      case isFalse hopen => exact ⟨fun _ => rfl, fun _ hcommited => absurd hcommited hopen⟩
  | _ => exact ⟨fun _ => rfl, fun _ => trivial⟩

theorem Ledger.not_conserved {cacheBits writeCacheBits : Nat} (h : s.Ledger total maxDirty lost) (hlost : lost ≠ 0) :
    ¬ s.Conserved cacheBits writeCacheBits := by
  intro hc
  have hcount := hc.count
  rw [← Multiset.card_add, ← Multiset.card_add, ← dirty_eq, h.count, Nat.add_eq_left, Multiset.card_eq_zero] at hcount
  exact hlost hcount

/-- The engine as it is constructed over a file of a number of pages. -/
def initial (clzOfZero : UInt32) (cacheBits writeCacheBits filePages : Nat) (preallocateSpace : Bool)
    (image memory : Nat → Page) : DiskWriter where
  reader := DiskReader.initial clzOfZero cacheBits image memory
  blocks := ({} : Allocator).extend filePages
  preallocateSpace := preallocateSpace
  maxDirtyPages := 1 <<< writeCacheBits

section Initial

variable {clzOfZero : UInt32} {cacheBits writeCacheBits filePages : Nat} {preallocateSpace : Bool}
  {image memory : Nat → Page}

theorem initial_orderly :
    (initial clzOfZero cacheBits writeCacheBits filePages preallocateSpace image memory).Orderly where
  nodup := List.nodup_nil
  below := fun _ h => absurd h List.not_mem_nil
  live := fun _ h => absurd h List.not_mem_nil
  single := fun _ _ _ _ _ h => absurd h (by simp [initial])
  sweeping := fun _ _ h => absurd h (by simp [initial])
  pageless := fun _ _ h => absurd h List.not_mem_nil
  uncommited := fun _ h => absurd h List.not_mem_nil
  files := fun _ => ⟨fun _ => rfl, fun h => absurd h (by simp [initial])⟩

theorem initial_pages (h7 : 7 ≤ cacheBits) (h32 : cacheBits < 32) :
    (initial clzOfZero cacheBits writeCacheBits filePages preallocateSpace image memory).Pages (2 ^ cacheBits)
      (2 ^ writeCacheBits) := by
  obtain ⟨howned, hcard⟩ := @DiskReader.construct_owned clzOfZero cacheBits h7 h32
  refine ⟨⟨howned, rfl, fun key => rfl, fun i c hc => absurd hc (by simp [initial, DiskReader.initial])⟩, hcard, rfl,
    Nat.zero_le _, Nat.one_shiftLeft _⟩

/-- In a run of any number of contexts, in any order, no page of the engine is
lost or in two places, and the dirty ones are as many as it is said and no more
than there may be, as long as no file is destroyed that has pages and was
committed; from there on they are not. -/
theorem pages_conserved_iff (h7 : 7 ≤ cacheBits) (h32 : cacheBits < 32) {ts : List (DiskWriter × Action × DiskWriter)}
    {u : DiskWriter}
    (hrun : Run Step (initial clzOfZero cacheBits writeCacheBits filePages preallocateSpace image memory) ts u)
    (hremovable : ∀ x ∈ ts, x.1.Removable x.2.1) :
    (∀ s ∈ visited (initial clzOfZero cacheBits writeCacheBits filePages preallocateSpace image memory) ts,
      s.Conserved cacheBits writeCacheBits) ↔ ∀ x ∈ ts, x.1.Emptied x.2.1 := by
  have hledger : ∀ u a v, u.Orderly ∧ u.Pages (2 ^ cacheBits) (2 ^ writeCacheBits) → Step u a v →
      v.Ledger (2 ^ cacheBits) (2 ^ writeCacheBits) (u.leftPages a) := by
    intro u a v hu hstep
    have h := hstep.ledger hu.1 (pages_iff.mp hu.2)
    rwa [add_zero] at h
  refine (hrun.meeting hremovable).exact Emptied (fun s => s.Orderly ∧ s.Pages (2 ^ cacheBits) (2 ^ writeCacheBits)) _
    ⟨initial_orderly, initial_pages h7 h32⟩ (fun u hu => hu.2.conserved) (fun u a v hu hstep hg => ?_)
    (fun u a v hu hstep hg => ?_)
  · have h := hledger u a v hu hstep.1
    rw [emptied_iff.mp hg] at h
    exact ⟨hstep.1.orderly hstep.2 hu.1, pages_iff.mpr h⟩
  · exact (hledger u a v hu hstep.1).not_conserved (fun hleft => hg (emptied_iff.mpr hleft))

end Initial

section Concrete

theorem isUser_iff : s.current.any (fun t => decide (s.threads[t]? = some .user)) = true ↔ s.IsUser := by
  rw [Option.any_eq_true]
  exact exists_congr (fun t => and_congr_right (fun _ => decide_eq_true_iff))

instance (s : DiskWriter) : Decidable s.IsUser := decidable_of_iff _ isUser_iff

instance (s : DiskWriter) (e : Nat) : Decidable (s.Callable e) :=
  decidable_of_iff (s.IsUser ∧ e ∈ s.states ∧ ∀ stage ∈ s.threads, stage.operand ≠ some e)
    ⟨fun h => ⟨h.1, h.2.1, h.2.2⟩, fun h => ⟨h.user, h.live, h.idle⟩⟩

/-- The actions that are tried below, where they are admitted. -/
def Allows (s : DiskWriter) : Action → Prop
  | .create => s.IsUser
  | .pause => s.IsUser
  | .write e _ => s.Callable e
  | .addPadding e => s.Callable e
  | .flush e => s.Callable e
  | .commit e => s.Callable e
  | .destroy e => s.Callable e ∧ s.threads.all (fun x => x.flush?.all (fun flush => flush.state ≠ e)) = true
  | .go => s.current ≠ none
  | .start => True
  | .schedule t => s.current = none ∧ t ∈ s.runQueue
  | .ioDone t => (s.threads[t]?.any Stage.waitsForDisk) = true
  | .read (.read cacheId filePage _) =>
      s.current = none ∧ filePage.toNat < 1 <<< filePagesBits ∧ DiskReader.keyOf cacheId filePage ≠ 0
  | _ => False

instance (s : DiskWriter) (a : Action) : Decidable (s.Allows a) :=
  match a with
  | .create => inferInstanceAs (Decidable s.IsUser)
  | .pause => inferInstanceAs (Decidable s.IsUser)
  | .write e _ => inferInstanceAs (Decidable (s.Callable e))
  | .addPadding e => inferInstanceAs (Decidable (s.Callable e))
  | .flush e => inferInstanceAs (Decidable (s.Callable e))
  | .commit e => inferInstanceAs (Decidable (s.Callable e))
  | .destroy e => inferInstanceAs (Decidable (s.Callable e ∧ _ = true))
  | .go => inferInstanceAs (Decidable (s.current ≠ none))
  | .start => inferInstanceAs (Decidable True)
  | .schedule t => inferInstanceAs (Decidable (s.current = none ∧ t ∈ s.runQueue))
  | .ioDone _ => inferInstanceAs (Decidable (_ = true))
  | .read (.read _ _ _) => inferInstanceAs (Decidable (s.current = none ∧ _ ∧ _ ≠ _))
  | .read (.readDone _) => inferInstanceAs (Decidable False)
  | .read (.resume _) => inferInstanceAs (Decidable False)
  | .unlink _ => inferInstanceAs (Decidable False)
  | .wake _ => inferInstanceAs (Decidable False)

theorem Allows.admits {a : Action} (h : s.Allows a) : s.Admits a ∧ s.Removable a := by
  cases a with
  | destroy e =>
      refine ⟨h.1, fun x hx flush hflush => ?_⟩
      have hall := List.all_eq_true.mp h.2 x hx
      rw [hflush] at hall
      exact of_decide_eq_true hall
  | ioDone t =>
      obtain ⟨stage, hstage, hwaits⟩ := (Option.any_eq_true _ _).mp h
      exact ⟨⟨stage, hstage, hwaits⟩, trivial⟩
  | read a =>
      cases a with
      | read cacheId filePage extents =>
          exact ⟨⟨h.1, fun _ => getDiskPage extents filePage.toNat, h.2.1, h.2.2, rfl⟩, trivial⟩
      | readDone | resume => exact h.elim
  | unlink | wake => exact h.elim
  | _ => exact ⟨h, trivial⟩

def attempt (s : DiskWriter) (a : Action) : Option DiskWriter := if s.Allows a then (s.apply a).toOption else none

theorem step_attempt {a : Action} (h : s.attempt a = some s') : Step s a s' ∧ s.Removable a := by
  obtain ⟨hallows, happly⟩ := ok_of_toOption h
  exact ⟨⟨hallows.admits.1, happly⟩, hallows.admits.2⟩

/-- An engine that may have one dirty page, over a file of four. -/
def single : DiskWriter := initial 0 7 0 4 false (fun _ => DiskReader.emptyPage) (fun _ => DiskReader.emptyPage)

/-- A file of two pages: the first is flushed by the flush thread while the writer
waits for the second. The file is commited and read, and another one is rolled
back. -/
def turns : List Action :=
  [.start, .schedule 0, .create, .write 0 [1], .go, .go, .go, .addPadding 0, .write 0 [2], .go, .schedule 0, .go,
    .schedule 1, .go, .go, .go, .go, .go, .ioDone 1, .schedule 1, .go, .go, .schedule 0, .go, .go, .go,
    .flush 0, .schedule 0, .go, .go, .go, .go, .ioDone 0, .schedule 0, .go, .commit 0, .destroy 0, .create, .write 0 [3],
    .go, .go, .go, .destroy 0, .pause, .read (.read 1 0 [])]

instance (s : DiskWriter) (a : Action) : Decidable (s.Emptied a) :=
  match a with
  | .destroy _ => inferInstanceAs (Decidable (_ → _))
  | .create | .write _ _ | .addPadding _ | .flush _ | .commit _ | .unlink _ | .go | .pause | .schedule _ | .start |
      .wake _ | .ioDone _ | .read _ => inferInstanceAs (Decidable True)

theorem turns_done : (follow attempt single turns).any (fun r =>
    r.2.dirtyPages == 0 && r.2.states.isEmpty && r.2.entered.length == 2 && r.2.reader.calls.length == 1 &&
      r.1.all (fun x => decide (x.1.Emptied x.2.1))) = true := by
  decide +kernel

theorem run_attempt {as : List Action} {ts : List (DiskWriter × Action × DiskWriter)} {u : DiskWriter}
    (h : follow attempt s as = some (ts, u)) : Run Step s ts u ∧ ∀ x ∈ ts, x.1.Removable x.2.1 := by
  have hguarded : Run (fun s a s' => Step s a s' ∧ s.Removable a) s ts u :=
    run_follow attempt (fun _ _ _ h => step_attempt h) as s h
  exact ⟨run_follow attempt (fun _ _ _ h => (step_attempt h).1) as s h, fun x hx => (hguarded.of_mem x hx).2.2⟩

theorem pages_conserved_iff_turns : ∃ ts u, (u.dirtyPages == 0 && u.states.isEmpty && u.entered.length == 2 &&
    u.reader.calls.length == 1) = true ∧ Run Step single ts u ∧ ∀ s ∈ visited single ts, s.Conserved 7 0 := by
  obtain ⟨⟨ts, u⟩, hfollow, hall⟩ := (Option.any_eq_true _ _).mp turns_done
  obtain ⟨hdone, hemptied⟩ := Bool.and_eq_true_iff.mp hall
  obtain ⟨hrun, hremovable⟩ := run_attempt hfollow
  refine ⟨ts, u, hdone, hrun, (pages_conserved_iff (by decide) (by decide) hrun hremovable).mpr fun x hx => ?_⟩
  exact of_decide_eq_true (List.all_eq_true.mp hemptied x hx)

/-- A file of one byte is flushed, another byte is written behind that, and the file is
commited and destroyed. -/
def behindFlush : List Action :=
  [.start, .schedule 0, .create, .write 0 [1], .go, .go, .go, .flush 0, .schedule 0, .go, .go, .go, .go, .ioDone 0,
    .schedule 0, .go, .write 0 [2], .go, .go, .go, .commit 0, .destroy 0]

theorem behindFlush_uncounted : (follow attempt single behindFlush).any (fun r =>
    r.2.states.isEmpty && r.2.dirtyPages != r.2.currentPages.card + r.2.cachedPages.card + r.2.flightPages.card) =
      true := by
  decide +kernel

theorem not_conserved_behindFlush : ¬ ∀ (clzOfZero : UInt32) (cacheBits writeCacheBits filePages : Nat)
    (preallocateSpace : Bool) (image memory : Nat → Page) (ts : List (DiskWriter × Action × DiskWriter))
    (u : DiskWriter), 7 ≤ cacheBits → cacheBits < 32 →
      Run Step (initial clzOfZero cacheBits writeCacheBits filePages preallocateSpace image memory) ts u →
      (∀ x ∈ ts, x.1.Removable x.2.1) →
      ∀ s ∈ visited (initial clzOfZero cacheBits writeCacheBits filePages preallocateSpace image memory) ts,
        s.Conserved cacheBits writeCacheBits := by
  intro h
  obtain ⟨⟨ts, u⟩, hfollow, hend⟩ := (Option.any_eq_true _ _).mp behindFlush_uncounted
  obtain ⟨hrun, hremovable⟩ := run_attempt hfollow
  have hcount := (h 0 7 0 4 false _ _ ts u (by decide) (by decide) hrun hremovable u hrun.mem_visited).count
  exact bne_iff_ne.mp (Bool.and_eq_true_iff.mp hend).2 hcount

end Concrete

end DiskWriter

end Tyrdbs.Storage
