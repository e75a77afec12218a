import Tyrdbs.Storage.VolumeSteps

namespace Tyrdbs.Storage.DiskWriter

open Allocator Outcome Bytes

variable {s s' : DiskWriter} {t e total maxDirty : Nat} {flush : Flush} {ds : List Descriptor} {stage stage' : Stage}

theorem Turns.others (h : s.Turns) (ht : s.threads[t]? = some stage) (hflush : stage.flush? = some flush) {j : Nat}
    {x : Stage} (hj : j ≠ t) (hx : s.threads[j]? = some x) : ∀ call, x.flush? = some call → call.state ≠ flush.state :=
  fun call hc heq => hj (h.alone j t x stage call flush hx ht hc hflush heq)

theorem Turns.arriving_unique (h : s.Turns) (ht : s.threads[t]? = some stage) (hflush : stage.flush? = some flush)
    {call : Flush} {diskPage : Nat} {rest : List Nat} (hr : (call, diskPage, rest) ∈ s.arriving)
    (hstate : call.state = flush.state) : stage.arriving = some (call, diskPage, rest) := by
  obtain ⟨x, hx, hxr⟩ := List.mem_filterMap.mp hr
  obtain ⟨j, hj⟩ := List.getElem?_of_mem hx
  by_cases hjt : j = t
  · subst hjt
    rw [ht] at hj
    rwa [Option.some.inj hj]
  · exact absurd hstate (h.others ht hflush hjt hj call (Stage.flush_of_arriving hxr))

theorem Contents.place (h : s.Contents ds) (hturns : s.Turns) (ht : s.threads[t]? = some (.allocate flush))
    (hlive : flush.state ∈ s.states) (hopen : (s.files flush.state).commited = false) {page : Nat}
    (hthreads : s'.threads = s.threads.set t (.batch flush page flush.cachedPages)) (hreader : s'.reader = s.reader)
    (hstates : s'.states = s.states) (hnext : s'.nextCacheId = s.nextCacheId) (hwritten : s'.written = s.written)
    (hother : ∀ k, k ≠ flush.state → s'.files k = s.files k)
    (hself : s'.files flush.state = { s.files flush.state with
      descriptor := { (s.files flush.state).descriptor with
        extents := (s.files flush.state).descriptor.extents ++ [pack page flush.cachedPages.length] } })
    (hlen : flush.cachedPages.length < 2 ^ 32) : s'.Contents ds := by
  have hid : ∀ k, s'.cacheId k = s.cacheId k := by
    intro k
    by_cases hk : k = flush.state
    · rw [hk, cacheId, hself]
      rfl
    · rw [cacheId, hother k hk]
      rfl
  have hg : Grows s s' := by
    refine grows_of_written hnext hwritten (fun _ hk => hstates ▸ hk) (fun k => ⟨hid k, fun hk => ?_⟩)
    by_cases hke : k = flush.state
    · rw [hke, hself] at hk
      exact hke ▸ hk
    · rwa [hother k hke] at hk
  have hget : (s.threads.set t (.batch flush page flush.cachedPages))[t]? = some (.batch flush page flush.cachedPages) :=
    List.getElem?_set_self (List.getElem?_eq_some_iff.mp ht).1
  have hpages : pagesOf (s'.files flush.state).descriptor.extents =
      pagesOf (s.files flush.state).descriptor.extents ++ List.range' page flush.cachedPages.length := by
    rw [hself, pagesOf_append, pagesOf_pack hlen]
  have hbase : s'.base flush.state = s.base flush.state + flush.cachedPages.length := by
    rw [DiskWriter.base, hpages, List.length_append, List.length_range', DiskWriter.base]
  have hahead : s.ahead flush.state = flush.cachedPages := by
    rw [DiskWriter.ahead, flatMap_of_others _ ht (fun j x hj hx => Stage.ahead_of_others (hturns.others ht rfl hj hx))]
    exact Stage.ahead_of_unplaced rfl
  have hahead' : s'.ahead flush.state = [] := by
    rw [DiskWriter.ahead, hthreads, flatMap_of_others _ hget (fun j x hj hx => ?_)]
    · rfl
    · rw [List.getElem?_set_ne (Ne.symm hj)] at hx
      exact Stage.ahead_of_others (hturns.others ht rfl hj hx)
  have hcoming : s.coming flush.state = flush.cachedPages ++ s'.coming flush.state := by
    rw [DiskWriter.coming, hahead, DiskWriter.coming, hahead', List.nil_append, hself]
  have hfilled : s'.filled flush.state = s.filled flush.state := by
    rw [filled, hbase, filled, hcoming, List.length_append, Nat.add_assoc]
  have hmem : ∀ r, r ∈ s'.arriving ↔ r = (flush, page, flush.cachedPages) ∨ r ∈ s.arriving := by
    intro r
    rw [DiskWriter.arriving, hthreads, mem_filterMap_set _ ht]
    refine or_congr ⟨fun hr => (Option.some.inj hr).symm, fun hr => congrArg some hr.symm⟩ ⟨?_, fun hr => ?_⟩
    · rintro ⟨j, x, -, hx, hr⟩
      exact List.mem_filterMap.mpr ⟨x, List.mem_of_getElem? hx, hr⟩
    · obtain ⟨x, hx, hxr⟩ := List.mem_filterMap.mp hr
      obtain ⟨j, hj⟩ := List.getElem?_of_mem hx
      refine ⟨j, x, ?_, hj, hxr⟩
      rintro rfl
      rw [ht] at hj
      rw [← Option.some.inj hj] at hxr
      cases hxr
  have hpage : flush.filePage = s.base flush.state :=
    h.unplaced flush (List.mem_filterMap.mpr ⟨_, List.mem_of_getElem? ht, rfl⟩)
  have hfaithful := h.files flush.state hlive hopen
  have hkept : ∀ (i q : Nat), flush.cachedPages[i]? = some q →
      s'.Kept (s.cacheId flush.state) (s.base flush.state + i) (s.reader.memory q) := by
    intro i q hi
    refine (hfaithful.coming i q ?_).grows hg
    rw [hcoming, List.getElem?_append_left (List.getElem?_eq_some_iff.mp hi).1, hi]
  refine ⟨hnext ▸ h.ids, fun id hle => ?_, fun k hk hc => ?_, fun call hf => ?_, fun call diskPage rest hr => ?_,
    fun d hd => (h.commited d hd).frame hg (fun _ _ => by rw [hreader]), ?_⟩
  · rw [hwritten]
    exact h.unwritten id (hnext ▸ hle)
  · rw [hstates] at hk
    by_cases hke : k = flush.state
    · subst hke
      refine ⟨?_, ?_, ?_, fun hcase => ?_, fun hinvalid => ?_, fun hvalid => ?_, fun i q hi => ?_, fun k q hk => ?_⟩
      · rw [hid]
        exact hfaithful.known.trans_le hg.next
      · rw [hid, hself, hwritten]
        exact hfaithful.size
      · rw [hself]
        exact hfaithful.offset
      · rw [hself] at hcase
        rw [hid, hwritten, hfilled, hself]
        exact hfaithful.length hcase
      · rw [hself] at hinvalid
        rw [hid, hwritten, hfilled]
        exact hfaithful.bound hinvalid
      · rw [hself] at hvalid
        rw [hid, hwritten, hfilled, hself, hreader]
        exact hfaithful.buffer hvalid
      · rw [hid, hbase, hreader, Nat.add_assoc]
        refine (hfaithful.coming (flush.cachedPages.length + i) q ?_).grows hg
        rw [hcoming, List.getElem?_append_right (Nat.le_add_right _ _), Nat.add_sub_cancel_left, hi]
      · rw [hpages] at hk
        rw [hid, hbase, hreader]
        rcases Nat.lt_or_ge k (s.base flush.state) with hlt | hge
        · rw [List.getElem?_append_left hlt] at hk
          rcases hfaithful.stored k q hk with hkept | ⟨call, diskPage, rest, hr, hstate, -⟩
          · exact .inl (hkept.grows hg)
          · have hno := hturns.arriving_unique ht rfl hr hstate
            cases hno
        · exact .inr ⟨flush, page, flush.cachedPages, (hmem _).mpr (.inl rfl), rfl, Nat.add_le_add_right hge _⟩
    · rw [hother k hke] at hc
      refine (h.files k hk hc).frame hg (hother k hke) (by rw [hwritten]) ?_ (fun _ _ => by rw [hreader])
        (fun _ _ => by rw [hreader]) (fun _ _ _ hr _ => (hmem _).mpr (.inr hr))
      rw [DiskWriter.ahead, hthreads]
      refine flatMap_set _ ht ?_
      rw [Stage.ahead_of_others (fun call hcall => ?_), Stage.ahead_of_others (fun call hcall => ?_)]
      · obtain rfl := Option.some.inj hcall
        exact (Ne.symm hke)
      · obtain rfl := Option.some.inj hcall
        exact (Ne.symm hke)
  · rw [DiskWriter.unplaced, hthreads] at hf
    rcases (mem_filterMap_set _ ht).mp hf with hnew | ⟨j, x, hj, hx, hxf⟩
    · cases hnew
    · have hne := hturns.others ht rfl hj hx call (Stage.flush_of_unplaced hxf)
      rw [base, hother _ hne]
      exact h.unplaced call (List.mem_filterMap.mpr ⟨x, List.mem_of_getElem? hx, hxf⟩)
  · rcases (hmem _).mp hr with hnew | hold
    · obtain ⟨rfl, rfl, rfl⟩ : call = flush ∧ diskPage = page ∧ rest = flush.cachedPages := by
        simpa only [Prod.mk.injEq] using hnew
      refine ⟨by rw [hself]; exact hopen, ?_, List.suffix_rfl, fun i q hi => ?_, fun i hi => ?_⟩
      · rw [hbase, hpage]
      · rw [hid, hpage, hreader]
        exact hkept i q hi
      · rw [hpages, hbase, Nat.add_sub_cancel, DiskWriter.base, List.getElem?_append_right (Nat.le_add_right _ _),
          Nat.add_sub_cancel_left, List.getElem?_range' hi, Nat.one_mul]
    · obtain ⟨hcall, harrives⟩ := h.arriving call diskPage rest hold
      have hne : call.state ≠ flush.state := by
        intro heq
        have hno := hturns.arriving_unique ht rfl hold heq
        cases hno
      rw [hother _ hne]
      exact ⟨hcall, harrives.frame hg (by rw [hother _ hne]) (hid _) (fun _ _ => by rw [hreader])⟩
  · rw [hreader]
    exact h.reader.weaken (fun key bytes hc => hc.grows hg) (fun _ _ hr => hr)

theorem mem_arriving_set (ht : s.threads[t]? = some stage) (hthreads : s'.threads = s.threads.set t stage')
    {r : Flush × Nat × List Nat} (hr : r ∈ s'.arriving) : stage'.arriving = some r ∨
      ∃ (j : Nat) (x : Stage), j ≠ t ∧ s.threads[j]? = some x ∧ x.arriving = some r := by
  rw [arriving, hthreads] at hr
  exact (mem_filterMap_set _ ht).mp hr

theorem mem_arriving_of_others (ht : s.threads[t]? = some stage)
    (hflush : stage.flush? = some flush) (hthreads : s'.threads = s.threads.set t stage') {call : Flush}
    {diskPage : Nat} {rest : List Nat} (hr : (call, diskPage, rest) ∈ s.arriving) (hne : call.state ≠ flush.state) :
    (call, diskPage, rest) ∈ s'.arriving := by
  obtain ⟨x, hx, hxr⟩ := List.mem_filterMap.mp hr
  obtain ⟨j, hj⟩ := List.getElem?_of_mem hx
  rw [arriving, hthreads]
  refine (mem_filterMap_set _ ht).mpr (.inr ⟨j, x, ?_, hj, hxr⟩)
  rintro rfl
  rw [ht] at hj
  rw [← Option.some.inj hj] at hxr
  have hsame := Stage.flush_of_arriving hxr
  rw [hflush] at hsame
  exact hne (Option.some.inj hsame ▸ rfl)

theorem ahead_set (e : Nat) (ht : s.threads[t]? = some stage) (hthreads : s'.threads = s.threads.set t stage')
    (hunplaced : stage.unplaced = none) (hunplaced' : stage'.unplaced = none) : s'.ahead e = s.ahead e := by
  rw [ahead, hthreads]
  refine flatMap_set _ ht ?_
  rw [Stage.ahead, hunplaced', Stage.ahead, hunplaced]

theorem mem_unplaced_of_set (ht : s.threads[t]? = some stage) (hthreads : s'.threads = s.threads.set t stage')
    (hunplaced' : stage'.unplaced = none) {call : Flush} (hc : call ∈ s'.unplaced) : call ∈ s.unplaced := by
  rw [unplaced, hthreads] at hc
  rcases (mem_filterMap_set _ ht).mp hc with hnew | ⟨j, x, -, hx, hxc⟩
  · rw [hunplaced'] at hnew
    cases hnew
  · exact List.mem_filterMap.mpr ⟨x, List.mem_of_getElem? hx, hxc⟩

theorem Contents.write (h : s.Contents ds) (hturns : s.Turns) (hp : Volume.Apportioned ⟨s, ds⟩) {diskPage : Nat}
    {rest : List Nat} (ht : s.threads[t]? = some (.writing flush diskPage rest)) (hlive : flush.state ∈ s.states) :
    (s.ioDone t).Contents ds := by
  have hstep : s.ioDone t = (({ s with reader := { s.reader with
      image := (Disk.write { blocks := s.blocks, image := s.reader.image } diskPage
        ((rest.take iovMax).map s.reader.memory)).image } }.setStage t
      (.batch flush (u32 (diskPage + (rest.take iovMax).length)) (rest.drop iovMax))).enqueue [t]) := by
    rw [ioDone, ht]
  generalize hs' : s.ioDone t = s' at hstep ⊢
  have hthreads : s'.threads = s.threads.set t
      (.batch flush (u32 (diskPage + (rest.take iovMax).length)) (rest.drop iovMax)) := hstep ▸ rfl
  have hfiles : s'.files = s.files := hstep ▸ rfl
  have hmemory : s'.reader.memory = s.reader.memory := hstep ▸ rfl
  have hwritten : s'.written = s.written := hstep ▸ rfl
  have hnext : s'.nextCacheId = s.nextCacheId := hstep ▸ rfl
  have hstates : s'.states = s.states := hstep ▸ rfl
  have himage : s'.reader.image = (Disk.write { blocks := s.blocks, image := s.reader.image } diskPage
      ((rest.take iovMax).map s.reader.memory)).image := hstep ▸ rfl
  have hid : ∀ k, s'.cacheId k = s.cacheId k := fun k => by rw [cacheId, hfiles, cacheId]
  have hbase : ∀ k, s'.base k = s.base k := fun k => by rw [base, hfiles, base]
  have hg : Grows s s' := grows_of_written hnext hwritten (fun _ hk => hstates ▸ hk)
    (fun k => ⟨hid k, fun hk => by rwa [hfiles] at hk⟩)
  have hin : (flush, diskPage, rest) ∈ s.arriving := List.mem_filterMap.mpr ⟨_, List.mem_of_getElem? ht, rfl⟩
  obtain ⟨hopen, harrives⟩ := h.arriving flush diskPage rest hin
  have hfaithful := h.files flush.state hlive hopen
  have hbatch : ((rest.take iovMax).map s.reader.memory).length = min iovMax rest.length := by
    rw [List.length_map, List.length_take]
  have hrest : rest.length ≤ s.base flush.state := by
    rw [← harrives.base]
    exact harrives.suffix.length_le.trans (Nat.le_add_left _ _)
  have hmine : ∀ i < rest.length, diskPage + i ∈ pagesOf (s.files flush.state).descriptor.extents :=
    fun i hi => List.mem_of_getElem? (harrives.disk i hi)
  have hkeep : ∀ q, (∀ i < rest.length, q ≠ diskPage + i) → s'.reader.image q = s.reader.image q := by
    intro q hq
    rw [himage]
    refine write_image_of_notMem _ _ _ ?_
    by_contra hin
    rw [hbatch, not_or, Nat.not_lt, Nat.not_le] at hin
    refine hq (q - diskPage) ?_ (by omega)
    have := Nat.min_le_right iovMax rest.length
    omega
  have hsplit : ∀ r, r ∈ s'.arriving →
      r = (flush, u32 (diskPage + (rest.take iovMax).length), rest.drop iovMax) ∨ r ∈ s.arriving ∧ r.1.state ≠ flush.state := by
    intro r hr
    rcases mem_arriving_set ht hthreads hr with hnew | ⟨j, x, hj, hx, hxr⟩
    · exact .inl (Option.some.inj hnew).symm
    · refine .inr ⟨List.mem_filterMap.mpr ⟨x, List.mem_of_getElem? hx, hxr⟩, ?_⟩
      exact hturns.others ht rfl hj hx r.1
        (Stage.flush_of_arriving (show _ = some (r.1, r.2.1, r.2.2) from hxr))
  have hnew : (flush, u32 (diskPage + (rest.take iovMax).length), rest.drop iovMax) ∈ s'.arriving := by
    rw [DiskWriter.arriving, hthreads]
    exact (mem_filterMap_set _ ht).mpr (.inl rfl)
  refine ⟨hnext ▸ h.ids, fun id hle => ?_, fun k hk hc => ?_, fun call hf => ?_, fun call d r hr => ?_,
    fun d hd => (h.commited d hd).frame hg (fun q hq => hkeep q (fun i hi heq => ?_)), ?_⟩
  · rw [hwritten]
    exact h.unwritten id (hnext ▸ hle)
  · rw [hstates] at hk
    rw [hfiles] at hc
    by_cases hke : k = flush.state
    · subst hke
      have hcoming : s'.coming flush.state = s.coming flush.state := by
        rw [DiskWriter.coming, ahead_set _ ht hthreads rfl rfl, hfiles, DiskWriter.coming]
      refine hfaithful.transfer hg (by rw [hfiles]) (by rw [hfiles]) (by rw [hfiles]) (by rw [hfiles]) hcoming
        (by rw [hwritten]) (fun _ _ => by rw [hmemory]) (fun k q hk => ?_)
      have hlt : k < s.base flush.state := (List.getElem?_eq_some_iff.mp hk).1
      rcases Nat.lt_or_ge (k + rest.length) (s.base flush.state) with hold | hnow
      · have hother : ∀ i < rest.length, q ≠ diskPage + i := by
          rintro i hi rfl
          have hindex := (List.getElem?_inj hlt (hp.nodup hlive)).mp (hk.trans (harrives.disk i hi).symm)
          omega
        rw [hkeep q hother]
        rcases hfaithful.stored k q hk with hkept | ⟨call, d, r, hr, hstate, hle⟩
        · exact .inl (hkept.grows hg)
        · have hsame : some (flush, diskPage, rest) = some (call, d, r) := hturns.arriving_unique ht rfl hr hstate
          obtain ⟨rfl, rfl, rfl⟩ : flush = call ∧ diskPage = d ∧ rest = r := by
            simpa only [Option.some.injEq, Prod.mk.injEq] using hsame
          exact absurd hle (Nat.not_le_of_lt hold)
      · obtain ⟨i, hi⟩ : ∃ i, k + rest.length = s.base flush.state + i := Nat.exists_eq_add_of_le hnow
        have hlast : i < rest.length := by omega
        have hindex : s.base flush.state - rest.length + i = k := by omega
        have hdisk := harrives.disk i hlast
        rw [hindex] at hdisk
        obtain rfl := Option.some.inj (hk.symm.trans hdisk)
        rcases Nat.lt_or_ge i (min iovMax rest.length) with hbefore | hafter
        · refine .inl ?_
          obtain ⟨front, hfront⟩ := harrives.suffix
          have hcached : flush.cachedPages[front.length + i]? = some rest[i] := by
            rw [← hfront, List.getElem?_append_right (Nat.le_add_right _ _), Nat.add_sub_cancel_left,
              List.getElem?_eq_getElem hlast]
          have hplace : flush.filePage + (front.length + i) = k := by
            have hsum := harrives.base
            rw [← hfront, List.length_append] at hsum
            omega
          have hwrite : s'.reader.image (diskPage + i) = s.reader.memory rest[i] := by
            rw [himage, write_image_of_mem _ _ _ (hbatch ▸ hbefore), List.getElem_map, List.getElem_take]
          rw [hwrite, ← hplace]
          exact (harrives.pages _ _ hcached).grows hg
        · refine .inr ⟨flush, _, rest.drop iovMax, hnew, rfl, ?_⟩
          rw [List.length_drop]
          omega
    · refine (h.files k hk hc).frame hg (by rw [hfiles]) (by rw [hwritten]) (ahead_set k ht hthreads rfl rfl)
        (fun _ _ => by rw [hmemory]) (fun q hq => hkeep q (fun i hi heq => ?_)) (fun call d r hr hstate => ?_)
      · refine Multiset.disjoint_left.mp (hp.disjoint hk hlive hke) hq ?_
        exact heq ▸ hmine i hi
      · exact mem_arriving_of_others ht rfl hthreads hr (hstate ▸ hke)
  · rw [hbase]
    exact h.unplaced call (mem_unplaced_of_set ht hthreads rfl hf)
  · rcases hsplit _ hr with hr | ⟨hr, hne⟩
    · obtain ⟨rfl, rfl, rfl⟩ : call = flush ∧ d = u32 (diskPage + (rest.take iovMax).length) ∧ r = rest.drop iovMax := by
        simpa only [Prod.mk.injEq] using hr
      refine ⟨by rw [hfiles]; exact hopen, ?_, (List.drop_suffix _ _).trans harrives.suffix, fun i q hi => ?_,
        fun i hi => ?_⟩
      · rw [hbase]
        exact harrives.base
      · rw [hid, hmemory]
        exact (harrives.pages i q hi).grows hg
      · rw [List.length_drop] at hi
        have hdisk := harrives.disk (iovMax + i) (by omega)
        have hlt := hp.lt (Multiset.mem_of_le (Volume.pagesOf_le_held hlive) (List.mem_of_getElem? hdisk))
        have hindex : s.base call.state - rest.length + (iovMax + i) =
            s.base call.state - (rest.length - iovMax) + i := by omega
        rw [hindex] at hdisk
        rw [hfiles, hbase, List.length_drop, List.length_take, Nat.min_eq_left (by omega), u32_of_lt (by omega),
          Nat.add_assoc]
        exact hdisk
    · obtain ⟨hcall, harrives⟩ := h.arriving call d r hr
      rw [hfiles]
      exact ⟨hcall, harrives.frame hg (by rw [hfiles]) (hid _) (fun _ _ => by rw [hmemory])⟩
  · refine Multiset.disjoint_left.mp (hp.apart hlive hd) ?_ hq
    exact heq ▸ hmine i hi
  · refine h.reader.mono (fun key bytes hc => hc.grows hg) (fun _ _ _ _ hr => hr) (fun key q hq => ?_)
      (fun _ _ _ => by rw [hmemory]) (hstep ▸ rfl) (hstep ▸ rfl)
    rw [hmemory]
    refine (h.reader.residents key q ?_).grows hg
    rw [hstep] at hq
    exact hq

theorem enterPages_residents (e : Nat) (others : Multiset Nat) : ∀ (pages : List Nat) (s : DiskWriter) (filePage : Nat)
    {s' : DiskWriter}, s.reader.Paged (pages + others) → s.enterPages e filePage pages = .ok s' →
      ∀ key page, s'.reader.resident key page → s.reader.resident key page ∨
        ∃ i, pages[i]? = some page ∧ filePage + i < 2 ^ 25 ∧ key = pageKey (s.cacheId e) (filePage + i) := by
  intro pages
  induction pages with
  | nil =>
      intro s filePage s' _ h key page hr
      obtain rfl := Except.ok.inj h
      exact .inl hr
  | cons p pages ih =>
      intro s filePage s' hp h key page hr
      rw [← Multiset.cons_coe, Multiset.cons_add] at hp
      rw [DiskWriter.enterPages] at h
      by_cases hfile : filePage < 1 <<< filePagesBits
      case neg =>
        rw [check_of_not hfile] at h
        cases h
      case pos =>
        rw [check_of hfile, ok_bind] at h
        dsimp only at h
        have hbound : filePage < 2 ^ 25 := hfile
        have howned := PageCache.add_owned hp.owned_cons (pageKey (s.cacheId e) filePage)
        cases hadd : s.reader.cache.add (pageKey (s.cacheId e) filePage) p with
        | error stop =>
            rw [show s.reader.cache.add (DiskReader.keyOf (UInt64.ofNat (s.files e).descriptor.cacheId)
              (UInt32.ofNat filePage)) p = .error stop from hadd] at h
            cases h
        | ok cache =>
            rw [show s.reader.cache.add (DiskReader.keyOf (UInt64.ofNat (s.files e).descriptor.cacheId)
              (UInt32.ofNat filePage)) p = .ok cache from hadd, ok_bind] at h
            rw [hadd] at howned
            rw [u32_of_lt (by omega)] at h
            have hgiven : DiskReader.Paged { s.reader with cache := cache } (pages + others) := hp.give howned.1
            rcases ih _ _ hgiven h key page hr with hold | ⟨i, hi, hlt, hkey⟩
            · rcases Multiset.mem_cons.mp (Multiset.mem_of_le (PageCache.add_residents hp.owned_cons hadd) hold) with
                heq | hold
              · obtain ⟨rfl, rfl⟩ := Prod.mk.inj heq
                exact .inr ⟨0, rfl, hbound, rfl⟩
              · exact .inl hold
            · refine .inr ⟨i + 1, hi, by omega, ?_⟩
              rw [hkey, show filePage + 1 + i = filePage + (i + 1) by omega]
              rfl

theorem Contents.finish (h : s.Contents ds) (hturns : s.Turns) (hl : s.Ledger total maxDirty 0) {diskPage : Nat}
    {waiting : List Nat} {s₁ : DiskWriter} (ht : s.threads[t]? = some (.batch flush diskPage []))
    (henter : s.enterPages flush.state flush.filePage flush.cachedPages = .ok s₁) :
    ((s₁.cleanPages flush.cachedPages.length).releaseLatch t flush waiting).Contents ds := by
  have hsplit := dirty_setStage ht .user
  have hpaged : s.reader.Paged ((flush.cachedPages : Multiset Nat) + (s.setStage t .user).dirty) := by
    have hreader := hl.reader
    rw [add_zero] at hreader
    have hdirty : (s.setStage t .user).dirty + (flush.cachedPages : Multiset Nat) = s.dirty + 0 := hsplit
    rw [add_zero, add_comm] at hdirty
    rw [hdirty]
    exact hreader
  have hresidents := enterPages_residents flush.state _ flush.cachedPages s flush.filePage hpaged henter
  obtain ⟨cache, entered, rfl⟩ := enterPages_eq _ _ _ henter
  generalize hs' : DiskWriter.releaseLatch _ t flush waiting = s'
  obtain ⟨stage', hthreads, hunplaced, harriving⟩ : ∃ stage', s'.threads = s.threads.set t stage' ∧
      stage'.unplaced = none ∧ stage'.arriving = none := by
    subst hs'
    refine ⟨_, rfl, ?_, ?_⟩ <;> split <;> rfl
  have hfiles : s'.files = s.files := hs' ▸ rfl
  have hmemory : s'.reader.memory = s.reader.memory := hs' ▸ rfl
  have himage : s'.reader.image = s.reader.image := hs' ▸ rfl
  have hwritten : s'.written = s.written := hs' ▸ rfl
  have hnext : s'.nextCacheId = s.nextCacheId := hs' ▸ rfl
  have hstates : s'.states = s.states := hs' ▸ rfl
  have hid : ∀ k, s'.cacheId k = s.cacheId k := fun k => by rw [cacheId, hfiles, cacheId]
  have hbase : ∀ k, s'.base k = s.base k := fun k => by rw [base, hfiles, base]
  have hg : Grows s s' := grows_of_written hnext hwritten (fun _ hk => hstates ▸ hk)
    (fun k => ⟨hid k, fun hk => by rwa [hfiles] at hk⟩)
  obtain ⟨hopen, harrives⟩ := h.arriving flush diskPage []
    (List.mem_filterMap.mpr ⟨_, List.mem_of_getElem? ht, rfl⟩)
  refine ⟨hnext ▸ h.ids, fun id hle => ?_, fun k hk hc => ?_, fun call hf => ?_, fun call d r hr => ?_,
    fun d hd => (h.commited d hd).frame hg (fun _ _ => by rw [himage]), ?_⟩
  · rw [hwritten]
    exact h.unwritten id (hnext ▸ hle)
  · rw [hstates] at hk
    rw [hfiles] at hc
    have hcoming : s'.coming k = s.coming k := by
      rw [DiskWriter.coming, ahead_set _ ht hthreads rfl hunplaced, hfiles, DiskWriter.coming]
    have hfaithful := h.files k hk hc
    refine hfaithful.transfer hg (by rw [hfiles]) (by rw [hfiles]) (by rw [hfiles]) (by rw [hfiles]) hcoming
      (by rw [hwritten]) (fun _ _ => by rw [hmemory]) (fun i q hi => ?_)
    rw [himage]
    rcases hfaithful.stored i q hi with hkept | ⟨call, d, r, hr, hstate, hle⟩
    · exact .inl (hkept.grows hg)
    · by_cases hke : k = flush.state
      · have hsame : some (flush, diskPage, []) = some (call, d, r) :=
          hturns.arriving_unique ht rfl hr (hstate.trans hke)
        obtain ⟨rfl, rfl, rfl⟩ : flush = call ∧ diskPage = d ∧ [] = r := by
          simpa only [Option.some.injEq, Prod.mk.injEq] using hsame
        exact absurd hle (Nat.not_le_of_lt (List.getElem?_eq_some_iff.mp hi).1)
      · exact .inr ⟨call, d, r, mem_arriving_of_others ht rfl hthreads hr (hstate ▸ hke), hstate, hle⟩
  · rw [hbase]
    exact h.unplaced call (mem_unplaced_of_set ht hthreads hunplaced hf)
  · rcases mem_arriving_set ht hthreads hr with hnew | ⟨j, x, -, hx, hxr⟩
    · rw [harriving] at hnew
      cases hnew
    · obtain ⟨hcall, harrives⟩ := h.arriving call d r (List.mem_filterMap.mpr ⟨x, List.mem_of_getElem? hx, hxr⟩)
      rw [hfiles]
      exact ⟨hcall, harrives.frame hg (by rw [hfiles]) (hid _) (fun _ _ => by rw [hmemory])⟩
  · refine h.reader.mono (fun key bytes hc => hc.grows hg) (fun _ _ _ _ hr => hr) (fun key q hq => ?_)
      (fun _ _ _ => by rw [hmemory]) (hs' ▸ rfl) (hs' ▸ rfl)
    rw [← hs'] at hq
    rw [hmemory]
    rcases hresidents key q hq with hold | ⟨i, hi, hlt, hkey⟩
    · exact (h.reader.residents key q hold).grows hg
    · have hkept := harrives.pages i q hi
      exact ⟨s.cacheId flush.state, flush.filePage + i, hkept.known.trans_le h.ids, hlt, hkey, hkept.grows hg⟩

end Tyrdbs.Storage.DiskWriter
