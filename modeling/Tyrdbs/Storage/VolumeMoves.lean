import Tyrdbs.Storage.VolumeFlushes

namespace Tyrdbs.Storage

open Allocator Outcome

namespace DiskReader

variable {s s' : DiskReader} {others : Multiset Nat} {id page : Nat} {key : UInt64}

/-- The pages of memory and those of the disk are as they were. -/
def SamePages (s s' : DiskReader) : Prop := s'.memory = s.memory ∧ s'.image = s.image

theorem leave_same (s : DiskReader) (id : Nat) (key : UInt64) (page : Nat) :
    Yields (fun _ => True) (SamePages s) (s.leave id key page) := by
  refine (yields_true _).bind (fun r _ => ?_)
  dsimp only
  split
  · exact (yields_true _).bind (fun _ _ => ⟨rfl, rfl⟩)
  · exact ⟨rfl, rfl⟩

theorem waitFor_same (s : DiskReader) (id : Nat) (key : UInt64) (page : Nat) :
    Yields (fun _ => True) (SamePages s) (s.waitFor id key page) := by
  refine (yields_true _).bind (fun wait _ => ?_)
  split
  · exact (yields_true _).bind (fun _ _ => ⟨rfl, rfl⟩)
  · exact leave_same _ id key page

theorem read_same (s : DiskReader) (cacheId : UInt64) (filePage : UInt32) (extents : List Nat) :
    Yields (fun _ => True) (SamePages s) (s.read cacheId filePage extents) := by
  refine (yields_true _).bind (fun _ _ => (yields_true _).bind (fun r _ => ?_))
  dsimp only
  split
  · exact ⟨rfl, rfl⟩
  · split
    · exact (yields_true _).bind (fun _ _ => (yields_true _).bind (fun _ _ => ⟨rfl, rfl⟩))
    · exact waitFor_same _ _ _ _

/-- A page that is read from the disk goes to a page of memory that nobody else
has. -/
theorem Paged.untouched (h : s.Paged others) (a : Action) :
    Yields (fun _ => True) (fun s' => s'.image = s.image ∧ ∀ page ∈ others, s'.memory page = s.memory page)
      (s.apply a) := by
  have hsame : ∀ u, SamePages s u → u.image = s.image ∧ ∀ page ∈ others, u.memory page = s.memory page :=
    fun u hu => ⟨hu.2, fun page _ => congrFun hu.1 page⟩
  cases a with
  | read cacheId filePage extents => exact (read_same s cacheId filePage extents).mono hsame
  | readDone id =>
      rw [DiskReader.apply]
      split
      case h_1 key page diskPage hc =>
        obtain ⟨e, he, hvalue⟩ := h.linked id _ hc (by simp [Call.inside])
        have hne : ∀ other ∈ others, other ≠ page := by
          rintro other hother rfl
          obtain ⟨free, -, hsplit⟩ := h.owned.split
          have hnodup := h.owned.nodup
          rw [hsplit] at hnodup
          refine Multiset.disjoint_left.mp (Multiset.nodup_add.mp (Multiset.nodup_add.mp hnodup).2.1).2.2 ?_ hother
          rw [Latch.held_of_find he, hvalue]
          exact Multiset.mem_cons_self ..
        refine (yields_true _).bind (fun r _ => ?_)
        refine (leave_same _ id key page).mono (fun u hu => ⟨hu.2, fun other hother => ?_⟩)
        rw [hu.1]
        exact Function.update_of_ne (hne other hother) _ _
      case h_2 => exact hsame s ⟨rfl, rfl⟩
  | resume id =>
      rw [DiskReader.apply]
      split
      case h_1 key page hc => exact (waitFor_same _ id key page).mono hsame
      case h_2 => exact hsame s ⟨rfl, rfl⟩

end DiskReader

namespace DiskWriter

variable {s s' : DiskWriter} {t e page total maxDirty : Nat} {ds : List Descriptor} {d : Descriptor}

theorem Orderly.ahead_of_dead (ho : s.Orderly) (he : e ∉ s.states) : s.ahead e = [] := by
  refine List.flatMap_eq_nil_iff.mpr (fun x hx => Stage.ahead_of_others (fun call hc heq => he ?_))
  exact heq ▸ ho.live x hx call.state (Stage.state_of_flush hc)

theorem Unflushed.ahead (hu : s.Unflushed e) : s.ahead e = [] :=
  List.flatMap_eq_nil_iff.mpr (fun x hx => Stage.ahead_of_others (fun call hc => hu x hx call hc))

theorem Contents.create (h : s.Contents ds) (ho : s.Orderly) (hnext : s.nextCacheId < 2 ^ 39) :
    s.allocate.Contents ds := by
  have hlive : ∀ {k}, k ∈ s.states → s.allocate.files k = s.files k := fun hk => allocate_files_of_live ho hk
  have hself := allocate_files_self s
  have hflight : ∀ {x flush}, x ∈ s.threads → x.flush? = some flush → s.allocate.files flush.state = s.files flush.state :=
    fun hx hf => hlive (ho.live _ hx _ (Stage.state_of_flush hf))
  have hmem : ∀ k ∈ s.allocate.states, k ∈ s.states ∨ k = s.freed.headD s.fresh :=
    fun k hk => (List.mem_append.mp hk).imp_right List.mem_singleton.mp
  have hg : Grows s s.allocate := by
    refine ⟨Nat.le_succ _, fun id => .inl rfl, fun k hk hopen => ?_⟩
    rcases hmem k hk with hk | rfl
    · rw [hlive hk] at hopen
      exact .inr ⟨hk, by rw [cacheId, hlive hk, cacheId], hopen⟩
    · refine .inl ?_
      rw [cacheId, hself]
  refine ⟨hnext, fun id hle => h.unwritten id (Nat.le_of_succ_le hle), fun k hk hopen => ?_, fun flush hf => ?_,
    fun flush diskPage rest hr => ?_, fun d hd => (h.commited d hd).frame hg (fun _ _ => rfl), ?_⟩
  · rcases hmem k hk with hk | rfl
    · rw [hlive hk] at hopen
      exact (h.files k hk hopen).frame hg (hlive hk) rfl rfl (fun _ _ => rfl) (fun _ _ => rfl) (fun _ _ _ hr _ => hr)
    · have hid : s.allocate.cacheId (s.freed.headD s.fresh) = s.nextCacheId := by rw [cacheId, hself]
      have hwritten : s.allocate.written s.nextCacheId = [] := h.unwritten _ (Nat.le_refl _)
      have hcoming : s.allocate.coming (s.freed.headD s.fresh) = [] := by
        rw [DiskWriter.coming, hself]
        exact (List.append_nil _).trans (ho.ahead_of_dead ho.fresh_notMem)
      have hfilled : s.allocate.filled (s.freed.headD s.fresh) = 0 := by
        rw [filled, hcoming, base, hself]
        rfl
      refine ⟨?_, ?_, ?_, fun _ => ?_, fun _ => ?_, fun hvalid => ?_, fun i page hi => ?_, fun i page hi => ?_⟩
      · rw [hid]
        exact Nat.lt_succ_self _
      · rw [hid, hwritten, hself]
        rfl
      · rw [hself]
        exact Nat.zero_le _
      · rw [hid, hwritten, hfilled, Nat.zero_mul, hself]
        rfl
      · rw [hid, hwritten]
        exact Nat.zero_le _
      · rw [hself] at hvalid
        exact absurd rfl hvalid
      · rw [hcoming] at hi
        cases hi
      · rw [hself] at hi
        cases hi
  · obtain ⟨x, hx, hxf⟩ := List.mem_filterMap.mp hf
    rw [base, hflight hx (Stage.flush_of_unplaced hxf)]
    exact h.unplaced flush hf
  · obtain ⟨x, hx, hxr⟩ := List.mem_filterMap.mp hr
    have hfile := hflight hx (Stage.flush_of_arriving hxr)
    obtain ⟨hopen, harrives⟩ := h.arriving flush diskPage rest hr
    rw [hfile]
    exact ⟨hopen, harrives.frame hg (by rw [hfile]) (by rw [cacheId, hfile, cacheId]) (fun _ _ => rfl)⟩
  · exact h.reader.weaken (fun key bytes hc => hc.grows hg) (fun _ _ hr => hr)

theorem Contents.drop (h : s.Contents ds) (e : Nat) (hstates : s'.states = s.states.erase e) (hfiles : s'.files = s.files)
    (hthreads : s'.threads = s.threads) (hnext : s'.nextCacheId = s.nextCacheId) (hwritten : s'.written = s.written)
    (hcache : s'.reader.cache.cache = s.reader.cache.cache) (hlatch : s'.reader.latch = s.reader.latch)
    (hcalls : s'.reader.calls = s.reader.calls) (hmemory : s'.reader.memory = s.reader.memory)
    (himage : s'.reader.image = s.reader.image) : s'.Contents ds := by
  have hlive : ∀ k ∈ s'.states, k ∈ s.states := fun k hk => List.mem_of_mem_erase (hstates ▸ hk)
  have hg : Grows s s' := grows_of_written hnext hwritten hlive
    (fun k => by rw [cacheId, hfiles]; exact ⟨rfl, fun hk => hk⟩)
  have hunplaced : s'.unplaced = s.unplaced := by rw [DiskWriter.unplaced, hthreads, DiskWriter.unplaced]
  have harriving : s'.arriving = s.arriving := by rw [DiskWriter.arriving, hthreads, DiskWriter.arriving]
  have hbytes : ∀ page, s'.reader.memory page = s.reader.memory page := congrFun hmemory
  have hdisk : ∀ page, s'.reader.image page = s.reader.image page := congrFun himage
  refine ⟨hnext ▸ h.ids, fun id hle => ?_, fun k hk hopen => ?_, fun flush hf => ?_, fun flush diskPage rest hr => ?_,
    fun d hd => (h.commited d hd).frame hg (fun page _ => hdisk page), ?_⟩
  · rw [hwritten]
    exact h.unwritten id (hnext ▸ hle)
  · rw [hfiles] at hopen
    exact (h.files k (hlive k hk) hopen).frame hg (by rw [hfiles]) (by rw [hwritten]) (by rw [ahead, hthreads, ahead])
      (fun page _ => hbytes page) (fun page _ => hdisk page) (fun _ _ _ hr _ => harriving ▸ hr)
  · rw [base, hfiles]
    exact h.unplaced flush (hunplaced ▸ hf)
  · obtain ⟨hopen, harrives⟩ := h.arriving flush diskPage rest (harriving ▸ hr)
    rw [hfiles]
    exact ⟨hopen, harrives.frame hg (by rw [hfiles]) (by rw [cacheId, hfiles, cacheId]) (fun page _ => hbytes page)⟩
  · refine h.reader.mono (fun key bytes hc => hc.grows hg) (fun _ _ _ _ hr => hr) (fun key page hp => ?_)
      (fun key e he => hbytes e.value) hlatch hcalls
    rw [DiskReader.resident, hcache] at hp
    rw [hbytes]
    exact (h.reader.residents key page hp).grows hg

theorem Faithful.readable (h : s.Faithful e) (hturns : s.Turns) (he : e ∈ s.states) (hu : s.Unflushed e)
    (hflushed : (s.files e).flushed = true) (hpage : (s.files e).memPage = invalidHandle)
    (hcached : (s.files e).cachedPages = []) : s.Readable (s.files e).descriptor := by
  have hfilled : s.filled e = s.base e := by
    rw [filled, DiskWriter.coming, hu.ahead, hcached]
    rfl
  have hbound := h.bound hpage
  rw [hfilled] at hbound
  refine ⟨h.known, h.size, h.size.trans_le hbound, fun k page hk => ?_, fun k hk hid => ?_⟩
  · rcases h.stored k page hk with hkept | ⟨flush, diskPage, rest, hr, hstate, -⟩
    · exact hkept
    · obtain ⟨x, hx, hxr⟩ := List.mem_filterMap.mp hr
      exact absurd hstate (hu x hx flush (Stage.flush_of_arriving hxr))
  · rw [hturns.distinct k hk e he hid]
    exact hflushed

theorem Contents.commit (h : s.Contents ds) (hturns : s.Turns) (he : e ∈ s.states) (hu : s.Unflushed e)
    (hflushed : (s.files e).flushed = true) (hopen : (s.files e).commited = false)
    (hpage : (s.files e).memPage = invalidHandle) (hcached : (s.files e).cachedPages = []) :
    (s.setFile e (released (s.files e))).Contents (ds ++ [(s.files e).descriptor]) := by
  have hreadable := (h.files e he hopen).readable hturns he hu hflushed hpage hcached
  have hself : (s.setFile e (released (s.files e))).files e = released (s.files e) := setFile_self ..
  have hother : ∀ k, k ≠ e → (s.setFile e (released (s.files e))).files k = s.files k :=
    fun k hk => Function.update_of_ne hk _ _
  have hg : Grows s (s.setFile e (released (s.files e))) := by
    refine grows_of_written rfl rfl (fun _ hk => hk) (fun k => ?_)
    by_cases hke : k = e
    · subst hke
      rw [cacheId, hself]
      exact ⟨rfl, fun hk => hk⟩
    · rw [cacheId, hother k hke]
      exact ⟨rfl, fun hk => hk⟩
  refine ⟨h.ids, h.unwritten, fun k hk hopen => ?_, fun flush hf => ?_, fun flush diskPage rest hr => ?_,
    fun d hd => ?_, ?_⟩
  · have hke : k ≠ e := by
      rintro rfl
      rw [hself] at hopen
      cases hopen
    rw [hother k hke] at hopen
    exact (h.files k hk hopen).frame hg (hother k hke) rfl rfl (fun _ _ => rfl) (fun _ _ => rfl) (fun _ _ _ hr _ => hr)
  · obtain ⟨x, hx, hxf⟩ := List.mem_filterMap.mp hf
    rw [base, hother _ (hu x hx flush (Stage.flush_of_unplaced hxf))]
    exact h.unplaced flush hf
  · obtain ⟨x, hx, hxr⟩ := List.mem_filterMap.mp hr
    have hfile := hother _ (hu x hx flush (Stage.flush_of_arriving hxr))
    obtain ⟨hopen, harrives⟩ := h.arriving flush diskPage rest hr
    rw [hfile]
    exact ⟨hopen, harrives.frame hg (by rw [hfile]) (by rw [cacheId, hfile, cacheId]) (fun _ _ => rfl)⟩
  · rcases List.mem_append.mp hd with hd | hd
    · exact (h.commited d hd).frame hg (fun _ _ => rfl)
    · rw [List.mem_singleton.mp hd]
      exact hreadable.frame hg (fun _ _ => rfl)
  · refine h.reader.weaken (fun key bytes hc => hc.grows hg) (fun key diskPage hr => ?_)
    obtain ⟨d, hd, hr⟩ := hr
    exact ⟨d, List.mem_append_left _ hd, hr⟩

theorem Contents.blocks (h : s.Contents ds) (blocks : Allocator) : Contents { s with blocks := blocks } ds := by
  have hg : Grows s { s with blocks := blocks } :=
    grows_of_written rfl rfl (fun _ hk => hk) (fun _ => ⟨rfl, fun hk => hk⟩)
  refine ⟨h.ids, h.unwritten, fun k hk hopen => ?_, h.unplaced, fun flush diskPage rest hr => ?_,
    fun c hc => (h.commited c hc).frame hg (fun _ _ => rfl), h.reader.weaken (fun _ _ hc => hc.grows hg) (fun _ _ hr => hr)⟩
  · exact (h.files k hk hopen).frame hg rfl rfl rfl (fun _ _ => rfl) (fun _ _ => rfl) (fun _ _ _ hr _ => hr)
  · obtain ⟨hopen, harrives⟩ := h.arriving flush diskPage rest hr
    exact ⟨hopen, harrives.frame hg rfl rfl (fun _ _ => rfl)⟩

theorem Contents.unlink (h : s.Contents ds)
    (hidle : ∀ call ∈ s.reader.calls, ∀ k,
      call.inside (DiskReader.keyOf (UInt64.ofNat d.cacheId) k) = false) : s.Contents (ds.erase d) := by
  refine ⟨h.ids, h.unwritten, h.files, h.unplaced, h.arriving, fun c hc => h.commited c (List.mem_of_mem_erase hc), ?_⟩
  refine h.reader.mono (fun _ _ hc => hc) (fun key page diskPage hc hr => ?_) h.reader.residents (fun _ _ _ => rfl) rfl rfl
  obtain ⟨c, hcd, k, hk, hkey, hpage⟩ := hr
  refine ⟨c, (List.mem_erase_of_ne ?_).mpr hcd, k, hk, hkey, hpage⟩
  rintro rfl
  have hinside := hidle _ hc (UInt32.ofNat k)
  rw [show key = DiskReader.keyOf (UInt64.ofNat c.cacheId) (UInt32.ofNat k) from hkey] at hinside
  simp [Call.inside] at hinside

theorem Contents.read (h : s.Contents ds) (hl : s.Ledger total maxDirty 0) {a : DiskReader.Action}
    {reader : DiskReader} (happly : s.reader.apply a = .ok reader)
    (hreads : ∀ cacheId filePage extents, a = .read cacheId filePage extents →
      Reads ds (DiskReader.keyOf cacheId filePage) (getDiskPage extents filePage.toNat)) :
    Contents { s with reader := reader } ds := by
  have hg : Grows s { s with reader := reader } :=
    grows_of_written rfl rfl (fun _ hk => hk) (fun _ => ⟨rfl, fun hk => hk⟩)
  obtain ⟨himage, hmemory⟩ := (hl.reader.untouched a).of_ok happly
  have hmemory : ∀ page ∈ s.dirty, reader.memory page = s.reader.memory page :=
    fun page hp => hmemory page (by rwa [add_zero])
  refine ⟨h.ids, h.unwritten, fun k hk hopen => ?_, h.unplaced, fun flush diskPage rest hr => ?_,
    fun c hc => (h.commited c hc).frame hg (fun page _ => congrFun himage page), ?_⟩
  · refine (h.files k hk hopen).frame hg rfl rfl rfl (fun page hp => ?_) (fun page _ => congrFun himage page)
      (fun _ _ _ hr _ => hr)
    rcases hp with hp | ⟨rfl, hp⟩
    · exact hmemory page (coming_mem_dirty hk hp)
    · exact hmemory _ (memPage_mem_dirty hk hp)
  · obtain ⟨x, hx, hxr⟩ := List.mem_filterMap.mp hr
    obtain ⟨hopen, harrives⟩ := h.arriving flush diskPage rest hr
    refine ⟨hopen, harrives.frame hg rfl rfl (fun page hp => ?_)⟩
    exact hmemory page (flight_mem_dirty hx (Stage.flush_of_arriving hxr) hp)
  · have hread : ∀ key diskPage, Reads ds key diskPage → s.Caches key (s.reader.image diskPage) := by
      rintro key diskPage ⟨d, hd, k, hk, rfl, hpage⟩
      have hreadable := h.commited d hd
      exact ⟨d.cacheId, k, hreadable.known.trans_le h.ids, hk, rfl, hreadable.stored k diskPage hpage⟩
    have hserves := (h.reader.apply hl.reader hread hreads).of_ok happly
    exact hserves.weaken (fun key bytes hc => hc.grows hg) (fun _ _ hr => hr)

end DiskWriter

end Tyrdbs.Storage
