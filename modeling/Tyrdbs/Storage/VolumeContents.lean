import Tyrdbs.Storage.VolumeExtents

namespace Tyrdbs.Storage

open Allocator Outcome Bytes

def pageOf (bytes : List Byte) (k : Nat) : List Byte := slice bytes (k * pageSize) pageSize

theorem pageOf_append {bytes data : List Byte} {k : Nat} (h : (k + 1) * pageSize ≤ bytes.length) :
    pageOf (bytes ++ data) k = pageOf bytes k := slice_append_left (by rwa [Nat.succ_mul] at h)

namespace DiskWriter

/-- A page has what was written to page k of a file, and nothing more will be
written there. -/
structure Kept (s : DiskWriter) (id k : Nat) (page : Page) : Prop where
  known : id < s.nextCacheId
  shows : pageOf (s.written id) k <+: page.bytes
  stable : ∀ e ∈ s.states, s.cacheId e = id → (s.files e).flushed = false → (k + 1) * pageSize ≤ (s.written id).length

/-- Files that are open may get longer, new files may come. -/
structure Grows (s s' : DiskWriter) : Prop where
  next : s.nextCacheId ≤ s'.nextCacheId
  written : ∀ id, s'.written id = s.written id ∨ (∃ data, s'.written id = s.written id ++ data) ∧
    ∃ e ∈ s.states, s.cacheId e = id ∧ (s.files e).flushed = false
  live : ∀ e ∈ s'.states, (s'.files e).flushed = false → s.nextCacheId ≤ s'.cacheId e ∨
    e ∈ s.states ∧ s'.cacheId e = s.cacheId e ∧ (s.files e).flushed = false

variable {s s' : DiskWriter} {t e id k : Nat} {flush : Flush} {page : Page} {ds : List Descriptor}

theorem Kept.grows (h : s.Kept id k page) (hg : Grows s s') : s'.Kept id k page := by
  have hlen : (s.written id).length ≤ (s'.written id).length := by
    rcases hg.written id with hsame | ⟨⟨data, hdata⟩, -⟩
    · rw [hsame]
    · rw [hdata, List.length_append]
      exact Nat.le_add_right _ _
  refine ⟨h.known.trans_le hg.next, ?_, fun e he hid hopen => ?_⟩
  · rcases hg.written id with hsame | ⟨⟨data, hdata⟩, e, he, hid, hopen⟩
    · rw [hsame]
      exact h.shows
    · rw [hdata, pageOf_append (h.stable e he hid hopen)]
      exact h.shows
  · rcases hg.live e he hopen with hnew | ⟨hold, hsame, hopen⟩
    · exact absurd h.known (Nat.not_lt_of_le (hid ▸ hnew))
    · exact (h.stable e hold (hsame.symm.trans hid) hopen).trans hlen

theorem grows_of_written (hnext : s'.nextCacheId = s.nextCacheId) (hwritten : s'.written = s.written)
    (hstates : ∀ e ∈ s'.states, e ∈ s.states)
    (hfiles : ∀ e, s'.cacheId e = s.cacheId e ∧ ((s'.files e).flushed = false → (s.files e).flushed = false)) :
    Grows s s' where
  next := hnext.ge
  written := fun id => .inl (congrFun hwritten id)
  live := fun e he hopen => .inr ⟨hstates e he, (hfiles e).1, (hfiles e).2 hopen⟩

theorem Quiet.grows (h : Quiet s s') : Grows s s' := by
  refine grows_of_written h.next h.written (fun e he => h.states ▸ he) (fun e => ⟨?_, fun hopen => ?_⟩)
  · rw [cacheId, h.files]
    rfl
  · rwa [h.files] at hopen

/-- How many pages of a file are on the disk, or have a place there. -/
def base (s : DiskWriter) (e : Nat) : Nat := (pagesOf (s.files e).descriptor.extents).length

/-- The complete pages of a file that are still to come to the disk. -/
def coming (s : DiskWriter) (e : Nat) : List Nat := s.ahead e ++ (s.files e).cachedPages

def filled (s : DiskWriter) (e : Nat) : Nat := s.base e + (s.coming e).length

/-- Each page of a file, wherever it is, has what was written to it. -/
structure Faithful (s : DiskWriter) (e : Nat) : Prop where
  known : s.cacheId e < s.nextCacheId
  size : (s.files e).descriptor.size = (s.written (s.cacheId e)).length
  offset : (s.files e).bufferOffset ≤ pageSize
  length : (s.files e).flushed = false ∨ (s.files e).memPage ≠ invalidHandle →
    (s.written (s.cacheId e)).length = s.filled e * pageSize + (s.files e).bufferOffset
  bound : (s.files e).memPage = invalidHandle → (s.written (s.cacheId e)).length ≤ s.filled e * pageSize
  buffer : (s.files e).memPage ≠ invalidHandle →
    (s.reader.memory (s.files e).memPage).bytes.take (s.files e).bufferOffset =
      (s.written (s.cacheId e)).drop (s.filled e * pageSize)
  coming : ∀ (i page : Nat), (s.coming e)[i]? = some page → s.Kept (s.cacheId e) (s.base e + i) (s.reader.memory page)
  stored : ∀ (k page : Nat), (pagesOf (s.files e).descriptor.extents)[k]? = some page →
    s.Kept (s.cacheId e) k (s.reader.image page) ∨
      ∃ flush diskPage rest, (flush, diskPage, rest) ∈ s.arriving ∧ flush.state = e ∧ s.base e ≤ k + rest.length

/-- The pages of a flush that has a place on the disk, and which of them are
still to be written there. -/
structure Arrives (s : DiskWriter) (flush : Flush) (diskPage : Nat) (rest : List Nat) : Prop where
  base : flush.filePage + flush.cachedPages.length = s.base flush.state
  suffix : rest <:+ flush.cachedPages
  pages : ∀ (i page : Nat), flush.cachedPages[i]? = some page →
    s.Kept (s.cacheId flush.state) (flush.filePage + i) (s.reader.memory page)
  disk : ∀ i < rest.length,
    (pagesOf (s.files flush.state).descriptor.extents)[s.base flush.state - rest.length + i]? = some (diskPage + i)

structure Readable (s : DiskWriter) (d : Descriptor) : Prop where
  known : d.cacheId < s.nextCacheId
  size : d.size = (s.written d.cacheId).length
  covers : d.size ≤ (pagesOf d.extents).length * pageSize
  stored : ∀ (k page : Nat), (pagesOf d.extents)[k]? = some page → s.Kept d.cacheId k (s.reader.image page)
  closed : ∀ e ∈ s.states, s.cacheId e = d.cacheId → (s.files e).flushed = true

def pageKey (id k : Nat) : UInt64 := DiskReader.keyOf (UInt64.ofNat id) (UInt32.ofNat k)

def Caches (s : DiskWriter) (key : UInt64) (page : Page) : Prop :=
  ∃ id k, id < 2 ^ 39 ∧ k < 2 ^ 25 ∧ key = pageKey id k ∧ s.Kept id k page

/-- The disk page of a key, as some descriptor has it. -/
def Reads (ds : List Descriptor) (key : UInt64) (diskPage : Nat) : Prop :=
  ∃ d ∈ ds, ∃ k, k < 2 ^ 25 ∧ key = pageKey d.cacheId k ∧ (pagesOf d.extents)[k]? = some diskPage

structure Contents (s : DiskWriter) (ds : List Descriptor) : Prop where
  ids : s.nextCacheId ≤ 2 ^ 39
  unwritten : ∀ id, s.nextCacheId ≤ id → s.written id = []
  files : ∀ e ∈ s.states, (s.files e).commited = false → s.Faithful e
  unplaced : ∀ flush ∈ s.unplaced, flush.filePage = s.base flush.state
  arriving : ∀ flush diskPage rest, (flush, diskPage, rest) ∈ s.arriving →
    (s.files flush.state).commited = false ∧ s.Arrives flush diskPage rest
  commited : ∀ d ∈ ds, s.Readable d
  reader : s.reader.Serves s.Caches (Reads ds)

theorem Caches.grows {key : UInt64} (h : s.Caches key page) (hg : Grows s s') : s'.Caches key page := by
  obtain ⟨id, k, hid, hk, hkey, hkept⟩ := h
  exact ⟨id, k, hid, hk, hkey, hkept.grows hg⟩

/-- A file's pages are where they were, but for those that have a place on the
disk. -/
theorem Faithful.transfer (h : s.Faithful e) (hg : Grows s s')
    (hdescriptor : (s'.files e).descriptor = (s.files e).descriptor)
    (hpage : (s'.files e).memPage = (s.files e).memPage) (hoffset : (s'.files e).bufferOffset = (s.files e).bufferOffset)
    (hflushed : (s'.files e).flushed = (s.files e).flushed) (hcoming : s'.coming e = s.coming e)
    (hwritten : s'.written (s.cacheId e) = s.written (s.cacheId e))
    (hmemory : ∀ page, page ∈ s.coming e ∨ page = (s.files e).memPage ∧ page ≠ invalidHandle →
      s'.reader.memory page = s.reader.memory page)
    (hstored : ∀ (k page : Nat), (pagesOf (s.files e).descriptor.extents)[k]? = some page →
      s'.Kept (s.cacheId e) k (s'.reader.image page) ∨ ∃ flush diskPage rest,
        (flush, diskPage, rest) ∈ s'.arriving ∧ flush.state = e ∧ s.base e ≤ k + rest.length) : s'.Faithful e := by
  have hid : s'.cacheId e = s.cacheId e := congrArg Descriptor.cacheId hdescriptor
  have hbase : s'.base e = s.base e := by rw [DiskWriter.base, hdescriptor, DiskWriter.base]
  have hfilled : s'.filled e = s.filled e := by rw [filled, hbase, hcoming, filled]
  refine ⟨?_, ?_, hoffset ▸ h.offset, fun hcase => ?_, fun hinvalid => ?_, fun hvalid => ?_, fun i page hi => ?_,
    fun k page hk => ?_⟩
  · rw [hid]
    exact h.known.trans_le hg.next
  · rw [hid, hdescriptor, hwritten]
    exact h.size
  · rw [hflushed, hpage] at hcase
    rw [hid, hoffset, hwritten, hfilled]
    exact h.length hcase
  · rw [hpage] at hinvalid
    rw [hid, hwritten, hfilled]
    exact h.bound hinvalid
  · rw [hpage] at hvalid
    rw [hid, hpage, hoffset, hwritten, hfilled, hmemory _ (.inr ⟨rfl, hvalid⟩)]
    exact h.buffer hvalid
  · rw [hcoming] at hi
    rw [hid, hbase, hmemory page (.inl (List.mem_of_getElem? hi))]
    exact (h.coming i page hi).grows hg
  · rw [hdescriptor] at hk
    rw [hid, hbase]
    exact hstored k page hk

theorem Faithful.same (h : s.Faithful e) (hg : Grows s s')
    (hdescriptor : (s'.files e).descriptor = (s.files e).descriptor)
    (hpage : (s'.files e).memPage = (s.files e).memPage) (hoffset : (s'.files e).bufferOffset = (s.files e).bufferOffset)
    (hflushed : (s'.files e).flushed = (s.files e).flushed) (hcoming : s'.coming e = s.coming e)
    (hwritten : s'.written (s.cacheId e) = s.written (s.cacheId e))
    (hmemory : ∀ page, page ∈ s.coming e ∨ page = (s.files e).memPage ∧ page ≠ invalidHandle →
      s'.reader.memory page = s.reader.memory page)
    (himage : ∀ page ∈ pagesOf (s.files e).descriptor.extents, s'.reader.image page = s.reader.image page)
    (harriving : ∀ flush diskPage rest, (flush, diskPage, rest) ∈ s.arriving → flush.state = e →
      (flush, diskPage, rest) ∈ s'.arriving) : s'.Faithful e := by
  refine h.transfer hg hdescriptor hpage hoffset hflushed hcoming hwritten hmemory (fun k page hk => ?_)
  rw [himage page (List.mem_of_getElem? hk)]
  rcases h.stored k page hk with hkept | ⟨flush, diskPage, rest, harr, hstate, hle⟩
  · exact .inl (hkept.grows hg)
  · exact .inr ⟨flush, diskPage, rest, harriving flush diskPage rest harr hstate, hstate, hle⟩

theorem Faithful.frame (h : s.Faithful e) (hg : Grows s s') (hfile : s'.files e = s.files e)
    (hwritten : s'.written (s.cacheId e) = s.written (s.cacheId e)) (hahead : s'.ahead e = s.ahead e)
    (hmemory : ∀ page, page ∈ s.coming e ∨ page = (s.files e).memPage ∧ page ≠ invalidHandle →
      s'.reader.memory page = s.reader.memory page)
    (himage : ∀ page ∈ pagesOf (s.files e).descriptor.extents, s'.reader.image page = s.reader.image page)
    (harriving : ∀ flush diskPage rest, (flush, diskPage, rest) ∈ s.arriving → flush.state = e →
      (flush, diskPage, rest) ∈ s'.arriving) : s'.Faithful e := by
  have hcoming : s'.coming e = s.coming e := by rw [DiskWriter.coming, hfile, hahead, DiskWriter.coming]
  exact h.same hg (by rw [hfile]) (by rw [hfile]) (by rw [hfile]) (by rw [hfile]) hcoming hwritten hmemory himage
    harriving

theorem Arrives.frame {diskPage : Nat} {rest : List Nat} (h : s.Arrives flush diskPage rest) (hg : Grows s s')
    (hfile : (s'.files flush.state).descriptor.extents = (s.files flush.state).descriptor.extents)
    (hid : s'.cacheId flush.state = s.cacheId flush.state)
    (hmemory : ∀ page ∈ flush.cachedPages, s'.reader.memory page = s.reader.memory page) :
    s'.Arrives flush diskPage rest := by
  have hbase : s'.base flush.state = s.base flush.state := by rw [DiskWriter.base, hfile, DiskWriter.base]
  refine ⟨h.base.trans hbase.symm, h.suffix, fun i page hi => ?_, fun i hi => ?_⟩
  · rw [hid, hmemory page (List.mem_of_getElem? hi)]
    exact (h.pages i page hi).grows hg
  · rw [hfile, hbase]
    exact h.disk i hi

theorem Readable.frame {d : Descriptor} (h : s.Readable d) (hg : Grows s s')
    (himage : ∀ page ∈ pagesOf d.extents, s'.reader.image page = s.reader.image page) : s'.Readable d := by
  refine ⟨h.known.trans_le hg.next, ?_, h.covers, fun k page hk => ?_, fun e he hid => ?_⟩
  · rcases hg.written d.cacheId with hsame | ⟨-, e, he, hid, hopen⟩
    · rw [hsame]
      exact h.size
    · rw [h.closed e he hid] at hopen
      cases hopen
  · rw [himage page (List.mem_of_getElem? hk)]
    exact (h.stored k page hk).grows hg
  · cases hopen : (s'.files e).flushed with
    | true => rfl
    | false =>
        rcases hg.live e he hopen with hnew | ⟨hold, hsame, hopen'⟩
        · exact absurd h.known (Nat.not_lt_of_le (hid ▸ hnew))
        · rw [h.closed e hold (hsame.symm.trans hid)] at hopen'
          cases hopen'

end DiskWriter

end Tyrdbs.Storage
