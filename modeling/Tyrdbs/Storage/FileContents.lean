import Tyrdbs.Library.Outcome
import Tyrdbs.Storage.DiskGrowth
import Tyrdbs.Storage.FileReader

namespace Tyrdbs.Storage

open Allocator Extents Outcome

def diskPages (image : Nat → Page) (extents : List Nat) : List Page :=
  extents.flatMap (fun x => (List.range (low x)).map (fun i => image (high x + i)))

def content (pages : List Page) : List Byte := pages.flatMap Page.bytes

def pending (st : State) : List Byte :=
  match st.buffer with
  | none => []
  | some page => page.bytes.take st.bufferOffset

theorem diskPages_append (image : Nat → Page) (xs ys : List Nat) :
    diskPages image (xs ++ ys) = diskPages image xs ++ diskPages image ys := List.flatMap_append

theorem diskPages_congr {image image' : Nat → Page} {xs : List Nat}
    (h : ∀ x ∈ xs, ∀ p ∈ cells (high x, low x), image' p = image p) :
    diskPages image' xs = diskPages image xs := by
  induction xs with
  | nil => rfl
  | cons x xs ih =>
      simp only [diskPages, List.flatMap_cons] at ih ⊢
      rw [ih (fun y hy => h y (List.mem_cons_of_mem _ hy))]
      congr 1
      apply List.map_congr_left
      intro i hi
      have := List.mem_range.mp hi
      exact h x (List.mem_cons_self ..) _ (mem_cells.mpr (by simp only; omega))

theorem image_getDiskPage {image : Nat → Page} {xs : List Nat}
    (hb : ∀ x ∈ xs, high x + low x ≤ 2 ^ 32) {k : Nat} {page : Page}
    (hk : (diskPages image xs)[k]? = some page) : image (getDiskPage xs k) = page := by
  induction xs generalizing k with
  | nil => simp [diskPages] at hk
  | cons x xs ih =>
      have hx := hb x (List.mem_cons_self ..)
      simp only [diskPages, List.flatMap_cons] at hk
      rw [getDiskPage]
      by_cases hlt : k < low x
      · rw [List.getElem?_append_left (by simpa using hlt), List.getElem?_map,
          List.getElem?_range hlt] at hk
        rw [if_pos hlt, u32_of_lt (by omega)]
        exact Option.some.inj hk
      · rw [List.getElem?_append_right (by simpa using hlt)] at hk
        rw [if_neg hlt]
        exact ih (fun y hy => hb y (List.mem_cons_of_mem _ hy)) (by simpa [diskPages] using hk)

theorem length_diskPages (image : Nat → Page) (xs : List Nat) :
    (diskPages image xs).length = (xs.map low).sum := by
  simp [diskPages, List.length_flatMap]

theorem filePageAfter_eq {xs : List Nat} (h : (xs.map low).sum < 2 ^ 32) :
    filePageAfter xs = (xs.map low).sum := by
  have hfold : ∀ (ys : List Nat) (n : Nat), n + (ys.map low).sum < 2 ^ 32 →
      ys.foldl (fun n x => u32 (n + low x)) n = n + (ys.map low).sum := by
    intro ys
    induction ys with
    | nil => simp
    | cons y ys ih =>
        intro n hn
        simp only [List.map_cons, List.sum_cons] at hn
        rw [List.foldl_cons, u32_of_lt (by omega), ih _ (by omega), List.map_cons, List.sum_cons,
          Nat.add_assoc]
  simpa [filePageAfter] using hfold xs 0 (by simpa using h)

theorem cacheKey_inj {id j k : Nat} (hj : j < 1 <<< filePagesBits) (hk : k < 1 <<< filePagesBits)
    (h : cacheKey id j = cacheKey id k) : j = k := by
  have hj' : j < 2 ^ filePagesBits := by rwa [Nat.one_shiftLeft] at hj
  have hk' : k < 2 ^ filePagesBits := by rwa [Nat.one_shiftLeft] at hk
  rw [cacheKey, cacheKey, ← Nat.shiftLeft_add_eq_or_of_lt hj', ← Nat.shiftLeft_add_eq_or_of_lt hk'] at h
  omega

/-- A file's extents hold its flushed pages, on disk pages that the allocator
counts as in use, and whatever the cache has of the file agrees with them. Since
the file was begun the disk grew by no more than the pages need. -/
structure Stored (start : Allocator) (e : Engine) (d : Descriptor) (flushed : List Page) : Prop where
  consistent : Consistent e.disk.blocks
  onDisk : diskPages e.disk.image d.extents = flushed
  owned : ∀ x ∈ d.extents, 0 < low x ∧ cells (high x, low x) ⊆ inUse e.disk.blocks
  cached : ∀ k page, k < 1 <<< filePagesBits →
    e.cache (cacheKey d.cacheId k) = some page → flushed[k]? = some page
  backed : EmptyFirst start → ∃ made, Backed start.capacity made flushed.length e.disk.blocks

/-- No room is left for a file of the greatest size. -/
def Exhausted (start : Allocator) (fault : Fault) : Prop :=
  fault = .pagesExhausted ∧ (EmptyFirst start → 2 ^ 32 ≤ start.capacity + 1 <<< filePagesBits)

variable {start : Allocator}

theorem Stored.evict {e : Engine} {d : Descriptor} {flushed : List Page} (h : Stored start e d flushed) :
    Stored start e.evict d flushed where
  consistent := h.consistent
  onDisk := h.onDisk
  owned := h.owned
  cached := by
    intro k page hk hc
    simp only [Engine.evict] at hc
    split at hc
    · exact h.cached k page hk hc
    · simp at hc
  backed := h.backed

theorem Stored.cacheAdd {e : Engine} {d : Descriptor} {flushed : List Page} (h : Stored start e d flushed)
    {k : Nat} {page : Page} (hk : k < 1 <<< filePagesBits) (hp : flushed[k]? = some page) :
    Stored start (e.cacheAdd (cacheKey d.cacheId k) page) d flushed := by
  refine Stored.evict ⟨h.consistent, h.onDisk, h.owned, fun j q hj hc => ?_, h.backed⟩
  simp only at hc
  split at hc
  next heq =>
    rw [cacheKey_inj hj hk heq, ← Option.some.inj hc]
    exact hp
  next => exact h.cached j q hj hc

theorem Stored.tick {e : Engine} {d : Descriptor} {flushed : List Page} (h : Stored start e d flushed) :
    Stored start { e with turn := e.turn + 1 } d flushed :=
  ⟨h.consistent, h.onDisk, h.owned, h.cached, h.backed⟩

theorem Stored.bound {e : Engine} {d : Descriptor} {flushed : List Page} (h : Stored start e d flushed) :
    ∀ x ∈ d.extents, high x + low x ≤ 2 ^ 32 := by
  intro x hx
  obtain ⟨hpos, hsub⟩ := h.owned x hx
  have hlast : high x + low x - 1 ∈ inUse e.disk.blocks := hsub (mem_cells.mpr (by simp only; omega))
  have := Finset.mem_range.mp (Finset.mem_sdiff.mp hlast).1
  have := h.consistent.bounded
  omega

theorem readPage_stored {e : Engine} {d : Descriptor} {flushed : List Page} (h : Stored start e d flushed)
    {k : Nat} {page : Page} (hk : k < 1 <<< filePagesBits) (hp : flushed[k]? = some page) :
    Yields (fun _ => False) (fun r => r.1 = page ∧ Stored start r.2 d flushed) (readPage e d k) := by
  rw [readPage, if_pos hk]
  cases hc : e.cache (cacheKey d.cacheId k) with
  | some q => exact ⟨Option.some.inj ((h.cached k q hk hc).symm.trans hp), h⟩
  | none =>
      have hdisk : e.disk.image (getDiskPage d.extents k) = page :=
        image_getDiskPage h.bound (by rw [h.onDisk]; exact hp)
      have hread : (e.cacheAllocate.2).disk.read (getDiskPage d.extents k) = page := hdisk
      simp only [yields_ok, hread, true_and]
      exact (Stored.evict h).cacheAdd hk hp

theorem writeBatches_spec (rounds : Nat) (d : Disk) (diskPage : Nat) (pages : List Page)
    (hr : pages.length ≤ rounds) (hb : diskPage + pages.length < 2 ^ 32) :
    (writeBatches rounds d diskPage pages).image = (d.write diskPage pages).image ∧
      (writeBatches rounds d diskPage pages).blocks = d.blocks ∧
      (writeBatches rounds d diskPage pages).nextCacheId = d.nextCacheId := by
  induction rounds generalizing d diskPage pages with
  | zero =>
      have hnil : pages = [] := List.length_eq_zero_iff.mp (by omega)
      subst hnil
      refine ⟨?_, rfl, rfl⟩
      funext k
      exact (write_image_of_notMem d diskPage [] (by simp only [List.length_nil]; omega)).symm
  | succ rounds ih =>
      rw [writeBatches]
      by_cases hnil : pages = []
      · subst hnil
        refine ⟨?_, rfl, rfl⟩
        funext k
        exact (write_image_of_notMem d diskPage [] (by simp only [List.length_nil]; omega)).symm
      · have hpos : 0 < pages.length := List.length_pos_iff.mpr hnil
        have hlen : (pages.take iovMax).length = min iovMax pages.length := List.length_take
        have hbatch : 0 < min iovMax pages.length := by
          rw [lt_min_iff]
          exact ⟨by decide, hpos⟩
        have hle : min iovMax pages.length ≤ pages.length := min_le_right _ _
        have hdrop : (pages.drop iovMax).length + min iovMax pages.length = pages.length := by
          rw [List.length_drop]; omega
        rw [if_neg hnil]
        simp only [hlen]
        rw [u32_of_lt (by omega)]
        obtain ⟨himage, hblocks, hid⟩ := ih (d.write diskPage (pages.take iovMax))
          (diskPage + min iovMax pages.length) (pages.drop iovMax) (by omega) (by omega)
        refine ⟨?_, hblocks, hid⟩
        funext k
        rw [himage]
        rcases Nat.lt_or_ge k (diskPage + min iovMax pages.length) with hk | hk
        · rw [write_image_of_notMem _ _ _ (Or.inl hk)]
          rcases Nat.lt_or_ge k diskPage with hk' | hk'
          · rw [write_image_of_notMem _ _ _ (Or.inl hk'), write_image_of_notMem _ _ _ (Or.inl hk')]
          · obtain ⟨i, rfl⟩ := Nat.exists_eq_add_of_le hk'
            rw [write_image_of_mem _ _ _ (by rw [hlen]; omega), write_image_of_mem _ _ _ (by omega),
              List.getElem_take]
        · obtain ⟨i, rfl⟩ := Nat.exists_eq_add_of_le hk
          rcases Nat.lt_or_ge i (pages.drop iovMax).length with hi | hi
          · have hindex : min iovMax pages.length = iovMax := by
              rw [List.length_drop] at hi; omega
            rw [write_image_of_mem _ _ _ hi, Nat.add_assoc, write_image_of_mem _ _ _ (by omega),
              List.getElem_drop]
            simp only [hindex]
          · rw [write_image_of_notMem _ _ _ (Or.inr (by omega)),
              write_image_of_notMem _ _ _ (Or.inr (by rw [hlen]; omega)),
              write_image_of_notMem _ _ _ (Or.inr (by omega))]

theorem addPages_stored {d : Descriptor} {flushed : List Page} (pages : List Page) {e : Engine}
    {filePage : Nat} (h : Stored start e d flushed) (hb : filePage + pages.length ≤ 1 <<< filePagesBits)
    (hp : ∀ i (hi : i < pages.length), flushed[filePage + i]? = some pages[i]) :
    Yields (fun _ => False) (fun e' => Stored start e' d flushed) (addPages d.cacheId e filePage pages) := by
  induction pages generalizing e filePage with
  | nil => exact h
  | cons page pages ih =>
      rw [List.length_cons] at hb
      have hlt : filePage < 1 <<< filePagesBits := by omega
      have hfits : filePage + 1 < 2 ^ 32 :=
        lt_of_le_of_lt (show filePage + 1 ≤ 1 <<< filePagesBits by omega) (by decide)
      rw [addPages, if_pos hlt, u32_of_lt hfits]
      refine ih (h.cacheAdd hlt (hp 0 (by simp))) (by omega) (fun i hi => ?_)
      have := hp (i + 1) (by simpa using hi)
      rwa [Nat.add_assoc, Nat.add_comm 1 i]

/-- Pages written to a fresh extent are what its file holds next; the pages
of older extents stay. -/
theorem Stored.extend {e : Engine} {d : Descriptor} {flushed : List Page} (h : Stored start e d flushed)
    {pages : List Page} {page : Nat} {disk : Disk} (hpos : 0 < pages.length)
    (himage : disk.image = e.disk.image) (hcons : Consistent disk.blocks)
    (hmax : page + pages.length ≤ disk.blocks.maxIdx)
    (huse : inUse disk.blocks = inUse e.disk.blocks ∪ cells (page, pages.length))
    (hdisj : Disjoint (cells (page, pages.length)) (inUse e.disk.blocks))
    (hbacked : EmptyFirst start → ∃ made, Backed start.capacity made (pages.length + flushed.length) disk.blocks) :
    Stored start { e with disk := writeBatches pages.length disk page pages }
      { d with extents := d.extents ++ [pack page pages.length] } (flushed ++ pages) := by
  have hbound := hcons.bounded
  obtain ⟨hwimage, hwblocks, _⟩ := writeBatches_spec pages.length disk page pages le_rfl (by omega)
  have hhigh : high (pack page pages.length) = page := high_pack (by omega)
  have hlow : low (pack page pages.length) = pages.length := low_pack (by omega)
  refine ⟨hwblocks ▸ hcons, ?_, ?_, fun k q hk hc => ?_, fun hstart => ?_⟩
  · have hold : diskPages (disk.write page pages).image d.extents = flushed := by
      rw [← h.onDisk]
      refine diskPages_congr (fun x hx p hp => ?_)
      have hout : p ∉ cells (page, pages.length) := fun hmem =>
        Finset.disjoint_left.mp hdisj hmem ((h.owned x hx).2 hp)
      rw [write_image_of_notMem _ _ _ (by rw [mem_cells] at hout; simp only at hout; omega), himage]
    have hnew : diskPages (disk.write page pages).image [pack page pages.length] = pages := by
      simp only [diskPages, List.flatMap_cons, List.flatMap_nil, List.append_nil, hhigh, hlow]
      refine List.ext_getElem (by simp) (fun i hi hi' => ?_)
      rw [List.getElem_map, List.getElem_range, write_image_of_mem _ _ _ hi']
    change diskPages (writeBatches pages.length disk page pages).image _ = _
    rw [hwimage, diskPages_append, hold, hnew]
  · intro x hx
    change 0 < low x ∧ cells (high x, low x) ⊆ inUse (writeBatches pages.length disk page pages).blocks
    rw [hwblocks, huse]
    rcases List.mem_append.mp hx with hx | hx
    · exact ⟨(h.owned x hx).1, (h.owned x hx).2.trans Finset.subset_union_left⟩
    · rw [List.mem_singleton.mp hx, hhigh, hlow]
      exact ⟨hpos, Finset.subset_union_right⟩
  · have hk' := h.cached k q hk hc
    obtain ⟨hlt, _⟩ := List.getElem?_eq_some_iff.mp hk'
    rwa [List.getElem?_append_left hlt]
  · change ∃ made, Backed _ made _ (writeBatches pages.length disk page pages).blocks
    rw [hwblocks, List.length_append, Nat.add_comm]
    exact hbacked hstart

/-- Flushing appends the completed pages to what the extents hold. It can
only fail where the disk has no page index left. -/
theorem flushPages_stored {e : Engine} {st : State} {flushed : List Page}
    (h : Stored start e st.descriptor flushed)
    (hb : (flushed ++ st.cachedPages).length ≤ 1 <<< filePagesBits) :
    Yields (Exhausted start)
      (fun r => Stored start r.1 r.2.descriptor (flushed ++ st.cachedPages) ∧
        ∃ extents, r.2 = { st with
          cachedPages := [], descriptor := { st.descriptor with extents := extents } })
      (flushPages e st) := by
  unfold flushPages
  by_cases hnil : st.cachedPages = []
  · simp only [hnil, if_pos, List.append_nil]
    exact ⟨h, st.descriptor.extents, by rw [← hnil]⟩
  · simp only [if_neg hnil]
    have hpos : 0 < st.cachedPages.length := List.length_pos_iff.mpr hnil
    rw [List.length_append] at hb
    have hsmall : 1 <<< filePagesBits < 2 ^ 32 := by decide
    have hsum : (st.descriptor.extents.map low).sum = flushed.length := by
      rw [← length_diskPages e.disk.image, h.onDisk]
    have hpage : filePageAfter st.descriptor.extents = flushed.length := by
      rw [filePageAfter_eq (by omega), hsum]
    rcases allocate_spec e.disk h.consistent st.cachedPages.length hpos with
      hfail | ⟨page, disk, hok, himage, _, hcons, hmax, huse, hdisj⟩
    · rw [hfail]
      refine ⟨rfl, fun hstart => ?_⟩
      obtain ⟨made, hbacked⟩ := h.backed hstart
      rcases hbacked.allocate hpos with ⟨page, disk, more, hok, -⟩ | ⟨-, hfull⟩
      · exact absurd (hok.symm.trans hfail) (by simp)
      · exact hfull.trans (Nat.add_le_add_left (extensions_le (by omega)) _)
    · rw [hok, hpage]
      have hbacked : EmptyFirst start →
          ∃ made, Backed start.capacity made (st.cachedPages.length + flushed.length) disk.blocks := by
        intro hstart
        obtain ⟨made, hbacked⟩ := h.backed hstart
        rcases hbacked.allocate hpos with ⟨page', disk', more, hok', hmore, -⟩ | ⟨hfail, -⟩
        · obtain ⟨-, rfl⟩ := Prod.mk.inj (Except.ok.inj (hok'.symm.trans hok))
          exact ⟨_, hmore⟩
        · exact absurd (hok.symm.trans hfail) (by simp)
      have hstored := h.extend hpos himage hcons hmax huse hdisj hbacked
      have hadd := addPages_stored st.cachedPages hstored hb (fun i hi => by
        rw [List.getElem?_append_right (by omega), Nat.add_sub_cancel_left,
          List.getElem?_eq_getElem hi])
      obtain ⟨e', hadded, hs⟩ := hadd.exists_ok
      change Yields _ _ (Except.bind (addPages st.descriptor.cacheId _ flushed.length st.cachedPages) _)
      simp only at hadded
      rw [hadded]
      exact ⟨hs, _, rfl⟩

end Tyrdbs.Storage
