import Tyrdbs.Storage.FileContents

namespace Tyrdbs.Storage

open Allocator Extents Outcome Bytes

variable {start : Allocator}

theorem pageSize_pos : 0 < pageSize := by decide

theorem and_pageMask (n : Nat) : n &&& pageMask = n % pageSize := Nat.and_two_pow_sub_one_eq_mod n 12

theorem shiftRight_pageBits (n : Nat) : n >>> pageBits = n / pageSize := Nat.shiftRight_eq_div_pow n 12

theorem maxFileSize_eq : maxFileSize = pageSize * (1 <<< filePagesBits) := by decide

theorem length_content (pages : List Page) : (content pages).length = pageSize * pages.length := by
  induction pages with
  | nil => rfl
  | cons p pages ih =>
      simp only [content, List.flatMap_cons, List.length_append, List.length_cons] at ih ⊢
      rw [ih, p.size_eq, Nat.mul_succ, Nat.add_comm]

theorem content_append (ps qs : List Page) : content (ps ++ qs) = content ps ++ content qs :=
  List.flatMap_append

theorem slice_content {pages : List Page} {k : Nat} {page : Page} (hk : pages[k]? = some page)
    {i n : Nat} (hi : i + n ≤ pageSize) :
    slice (content pages) (pageSize * k + i) n = slice page.bytes i n := by
  induction pages generalizing k with
  | nil => simp at hk
  | cons p pages ih =>
      simp only [content, List.flatMap_cons] at ih ⊢
      cases k with
      | zero =>
          rw [List.getElem?_cons_zero, Option.some.injEq] at hk
          subst hk
          rw [Nat.mul_zero, Nat.zero_add, slice_append_left (by rw [p.size_eq]; exact hi)]
      | succ k =>
          have hge : pageSize ≤ pageSize * (k + 1) + i := by rw [Nat.mul_succ]; omega
          rw [slice_append_right (by rw [p.size_eq]; exact hge), p.size_eq]
          have hsub : pageSize * (k + 1) + i - pageSize = pageSize * k + i := by
            rw [Nat.mul_succ]; omega
          rw [hsub]
          exact ih (by simpa using hk)

theorem preadLoop_stored {d : Descriptor} {flushed : List Page}
    (hlen : flushed.length ≤ 1 <<< filePagesBits) (rounds : Nat) {e : Engine}
    (h : Stored start e d flushed) {offset size : Nat} (hr : size < rounds)
    (hin : offset + size ≤ (content flushed).length) :
    Yields (fun _ => False) (fun r => r.1 = slice (content flushed) offset size ∧ Stored start r.2 d flushed)
      (preadLoop d rounds e offset size) := by
  induction rounds generalizing e offset size with
  | zero => omega
  | succ rounds ih =>
      rw [preadLoop]
      by_cases hs : size = 0
      · subst hs
        rw [if_pos rfl]
        exact ⟨by simp [slice], h⟩
      · rw [if_neg hs, shiftRight_pageBits, and_pageMask]
        rw [length_content] at hin
        have hk : offset / pageSize < flushed.length := by
          rw [Nat.div_lt_iff_lt_mul pageSize_pos, Nat.mul_comm]; omega
        have hmod := Nat.mod_lt offset pageSize_pos
        have hdiv := Nat.div_add_mod offset pageSize
        have hpart : 0 < min (pageSize - offset % pageSize) size := by
          rw [lt_min_iff]; omega
        refine (readPage_stored h (hk.trans_le hlen) (List.getElem?_eq_getElem hk)).bind ?_
        rintro ⟨page, e'⟩ ⟨rfl, h'⟩
        have hle := min_le_right (pageSize - offset % pageSize) size
        refine (ih h' (by omega) (by rw [length_content]; omega)).bind ?_
        rintro ⟨rest, e''⟩ ⟨rfl, h''⟩
        refine ⟨?_, h''⟩
        have hfirst := slice_content (List.getElem?_eq_getElem hk)
          (show offset % pageSize + min (pageSize - offset % pageSize) size ≤ pageSize by
            have := min_le_left (pageSize - offset % pageSize) size
            omega)
        rw [hdiv] at hfirst
        simp only
        rw [← hfirst, ← slice_add]
        congr 1
        omega

/-- A committed descriptor: its extents hold the stream, and possibly the
unused rest of a last page behind it. -/
structure Committed (start : Allocator) (e : Engine) (d : Descriptor) (stream : List Byte) : Prop where
  stored : ∃ flushed, Stored start e d flushed ∧ flushed.length ≤ 1 <<< filePagesBits ∧
    stream <+: content flushed
  size_eq : d.size = stream.length

theorem pread_committed {e : Engine} {d : Descriptor} {stream : List Byte} (h : Committed start e d stream)
    {offset : Nat} (ho : offset < d.size) (size : Nat) :
    Yields (fun _ => False) (fun r => r.1 = slice stream offset size ∧ Committed start r.2 d stream)
      (pread e d offset size) := by
  obtain ⟨flushed, hst, hlen, rest, hrest⟩ := h.stored
  have hsize := h.size_eq
  have hslice : ∀ n, offset + n ≤ stream.length →
      slice (content flushed) offset n = slice stream offset n := by
    intro n hn
    rw [← hrest, slice_append_left hn]
  rw [pread, if_pos ho]
  by_cases hlong : offset + size > d.size
  · have hcut : slice stream offset size = slice stream offset (d.size - offset) := by
      rw [slice, slice, List.take_of_length_le (by rw [List.length_drop]; omega),
        List.take_of_length_le (by rw [List.length_drop]; omega)]
    have hin : offset + (d.size - offset) ≤ (content flushed).length := by
      rw [← hrest, List.length_append]; omega
    refine (preadLoop_stored hlen _ hst (by rw [if_pos hlong]; omega) (by rw [if_pos hlong]; exact hin)).mono ?_
    rintro ⟨bytes, e'⟩ ⟨rfl, h'⟩
    refine ⟨?_, ⟨flushed, h', hlen, rest, hrest⟩, hsize⟩
    simp only [if_pos hlong]
    rw [hslice _ (by omega), hcut]
  · have hin : offset + size ≤ (content flushed).length := by
      rw [← hrest, List.length_append]; omega
    refine (preadLoop_stored hlen _ hst (by rw [if_neg hlong]; omega) (by rw [if_neg hlong]; exact hin)).mono ?_
    rintro ⟨bytes, e'⟩ ⟨rfl, h'⟩
    refine ⟨?_, ⟨flushed, h', hlen, rest, hrest⟩, hsize⟩
    simp only [if_neg hlong]
    rw [hslice _ (by omega)]

theorem preads_committed (calls : List (Nat × Nat)) {e : Engine} {d : Descriptor} {stream : List Byte}
    (h : Committed start e d stream) (hc : ∀ c ∈ calls, c.1 < d.size) :
    preads d e calls = .ok (calls.map (fun c => slice stream c.1 c.2)) := by
  induction calls generalizing e with
  | nil => rfl
  | cons c calls ih =>
      obtain ⟨r, hr, hbytes, h'⟩ := (pread_committed h (hc c (by simp)) c.2).exists_ok
      have hrest := ih h' (fun c' hc' => hc c' (List.mem_cons_of_mem _ hc'))
      simp only [preads, hr, bind, Except.bind, hrest, hbytes, List.map_cons]
      rfl

/-- The file's pages: those that its extents hold, then the completed ones. -/
def Stacked (start : Allocator) (e : Engine) (st : State) (pages : List Page) : Prop :=
  ∃ flushed, Stored start e st.descriptor flushed ∧ flushed ++ st.cachedPages = pages

/-- What a flush may change in a file under construction. -/
def Moved (st st' : State) : Prop :=
  ∃ cached extents, st' = { st with
    cachedPages := cached, descriptor := { st.descriptor with extents := extents } }

theorem flushPages_stacked {e : Engine} {st : State} {pages : List Page} (h : Stacked start e st pages)
    (hb : pages.length ≤ 1 <<< filePagesBits) :
    Yields (Exhausted start)
      (fun r => Stored start r.1 r.2.descriptor pages ∧ Moved st r.2 ∧ r.2.cachedPages = [])
      (flushPages e st) := by
  obtain ⟨flushed, hst, rfl⟩ := h
  refine (flushPages_stored hst hb).mono ?_
  rintro ⟨e', st'⟩ ⟨hst', extents, rfl⟩
  exact ⟨hst', ⟨[], extents, rfl⟩, rfl⟩

theorem yield_stacked {e : Engine} {st : State} {pages : List Page} (h : Stacked start e st pages)
    (hb : pages.length ≤ 1 <<< filePagesBits) :
    Yields (Exhausted start) (fun r => Stacked start r.1 r.2 pages ∧ Moved st r.2) (yield e st) := by
  have hnext : Stacked start { e with turn := e.turn + 1 } st pages := by
    obtain ⟨flushed, hst, hpages⟩ := h
    exact ⟨flushed, hst.tick, hpages⟩
  unfold yield
  by_cases hp : e.pressed e.turn = true
  · rw [if_pos hp]
    refine (flushPages_stacked hnext hb).mono ?_
    rintro r ⟨hst, hmoved, hnil⟩
    exact ⟨⟨pages, hst, by rw [hnil, List.append_nil]⟩, hmoved⟩
  · rw [if_neg hp]
    exact ⟨hnext, st.cachedPages, st.descriptor.extents, rfl⟩

/-- Extents, completed pages and the current page together are the stream. -/
def Holds (start : Allocator) (e : Engine) (st : State) (stream : List Byte) : Prop :=
  ∃ pages, Stacked start e st pages ∧ content pages ++ pending st = stream

theorem Holds.few {pages : List Page} {st : State} {stream : List Byte}
    (h : content pages ++ pending st = stream) (hfit : stream.length ≤ maxFileSize) :
    pages.length ≤ 1 <<< filePagesBits := by
  refine Nat.le_of_mul_le_mul_left ?_ pageSize_pos
  rw [← length_content, ← maxFileSize_eq]
  refine le_trans ?_ hfit
  rw [← h, List.length_append]
  exact Nat.le_add_right _ _

theorem flushPages_holds {e : Engine} {st : State} {stream : List Byte} (h : Holds start e st stream)
    (hfit : stream.length ≤ maxFileSize) :
    Yields (Exhausted start) (fun r => Holds start r.1 r.2 stream ∧ Moved st r.2) (flushPages e st) := by
  obtain ⟨pages, hst, hstream⟩ := h
  refine (flushPages_stacked hst (Holds.few hstream hfit)).mono ?_
  rintro ⟨e', st'⟩ ⟨hst', ⟨cached, extents, rfl⟩, hnil⟩
  exact ⟨⟨pages, ⟨pages, hst', by rw [hnil, List.append_nil]⟩, hstream⟩, cached, extents, rfl⟩

theorem yield_holds {e : Engine} {st : State} {stream : List Byte} (h : Holds start e st stream)
    (hfit : stream.length ≤ maxFileSize) :
    Yields (Exhausted start) (fun r => Holds start r.1 r.2 stream ∧ Moved st r.2) (yield e st) := by
  obtain ⟨pages, hst, hstream⟩ := h
  refine (yield_stacked hst (Holds.few hstream hfit)).mono ?_
  rintro ⟨e', st'⟩ ⟨hst', cached, extents, rfl⟩
  exact ⟨⟨pages, hst', hstream⟩, cached, extents, rfl⟩

/-- A new page contributes nothing yet, whatever its memory holds. -/
theorem allocatePage_holds {e : Engine} {st : State} {stream : List Byte} (h : Holds start e st stream)
    (hfit : stream.length ≤ maxFileSize) (hb : st.buffer = none) (ho : st.bufferOffset = 0) :
    Yields (Exhausted start)
      (fun r => Holds start r.1 r.2 stream ∧ ∃ page, Moved { st with buffer := some page } r.2)
      (allocatePage e st) := by
  refine (yield_holds h hfit).bind ?_
  rintro ⟨e', st'⟩ ⟨⟨pages, ⟨flushed, hst, hpages⟩, hstream⟩, cached, extents, rfl⟩
  refine ⟨⟨pages, ⟨flushed, hst.evict, hpages⟩, ?_⟩, _, cached, extents, rfl⟩
  rw [← hstream]
  simp only [pending, hb, ho, List.take_zero]

theorem Holds.copy {e : Engine} {st : State} {stream : List Byte} (h : Holds start e st stream)
    {page : Page} (hb : st.buffer = some page) {data : List Byte}
    (hd : st.bufferOffset + data.length ≤ pageSize) (size : Nat) :
    Holds start e { st with
      buffer := some (page.copy st.bufferOffset data)
      bufferOffset := st.bufferOffset + data.length
      descriptor := { st.descriptor with size := size } } (stream ++ data) := by
  obtain ⟨pages, ⟨flushed, hst, hpages⟩, rfl⟩ := h
  refine ⟨pages, ⟨flushed, ⟨hst.consistent, hst.onDisk, hst.owned, hst.cached, hst.backed⟩, hpages⟩, ?_⟩
  have htake : (splice page.bytes st.bufferOffset data).take (st.bufferOffset + data.length) =
      page.bytes.take st.bufferOffset ++ data := take_splice (by rw [page.size_eq]; exact hd)
  simp only [pending, hb, Page.copy, htake, List.append_assoc]

theorem Stacked.push {e : Engine} {st : State} {pages : List Page} (h : Stacked start e st pages) :
    Stacked start e { st with
      cachedPages := st.cachedPages ++ st.buffer.toList, buffer := none, bufferOffset := 0 }
      (pages ++ st.buffer.toList) := by
  obtain ⟨flushed, hst, rfl⟩ := h
  exact ⟨flushed, hst, (List.append_assoc ..).symm⟩

theorem Holds.push {e : Engine} {st : State} {stream : List Byte} (h : Holds start e st stream)
    {page : Page} (hb : st.buffer = some page) (ho : st.bufferOffset = pageSize) :
    Holds start e { st with
      cachedPages := st.cachedPages ++ st.buffer.toList, buffer := none, bufferOffset := 0 } stream := by
  obtain ⟨pages, hst, rfl⟩ := h
  refine ⟨_, hst.push, ?_⟩
  simp only [pending, hb, ho, Option.toList_some, content_append, List.append_nil,
    List.append_cancel_left_eq]
  rw [List.take_of_length_le (by rw [page.size_eq])]
  simp [content]

structure Written (start : Allocator) (e : Engine) (st : State) (stream : List Byte) : Prop where
  holds : Holds start e st stream
  size_eq : st.descriptor.size = stream.length
  offset_le : st.bufferOffset ≤ pageSize
  empty_iff : st.buffer = none ↔ st.bufferOffset = 0
  fits : stream.length ≤ maxFileSize

theorem Written.moved {e e' : Engine} {st st' : State} {stream : List Byte} (h : Written start e st stream)
    (hs : Holds start e' st' stream) (hm : Moved st st') : Written start e' st' stream := by
  obtain ⟨cached, extents, rfl⟩ := hm
  exact ⟨hs, h.size_eq, h.offset_le, h.empty_iff, h.fits⟩

theorem writeRound_written {e : Engine} {st : State} {stream data : List Byte}
    (h : Written start e st stream) (hd : data ≠ []) (hfit : stream.length + data.length ≤ maxFileSize) :
    Yields (Exhausted start)
      (fun r => r.2.2 = min (pageSize - st.bufferOffset) data.length ∧
        Written start r.1 r.2.1 (stream ++ data.take r.2.2) ∧ r.2.1.bufferOffset < pageSize)
      (writeRound e st data) := by
  unfold writeRound
  have hstart : Yields (Exhausted start)
      (fun r => Holds start r.1 r.2 stream ∧ ∃ page, Moved { st with buffer := some page } r.2)
      (if st.buffer.isNone then allocatePage e st else .ok (e, st)) := by
    cases hb : st.buffer with
    | none => exact allocatePage_holds h.holds h.fits hb (h.empty_iff.mp hb)
    | some page =>
        refine ⟨h.holds, page, st.cachedPages, st.descriptor.extents, ?_⟩
        rw [← hb]
  refine hstart.bind ?_
  rintro ⟨e', _⟩ ⟨hs, page, cached, extents, rfl⟩
  have hpos : 0 < data.length := List.length_pos_iff.mpr hd
  have hoff := h.offset_le
  have hpart : (data.take (min (pageSize - st.bufferOffset) data.length)).length =
      min (pageSize - st.bufferOffset) data.length := by
    rw [List.length_take]; omega
  have hcopy := hs.copy rfl (show st.bufferOffset +
      (data.take (min (pageSize - st.bufferOffset) data.length)).length ≤ pageSize by
    rw [hpart]; omega) (st.descriptor.size + min (pageSize - st.bufferOffset) data.length)
  simp only [hpart] at hcopy
  have hlen : st.descriptor.size + min (pageSize - st.bufferOffset) data.length =
      (stream ++ data.take (min (pageSize - st.bufferOffset) data.length)).length := by
    rw [List.length_append, hpart, h.size_eq]
  have hfits : (stream ++ data.take (min (pageSize - st.bufferOffset) data.length)).length ≤
      maxFileSize := by
    rw [List.length_append, hpart]; omega
  simp only [Option.map_some]
  by_cases hfull : st.bufferOffset + min (pageSize - st.bufferOffset) data.length = pageSize
  · have hne : st.bufferOffset + min (pageSize - st.bufferOffset) data.length ≠ 0 := by
      rw [hfull]; decide
    rw [if_pos hfull, writePage, if_neg hne]
    refine (yield_holds (hcopy.push rfl hfull) hfits).bind ?_
    rintro ⟨e'', _⟩ ⟨hs', cached', extents', rfl⟩
    exact ⟨rfl, ⟨hs', hlen, Nat.zero_le _, by simp, hfits⟩, pageSize_pos⟩
  · rw [if_neg hfull]
    refine ⟨rfl, ⟨hcopy, hlen, by simp only; omega, ?_, hfits⟩, by simp only; omega⟩
    simp only [reduceCtorEq, false_iff]
    omega

theorem writeLoop_written (rounds : Nat) {e : Engine} {st : State} {stream data : List Byte}
    (h : Written start e st stream) (hfit : stream.length + data.length ≤ maxFileSize)
    (hr : data.length + 1 < rounds ∨ st.bufferOffset < pageSize ∧ data.length < rounds) :
    Yields (Exhausted start) (fun r => Written start r.1 r.2 (stream ++ data))
      (writeLoop rounds e st data) := by
  induction rounds generalizing e st stream data with
  | zero => omega
  | succ rounds ih =>
      rw [writeLoop]
      by_cases hd : data = []
      · rw [if_pos hd, hd, List.append_nil]
        exact h
      · rw [if_neg hd]
        refine (writeRound_written h hd hfit).bind ?_
        rintro ⟨e', st', part⟩ ⟨hpart, h', hoff⟩
        have hpart : part = min (pageSize - st.bufferOffset) data.length := hpart
        have hpos : 0 < data.length := List.length_pos_iff.mpr hd
        have hle : part ≤ data.length := hpart ▸ min_le_right _ _
        have hrest : (data.drop part).length = data.length - part := List.length_drop
        have hfit' : (stream ++ data.take part).length + (data.drop part).length ≤ maxFileSize := by
          rw [List.length_append, List.length_take]; omega
        have := ih h' hfit' (Or.inr ⟨hoff, by omega⟩)
        rwa [List.append_assoc, List.take_append_drop] at this

theorem write_written {e : Engine} {st : State} {stream data : List Byte} (h : Written start e st stream)
    (hfit : stream.length + data.length < maxFileSize) :
    Yields (Exhausted start) (fun r => Written start r.1 r.2 (stream ++ data)) (write e st data) := by
  rw [write, if_neg (by rw [h.size_eq]; omega)]
  exact writeLoop_written _ h hfit.le (Or.inl (by omega))

def padding (stream : List Byte) : List Byte :=
  List.replicate ((pageSize - stream.length % pageSize) % pageSize) 0

theorem Written.offset_mod {e : Engine} {st : State} {stream : List Byte} (h : Written start e st stream) :
    st.bufferOffset % pageSize = stream.length % pageSize := by
  obtain ⟨pages, _, hstream⟩ := h.holds
  have hpend : (pending st).length = st.bufferOffset := by
    rw [pending]
    cases hb : st.buffer with
    | none => rw [h.empty_iff.mp hb, List.length_nil]
    | some page => rw [List.length_take, page.size_eq, min_eq_left h.offset_le]
  rw [← hstream, List.length_append, length_content, hpend, Nat.mul_add_mod]

theorem addPadding_written {e : Engine} {st : State} {stream : List Byte} (h : Written start e st stream) :
    Written start e (addPadding st) (stream ++ padding stream) := by
  have hmod := h.offset_mod
  have hle := h.offset_le
  rw [addPadding, and_pageMask]
  by_cases hz : st.bufferOffset % pageSize = 0
  · rw [if_pos hz, padding, ← hmod, hz, Nat.sub_zero, Nat.mod_self, List.replicate_zero,
      List.append_nil]
    exact h
  · have hlt : st.bufferOffset < pageSize := by
      refine lt_of_le_of_ne hle (fun heq => hz ?_)
      rw [heq, Nat.mod_self]
    have hoff : st.bufferOffset % pageSize = st.bufferOffset := Nat.mod_eq_of_lt hlt
    rw [hoff] at hz hmod
    have hpad : padding stream = List.replicate (pageSize - st.bufferOffset) 0 := by
      rw [padding, ← hmod, Nat.mod_eq_of_lt (by omega)]
    obtain ⟨page, hb⟩ := Option.ne_none_iff_exists'.mp (fun hn => hz (h.empty_iff.mp hn))
    have hroom : st.bufferOffset +
        (List.replicate (pageSize - st.bufferOffset) (0 : Byte)).length ≤ pageSize := by
      rw [List.length_replicate]; omega
    have hcopy := h.holds.copy hb hroom (st.descriptor.size + (pageSize - st.bufferOffset))
    rw [List.length_replicate, ← hpad] at hcopy
    have hlen : (stream ++ padding stream).length = stream.length + (pageSize - st.bufferOffset) := by
      rw [hpad, List.length_append, List.length_replicate]
    rw [if_neg (by rw [hoff]; exact hz), hoff, hb]
    simp only [← hpad]
    refine ⟨hcopy, by rw [hlen, h.size_eq], by simp only; omega, ?_, ?_⟩
    · simp only [Option.map_some, reduceCtorEq, false_iff]
      omega
    · -- a partly filled page leaves room for its own rest
      have hfit := h.fits
      have hdiv := Nat.div_add_mod stream.length pageSize
      rw [maxFileSize_eq] at hfit ⊢
      have hq : stream.length / pageSize + 1 ≤ 1 <<< filePagesBits := by
        have : pageSize * (stream.length / pageSize) < pageSize * (1 <<< filePagesBits) := by omega
        exact Nat.lt_of_mul_lt_mul_left this
      calc (stream ++ padding stream).length
          = pageSize * (stream.length / pageSize + 1) := by rw [hlen, Nat.mul_succ]; omega
        _ ≤ pageSize * (1 <<< filePagesBits) := Nat.mul_le_mul_left _ hq

/-- The last page is passed on as it is, whatever lies behind the stream in
it. -/
theorem writePage_stacked {e : Engine} {st : State} {stream : List Byte} (h : Written start e st stream) :
    Yields (Exhausted start)
      (fun r => r.2.descriptor.size = stream.length ∧ ∃ pages, Stacked start r.1 r.2 pages ∧
        pages.length ≤ 1 <<< filePagesBits ∧ stream <+: content pages) (writePage e st) := by
  obtain ⟨pages, hst, hstream⟩ := h.holds
  have hfew := Holds.few hstream h.fits
  rw [writePage]
  by_cases hz : st.bufferOffset = 0
  · have hb := h.empty_iff.mpr hz
    rw [if_pos hz, if_pos (by rw [hb]; rfl)]
    simp only [pending, hb, List.append_nil] at hstream
    exact ⟨h.size_eq, pages, hst, hfew, by rw [hstream]⟩
  · obtain ⟨page, hb⟩ := Option.ne_none_iff_exists'.mp (fun hn => hz (h.empty_iff.mp hn))
    rw [if_neg hz]
    simp only [pending, hb] at hstream
    have hpages : (pages ++ st.buffer.toList).length ≤ 1 <<< filePagesBits := by
      have hfit := h.fits
      have hoff := h.offset_le
      rw [← hstream, List.length_append, List.length_take, page.size_eq, length_content,
        maxFileSize_eq] at hfit
      have hlt : pageSize * pages.length < pageSize * (1 <<< filePagesBits) := by omega
      rw [hb, Option.toList_some, List.length_append, List.length_singleton]
      exact Nat.lt_of_mul_lt_mul_left hlt
    refine (yield_stacked hst.push hpages).mono ?_
    rintro ⟨e', _⟩ ⟨hst', cached, extents, rfl⟩
    refine ⟨h.size_eq, _, hst', hpages, ?_⟩
    rw [← hstream, hb, Option.toList_some, content_append, content, content, List.flatMap_singleton]
    exact (List.prefix_append_right_inj _).mpr (List.take_prefix _ _)

theorem flush_committed {e : Engine} {st : State} {stream : List Byte} (h : Written start e st stream) :
    Yields (Exhausted start) (fun r => Committed start r.1 r.2.descriptor stream) (flush e st) := by
  refine (writePage_stacked h).bind ?_
  rintro ⟨e', st'⟩ ⟨hsize, pages, hst, hfew, hstarts⟩
  refine (flushPages_stacked hst hfew).mono ?_
  rintro ⟨e'', _⟩ ⟨hst', ⟨cached, extents, rfl⟩, _⟩
  exact ⟨⟨pages, hst', hfew, hstarts⟩, hsize⟩

def FileOp.extend (stream : List Byte) : FileOp → List Byte
  | .write data => stream ++ data
  | .addPadding => stream ++ padding stream
  | .flushPages => stream

def streamOf (ops : List FileOp) : List Byte := ops.foldl FileOp.extend []

/-- Every write stays below the file size limit. -/
def Fits : List Byte → List FileOp → Prop
  | _, [] => True
  | stream, op :: ops =>
      (∀ data, op = .write data → stream.length + data.length < maxFileSize) ∧
        Fits (op.extend stream) ops

theorem runOps_written (ops : List FileOp) {e : Engine} {st : State} {stream : List Byte}
    (h : Written start e st stream) (hfit : Fits stream ops) :
    Yields (Exhausted start) (fun r => Written start r.1 r.2 (ops.foldl FileOp.extend stream))
      (runOps e st ops) := by
  induction ops generalizing e st stream with
  | nil => exact h
  | cons op ops ih =>
      rw [runOps]
      have hop : Yields (Exhausted start) (fun r => Written start r.1 r.2 (op.extend stream))
          (op.run e st) := by
        cases op with
        | write data => exact write_written h (hfit.1 data rfl)
        | addPadding => exact addPadding_written h
        | flushPages =>
            exact (flushPages_holds h.holds h.fits).mono (fun _ hr => h.moved hr.1 hr.2)
      exact hop.bind (fun r hr => ih hr hfit.2)

/-- The allocator is consistent and no page is cached under an id that was
not handed out yet. -/
structure Ready (e : Engine) : Prop where
  consistent : Consistent e.disk.blocks
  unused : ∀ id k, e.disk.nextCacheId ≤ id → k < 1 <<< filePagesBits → e.cache (cacheKey id k) = none

theorem createWriter_written {e : Engine} (h : Ready e) :
    Written e.disk.blocks (createWriter e).1 (createWriter e).2 [] where
  holds := by
    refine ⟨[], ⟨[], ⟨h.consistent, rfl, fun x hx => by simp [createWriter] at hx,
      fun k page hk hc => ?_, fun hstart => ⟨0, rfl, .inl (Nat.zero_le _), _, inv_inUse h.consistent, hstart⟩⟩, rfl⟩, rfl⟩
    have hnone := h.unused e.disk.nextCacheId k le_rfl hk
    rw [show e.cache (cacheKey e.disk.nextCacheId k) = some page from hc] at hnone
    simp at hnone
  size_eq := rfl
  offset_le := Nat.zero_le _
  empty_iff := by simp [createWriter]
  fits := Nat.zero_le _

/-- Whatever the grouping of writes and flushes, and whichever pages the
cache keeps, the committed file reads back the written stream, unless the page
index has no room left for a file of the greatest size. -/
theorem write_pread_round_trip {e : Engine} (h : Ready e) (ops : List FileOp) (hfit : Fits [] ops) :
    (writeFile e ops = .error .pagesExhausted ∧
      (EmptyFirst e.disk.blocks → 2 ^ 32 ≤ e.disk.blocks.capacity + 1 <<< filePagesBits)) ∨
    ∃ e' d, writeFile e ops = .ok (e', d) ∧ d.size = (streamOf ops).length ∧
      ∀ calls : List (Nat × Nat), (∀ c ∈ calls, c.1 < d.size) →
        preads d e' calls = .ok (calls.map (fun c => slice (streamOf ops) c.1 c.2)) := by
  have hrun : Yields (Exhausted e.disk.blocks) (fun r => Committed e.disk.blocks r.1 r.2 (streamOf ops))
      (writeFile e ops) := by
    refine (runOps_written ops (createWriter_written h) hfit).bind (fun r hr => ?_)
    exact (flush_committed hr).bind (fun r' hr' => hr')
  cases hw : writeFile e ops with
  | error fault =>
      rw [hw] at hrun
      exact Or.inl ⟨congrArg _ hrun.1, hrun.2⟩
  | ok r =>
      have hc := hrun.of_ok hw
      exact Or.inr ⟨r.1, r.2, rfl, hc.size_eq, fun calls hcalls => preads_committed calls hc hcalls⟩

def blankPage : Page := ⟨List.replicate pageSize 7, List.length_replicate⟩

def freshEngine : Engine where
  disk := { image := fun _ => blankPage }
  cache := fun _ => none
  keeps := fun turn _ => turn % 2 = 0
  stale := fun _ => blankPage
  pressed := fun turn => turn % 3 = 0

def straddling : List FileOp :=
  [.write (List.replicate 4095 1), .write [2, 3], .flushPages, .addPadding, .write [4]]

theorem write_pread_round_trip_straddling :
    ∃ e d, writeFile freshEngine straddling = .ok (e, d) ∧
      preads d e [(4094, 5), (8190, 10)] = .ok [[1, 2, 3, 0, 0], [0, 0, 4]] := by
  have hready : Ready freshEngine := ⟨inv_empty.consistent, fun _ _ _ _ => rfl⟩
  have hfits : Fits [] straddling := by
    simp [straddling, Fits, FileOp.extend, padding, maxFileSize, pageSize, pageBits, filePagesBits,
      -List.reduceReplicate]
  rcases write_pread_round_trip hready straddling hfits with ⟨-, hfull⟩ | ⟨e, d, hw, hsize, hread⟩
  · exact absurd (hfull fun x hx => absurd hx (Finset.notMem_empty x)) (by decide)
  · have hlen : (streamOf straddling).length = 8193 := by decide +kernel
    refine ⟨e, d, hw, ?_⟩
    rw [hread _ (by simp [hsize, hlen])]
    decide +kernel

end Tyrdbs.Storage
