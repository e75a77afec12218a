import Tyrdbs.Slices.LongValues

namespace Tyrdbs.Slices

open Bytes Outcome Runs

section Addressed

variable {z : Codec} {w w' : SliceWriter} {ts : List (SliceWriter × Part × SliceWriter)}

/-- The locations of a written slice lead to its nodes, and its header page is
found. -/
structure Addressed (w : SliceWriter) : Prop where
  decodes : w.sink.nodes.map (fun p => offsetFrom p.1) = w.sink.begins
  distinct : (w.sink.nodes.map Prod.fst).Nodup
  header : Slice.headerOffset w.sink.file = w.sink.file.length - Storage.pageSize
  opens : ∀ cached stale, Slice.ofFile w.sink.file cached stale = .ok (w.commit cached stale)

/-- Sizes and offsets that have 32 bits on the way serve files below 4 GiB,
and no others. -/
theorem addressed_iff (hrun : Run (SliceWriter.Adds z) {} ts w) (hflush : SliceWriter.Flushes z w w') :
    Addressed w' ↔ w'.sink.file.length < 2 ^ 32 := by
  have hpage : Storage.pageSize = 4096 := rfl
  obtain ⟨leaves, cur, hold⟩ := run_holding hrun
  obtain ⟨rounds, hok⟩ := hflush
  have hf := (hold.flush rounds).of_ok hok
  constructor
  · intro h
    have hheader := h.header
    rw [Slice.headerOffset] at hheader
    omega
  · intro hsmall
    obtain ⟨data, index, hfinished, -⟩ := hf.finished hsmall
    refine ⟨hfinished.begins_eq, hfinished.location_nodup, ?_, ?_⟩
    · rw [Slice.headerOffset, Nat.mod_eq_of_lt hsmall]
    · exact ofFile_commit hf hsmall (keyCount_lt hold hf hsmall) (hf.firstNodeSize_lt hsmall)

theorem addressed_iff_twoLeaves : ∃ ts w w', Run (SliceWriter.Adds lz4) {} ts w ∧ calls ts = twoLeaves ∧
    SliceWriter.Flushes lz4 w w' ∧ (Addressed w' ↔ w'.sink.file.length < 2 ^ 32) := by
  obtain ⟨ts, w, w', hrun, hcalls, hflush, -⟩ := written_twoLeaves
  exact ⟨ts, w, w', hrun, hcalls, hflush, addressed_iff hrun hflush⟩

def framed : Codec where
  compress bytes := 0 :: bytes
  decompress bytes := some bytes.tail
  crc32c _ := 0

theorem framed_lossless : framed.Lossless := fun _ => rfl

theorem framed_bounded : framed.Bounded := by
  intro d
  have hlen : (framed.compress d.bytes).length = nodeSize + 1 := congrArg (· + 1) d.size_eq
  rw [hlen]
  decide

theorem not_addressed_long : ¬ ∀ (z : Codec) (ts : List (SliceWriter × Part × SliceWriter)) (w w' : SliceWriter),
    z.Lossless → z.Bounded → Run (SliceWriter.Adds z) {} ts w → SliceWriter.Flushes z w w' →
      w'.sink.file.length < Storage.maxFileSize → Addressed w' := by
  intro h
  obtain ⟨ts, w, w', hrun, hflush, hlow, hhigh⟩ := @SliceWriter.exists_written framed framed_bounded (2 ^ 32)
    (by decide) (by decide)
  have hmax : 2 ^ 32 + 7 * nodePageSize < Storage.maxFileSize := by decide
  have haddressed := h framed ts w w' framed_lossless framed_bounded hrun hflush (by omega)
  have hsmall := (addressed_iff hrun hflush).mp haddressed
  omega

end Addressed

end Tyrdbs.Slices
