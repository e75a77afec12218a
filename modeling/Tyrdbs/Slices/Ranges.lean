import Tyrdbs.Slices.Covering

namespace Tyrdbs.Slices

open Bytes Outcome SpanTree Runs

section Gap

variable {z : Codec} {w w' : SliceWriter} {parts : List Part} {leaves : List (Nat × List Entry)}
  {cur : List Entry} {t : Slice}

theorem leaf_of_covered (hread : Readable z w'.sink) (hv : Views z w' t)
    (hflush : Flushed z w w' leaves cur) {key : Key} (h : Covered w'.handed (leavesOf w'.sink.nodes) key) :
    ∃ sp ∈ w'.handed, sp.first ≤ key ∧ key ≤ sp.last ∧
      ∃ n, t.load z sp.target = .ok n ∧ ∃ e ∈ n.entries, e.key = key := by
  obtain ⟨sp, hsp, hfirst, hlast, before, es, after, hsplit, ⟨e, he, hkey⟩, -⟩ := h
  obtain ⟨data, index, hfinished, -⟩ := hflush.finished hread.small
  have hmem : (sp.target, es) ∈ contents w'.sink.nodes :=
    (List.mem_filter.mp (hsplit ▸ List.mem_append_right _ (List.mem_cons_self ..))).1
  obtain ⟨p, hp, heq⟩ := List.mem_map.mp hmem
  obtain ⟨n, hn, hagree⟩ := load_agree hread.lossless hfinished hread.small hread.fits hv hp
  refine ⟨sp, hsp, hfirst, hlast, n, ?_, e, ?_, hkey⟩
  · rw [← (Prod.mk.inj heq).1]
    exact hn
  · rw [hagree.entries_eq, (Prod.mk.inj heq).2]
    exact he

theorem handed_valid (hread : Readable z w'.sink) (hold : Holding z w parts leaves cur)
    (hflush : Flushed z w w' leaves cur) {sp : Span Key Nat} (hsp : sp ∈ w'.handed) :
    isValid sp.target = true := by
  obtain ⟨es, hes⟩ := hflush.targets hold.targets sp hsp
  obtain ⟨data, index, hfinished, -⟩ := hflush.finished hread.small
  obtain ⟨p, hp, heq⟩ := List.mem_map.mp (List.mem_filter.mp hes).1
  rw [← (Prod.mk.inj heq).1]
  exact (hfinished.imaged p hp).isValid_eq

end Gap

theorem wellFormed_twoLeaves : ∃ (s : Slice) (height : Nat) (spans : List (Span Key Nat)),
    s.WellFormed lz4 height spans ∧
    (∀ p ∈ twoLeaves, s.Stored lz4 spans p.key ∧ s.LeafReaches lz4 spans p.key) ∧
    s.range lz4 8 [98] [99] = .ok none := by
  obtain ⟨ts, w, w', hrun, hcalls, ⟨rounds, hok⟩, hread, hwhole, hinside, hrange⟩ := written_twoLeaves
  obtain ⟨leaves, cur, hold, hc⟩ := run_covering hrun hwhole
  have hf := (hold.flush rounds).of_ok hok
  have hv := views_commit w' (fun _ => []) (admits_cache lz4 w'.sink fun _ => [])
  have hcovering := hf.covering hc
  have hne : calls ts ≠ [] := by
    rw [hcalls]
    exact List.cons_ne_nil _ _
  obtain ⟨data, index, hfinished, -⟩ := hf.finished hread.small
  obtain ⟨top, htree⟩ := hf.tree (hf.handed_ne (hold.begun hne))
  refine ⟨w'.commit w'.sink.cache fun _ => [], top, w'.handed,
    ⟨fun _ => htree.mono (fun l spans hl => hv.holds hread hfinished hl), ?_, hcovering.ordered, ?_⟩, ?_, hrange⟩
  · intro hzero
    rw [hv.keyCount_eq, hf.keyCount_eq, hold.keyCount_eq, hcalls] at hzero
    exact absurd hzero (by decide)
  · intro sp hsp
    obtain ⟨n, hn, hin, hone⟩ := hinside sp hsp
    refine ⟨handed_valid hread hold hf hsp, n, ?_, ?_, hin⟩
    · rw [Slice.load, show (w'.commit w'.sink.cache fun _ => []).cached sp.target = some n from hn]
    · obtain ⟨e, he⟩ := List.length_eq_one_iff.mp (n.length_entries.trans hone)
      rw [he]
      exact List.pairwise_singleton _ _
  · intro p hp
    rw [← hcalls] at hp
    obtain ⟨sp, hsp, hfirst, hlast, n, hn, e, he, hkey⟩ := leaf_of_covered hread hv hf (hf.covered hold hc hp)
    exact ⟨⟨sp, hsp, n, hn, e, he, hkey⟩, sp, n, chosen_of_mem hcovering.ordered hsp hfirst hlast, hn, e, he,
      hkey.ge⟩

namespace Slice

variable {z : Codec} {s : Slice} {height rounds : Nat} {spans : List (Span Key Nat)} {minKey maxKey : Key}

/-- A range is found exactly where the searched leaf reaches its minimum. -/
theorem range_finds_iff (h : s.WellFormed z height spans) (hle : minKey ≤ maxKey) (hr : height ≤ rounds) :
    s.FindsRange z spans rounds minKey maxKey ↔
      ((∃ key, s.Stored z spans key ∧ minKey ≤ key ∧ key ≤ maxKey) → s.LeafReaches z spans minKey) := by
  constructor
  · rintro ⟨hfinds, -⟩ hkey
    obtain ⟨it, it', hrange, -⟩ := hfinds hkey
    have hk : s.keyCount ≠ 0 := fun hz => by
      obtain ⟨_, ⟨t, ht, _⟩, _⟩ := hkey
      rw [h.empty hz] at ht
      exact absurd ht (by simp)
    obtain ⟨sp, n, hchosen, hload, heq⟩ := range_eq h hk hle hr
    obtain ⟨hvalid, n', hload', hs, hin⟩ := h.leaves sp hchosen.mem
    obtain rfl : n = n' := Except.ok.inj (hload.symm.trans hload')
    rw [hrange] at heq
    by_cases hout : sp.last < minKey ∨ maxKey < sp.first
    · rw [if_pos hout] at heq
      exact absurd heq (by simp)
    · rw [if_neg hout] at heq
      refine ⟨sp, n, hchosen, hload, (lowerBound_lt_iff hs).mp ?_⟩
      by_contra hlt
      rw [iteratorAt, if_neg hlt] at heq
      exact absurd heq (by simp [Functor.map, Except.map])
  · intro hreach
    have hfinds := fun hkey => range_of_leafReaches h hle hr (hreach hkey) hkey
    refine ⟨hfinds, fun hnone key hst hkey => ?_⟩
    obtain ⟨it, it', hsome, -⟩ := hfinds ⟨key, hst, hkey⟩
    rw [hsome] at hnone
    exact absurd hnone (by simp)

theorem range_finds_twoLeaves : ∃ (s : Slice) (spans : List (Span Key Nat)) (rounds : Nat),
    s.FindsRange lz4 spans rounds [97] [98] ∧ s.Stored lz4 spans [97] := by
  obtain ⟨s, height, spans, hwell, hparts, -⟩ := wellFormed_twoLeaves
  obtain ⟨hstored, hreach⟩ := hparts ⟨[97], List.replicate 8000 98, true, false, 1⟩ (List.mem_cons_self ..)
  exact ⟨s, spans, height, (range_finds_iff hwell (by decide) le_rfl).mpr (fun _ => hreach), hstored⟩

/-- A range that begins in the gap and reaches the next key is not found. -/
theorem range_misses_gap : ∃ (s : Slice) (height : Nat) (spans : List (Span Key Nat)),
    s.WellFormed lz4 height spans ∧ s.Stored lz4 spans [99] ∧
    s.range lz4 8 [98] [99] = .ok none ∧ ¬ s.FindsRange lz4 spans 8 [98] [99] := by
  obtain ⟨s, height, spans, hwell, hparts, hrange⟩ := wellFormed_twoLeaves
  obtain ⟨hstored, -⟩ := hparts ⟨[99], List.replicate 8000 100, true, false, 1⟩
    (List.mem_cons_of_mem _ (List.mem_cons_self ..))
  refine ⟨s, height, spans, hwell, hstored, hrange, fun hfinds => ?_⟩
  exact hfinds.2 hrange [99] hstored ⟨by decide, by decide⟩

end Slice

end Tyrdbs.Slices
