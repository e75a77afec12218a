import Tyrdbs.Ushard.MergeRuns
import Tyrdbs.Ushard.SharingEnds

namespace Tyrdbs.Ushard.Sharing

open SharedPointers Unlinking Shelves Runs

variable {z : Nat} {s s' u v w : State} {a : Action}

/-- What is allowed and disturbs no operation does not fail, and leaves the ushard good. -/
theorem good_apply (z : Nat) (h : Good s) (ha : a.Allowed s) (hg : Undisturbed s a) :
    ∃ s', s.apply z a = some s' ∧ Good s' ∧ Frame s s' := by
  cases a with
  | add slice pages => exact add_step z h ha
  | opens bounds => exact opens_step z h ha
  | look r i found => exact look_step z h ha
  | opened r => exact opened_step z h ha
  | next r => exact next_step z h ha
  | close r => exact close_step z h ha
  | begins op => exact begins_step z h ha hg
  | ends r out pages => exact ends_step z h ha
  | drop => exact drop_step z h ha

theorem good_step (h : Good s) (hs : Step z s a s') (hg : Undisturbed s a) : Good s' ∧ Frame s s' := by
  obtain ⟨ha, happ⟩ := hs
  obtain ⟨s₁, happ₁, hgood, hframe⟩ := good_apply z h ha hg
  rw [happ, Option.some.injEq] at happ₁
  exact happ₁ ▸ ⟨hgood, hframe⟩

theorem good_start : Good {} where
  arranged := by
    refine ⟨List.nodup_nil, fun i hi => absurd hi List.not_mem_nil, fun i hi => absurd hi (Nat.not_lt_zero i),
      fun w hw => absurd hw List.not_mem_nil, List.Pairwise.nil, List.Pairwise.nil, fun c hc => ?_,
      fun r x hx => absurd hx (by simp), fun r _ => rfl, fun _ => ⟨rfl, rfl⟩⟩
    obtain ⟨slice, hslice, -⟩ := hc
    exact absurd hslice List.not_mem_nil
  custody := by
    refine ⟨rfl, fun i hi => ?_, fun i => ?_, List.nodup_nil, fun p => ?_, fun i hi => absurd hi (Nat.not_lt_zero i)⟩
    · exact absurd hi (Multiset.notMem_zero i)
    · exact ⟨fun hi => absurd hi List.not_mem_nil, fun hi => absurd hi.1 (Nat.not_lt_zero i)⟩
    · constructor
      · exact fun hp => absurd hp (Finset.notMem_empty p)
      · exact fun ⟨i, hi, _⟩ => absurd hi (Nat.not_lt_zero i)

theorem good_run {ts : List (State × Action × State)} (h : Run (Step z) {} ts u)
    (hg : ∀ t ∈ ts, Undisturbed t.1 t.2.1) : ∀ s ∈ visited {} ts, Good s :=
  h.visited_guarded Undisturbed hg Good good_start fun _ _ _ h hs hg => (good_step h hs hg).1

/-- A state behind the one in which an iterator was made. -/
structure Behind (u : State) (bounds : Option (Key × Key)) (s : State) : Prop where
  good : Good s
  next : u.ushard.next ≤ s.ushard.next
  slices : ∀ i < u.ushard.next, (s.ushard.objects i).slice = (u.ushard.objects i).slice
  count : u.nextReader < s.nextReader
  reader : ∀ x, s.readers.find u.nextReader = some x → x.snapshot = u.ushard.getSlices ∧ x.bounds = bounds

theorem behind_opens {bounds : Option (Key × Key)} (h : Good u) (hs : Step z u (.opens bounds) v) :
    Behind u bounds v := by
  obtain ⟨hgood, hframe⟩ := good_step h hs trivial
  have happ : some (u.iterate bounds u.ushard.getSlices) = some v := hs.2
  obtain rfl := Option.some.inj happ
  refine ⟨hgood, hframe.next, hframe.slices, Nat.lt_succ_self _, fun x hx => ?_⟩
  rw [find_iterate, if_pos rfl, Option.some.injEq] at hx
  subst hx
  exact ⟨rfl, rfl⟩

theorem behind_step {bounds : Option (Key × Key)} (h : Behind u bounds s) (hs : Step z s a s')
    (hg : Undisturbed s a) : Behind u bounds s' := by
  obtain ⟨hgood, hframe⟩ := good_step h.good hs hg
  refine ⟨hgood, h.next.trans hframe.next, fun i hi => ?_, h.count.trans_le hframe.count, fun x' hx' => ?_⟩
  · exact (hframe.slices i (hi.trans_le h.next)).trans (h.slices i hi)
  · obtain ⟨x, hx, hsnap, hbounds⟩ := hframe.readers _ h.count x' hx'
    exact ⟨hsnap.trans (h.reader x hx).1, hbounds.trans (h.reader x hx).2⟩

theorem Behind.found {bounds : Option (Key × Key)} (h : Behind u bounds s) {x : Reader}
    (hx : s.readers.find u.nextReader = some x) (hphase : x.phase ≠ .opening) :
    x.found = pad x.found.length (shown bounds (u.ushard.slices u.ushard.getSlices)) := by
  obtain ⟨hsnap, hbounds⟩ := h.reader x hx
  have hfound := (h.good.arranged.readings _ x hx).1.found hphase
  have hslices : x.snapshot.map (fun i => (s.ushard.objects i).slice) = u.ushard.slices u.ushard.getSlices := by
    rw [hsnap]
    exact List.map_congr_left fun i hi => h.slices i (made_all _ hi)
  rwa [hbounds, hslices] at hfound

/-- Whatever is added, merged, compacted or dropped while an iterator is open, and
wherever its calls of next give up the processor, it finds of each key within its bounds
the newest record in the slices that the ushard had when the iterator was made, then
nothing, and no stretch of a call fails. -/
theorem iterators_isolated {ts us : List (State × Action × State)} {bounds : Option (Key × Key)}
    (h : Run (Step z) {} ts u) (hg : ∀ t ∈ ts, Undisturbed t.1 t.2.1) (hopens : Step z u (.opens bounds) v)
    (h' : Run (Step z) v us w) (hg' : ∀ t ∈ us, Undisturbed t.1 t.2.1) :
    (∃ x, v.readers.find u.nextReader = some x) ∧
      ∀ s ∈ visited v us, ∀ x, s.readers.find u.nextReader = some x → x.phase ≠ .opening →
        x.found = pad x.found.length (shown bounds (u.ushard.slices u.ushard.getSlices)) ∧
          (s.apply z (.next u.nextReader)).isSome := by
  have hfirst := behind_opens (good_run h hg u h.mem_visited) hopens
  have hall := h'.visited_guarded Undisturbed hg' (Behind u bounds) hfirst fun _ _ _ h hs hg => behind_step h hs hg
  refine ⟨?_, fun s hs x hx hphase => ⟨(hall s hs).found hx hphase, ?_⟩⟩
  · have happ : some (u.iterate bounds u.ushard.getSlices) = some v := hopens.2
    obtain rfl := Option.some.inj happ
    exact ⟨_, (find_iterate u.nextReader).trans (if_pos rfl)⟩
  · obtain ⟨s', hs', -⟩ := next_step z (hall s hs).good ⟨x, hx, hphase⟩
    rw [hs']
    rfl

/-- Two versions of a key are compacted, and the ushard is dropped, while an iterator
that was made before still reads them. -/
def twoVersions : List Action := [.add (single 1 1 false) {1}, .add (single 1 2 false) {2}]

def compactUnderRead : List Action :=
  [.begins .compact, .look 1 0 (single 1 1 false).begin, .look 1 1 (single 1 2 false).begin, .opened 1, .next 1,
    .next 1, .next 1, .next 1, .look 0 0 (single 1 1 false).begin, .look 0 1 (single 1 2 false).begin,
    .ends 1 (single 1 2 false) {3}, .opened 0, .next 0, .drop, .next 0, .next 0, .next 0]

theorem iterators_isolated_compact :
    ∃ r ∈ follow (State.attempt 0) {} twoVersions, ∃ v ∈ State.attempt 0 r.2 (.opens none),
      ∃ r' ∈ follow (State.attempt 0) v compactUnderRead, ∃ x ∈ r'.2.readers.find r.2.nextReader,
        r'.2.freed = [2, 1, 0] ∧ x.found.length = 2 ∧
          x.found = pad x.found.length (shown none (r.2.ushard.slices r.2.ushard.getSlices)) := by
  have hall : ∃ r ∈ follow (State.attempt 0) {} twoVersions, (∀ t ∈ r.1, Undisturbed t.1 t.2.1) ∧
      ∃ v ∈ State.attempt 0 r.2 (.opens none), ∃ r' ∈ follow (State.attempt 0) v compactUnderRead,
        (∀ t ∈ r'.1, Undisturbed t.1 t.2.1) ∧ ∃ x ∈ r'.2.readers.find r.2.nextReader,
          x.phase ≠ .opening ∧ r'.2.freed = [2, 1, 0] ∧ x.found.length = 2 := by decide +kernel
  obtain ⟨r, hr, hg, v, hv, r', hr', hg', x, hx, hphase, hfreed, hlength⟩ := hall
  have hrun := run_follow (State.attempt 0) (fun _ _ _ => step_of_attempt) _ _ hr
  have hrun' := run_follow (State.attempt 0) (fun _ _ _ => step_of_attempt) _ _ hr'
  refine ⟨r, hr, v, hv, r', hr', x, hx, hfreed, hlength, ?_⟩
  exact ((iterators_isolated hrun hg (step_of_attempt hv) hrun' hg').2 r'.2 hrun'.mem_visited x hx hphase).1

theorem Good.emptied (h : Good s) (hdropped : s.dropped = true) (hnone : s.readers.entries = []) :
    s.ushard.owned = ∅ := by
  obtain ⟨htiers, hops⟩ := h.arranged.emptied hdropped
  have hheld : held s = 0 := by
    rw [held, htiers, hops, readerPointers, Table.values, hnone]
    rfl
  refine Finset.eq_empty_of_forall_notMem fun p hp => ?_
  obtain ⟨i, hi, hfreed, -⟩ := (h.custody.owned p).mp hp
  refine hfreed ((h.custody.frees i).mpr ⟨hi, ?_, ?_⟩)
  · refine h.arranged.gone i hi ?_
    rw [htiers]
    exact List.not_mem_nil
  · rw [hheld]
    exact Multiset.notMem_zero i

/-- The pages of a slice are freed once: when it is marked, because it was replaced or
its ushard dropped, and no tier, operation or iterator holds it any more; what is not free
are the pages of all other slices. So nothing that is allowed ever fails, and a dropped
ushard leaves no page behind when its last iterator goes. -/
theorem slices_reclaimed {ts : List (State × Action × State)} (h : Run (Step z) {} ts w)
    (hg : ∀ t ∈ ts, Undisturbed t.1 t.2.1) :
    (∀ s ∈ visited {} ts,
      s.freed.Nodup ∧
      (∀ i, i ∈ s.freed ↔ i < s.ushard.next ∧ (s.ushard.objects i).unlink = true ∧ i ∉ held s) ∧
      (∀ p, p ∈ s.ushard.owned ↔ ∃ i < s.ushard.next, i ∉ s.freed ∧ p ∈ (s.ushard.objects i).pages) ∧
      (s.dropped = true → s.readers.entries = [] → s.ushard.owned = ∅) ∧
      ∀ a : Action, a.Allowed s → Undisturbed s a → (s.apply z a).isSome) ∧
    ∀ t ∈ ts, t.1.freed <+: t.2.2.freed := by
  have hgood := good_run h hg
  refine ⟨fun s hs => ?_, fun t ht => ?_⟩
  · have hs := hgood s hs
    refine ⟨hs.custody.once, hs.custody.frees, hs.custody.owned, hs.emptied, fun a ha hga => ?_⟩
    obtain ⟨s', hs', -⟩ := good_apply z hs ha hga
    rw [hs']
    rfl
  · obtain ⟨hvisited, hstep⟩ := h.of_mem t ht
    exact (good_step (hgood _ hvisited) hstep (hg t ht)).2.freed

theorem slices_reclaimed_drop :
    ∃ r ∈ follow (State.attempt 0) {} (twoVersions ++ .opens none :: compactUnderRead ++ [.close 0]),
      r.2.freed = [2, 1, 0] ∧ r.2.ushard.owned = ∅ := by
  have hall : ∃ r ∈ follow (State.attempt 0) {} (twoVersions ++ .opens none :: compactUnderRead ++ [.close 0]),
      (∀ t ∈ r.1, Undisturbed t.1 t.2.1) ∧ r.2.freed = [2, 1, 0] ∧ r.2.dropped = true ∧
        r.2.readers.entries.isEmpty = true := by decide +kernel
  obtain ⟨r, hr, hg, hfreed, hdropped, hempty⟩ := hall
  have hrun := run_follow (State.attempt 0) (fun _ _ _ => step_of_attempt) _ _ hr
  obtain ⟨-, -, -, hemptied, -⟩ := (slices_reclaimed hrun hg).1 r.2 hrun.mem_visited
  exact ⟨r, hr, hfreed, hemptied hdropped (List.isEmpty_iff.mp hempty)⟩

end Tyrdbs.Ushard.Sharing
