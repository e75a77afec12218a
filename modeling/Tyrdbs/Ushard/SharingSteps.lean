import Tyrdbs.Ushard.Arrangement

namespace Tyrdbs.Ushard.Sharing

open SharedPointers Unlinking Shelves NewestWins

variable {s s' : State} {r : Nat} {x x' : Reader} {is : List Nat} {bounds : Option (Key × Key)}

theorem held_iterate (h : s.readers.find s.nextReader = none) :
    held (s.iterate bounds is) = held s + (is : Multiset Nat) := by
  rw [held, held, State.iterate, readerPointers_new h]
  simp only [Reader.pointers, List.map_nil, List.append_nil]
  simp only [add_assoc, add_comm, add_left_comm]

theorem slice_distinct (h : Arranged s) {rest : List Nat} (his : s.ushard.getSlices.Perm (is ++ rest)) :
    Slice.Distinct (s.ushard.slices is) := by
  have hall := (distinct_perm (his.map (fun i => (s.ushard.objects i).slice))).mp h.distinct
  rw [List.map_append] at hall
  exact (List.pairwise_append.mp hall).1

theorem opens_step (z : Nat) (h : Good s) (ha : Action.Allowed s (.opens bounds)) :
    ∃ s', s.apply z (.opens bounds) = some s' ∧ Good s' ∧ Frame s s' := by
  obtain ⟨hlive, hbounds⟩ := ha
  have hnew := h.arranged.fresh s.nextReader le_rfl
  obtain ⟨hsole, hmarked, hgone, hoperations, hparted, hdistinct, horigin, hreadings, hfresh, hover⟩ := h.arranged
  refine ⟨_, rfl, ⟨⟨hsole, hmarked, hgone, fun w hw => ?_, hparted, hdistinct, horigin, fun r y hy => ?_,
    fresh_iterate hfresh, hover⟩, ?_⟩, ⟨le_rfl, fun _ _ => rfl, Nat.le_succ _, fun r hr y hy => ?_, List.prefix_refl _⟩⟩
  · obtain ⟨hshaped, hstanding, hmarks, y, hy, hnone, hsource⟩ := hoperations w hw
    exact ⟨hshaped, hstanding, hmarks, y, find_older hnew hy, hnone, hsource⟩
  · rw [find_iterate] at hy
    split at hy
    · obtain rfl := Option.some.inj hy
      exact ⟨reading_new hdistinct fun b hb => (hbounds b hb).2, fun i hi => made_all _ hi⟩
    · exact hreadings r y hy
  · rw [held_iterate hnew]
    exact custody_retain h.custody fun i hi => held_tiers hi
  · rw [find_iterate, if_neg (Nat.ne_of_lt hr)] at hy
    exact ⟨y, hy, rfl, rfl⟩

theorem look_step (z : Nat) (h : Good s) {i : Nat} {o : Option (List Part)} (ha : Action.Allowed s (.look r i o)) :
    ∃ s', s.apply z (.look r i o) = some s' ∧ Good s' ∧ Frame s s' := by
  obtain ⟨x, hx, hphase, hshows, hwaiting⟩ := ha
  rw [Option.mem_def] at hx
  have hin : i ∈ x.waiting := by
    split at hwaiting
    · exact hwaiting
    · exact List.mem_of_head? hwaiting
  have hread : s.readable i = true :=
    decide_eq_true (h.custody.readable (held_reader hx (List.mem_append_left _ hin)))
  obtain ⟨es, ps, hlook, -, -⟩ := look_eq x i o
  obtain ⟨hgood, hframe⟩ := good_put _ h hx (reading_look (h.arranged.readings r x hx).1 hphase hin hshows)
    (by rw [hlook]) (by rw [hlook]) (look_pointers hin o)
  refine ⟨_, ?_, hgood, hframe⟩
  simp only [State.apply, hx, bind, Option.bind, hread, if_true]

theorem opened_step (z : Nat) (h : Good s) (ha : Action.Allowed s (.opened r)) :
    ∃ s', s.apply z (.opened r) = some s' ∧ Good s' ∧ Frame s s' := by
  obtain ⟨x, hx, hphase, hall⟩ := ha
  rw [Option.mem_def] at hx
  obtain ⟨x', hopened, hreading, hsame⟩ := reading_opened (h.arranged.readings r x hx).1 hphase hall
  have hsnap : x'.snapshot = x.snapshot := by rw [hsame]
  have hbounds : x'.bounds = x.bounds := by rw [hsame]
  have hpointers : x'.pointers = x.pointers := by rw [hsame]; rfl
  by_cases hop : s.operates r = true
  · obtain ⟨harranged, hframe⟩ := arranged_put h.arranged hx hreading hsnap hbounds
    have hheld := held_put (s := s) [] hx (by rw [hpointers]; exact List.Perm.refl _)
    rw [Multiset.coe_nil, add_zero] at hheld
    refine ⟨_, ?_, ⟨harranged, ?_⟩, hframe⟩
    · simp only [State.apply, hx, hopened, bind, Option.bind, Except.toOption, hop, if_true]
    · rw [hheld]
      exact h.custody
  · have hreading' : Reading (fun i => (s.ushard.objects i).slice) { x' with passed := [] } := by
      refine ⟨hreading.distinct, hreading.looked, hreading.shows, hreading.fits, hreading.begun, fun hno => ?_⟩
      obtain ⟨hall, it, hit, hmeets⟩ := hreading.goesOn hno
      exact ⟨hall, it, hit, hmeets.sofar, hmeets.goesOn⟩
    obtain ⟨hgood, hframe⟩ := good_put x'.passed h hx hreading' hsnap hbounds (by
      rw [← hpointers, Reader.pointers, Reader.pointers]
      exact List.perm_append_comm_assoc ..)
    refine ⟨_, ?_, hgood, hframe⟩
    simp only [State.apply, hx, hopened, bind, Option.bind, Except.toOption, hop, if_false, Bool.false_eq_true]

theorem next_step (z : Nat) (h : Good s) (ha : Action.Allowed s (.next r)) :
    ∃ s', s.apply z (.next r) = some s' ∧ Good s' ∧ Frame s s' := by
  obtain ⟨x, hx, hphase⟩ := ha
  rw [Option.mem_def] at hx
  obtain ⟨x', gone, hstep, hreading, -, u, hmoves, hu⟩ := reading_step (h.arranged.readings r x hx).1 hphase
  have hsame : x' = { x with
      elements := x'.elements, lastKey := x'.lastKey, phase := x'.phase, found := x'.found } := by
    rw [hu, hmoves.same]
  have hread : ∀ e ∈ x.elements.getLast?, s.readable e.object = true := by
    intro e he
    refine decide_eq_true (h.custody.readable (held_reader hx ?_))
    exact List.mem_append_right _ (List.mem_append_right _ (List.mem_map_of_mem (List.mem_of_getLast? he)))
  have hpointers : x.pointers.Perm (gone ++ x'.pointers) := by
    have helements : x'.elements = u.elements := by rw [hu]
    have hrest : x'.waiting = x.waiting ∧ x'.passed = x.passed := by rw [hsame]; exact ⟨rfl, rfl⟩
    rw [Reader.pointers, Reader.pointers, hrest.1, hrest.2, helements]
    refine ((hmoves.pointers.append_left x.passed).append_left x.waiting).trans (List.perm_iff_count.mpr fun k => ?_)
    simp only [List.count_append]
    omega
  obtain ⟨hgood, hframe⟩ := good_put gone h hx hreading (by rw [hsame]) (by rw [hsame]) hpointers
  refine ⟨_, ?_, hgood, hframe⟩
  simp only [State.apply, hx, hstep, bind, Option.bind, Except.toOption]
  exact if_pos hread

theorem close_step (z : Nat) (h : Good s) (ha : Action.Allowed s (.close r)) :
    ∃ s', s.apply z (.close r) = some s' ∧ Good s' ∧ Frame s s' := by
  obtain ⟨x, hx, -, hop⟩ := ha
  rw [Option.mem_def] at hx
  have hnone : ∀ w ∈ s.operations, w.reader ≠ r := by
    intro w hw heq
    have htrue : s.operates r = true := List.any_eq_true.mpr ⟨w, hw, decide_eq_true heq⟩
    rw [htrue] at hop
    exact absurd hop (by simp)
  obtain ⟨hsole, hmarked, hgone, hoperations, hparted, hdistinct, horigin, hreadings, hfresh, hover⟩ := h.arranged
  have harranged : Arranged { s with readers := s.readers.erase r } := by
    refine ⟨hsole, hmarked, hgone, fun w hw => ?_, hparted, hdistinct, horigin,
      fun r' y hy => hreadings r' y (find_erased hy), fresh_erased hfresh, hover⟩
    obtain ⟨hshaped, hstanding, hmarks, y, hy, hreads⟩ := hoperations w hw
    exact ⟨hshaped, hstanding, hmarks, y, find_other (hnone w hw) hy, hreads⟩
  obtain ⟨hgood, hframe⟩ := good_giveUp x.pointers harranged (by rw [held_erase hx]; exact h.custody)
  refine ⟨_, ?_, hgood, ⟨hframe.next, hframe.slices, hframe.count, fun r' hr' y hy => ?_, hframe.freed⟩⟩
  · simp only [State.apply, hx, bind, Option.bind]
  · obtain ⟨y', hy', hsame⟩ := hframe.readers r' hr' y hy
    exact ⟨y', find_erased hy', hsame⟩

section Adding

variable (z : Nat) (u : Unlinking.State) (out : Slice) (pages : Finset Nat)

theorem add_all : (u.add z out pages).getSlices.Perm (u.next :: u.getSlices) := all_push u.tiers (tierOf z out) u.next

theorem add_keeps (t : Nat) : u.tiers.tier t <+: (u.add z out pages).tiers.tier t :=
  prefix_push u.tiers (tierOf z out) u.next t

theorem add_old {i : Nat} (hi : i < u.next) : (u.add z out pages).objects i = u.objects i :=
  Function.update_of_ne (Nat.ne_of_lt hi) _ _

theorem add_new : (u.add z out pages).objects u.next = { slice := out, pages := pages } := Function.update_self ..

theorem add_slices {is : List Nat} (his : ∀ i ∈ is, i < u.next) : (u.add z out pages).slices is = u.slices is :=
  List.map_congr_left fun i hi => congrArg Object.slice (add_old z u out pages (his i hi))

end Adding

theorem source_tiers {w : Rewriting} (h : Operates s w) {i : Nat} (hi : i ∈ w.source) : i ∈ s.ushard.getSlices := by
  obtain ⟨t, ht⟩ := mem_all.mp hi
  exact mem_all.mpr ⟨t, (h.standing t).subset ht⟩

theorem add_step (z : Nat) (h : Good s) {slice : Slice} {pages : Finset Nat}
    (ha : Action.Allowed s (.add slice pages)) :
    ∃ s', s.apply z (.add slice pages) = some s' ∧ Good s' ∧ Frame s s' := by
  obtain ⟨hlive, -, hnew, hpages⟩ := ha
  have hcustody := custody_add h.custody z slice hpages
  obtain ⟨hsole, hmarked, hgone, hoperations, hparted, hdistinct, horigin, hreadings, hfresh, hover⟩ := h.arranged
  have hperm := add_all z s.ushard slice pages
  have hlast : s.ushard.next ∉ s.ushard.getSlices := fun hin => Nat.lt_irrefl _ (made_all _ hin)
  have hold : ∀ i < s.ushard.next, (s.ushard.add z slice pages).objects i = s.ushard.objects i :=
    fun i hi => add_old z s.ushard slice pages hi
  have hslices : ((s.ushard.add z slice pages).slices (s.ushard.add z slice pages).getSlices).Perm
      (slice :: s.ushard.slices s.ushard.getSlices) := by
    refine (hperm.map _).trans ?_
    rw [List.map_cons, add_new]
    exact (List.Perm.of_eq (add_slices z s.ushard slice pages fun i hi => made_all _ hi)).cons slice
  refine ⟨_, rfl, ⟨⟨?_, fun i hi hmark => ?_, fun i hi hout => ?_, fun w hw => ?_, hparted, ?_, ?_,
    fun r x hx => ?_, hfresh, fun hno => ?_⟩, ?_⟩,
    ⟨Nat.le_succ _, fun i hi => by rw [hold i hi], le_rfl, fun _ _ x hx => ⟨x, hx, rfl, rfl⟩, List.prefix_refl _⟩⟩
  · exact hperm.nodup_iff.mpr (List.nodup_cons.mpr ⟨hlast, hsole⟩)
  · rcases List.mem_cons.mp (hperm.mem_iff.mp hi) with rfl | hi
    · simp only [add_new] at hmark
      exact absurd hmark (by simp)
    · simp only [hold i (made_all _ hi)] at hmark
      exact hmarked i hi hmark
  · have hne : i ≠ s.ushard.next := fun heq => hout (hperm.mem_iff.mpr (heq ▸ List.mem_cons_self))
    have hi : i < s.ushard.next := Nat.lt_of_le_of_ne (Nat.le_of_lt_succ hi) hne
    simp only [hold i hi]
    exact hgone i hi fun hin => hout (hperm.mem_iff.mpr (List.mem_cons_of_mem _ hin))
  · have hop := hoperations w hw
    refine ⟨hop.shaped, fun t => (hop.standing t).trans (add_keeps z s.ushard slice pages t), fun i hi => ?_, hop.reads⟩
    simp only [hold i (made_all _ (source_tiers hop hi))]
    exact hop.marked i hi
  · refine (distinct_perm hslices).mpr (List.pairwise_cons.mpr ⟨?_, hdistinct⟩)
    intro s' hs' r hr r' hr' hk
    obtain ⟨x, hx, y, hy, hver⟩ := horigin ⟨s', hs', r', hr', rfl⟩
    have hkey : y.key = r'.key := congrArg Version.key hver
    have hidx : y.idx = r'.idx := congrArg Version.idx hver
    rw [← hidx]
    exact hnew x hx r hr y hy (hk.trans hkey.symm)
  · change content _ ⊆ content (slice :: s.added)
    rw [content_perm hslices, content_cons, content_cons]
    exact Set.union_subset_union_right _ horigin
  · obtain ⟨hreading, hmade⟩ := hreadings r x hx
    exact ⟨hreading.mono fun i hi => by rw [hold i (hmade i hi)], fun i hi => Nat.lt_succ_of_lt (hmade i hi)⟩
  · exact absurd (hlive.symm.trans hno) (by simp)
  · have hheld : held { s with
        ushard := s.ushard.add z slice pages, counts := retain s.counts [s.ushard.next], added := slice :: s.added } =
        held s + (([s.ushard.next] : List Nat) : Multiset Nat) := by
      rw [held, held, Multiset.coe_eq_coe.mpr hperm, ← Multiset.cons_coe, Multiset.coe_singleton,
        ← Multiset.singleton_add]
      simp only [add_comm, add_left_comm]
    rw [hheld]
    exact hcustody

section Beginning

variable {u u' : Unlinking.State}

theorem getSlices_marked (h : Marked u is u') : u'.getSlices = u.getSlices := by
  rw [Unlinking.State.getSlices, Unlinking.State.getSlices, h.tiers]

theorem slices_marked (h : Marked u is u') (js : List Nat) : u'.slices js = u.slices js :=
  List.map_congr_left fun i _ => (h.same i).1

theorem taken_source (u : Unlinking.State) (op : Operation) : all (taken u op) = u.sources op := by
  cases op with
  | merge t => exact List.append_nil _
  | compact => rfl

theorem taken_tier (u : Unlinking.State) (op : Operation) (t : Nat) : (taken u op).tier t <+: u.tiers.tier t := by
  cases op with
  | compact => exact List.prefix_refl _
  | merge t' =>
      by_cases ht : t = t'
      · subst ht
        have hsame : (taken u (.merge t)).lookup t = some (u.tiers.tier t) :=
          AList.mem_lookup_iff.mpr List.mem_cons_self
        rw [Tiers.tier, hsame]
        exact List.prefix_refl _
      · have hnone : (taken u (.merge t')).lookup t = none :=
          AList.lookup_eq_none.mpr fun hin => ht (List.mem_singleton.mp hin)
        rw [Tiers.tier, hnone]
        exact List.nil_prefix

theorem sources_perm (u : Unlinking.State) (op : Operation) : ∃ rest, u.getSlices.Perm (u.sources op ++ rest) := by
  cases op with
  | merge t => exact ⟨_, all_perm u.tiers t⟩
  | compact => exact ⟨[], by rw [List.append_nil]; exact List.Perm.refl _⟩

end Beginning

theorem begins_step (z : Nat) (h : Good s) {op : Operation} (ha : Action.Allowed s (.begins op))
    (hg : Undisturbed s (.begins op)) : ∃ s', s.apply z (.begins op) = some s' ∧ Good s' ∧ Frame s s' := by
  have hlive : s.dropped = false := ha
  by_cases hfew : (s.ushard.sources op).length < op.least
  · refine ⟨s, ?_, h, frame_refl s⟩
    simp only [State.apply, hfew, if_true]
  have hapart : ∀ w ∈ s.operations, ∀ t, (taken s.ushard op).tier t = [] ∨ w.checkpoint.tier t = [] := by
    intro w hw t
    by_cases ht : t ∈ (taken s.ushard op).keys
    · exact hg.resolve_left hfew w hw t ht
    · refine .inl ?_
      rw [Tiers.tier, AList.lookup_eq_none.mpr ht]
      rfl
  obtain ⟨hsole, hmarked, hgone, hoperations, hparted, hdistinct, horigin, hreadings, hfresh, hover⟩ := h.arranged
  have hnew := hfresh s.nextReader le_rfl
  obtain ⟨rest, hrest⟩ := sources_perm s.ushard op
  have hin : ∀ i ∈ s.ushard.sources op, i ∈ s.ushard.getSlices := fun i hi => sources_mem hi
  have hunmarked : ∀ i ∈ s.ushard.sources op, (s.ushard.objects i).unlink = false := by
    intro i hi
    refine Bool.eq_false_iff.mpr fun hmark => ?_
    obtain ⟨w, hw, hiw⟩ := hmarked i (hin i hi) hmark
    -- the slice would stand in one tier for this operation and in the same one for the other
    obtain ⟨t, ht⟩ := mem_all.mp hiw
    obtain ⟨t', ht'⟩ := mem_all.mp (show i ∈ all (taken s.ushard op) by rw [taken_source]; exact hi)
    have htt : t = t' := by
      by_contra hne
      have hother : i ∈ all (s.ushard.tiers.erase t) := by
        refine mem_all.mpr ⟨t', ?_⟩
        rw [shelf, AList.lookup_erase_ne (Ne.symm hne)]
        exact (taken_tier s.ushard op t').subset ht'
      have hboth := (all_perm s.ushard.tiers t).nodup_iff.mp hsole
      exact List.disjoint_of_nodup_append hboth (((hoperations w hw).standing t).subset ht) hother
    subst htt
    rcases hapart w hw t with hnone | hnone
    · rw [show shelf (taken s.ushard op) t = [] from hnone] at ht'
      exact absurd ht' List.not_mem_nil
    · rw [show shelf w.checkpoint t = [] from hnone] at ht
      exact absurd ht List.not_mem_nil
  have hnodup : (s.ushard.sources op).Nodup := (List.nodup_append.mp (hrest.nodup_iff.mp hsole)).1
  obtain ⟨v, hv⟩ := remove_unmarked hnodup hunmarked
  have hmarks := marked_remove hv
  have hget := getSlices_marked hmarks
  have hslice : ∀ i, (v.objects i).slice = (s.ushard.objects i).slice := fun i => (hmarks.same i).1
  let w : Rewriting := ⟨op, taken s.ushard op, s.nextReader⟩
  have hsource : w.source = s.ushard.sources op := taken_source s.ushard op
  have hpointers : ∀ i ∈ w.pointers, i ∈ s.ushard.getSlices := by
    intro i hi
    rw [Rewriting.pointers] at hi
    split at hi
    · exact absurd hi List.not_mem_nil
    · exact hin i (hsource ▸ hi)
  let m : State := { s with
    ushard := v, operations := w :: s.operations, counts := retain s.counts w.pointers }
  have happ : s.apply z (.begins op) = some (m.iterate none (s.ushard.sources op)) := by
    simp only [State.apply, hfew, if_false, hv, bind, Option.bind]
    rfl
  have hnever : ∀ w' ∈ s.operations, w'.reader ≠ s.nextReader := by
    intro w' hw' heq
    obtain ⟨y, hy, -⟩ := (hoperations w' hw').reads
    rw [heq, hnew] at hy
    exact absurd hy (by simp)
  have hfind : ∀ r, (m.iterate none (s.ushard.sources op)).readers.find r = if r = s.nextReader then
      some { bounds := none, snapshot := s.ushard.sources op, waiting := s.ushard.sources op }
      else s.readers.find r := find_iterate (s := m)
  refine ⟨_, happ, ⟨⟨?_, fun i hi hmark => ?_, fun i hi hout => ?_, fun w' hw' => ?_, ?_, ?_, ?_, fun r y hy => ?_,
    fresh_iterate (s := m) hfresh, fun hno => ?_⟩, ?_⟩,
    ⟨?_, fun i _ => hslice i, Nat.le_succ _, fun r hr y hy => ?_, List.prefix_refl _⟩⟩
  · change v.getSlices.Nodup
    rw [hget]
    exact hsole
  · replace hi : i ∈ s.ushard.getSlices := hget ▸ hi
    rcases (hmarks.marks i).mp hmark with hi' | hmark
    · exact ⟨w, List.mem_cons_self, hsource ▸ hi'⟩
    · obtain ⟨w', hw', hiw⟩ := hmarked i hi hmark
      exact ⟨w', List.mem_cons_of_mem _ hw', hiw⟩
  · refine (hmarks.marks i).mpr (.inr (hgone i (hmarks.next ▸ hi) fun hin => hout ?_))
    change i ∈ v.getSlices
    rwa [hget]
  · rcases List.mem_cons.mp hw' with rfl | hw'
    · refine ⟨fun t ht => ?_, fun t => ?_, fun i hi => (hmarks.marks i).mpr (.inl (hsource ▸ hi)), ?_⟩
      · obtain rfl : op = .merge t := ht
        exact ⟨_, rfl⟩
      · change (taken s.ushard op).tier t <+: v.tiers.tier t
        rw [hmarks.tiers]
        exact taken_tier s.ushard op t
      · exact ⟨_, (hfind _).trans (if_pos rfl), rfl, hsource.symm⟩
    · have hop := hoperations w' hw'
      obtain ⟨y, hy, hreads⟩ := hop.reads
      refine ⟨hop.shaped, fun t => ?_, fun i hi => (hmarks.marks i).mpr (.inr (hop.marked i hi)), y, ?_, hreads⟩
      · change w'.checkpoint.tier t <+: v.tiers.tier t
        rw [hmarks.tiers]
        exact hop.standing t
      · exact find_older (s := m) hnew hy
  · exact List.pairwise_cons.mpr ⟨fun w' hw' => ⟨(hnever w' hw').symm, hapart w' hw'⟩, hparted⟩
  · change Slice.Distinct (v.slices v.getSlices)
    rw [hget, slices_marked hmarks]
    exact hdistinct
  · change content (v.slices v.getSlices) ⊆ content s.added
    rw [hget, slices_marked hmarks]
    exact horigin
  · rw [hfind] at hy
    split at hy
    · obtain rfl := Option.some.inj hy
      refine ⟨reading_new ?_ (fun b hb => absurd hb (by simp)), fun i hi => ?_⟩
      · change Slice.Distinct (v.slices _)
        rw [slices_marked hmarks]
        exact slice_distinct h.arranged hrest
      · change i < v.next
        rw [hmarks.next]
        exact made_all _ (hin i hi)
    · obtain ⟨hreading, hmade⟩ := hreadings r y hy
      refine ⟨hreading.mono fun i _ => hslice i, fun i hi => ?_⟩
      change i < v.next
      rw [hmarks.next]
      exact hmade i hi
  · exact absurd (hlive.symm.trans hno) (by simp)
  · have hheld : held (m.iterate none (s.ushard.sources op)) =
        held s + (w.pointers : Multiset Nat) + (s.ushard.sources op : Multiset Nat) := by
      rw [held_iterate (s := m) hnew, held, held]
      change ((v.getSlices : List Nat) : Multiset Nat) +
        (((w :: s.operations).flatMap Rewriting.pointers : List Nat) : Multiset Nat) + readerPointers s.readers + _ = _
      rw [hget, List.flatMap_cons, ← Multiset.coe_add]
      simp only [add_assoc, add_comm, add_left_comm]
    rw [hheld]
    have hcustody := custody_marked h.custody hmarks fun i hi => held_tiers (hin i hi)
    refine custody_retain (custody_retain hcustody fun i hi => held_tiers (hpointers i hi)) fun i hi => ?_
    exact Multiset.mem_add.mpr (.inl (held_tiers (hin i hi)))
  · change s.ushard.next ≤ v.next
    rw [hmarks.next]
  · rw [hfind, if_neg (Nat.ne_of_lt hr)] at hy
    exact ⟨y, hy, rfl, rfl⟩

end Tyrdbs.Ushard.Sharing
