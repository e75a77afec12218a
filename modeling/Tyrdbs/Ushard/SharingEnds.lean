import Tyrdbs.Ushard.SharingSteps

namespace Tyrdbs.Ushard.Sharing

open SharedPointers Unlinking Shelves NewestWins

variable {s s' : State} {r : Nat} {x : Reader}

/-- Of the operations in progress one reads with an iterator, and the others do not. -/
theorem operations_perm {ws : List Rewriting} {w : Rewriting} (h : ws.Pairwise (fun w w' => w.reader ≠ w'.reader))
    (hw : w ∈ ws) : ws.Perm (w :: ws.filter (fun w' => w'.reader ≠ w.reader)) := by
  induction ws with
  | nil => exact absurd hw List.not_mem_nil
  | cons v ws ih =>
      obtain ⟨hv, hws⟩ := List.pairwise_cons.mp h
      rcases List.mem_cons.mp hw with rfl | hw
      · have hrest : ws.filter (fun w' => w'.reader ≠ w.reader) = ws :=
          List.filter_eq_self.mpr fun w' hw' => decide_eq_true (hv w' hw').symm
        rw [List.filter_cons_of_neg (by simp), hrest]
      · have hfirst : decide (v.reader ≠ w.reader) = true := decide_eq_true (hv w hw)
        rw [List.filter_cons, if_pos hfirst]
        exact ((ih hws hw).cons v).trans (List.Perm.swap ..)

theorem rewrites_of_found {w : Rewriting} {out : Slice} (hreading : Reading (fun i => (s.ushard.objects i).slice) x)
    (hphase : x.phase = .resting) (hnone : x.bounds = none) (hsource : x.snapshot = w.source)
    (hfound : x.found = (x.found.filterMap id).map some ++ [none])
    (hout : Committed (added w.compacts (x.found.filterMap id)) out) :
    Rewrites w.compacts (s.ushard.slices w.source) out := by
  have hd := hreading.distinct
  have hall := hreading.found (by rw [hphase]; exact Phase.noConfusion)
  rw [hnone, hsource] at hall
  rw [hsource] at hd
  have hparts := pad_end (hall.symm.trans hfound)
  refine ⟨x.found.filterMap id, ?_, hout⟩
  rw [← hparts]
  exact drainSlices_eq hd

theorem ends_replaces {w : Rewriting} (z : Nat) (h : Operates s w) (out : Slice) (pages : Finset Nat) :
    ∃ u rest, w.erase (s.ushard.add z out pages) = some u ∧ SameSlices (s.ushard.add z out pages) u ∧
      s.ushard.getSlices.Perm (w.source ++ rest) ∧ u.getSlices.Perm (s.ushard.next :: rest) ∧
      ∀ t, w.checkpoint.tier t = [] → s.ushard.tiers.tier t <+: u.tiers.tier t := by
  obtain ⟨u₀, -, -, hold, -⟩ := erase_standing h.shaped h.standing
  obtain ⟨u, hu, hsame, hnew, htier⟩ := erase_standing (u := s.ushard.add z out pages) h.shaped fun t =>
    (h.standing t).trans (add_keeps z s.ushard out pages t)
  refine ⟨u, u₀.getSlices, hu, hsame, hold, ?_, fun t ht => ?_⟩
  · refine (List.perm_append_left_iff w.source).mp ?_
    exact (hnew.symm.trans (add_all z s.ushard out pages)).trans ((hold.cons _).trans List.perm_middle.symm)
  · have hrest := htier t
    rw [ht, List.nil_append] at hrest
    rw [← hrest]
    exact add_keeps z s.ushard out pages t

theorem ends_step (z : Nat) (h : Good s) {out : Slice} {pages : Finset Nat}
    (ha : Action.Allowed s (.ends r out pages)) :
    ∃ s', s.apply z (.ends r out pages) = some s' ∧ Good s' ∧ Frame s s' := by
  obtain ⟨w, hfind, x, hx, hphase, hfound, hout, hpages⟩ := ha
  rw [Option.mem_def] at hfind hx
  have hw : w ∈ s.operations := List.mem_of_find?_eq_some hfind
  have hr : w.reader = r := by simpa using List.find?_some hfind
  have hcustody := custody_add h.custody z out hpages
  have hop := h.arranged.operations w hw
  obtain ⟨hsole, hmarked, hgone, hoperations, hparted, hdistinct, horigin, hreadings, hfresh, hover⟩ := h.arranged
  obtain ⟨u, rest, hu, hsame, hold, hnew, htier⟩ := ends_replaces z hop out pages
  obtain ⟨y, hy, hnone, hsource⟩ := hop.reads
  rw [hr, hx, Option.some.injEq] at hy
  subst hy
  have hrewrites := rewrites_of_found (hreadings r x hx).1 hphase hnone hsource hfound hout
  have hops := operations_perm (hparted.imp fun hab => hab.1) hw
  rw [hr] at hops
  have hkeep : ∀ v ∈ s.operations.filter (fun v => v.reader ≠ r), v ∈ s.operations ∧ v.reader ≠ r := by
    intro v hv
    rw [List.mem_filter] at hv
    exact ⟨hv.1, of_decide_eq_true hv.2⟩
  have hobjects : ∀ i < s.ushard.next, u.objects i = s.ushard.objects i := by
    intro i hi
    rw [hsame.objects]
    exact add_old z s.ushard out pages hi
  have hlast : u.objects s.ushard.next = { slice := out, pages := pages } := by
    rw [hsame.objects]
    exact add_new z s.ushard out pages
  have hnext : u.next = s.ushard.next + 1 := hsame.next
  have hnodup := hold.nodup_iff.mp hsole
  have hmade : ∀ i ∈ w.source ++ rest, i < s.ushard.next := fun i hi => made_all _ (hold.mem_iff.mpr hi)
  have hslices : (u.slices u.getSlices).Perm (out :: s.ushard.slices rest) := by
    refine (hnew.map _).trans ?_
    rw [List.map_cons, hlast]
    refine (List.Perm.of_eq (List.map_congr_left fun i hi => ?_)).cons out
    rw [hobjects i (hmade i (List.mem_append_right _ hi))]
  have hreplaced : Replaced w.compacts (s.ushard.slices w.source) out (s.ushard.slices s.ushard.getSlices)
      (u.slices u.getSlices) := by
    refine ⟨hrewrites, s.ushard.slices rest, ?_, hslices⟩
    have hmap := hold.map (fun i => (s.ushard.objects i).slice)
    rw [List.map_append] at hmap
    exact hmap
  let m : State := { s with
    ushard := u, counts := retain s.counts [s.ushard.next], readers := s.readers.erase r
    operations := s.operations.filter (fun v => v.reader ≠ r) }
  have harranged : Arranged m := by
    refine ⟨?_, fun i hi hmark => ?_, fun i hi hout' => ?_, fun v hv => ?_, ?_, ?_, ?_, fun r' y hy => ?_,
      fresh_erased hfresh, fun hno => ?_⟩
    · refine hnew.nodup_iff.mpr (List.nodup_cons.mpr ⟨fun hin => ?_, (List.nodup_append.mp hnodup).2.1⟩)
      exact Nat.lt_irrefl _ (hmade _ (List.mem_append_right _ hin))
    · rcases List.mem_cons.mp (hnew.mem_iff.mp hi) with rfl | hi
      · replace hmark : (u.objects s.ushard.next).unlink = true := hmark
        rw [hlast] at hmark
        exact absurd hmark (by simp)
      · replace hmark : (u.objects i).unlink = true := hmark
        rw [hobjects i (hmade i (List.mem_append_right _ hi))] at hmark
        obtain ⟨v, hv, hiv⟩ := hmarked i (hold.mem_iff.mpr (List.mem_append_right _ hi)) hmark
        refine ⟨v, ?_, hiv⟩
        rcases List.mem_cons.mp (hops.mem_iff.mp hv) with rfl | hv
        · exact absurd hi (List.disjoint_of_nodup_append hnodup hiv)
        · exact hv
    · replace hi : i < s.ushard.next + 1 := hnext ▸ hi
      have hout' : i ∉ s.ushard.next :: rest := fun hin => hout' (hnew.mem_iff.mpr hin)
      have hne : i ≠ s.ushard.next := fun heq => hout' (heq ▸ List.mem_cons_self)
      have hi : i < s.ushard.next := Nat.lt_of_le_of_ne (Nat.le_of_lt_succ hi) hne
      change (u.objects i).unlink = true
      rw [hobjects i hi]
      by_cases hin : i ∈ w.source
      · exact hop.marked i hin
      · refine hgone i hi fun hall => ?_
        rcases List.mem_append.mp (hold.mem_iff.mp hall) with hall | hall
        · exact hin hall
        · exact hout' (List.mem_cons_of_mem _ hall)
    · obtain ⟨hv', hvr⟩ := hkeep v hv
      have hopv := hoperations v hv'
      obtain ⟨y, hy, hreads⟩ := hopv.reads
      refine ⟨hopv.shaped, fun t => ?_, fun i hi => ?_, y, find_other hvr hy, hreads⟩
      · have hapart := (List.pairwise_cons.mp ((List.Perm.pairwise_iff
          (R := fun w w' : Rewriting => ∀ t, w.checkpoint.tier t = [] ∨ w'.checkpoint.tier t = [])
          (fun hab t => (hab t).symm) hops).mp (hparted.imp fun hab => hab.2))).1 v hv t
        rcases hapart with hnil | hnil
        · exact (hopv.standing t).trans (htier t hnil)
        · rw [hnil]
          exact List.nil_prefix
      · change (u.objects i).unlink = true
        rw [hobjects i (made_all _ (source_tiers hopv hi))]
        exact hopv.marked i hi
    · exact hparted.sublist List.filter_sublist
    · exact hreplaced.distinct hdistinct
    · exact fun v hv => horigin (hreplaced.mem_content hdistinct hv)
    · obtain ⟨hreading, hall⟩ := hreadings r' y (find_erased hy)
      refine ⟨hreading.mono fun i hi => congrArg Object.slice (hobjects i (hall i hi)), fun i hi => ?_⟩
      change i < u.next
      rw [hnext]
      exact Nat.lt_succ_of_lt (hall i hi)
    · rw [(hover hno).2] at hw
      exact absurd hw List.not_mem_nil
  have hheld : held m + ((w.source ++ x.pointers ++ w.pointers : List Nat) : Multiset Nat) =
      held s + (([s.ushard.next] : List Nat) : Multiset Nat) := by
    have hpointers : (s.operations.flatMap Rewriting.pointers : Multiset Nat) =
        (w.pointers : Multiset Nat) + (m.operations.flatMap Rewriting.pointers : List Nat) := by
      rw [Multiset.coe_add, ← List.flatMap_cons]
      exact Multiset.coe_eq_coe.mpr (hops.flatMap_right _)
    have htiers : (s.ushard.getSlices : Multiset Nat) = (w.source : Multiset Nat) + (rest : Multiset Nat) := by
      rw [Multiset.coe_add]
      exact Multiset.coe_eq_coe.mpr hold
    have htiers' : (m.ushard.getSlices : Multiset Nat) =
        (([s.ushard.next] : List Nat) : Multiset Nat) + (rest : Multiset Nat) := by
      rw [Multiset.coe_add]
      exact Multiset.coe_eq_coe.mpr hnew
    have hreaders : readerPointers m.readers = readerPointers (s.readers.erase r) := rfl
    rw [held, held, hpointers, htiers, htiers', hreaders, readerPointers_find hx, ← Multiset.coe_add,
      ← Multiset.coe_add]
    simp only [add_assoc, add_comm, add_left_comm]
  obtain ⟨hgood, hframe⟩ := good_giveUp (w.source ++ x.pointers ++ w.pointers) harranged (by
    rw [hheld]
    exact custody_tiers hcustody hsame.objects hsame.next hsame.owned)
  refine ⟨_, ?_, hgood, ⟨?_, fun i hi => ?_, hframe.count, fun r' hr' y hy => ?_, hframe.freed⟩⟩
  · simp only [State.apply, hfind, hx, hu, bind, Option.bind]
    rfl
  · refine Nat.le_trans ?_ hframe.next
    change s.ushard.next ≤ u.next
    rw [hnext]
    exact Nat.le_succ _
  · refine (hframe.slices i ?_).trans (congrArg Object.slice (hobjects i hi))
    change i < u.next
    rw [hnext]
    exact Nat.lt_succ_of_lt hi
  · obtain ⟨y', hy', hkept⟩ := hframe.readers r' hr' y hy
    exact ⟨y', find_erased hy', hkept⟩

theorem drop_step (z : Nat) (h : Good s) (ha : Action.Allowed s .drop) :
    ∃ s', s.apply z .drop = some s' ∧ Good s' ∧ Frame s s' := by
  obtain ⟨-, hops⟩ := ha
  obtain ⟨hsole, hmarked, hgone, hoperations, hparted, hdistinct, horigin, hreadings, hfresh, hover⟩ := h.arranged
  have hunmarked : ∀ i ∈ s.ushard.getSlices, (s.ushard.objects i).unlink = false := by
    intro i hi
    refine Bool.eq_false_iff.mpr fun hmark => ?_
    obtain ⟨w, hw, -⟩ := hmarked i hi hmark
    rw [hops] at hw
    exact absurd hw List.not_mem_nil
  obtain ⟨v, hv⟩ := remove_unmarked hsole hunmarked
  have hmarks := marked_remove hv
  let m : State := { s with
    ushard := { v with tiers := ∅, made := fun _ _ hi => absurd hi List.not_mem_nil }, dropped := true }
  have harranged : Arranged m := by
    refine ⟨List.nodup_nil, fun i hi => absurd hi List.not_mem_nil, fun i hi _ => ?_, fun w hw => ?_, hparted,
      List.Pairwise.nil, fun c hc => ?_, fun r y hy => ?_, hfresh, fun _ => ⟨rfl, hops⟩⟩
    · refine (hmarks.marks i).mpr ?_
      by_cases hin : i ∈ s.ushard.getSlices
      · exact .inl hin
      · exact .inr (hgone i (hmarks.next ▸ hi) hin)
    · replace hw : w ∈ s.operations := hw
      rw [hops] at hw
      exact absurd hw List.not_mem_nil
    · obtain ⟨slice, hslice, -⟩ := hc
      exact absurd hslice List.not_mem_nil
    · obtain ⟨hreading, hall⟩ := hreadings r y hy
      refine ⟨hreading.mono fun i _ => (hmarks.same i).1, fun i hi => ?_⟩
      change i < v.next
      rw [hmarks.next]
      exact hall i hi
  have hheld : held m + (s.ushard.getSlices : Multiset Nat) = held s := by
    rw [held, held]
    change (([] : List Nat) : Multiset Nat) + _ + _ + _ = _
    rw [Multiset.coe_nil, zero_add, add_comm, ← add_assoc]
  obtain ⟨hgood, hframe⟩ := good_giveUp s.ushard.getSlices harranged (by
    rw [hheld]
    exact custody_tiers (custody_marked h.custody hmarks fun i hi => held_tiers hi) rfl rfl rfl)
  refine ⟨_, ?_, hgood, ⟨?_, fun i hi => ?_, hframe.count, hframe.readers, hframe.freed⟩⟩
  · simp only [State.apply, hv, bind, Option.bind]
    rfl
  · refine Nat.le_trans ?_ hframe.next
    change s.ushard.next ≤ v.next
    rw [hmarks.next]
  · refine (hframe.slices i ?_).trans (hmarks.same i).1
    change i < v.next
    rw [hmarks.next]
    exact hi

end Tyrdbs.Ushard.Sharing
