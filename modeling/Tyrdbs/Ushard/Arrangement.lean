import Tyrdbs.Ushard.Custody

namespace Tyrdbs.Ushard.Sharing

open SharedPointers Unlinking Shelves NewestWins

section Tiers

variable {u u' : Unlinking.State} {w : Rewriting}

theorem made_all (u : Unlinking.State) {i : Nat} (hi : i ∈ u.getSlices) : i < u.next := by
  obtain ⟨t, ht⟩ := mem_all.mp (show i ∈ all u.tiers from hi)
  exact u.made t i ht

theorem remove_unmarked {is : List Nat} (hn : is.Nodup) :
    ∀ {u : Unlinking.State}, (∀ i ∈ is, (u.objects i).unlink = false) → ∃ u', u.remove is = some u' := by
  induction is with
  | nil => exact fun {u} _ => ⟨u, rfl⟩
  | cons i is ih =>
      intro u h
      obtain ⟨hi, hn⟩ := List.nodup_cons.mp hn
      have hunlink : u.unlink i = some { u with
          objects := Function.update u.objects i { u.objects i with unlink := true } } :=
        if_pos (h i List.mem_cons_self)
      have hmarked := marked_unlink hunlink
      obtain ⟨v, hv⟩ := ih hn fun j hj => by
        refine Bool.eq_false_iff.mpr fun hmark => ?_
        rcases (hmarked.marks j).mp hmark with hji | hmark
        · exact hi (List.mem_singleton.mp hji ▸ hj)
        · exact Bool.eq_false_iff.mp (h j (List.mem_cons_of_mem _ hj)) hmark
      refine ⟨v, ?_⟩
      rw [Unlinking.State.remove, hunlink]
      exact hv

/-- Only the tiers are different. -/
structure SameSlices (u u' : Unlinking.State) : Prop where
  objects : u'.objects = u.objects
  next : u'.next = u.next
  owned : u'.owned = u.owned

theorem removeAll_standing (es : List (Sigma (fun _ : Nat => List Nat))) :
    ∀ {u : Unlinking.State}, es.NodupKeys → (∀ e ∈ es, e.2 <+: u.tiers.tier e.1) →
      ∃ u', u.removeAll (es.map (fun e => (e.1, e.2.length))) = some u' ∧ SameSlices u u' ∧
        u'.tiers = takeOff u.tiers (es.map (fun e => (e.1, e.2.length))) := by
  induction es with
  | nil => exact fun {u} _ _ => ⟨u, rfl, ⟨rfl, rfl, rfl⟩, rfl⟩
  | cons e es ih =>
      intro u hn h
      obtain ⟨hne, hn⟩ := List.nodupKeys_cons.mp hn
      obtain ⟨v, hv, htiers, hsame⟩ : ∃ v, u.removeFrom e.1 e.2.length = some v ∧
          v.tiers = u.tiers.insert e.1 ((u.tiers.tier e.1).drop e.2.length) ∧ SameSlices u v :=
        ⟨_, if_pos (h e List.mem_cons_self).length_le, rfl, rfl, rfl, rfl⟩
      obtain ⟨u', hu', hsame', htiers'⟩ := ih hn fun e' he' => by
        have hkey : e'.1 ≠ e.1 := fun heq => hne (heq ▸ List.mem_map_of_mem he')
        rw [htiers, Tiers.tier_insert, if_neg hkey]
        exact h e' (List.mem_cons_of_mem _ he')
      refine ⟨u', ?_, ⟨?_, ?_, ?_⟩, ?_⟩
      · rw [List.map_cons, Unlinking.State.removeAll, hv]
        exact hu'
      · rw [hsame'.objects, hsame.objects]
      · rw [hsame'.next, hsame.next]
      · rw [hsame'.owned, hsame.owned]
      · rw [htiers', htiers]
        rfl

def Rewriting.Shaped (w : Rewriting) : Prop := ∀ t, w.operation = .merge t → ∃ is, w.checkpoint = AList.singleton t is

theorem erase_eq (hw : w.Shaped) (u : Unlinking.State) :
    w.erase u = u.removeAll (w.checkpoint.entries.map (fun e => (e.1, e.2.length))) := by
  rw [Rewriting.erase, Rewriting.source]
  cases hop : w.operation with
  | compact => rfl
  | merge t =>
      obtain ⟨is, his⟩ := hw t hop
      have hall : all w.checkpoint = is := by
        rw [his]
        exact List.append_nil is
      rw [hall, his]
      change u.removeFrom t is.length = (u.removeFrom t is.length).bind some
      cases u.removeFrom t is.length <;> rfl

theorem erase_standing (hw : w.Shaped) (h : ∀ t, w.checkpoint.tier t <+: u.tiers.tier t) :
    ∃ u', w.erase u = some u' ∧ SameSlices u u' ∧ u.getSlices.Perm (w.source ++ u'.getSlices) ∧
      ∀ t, u.tiers.tier t = w.checkpoint.tier t ++ u'.tiers.tier t := by
  have hes : ∀ e ∈ w.checkpoint.entries, e.2 <+: u.tiers.tier e.1 := by
    intro e he
    have htier := h e.1
    rwa [show w.checkpoint.tier e.1 = e.2 from shelf_of_mem he] at htier
  obtain ⟨u', hu', hsame, htiers⟩ := removeAll_standing w.checkpoint.entries w.checkpoint.nodupKeys hes
  obtain ⟨hperm, hshelf⟩ := takeOff_of_prefix w.checkpoint.entries u.tiers w.checkpoint.nodupKeys hes
  rw [← htiers] at hperm hshelf
  exact ⟨u', (erase_eq hw u).trans hu', hsame, hperm, hshelf⟩

end Tiers

/-- An operation in progress has marked what it replaces, which still stands in front
of the tiers, and reads it with an iterator. -/
structure Operates (s : State) (w : Rewriting) : Prop where
  shaped : w.Shaped
  standing : ∀ t, w.checkpoint.tier t <+: s.ushard.tiers.tier t
  marked : ∀ i ∈ w.source, (s.ushard.objects i).unlink = true
  reads : ∃ x, s.readers.find w.reader = some x ∧ x.bounds = none ∧ x.snapshot = w.source

/-- How the tiers, the operations and the iterators of a ushard stand to each other. -/
structure Arranged (s : State) : Prop where
  sole : s.ushard.getSlices.Nodup
  marked : ∀ i ∈ s.ushard.getSlices, (s.ushard.objects i).unlink = true → ∃ w ∈ s.operations, i ∈ w.source
  gone : ∀ i < s.ushard.next, i ∉ s.ushard.getSlices → (s.ushard.objects i).unlink = true
  operations : ∀ w ∈ s.operations, Operates s w
  parted : s.operations.Pairwise (fun w w' =>
    w.reader ≠ w'.reader ∧ ∀ t, w.checkpoint.tier t = [] ∨ w'.checkpoint.tier t = [])
  distinct : Slice.Distinct (s.ushard.slices s.ushard.getSlices)
  origin : content (s.ushard.slices s.ushard.getSlices) ⊆ content s.added
  readings : ∀ r x, s.readers.find r = some x →
    Reading (fun i => (s.ushard.objects i).slice) x ∧ ∀ i ∈ x.snapshot, i < s.ushard.next
  fresh : ∀ r, s.nextReader ≤ r → s.readers.find r = none
  emptied : s.dropped = true → s.ushard.getSlices = [] ∧ s.operations = []

def readerPointers (t : Table Nat Reader) : Multiset Nat := (t.values.map (fun x => (x.pointers : Multiset Nat))).sum

/-- All pointers to slices: those of the tiers, of operations and of iterators. -/
def held (s : State) : Multiset Nat :=
  (s.ushard.getSlices : Multiset Nat) + (s.operations.flatMap Rewriting.pointers : List Nat) + readerPointers s.readers

structure Good (s : State) : Prop where
  arranged : Arranged s
  custody : Custody s.ushard s.counts s.freed (held s)

/-- Slices stay what they are, iterators keep what they were given, and what was
freed has been. -/
structure Frame (s s' : State) : Prop where
  next : s.ushard.next ≤ s'.ushard.next
  slices : ∀ i < s.ushard.next, (s'.ushard.objects i).slice = (s.ushard.objects i).slice
  count : s.nextReader ≤ s'.nextReader
  readers : ∀ r < s.nextReader, ∀ x', s'.readers.find r = some x' →
    ∃ x, s.readers.find r = some x ∧ x'.snapshot = x.snapshot ∧ x'.bounds = x.bounds
  freed : s.freed <+: s'.freed

variable {s s' : State} {r : Nat} {x x' : Reader}

theorem frame_refl (s : State) : Frame s s :=
  ⟨le_rfl, fun _ _ => rfl, le_rfl, fun _ _ x hx => ⟨x, hx, rfl, rfl⟩, List.prefix_refl _⟩

theorem Frame.trans {s'' : State} (h : Frame s s') (h' : Frame s' s'') : Frame s s'' where
  next := h.next.trans h'.next
  slices i hi := (h'.slices i (hi.trans_le h.next)).trans (h.slices i hi)
  count := h.count.trans h'.count
  readers r hr x'' hx'' := by
    obtain ⟨x', hx', hsnap', hbounds'⟩ := h'.readers r (hr.trans_le h.count) x'' hx''
    obtain ⟨x, hx, hsnap, hbounds⟩ := h.readers r hr x' hx'
    exact ⟨x, hx, hsnap'.trans hsnap, hbounds'.trans hbounds⟩
  freed := h.freed.trans h'.freed

section Erased

variable {t : Table Nat Reader}

theorem find_erased {r' : Nat} (hx : (t.erase r).find r' = some x) : t.find r' = some x := by
  rw [Table.find_erase] at hx
  split at hx
  · exact absurd hx (by simp)
  · exact hx

theorem find_other {r' : Nat} (hr : r' ≠ r) (hx : t.find r' = some x) : (t.erase r).find r' = some x :=
  (Table.find_erase).trans ((if_neg hr).trans hx)

theorem fresh_erased {n : Nat} (h : ∀ r, n ≤ r → t.find r = none) (r' : Nat) (hr' : n ≤ r') :
    (t.erase r).find r' = none := by
  rw [Table.find_erase]
  split
  · rfl
  · exact h r' hr'

end Erased

section Iterate

variable {bounds : Option (Key × Key)} {is : List Nat}

theorem find_iterate (r : Nat) : (s.iterate bounds is).readers.find r =
    if r = s.nextReader then some { bounds := bounds, snapshot := is, waiting := is } else s.readers.find r :=
  Table.find_put

theorem fresh_iterate (h : ∀ r, s.nextReader ≤ r → s.readers.find r = none) (r : Nat) (hr : s.nextReader + 1 ≤ r) :
    (s.iterate bounds is).readers.find r = none := by
  rw [find_iterate, if_neg (Nat.ne_of_gt hr)]
  exact h r (Nat.le_of_succ_le hr)

theorem find_older (h : s.readers.find s.nextReader = none) (hx : s.readers.find r = some x) :
    (s.iterate bounds is).readers.find r = some x := by
  have hne : r ≠ s.nextReader := by
    intro heq
    rw [heq, h] at hx
    exact absurd hx (by simp)
  rw [find_iterate, if_neg hne]
  exact hx

end Iterate

section Pointers

theorem readerPointers_find {t : Table Nat Reader} (hx : t.find r = some x) :
    readerPointers t = (x.pointers : Multiset Nat) + readerPointers (t.erase r) := by
  rw [readerPointers, Table.values_of_find hx, Multiset.map_cons, Multiset.sum_cons]
  rfl

theorem readerPointers_put (t : Table Nat Reader) (r : Nat) (x : Reader) :
    readerPointers (t.put r x) = (x.pointers : Multiset Nat) + readerPointers (t.erase r) := by
  rw [readerPointers, Table.values_put, Multiset.map_cons, Multiset.sum_cons]
  rfl

theorem readerPointers_new {t : Table Nat Reader} (hr : t.find r = none) :
    readerPointers (t.put r x) = (x.pointers : Multiset Nat) + readerPointers t := by
  rw [readerPointers, Table.values_put_of_none hr, Multiset.map_cons, Multiset.sum_cons]
  rfl

theorem held_tiers {i : Nat} (hi : i ∈ s.ushard.getSlices) : i ∈ held s :=
  Multiset.mem_add.mpr (.inl (Multiset.mem_add.mpr (.inl hi)))

theorem held_reader (hx : s.readers.find r = some x) {i : Nat} (hi : i ∈ x.pointers) : i ∈ held s := by
  rw [held, readerPointers_find hx]
  exact Multiset.mem_add.mpr (.inr (Multiset.mem_add.mpr (.inl hi)))

theorem held_put (gone : List Nat) (hx : s.readers.find r = some x)
    (hpointers : x.pointers.Perm (gone ++ x'.pointers)) :
    held { s with readers := s.readers.put r x' } + (gone : Multiset Nat) = held s := by
  have hsplit : (x.pointers : Multiset Nat) = (gone : Multiset Nat) + (x'.pointers : Multiset Nat) := by
    rw [Multiset.coe_add]
    exact Multiset.coe_eq_coe.mpr hpointers
  rw [held, held, readerPointers_put, readerPointers_find hx, hsplit]
  simp only [add_assoc, add_comm, add_left_comm]

theorem held_erase (hx : s.readers.find r = some x) :
    held { s with readers := s.readers.erase r } + (x.pointers : Multiset Nat) = held s := by
  rw [held, held, readerPointers_find hx]
  simp only [add_assoc, add_comm, add_left_comm]

end Pointers

/-- With what is given up the ushard stays arranged, as only counts and pages change. -/
theorem good_giveUp (is : List Nat) (h : Arranged s)
    (hc : Custody s.ushard s.counts s.freed (held s + (is : Multiset Nat))) :
    Good (s.giveUp is) ∧ Frame s (s.giveUp is) := by
  have hcustody := custody_release hc (Multiset.le_add_left (is : Multiset Nat) (held s))
  rw [Multiset.add_sub_cancel_right] at hcustody
  obtain ⟨owned, hall, -⟩ := destroy_all (release s.counts is).2 s.ushard
  have hgive : s.giveUp is = { s with
      ushard := { s.ushard with owned := owned }, counts := (release s.counts is).1
      freed := s.freed ++ (release s.counts is).2.filter (fun i => (s.ushard.objects i).unlink) } := by
    rw [← hall]
    rfl
  rw [hall] at hcustody
  rw [hgive]
  refine ⟨⟨⟨h.sole, h.marked, h.gone, fun w hw => ?_, h.parted, h.distinct, h.origin, h.readings, h.fresh, h.emptied⟩,
    hcustody⟩, ⟨le_rfl, fun _ _ => rfl, le_rfl, fun _ _ x hx => ⟨x, hx, rfl, rfl⟩, List.prefix_append _ _⟩⟩
  obtain ⟨hshaped, hstanding, hmarked, hreads⟩ := h.operations w hw
  exact ⟨hshaped, hstanding, hmarked, hreads⟩

theorem arranged_put (h : Arranged s) (hx : s.readers.find r = some x)
    (hx' : Reading (fun i => (s.ushard.objects i).slice) x') (hsnap : x'.snapshot = x.snapshot)
    (hbounds : x'.bounds = x.bounds) :
    Arranged { s with readers := s.readers.put r x' } ∧ Frame s { s with readers := s.readers.put r x' } := by
  refine ⟨⟨h.sole, h.marked, h.gone, fun w hw => ?_, h.parted, h.distinct, h.origin, fun r' y hy => ?_,
    fun r' hr' => ?_, h.emptied⟩, ⟨le_rfl, fun _ _ => rfl, le_rfl, fun r' _ y hy => ?_, List.prefix_refl _⟩⟩
  · obtain ⟨hshaped, hstanding, hmarked, y, hy, hnone, hsource⟩ := h.operations w hw
    refine ⟨hshaped, hstanding, hmarked, ?_⟩
    by_cases hr : w.reader = r
    · rw [hr, hx, Option.some.injEq] at hy
      subst hy
      exact ⟨x', by rw [Table.find_put, if_pos hr], hbounds.trans hnone, hsnap.trans hsource⟩
    · exact ⟨y, by rw [Table.find_put, if_neg hr]; exact hy, hnone, hsource⟩
  · simp only [Table.find_put] at hy
    split at hy
    · obtain rfl := Option.some.inj hy
      refine ⟨hx', ?_⟩
      rw [hsnap]
      exact (h.readings r x hx).2
    · exact h.readings r' y hy
  · simp only [Table.find_put]
    split
    case isTrue heq =>
      rw [← heq, h.fresh r' hr'] at hx
      exact absurd hx (by simp)
    case isFalse => exact h.fresh r' hr'
  · simp only [Table.find_put] at hy
    split at hy
    case isTrue heq =>
      obtain rfl := Option.some.inj hy
      exact ⟨x, heq ▸ hx, hsnap, hbounds⟩
    case isFalse => exact ⟨y, hy, rfl, rfl⟩

theorem good_put (gone : List Nat) (h : Good s) (hx : s.readers.find r = some x)
    (hx' : Reading (fun i => (s.ushard.objects i).slice) x') (hsnap : x'.snapshot = x.snapshot)
    (hbounds : x'.bounds = x.bounds) (hpointers : x.pointers.Perm (gone ++ x'.pointers)) :
    Good ({ s with readers := s.readers.put r x' }.giveUp gone) ∧
      Frame s ({ s with readers := s.readers.put r x' }.giveUp gone) := by
  obtain ⟨harranged, hframe⟩ := arranged_put h.arranged hx hx' hsnap hbounds
  obtain ⟨hgood, hframe'⟩ := good_giveUp gone harranged (by rw [held_put gone hx hpointers]; exact h.custody)
  exact ⟨hgood, hframe.trans hframe'⟩

end Tyrdbs.Ushard.Sharing
