import Tyrdbs.Ushard.Tracks

namespace Tyrdbs.Ushard

open NewestWins Track

/-- The records that the cursors are in or still have before them. -/
def held (ts : List Track) : List Record := ts.flatMap records

def inBounds (maxKey : Key) (r : Record) : Prop := maxKey = [] ∨ r.key ≤ maxKey

instance (maxKey : Key) : DecidablePred (inBounds maxKey) := fun r =>
  inferInstanceAs (Decidable (maxKey = [] ∨ r.key ≤ maxKey))

theorem mem_held {ts : List Track} {r : Record} : r ∈ held ts ↔ ∃ t ∈ ts, r ∈ t.records :=
  List.mem_flatMap

theorem Track.record_mem (t : Track) : t.record ∈ t.records := List.mem_cons_self ..

theorem isOutOfBounds_iff (it : UshardIterator) (r : Record) :
    it.isOutOfBounds r.key = true ↔ ¬ inBounds it.maxKey r := by
  rw [UshardIterator.isOutOfBounds, inBounds]
  by_cases hm : it.maxKey = []
  · simp [hm]
  · simp [hm]

theorem Tidy.le_of_mem {ts : List Track} (h : Tidy ts) {t : Track} (ht : t ∈ ts) {r : Record}
    (hr : r ∈ t.records) : r = t.record ∨ t.record.key < r.key := by
  rcases List.mem_cons.mp hr with rfl | hr
  · exact Or.inl rfl
  · exact Or.inr ((List.pairwise_cons.mp (h.ordered t ht)).1 r hr)

theorem Tidy.back_least {front : List Track} {t : Track} (h : Tidy (front ++ [t])) {r : Record}
    (hr : r ∈ held (front ++ [t])) :
    r = t.record ∨ t.record.key < r.key ∨ t.record.key = r.key ∧ r.idx < t.record.idx := by
  obtain ⟨u, hu, hru⟩ := mem_held.mp hr
  have hle := h.le_of_mem hu hru
  rcases List.mem_append.mp hu with hu' | hu'
  · rcases h.back_max u hu' with hlt | ⟨hk, hi⟩
    · rcases hle with rfl | hle
      · exact Or.inr (Or.inl hlt)
      · exact Or.inr (Or.inl (hlt.trans hle))
    · rcases hle with rfl | hle
      · exact Or.inr (Or.inr ⟨hk.symm, hi⟩)
      · exact Or.inr (Or.inl (hk ▸ hle))
  · rw [List.mem_singleton.mp hu'] at hle
    exact hle.imp_right Or.inl

theorem Tidy.back_key_le {front : List Track} {t : Track} (h : Tidy (front ++ [t])) {r : Record}
    (hr : r ∈ held (front ++ [t])) : t.record.key ≤ r.key := by
  rcases h.back_least hr with rfl | hlt | ⟨heq, _⟩
  · exact le_rfl
  · exact hlt.le
  · exact heq.le

theorem held_unambiguous {ts : List Track}
    (ho : ∀ t ∈ ts, t.records.Pairwise (fun r r' => r.key < r'.key)) (ha : ts.Pairwise Apart) :
    Unambiguous Record.key Record.idx {r | r ∈ held ts} := by
  rw [held, List.flatMap_def]
  refine unambiguous_flatten (fun rs hrs => ?_) (List.pairwise_map.mpr ha)
  obtain ⟨t, ht, rfl⟩ := List.mem_map.mp hrs
  exact ho t ht

theorem Tidy.unambiguous {ts : List Track} (h : Tidy ts) :
    Unambiguous Record.key Record.idx {r | r ∈ held ts} := held_unambiguous h.ordered h.apart

theorem held_advance {front ts : List Track} {t : Track} (hperm : ts.Perm (t.next.toList ++ front))
    {r : Record} (hr : r ≠ t.record) : r ∈ held ts ↔ r ∈ held (front ++ [t]) := by
  have hnext : (∃ u ∈ t.next.toList, r ∈ u.records) ↔ r ∈ t.records := by
    cases hm : t.more with
    | nil =>
        cases hl : t.later with
        | nil => simp [Track.next, hm, hl, ofRecords, records, hr]
        | cons r' rs => simp [Track.next, hm, hl, ofRecords, records, start, hr]
    | cons v vs => simp [Track.next, hm, records]
  rw [mem_held, mem_held]
  constructor
  · rintro ⟨u, hu, hru⟩
    rcases List.mem_append.mp (hperm.mem_iff.mp hu) with hu | hu
    · exact ⟨t, by simp, hnext.mp ⟨u, hu, hru⟩⟩
    · exact ⟨u, by simp [hu], hru⟩
  · rintro ⟨u, hu, hru⟩
    rcases List.mem_append.mp hu with hu | hu
    · exact ⟨u, hperm.mem_iff.mpr (by simp [hu]), hru⟩
    · rw [List.mem_singleton.mp hu] at hru
      obtain ⟨u', hu', hru'⟩ := hnext.mpr hru
      exact ⟨u', hperm.mem_iff.mpr (List.mem_append_left _ hu'), hru'⟩

theorem remaining_advance {it it' : UshardIterator} {front ts : List Track} {t : Track}
    (he : it.elements = (front ++ [t]).map cursor) (he' : it'.elements = ts.map cursor)
    (hperm : ts.Perm (t.next.toList ++ front)) : it'.remaining + 1 = it.remaining := by
  have hnext : (t.next.toList.map (fun u => u.cursor.rest.length + 1)).sum = t.cursor.rest.length := by
    have hc := cursor_next t
    rw [Cursor.next] at hc
    cases hrest : t.cursor.rest with
    | nil =>
        rw [hrest] at hc
        cases hn : t.next with
        | none => rfl
        | some u => simp [hn, Cursor.ofParts] at hc
    | cons p ps =>
        rw [hrest] at hc
        cases hn : t.next with
        | none => simp [hn, Cursor.ofParts] at hc
        | some u =>
            simp only [hn, Cursor.ofParts, Option.map_some, Option.some.injEq] at hc
            simp [← hc]
  have hsum := (hperm.map (fun u => u.cursor.rest.length + 1)).sum_eq
  simp only [UshardIterator.remaining, he, he', List.map_map, List.map_append, List.sum_append,
    Function.comp_def, hnext, List.map_cons, List.map_nil, List.sum_cons, List.sum_nil] at hsum ⊢
  omega

/-- A move of the iterator with the records s before it: either it ends, with
none of them in bounds, or it stands at the start of the newest version of the
least key among them. -/
def Landed (it : UshardIterator) (s : Set Record) (moved : Bool × UshardIterator) : Prop :=
  moved.1 = false ∧ moved.2.elements = [] ∧ (∀ r ∈ s, ¬ inBounds it.maxKey r) ∨
  moved.1 = true ∧ ∃ front t, moved.2 = { it with
      elements := (front ++ [t]).map cursor, lastKey := t.record.key } ∧
    Tidy (front ++ [t]) ∧ (∀ u ∈ front ++ [t], u.AtStart) ∧ inBounds it.maxKey t.record ∧
    ∀ r, r ∈ held (front ++ [t]) ↔ r ∈ s

theorem part_back (it : UshardIterator) {front : List Track} {t : Track}
    (he : it.elements = (front ++ [t]).map cursor) : it.part = some t.cursor.part := by
  simp [UshardIterator.part, he]

theorem current_back (it : UshardIterator) {front : List Track} {t : Track}
    (he : it.elements = (front ++ [t]).map cursor) : it.current = .ok t.cursor.part := by
  rw [UshardIterator.current, part_back it he]

theorem assignKey_key (r : Record) : UshardIterator.assignKey r.key = .ok r.key := by
  rw [UshardIterator.assignKey, if_pos r.key_fits.le]

theorem seek_tracks (rounds : Nat) {it : UshardIterator} {front : List Track} {t : Track}
    (he : it.elements = (front ++ [t]).map cursor) (hk : t.record.key = it.lastKey)
    (htidy : Tidy (front ++ [t])) (hin : inBounds it.maxKey t.record)
    (hstart : ∀ u ∈ front ++ [t], u.AtStart ∨ u.record.key = it.lastKey) (hr : it.remaining < rounds) :
    ∃ moved, it.seek rounds = .ok moved ∧
      Landed it {r | r ∈ held (front ++ [t]) ∧ it.lastKey < r.key} moved := by
  induction rounds generalizing it front t with
  | zero => omega
  | succ rounds ih =>
      obtain ⟨ts, hperm, htidy', hadv⟩ := advance_tracks he htidy
      have hkeep : ∀ r, it.lastKey < r.key → (r ∈ held ts ↔ r ∈ held (front ++ [t])) :=
        fun r hlt => held_advance hperm (fun heq => by rw [heq, hk] at hlt; exact lt_irrefl _ hlt)
      have hrem : UshardIterator.remaining { it with elements := ts.map cursor } + 1 = it.remaining :=
        remaining_advance he rfl hperm
      simp only [UshardIterator.seek, hadv, bind, Except.bind]
      rcases List.eq_nil_or_concat' ts with rfl | ⟨front', t', rfl⟩
      · refine ⟨_, rfl, Or.inl ⟨rfl, rfl, ?_⟩⟩
        rintro r ⟨hmem, hlt⟩
        exact absurd ((hkeep r hlt).mpr hmem) (by simp [held])
      · have hle : it.lastKey ≤ t'.record.key := by
          have hmem : t'.record ∈ held (front' ++ [t']) := mem_held.mpr ⟨t', by simp, t'.record_mem⟩
          by_cases hrec : t'.record = t.record
          · rw [hrec, hk]
          · exact hk ▸ htidy.back_key_le ((held_advance hperm hrec).mp hmem)
        have hstart' : ∀ u ∈ front' ++ [t'], u.AtStart ∨ u.record.key = it.lastKey := by
          intro u hu
          rcases List.mem_append.mp (hperm.mem_iff.mp hu) with hn | hf
          · rcases (next_records (Option.mem_toList.mp hn)).2 with heq | ⟨hs, _⟩
            · exact Or.inr (by rw [heq, hk])
            · exact Or.inl hs
          · exact hstart u (List.mem_append_left _ hf)
        have hpart := part_back { it with elements := (front' ++ [t']).map cursor } rfl
        have hne : (front' ++ [t']).isEmpty = false := by simp
        simp only [hne, Bool.not_false, Bool.true_eq_false, if_false, hpart]
        have hkey : t'.cursor.part.key = t'.record.key := rfl
        rw [hkey]
        by_cases hout : inBounds it.maxKey t'.record
        · rw [if_neg (by rw [isOutOfBounds_iff]; exact not_not_intro hout)]
          by_cases hsame : t'.record.key = it.lastKey
          · -- another part or an older version of the key just yielded
            rw [if_pos hsame]
            obtain ⟨moved, hmoved, hland⟩ := ih
              (show UshardIterator.elements { it with elements := (front' ++ [t']).map cursor } = _
                from rfl) hsame htidy' hout hstart' (by omega)
            refine ⟨moved, hmoved, ?_⟩
            have hset : {r | r ∈ held (front' ++ [t']) ∧ it.lastKey < r.key} =
                {r | r ∈ held (front ++ [t]) ∧ it.lastKey < r.key} := by
              ext r
              exact and_congr_left (fun hlt => hkeep r hlt)
            exact hset ▸ hland
          · have hlt : it.lastKey < t'.record.key := lt_of_le_of_ne hle (Ne.symm hsame)
            rw [if_neg hsame, assignKey_key]
            refine ⟨_, rfl, Or.inr ⟨rfl, front', t', rfl, htidy', fun u hu => ?_, hout, fun r => ?_⟩⟩
            · refine (hstart' u hu).resolve_right (fun heq => ?_)
              have := htidy'.back_key_le (mem_held.mpr ⟨u, hu, u.record_mem⟩)
              rw [heq] at this
              exact absurd hlt this.not_gt
            · constructor
              · intro hmem
                have hgt := hlt.trans_le (htidy'.back_key_le hmem)
                exact ⟨(hkeep r hgt).mp hmem, hgt⟩
              · rintro ⟨hmem, hgt⟩
                exact (hkeep r hgt).mpr hmem
        · have hend : UshardIterator.isOutOfBounds
              { it with elements := (front' ++ [t']).map cursor } t'.record.key = true :=
            (isOutOfBounds_iff _ _).mpr hout
          rw [if_pos hend]
          refine ⟨_, rfl, Or.inl ⟨rfl, rfl, ?_⟩⟩
          rintro r ⟨hmem, hgt⟩ hbound
          have hler := htidy'.back_key_le ((hkeep r hgt).mpr hmem)
          exact hout (hbound.imp_right (fun hle' => hler.trans hle'))

def notAfter (t t' : Track) : Prop := ¬ cmp t'.cursor t.cursor

instance : DecidableRel notAfter := fun t t' =>
  inferInstanceAs (Decidable (¬ cmp t'.cursor t.cursor))

theorem notAfter_iff (t t' : Track) : notAfter t t' ↔
    t'.record.key ≤ t.record.key ∧ (t.record.key = t'.record.key → t.record.idx ≤ t'.record.idx) := by
  rw [notAfter, cmp_cursor, Before, not_or, not_and, not_lt]
  exact and_congr_right (fun _ => by rw [not_lt, eq_comm])

instance : Std.Total notAfter where
  total t t' := by
    by_contra hcon
    obtain ⟨h, h'⟩ := not_or.mp hcon
    simp only [notAfter, not_not, cmp_cursor] at h h'
    exact not_before_self t (h'.trans h)

instance : IsTrans Track notAfter where
  trans t t' t'' h h' := by
    rw [notAfter_iff] at h h' ⊢
    refine ⟨h'.1.trans h.1, fun heq => ?_⟩
    have hk : t.record.key = t'.record.key := le_antisymm (heq ▸ h'.1) h.1
    exact (h.2 hk).trans (h'.2 (hk.symm.trans heq))

theorem sort_cursors (ts : List Track) :
    (ts.map cursor).insertionSort (fun c c' => ¬ cmp c' c) = (ts.insertionSort notAfter).map cursor :=
  (List.map_insertionSort _ _ cursor ts (fun _ _ _ _ => Iff.rfl)).symm

theorem first_tracks {it : UshardIterator} {ts : List Track} (he : it.elements = ts.map cursor)
    (hne : ts ≠ []) (ho : ∀ t ∈ ts, t.records.Pairwise (fun r r' => r.key < r'.key))
    (ha : ts.Pairwise Apart) (hs : ∀ t ∈ ts, t.AtStart) :
    ∃ moved, it.first = .ok moved ∧ Landed it {r | r ∈ held ts} moved := by
  have hperm : (ts.insertionSort notAfter).Perm ts := List.perm_insertionSort _ _
  have hapart : (ts.insertionSort notAfter).Pairwise Apart :=
    (List.Perm.pairwise_iff (fun hab => Apart.symm hab) hperm).mpr ha
  have htidy : Tidy (ts.insertionSort notAfter) := by
    refine ⟨?_, fun t ht => ho t (hperm.mem_iff.mp ht), hapart⟩
    refine ((List.pairwise_insertionSort notAfter ts).and hapart).imp (fun hab => ?_)
    refine Apart.before_of_not (Apart.symm hab.2) (fun hb => hab.1 ?_)
    exact (cmp_cursor _ _).mpr hb
  have hheld : ∀ r, r ∈ held (ts.insertionSort notAfter) ↔ r ∈ held ts := by
    intro r
    simp only [mem_held, hperm.mem_iff]
  rcases List.eq_nil_or_concat' (ts.insertionSort notAfter) with hnil | ⟨front, t, hsplit⟩
  · rw [hnil] at hperm
    exact absurd hperm.symm.eq_nil hne
  · rw [hsplit] at htidy hheld
    have hsort : it.elements.insertionSort (fun c c' => ¬ cmp c' c) = (front ++ [t]).map cursor := by
      rw [he, sort_cursors, hsplit]
    have hpart := part_back { it with elements := (front ++ [t]).map cursor } rfl
    have hkey : t.cursor.part.key = t.record.key := rfl
    have hstart : ∀ u ∈ front ++ [t], u.AtStart :=
      fun u hu => hs u (hperm.mem_iff.mp (hsplit ▸ hu))
    simp only [UshardIterator.first, hsort, hpart, hkey, assignKey_key, bind, Except.bind]
    by_cases hout : inBounds it.maxKey t.record
    · have hgo : ¬ UshardIterator.isOutOfBounds
          { it with elements := (front ++ [t]).map cursor } t.record.key = true := by
        rw [isOutOfBounds_iff]
        exact not_not_intro hout
      rw [if_neg hgo]
      exact ⟨_, rfl, Or.inr ⟨rfl, front, t, rfl, htidy, hstart, hout, hheld⟩⟩
    · have hend : UshardIterator.isOutOfBounds
          { it with elements := (front ++ [t]).map cursor } t.record.key = true :=
        (isOutOfBounds_iff _ _).mpr hout
      rw [if_pos hend]
      refine ⟨_, rfl, Or.inl ⟨rfl, rfl, fun r hr hbound => ?_⟩⟩
      exact hout (hbound.imp_right (fun hle => (htidy.back_key_le ((hheld r).mpr hr)).trans hle))

end Tyrdbs.Ushard
