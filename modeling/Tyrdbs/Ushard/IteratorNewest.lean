import Tyrdbs.Ushard.IteratorSteps

namespace Tyrdbs.Ushard

open NewestWins Track

def pad (n : Nat) (ps : List Part) : List (Option Part) :=
  (ps.take n).map some ++ List.replicate (n - ps.length) none

@[simp] theorem pad_zero (ps : List Part) : pad 0 ps = [] := by simp [pad]

@[simp] theorem pad_nil (n : Nat) : pad n [] = List.replicate n none := by simp [pad]

@[simp] theorem pad_cons (n : Nat) (p : Part) (ps : List Part) : pad (n + 1) (p :: ps) = some p :: pad n ps := by
  simp [pad]

theorem calls_empty (n : Nat) {it : UshardIterator} (he : it.elements = []) :
    UshardIterator.calls n it = .ok (List.replicate n none) := by
  induction n with
  | zero => rfl
  | succ n ih =>
      simp [UshardIterator.calls, UshardIterator.next, he, ih, bind, Except.bind, pure, Except.pure,
        List.replicate_succ]

def yielded (maxKey : Key) (rs : List Record) : List Part :=
  (newestRecords (rs.filter (fun r => inBounds maxKey r))).flatMap Record.parts

theorem yielded_of_none {maxKey : Key} {rs : List Record} (h : ∀ r ∈ rs, ¬ inBounds maxKey r) :
    yielded maxKey rs = [] := by
  have hnil : rs.filter (fun r => inBounds maxKey r) = [] := by
    rw [List.filter_eq_nil_iff]
    simpa using h
  rw [yielded, hnil]
  rfl

theorem yielded_congr {maxKey : Key} {rs rs' : List Record}
    (hu : Unambiguous Record.key Record.idx {r | r ∈ rs}) (h : ∀ r, r ∈ rs ↔ r ∈ rs') :
    yielded maxKey rs = yielded maxKey rs' := by
  rw [yielded, yielded]
  congr 1
  refine newestRecords_congr (hu.mono (fun r hr => List.mem_of_mem_filter hr)) (fun r => ?_)
  rw [List.mem_filter, List.mem_filter, h r]

/-- The newest version of the least key comes first, and nothing else of that
key follows. -/
theorem yielded_cons {maxKey : Key} {rs : List Record}
    (hu : Unambiguous Record.key Record.idx {r | r ∈ rs}) {r : Record} (hr : r ∈ rs)
    (hb : inBounds maxKey r)
    (hleast : ∀ r' ∈ rs, r' = r ∨ r.key < r'.key ∨ r.key = r'.key ∧ r'.idx < r.idx) :
    yielded maxKey rs = r.parts ++ yielded maxKey (rs.filter (fun r' => r.key < r'.key)) := by
  have hrest : Unambiguous Record.key Record.idx
      {x | x ∈ (rs.filter (fun r' => r.key < r'.key)).filter (fun r => inBounds maxKey r)} :=
    hu.mono (fun x hx => List.mem_of_mem_filter (List.mem_of_mem_filter hx))
  rw [yielded, yielded, ← List.flatMap_cons]
  congr 1
  refine newestRecords_eq (hu.mono (fun x hx => List.mem_of_mem_filter hx)) ?_ (fun x => ?_)
  · refine List.pairwise_cons.mpr ⟨fun x hx => ?_, newestRecords_sorted hrest⟩
    have hmem := (mem_newestRecords.mp hx).1
    simp only [Set.mem_ofPred_eq, List.mem_filter, decide_eq_true_eq] at hmem
    exact hmem.1.2
  · simp only [List.mem_cons, mem_newestRecords, newestOf, newest, Set.mem_ofPred_eq, List.mem_filter,
      decide_eq_true_eq]
    constructor
    · rintro (rfl | ⟨⟨⟨hx, hlt⟩, hxb⟩, hmax⟩)
      · refine ⟨⟨hr, hb⟩, fun r' hr' hk => ?_⟩
        rcases hleast r' hr'.1 with rfl | hlt | ⟨_, hi⟩
        · exact le_rfl
        · exact absurd hlt (by rw [hk]; exact lt_irrefl _)
        · exact hi.le
      · exact ⟨⟨hx, hxb⟩, fun r' hr' hk => hmax r' ⟨⟨hr'.1, hk ▸ hlt⟩, hr'.2⟩ hk⟩
    · rintro ⟨⟨hx, hxb⟩, hmax⟩
      rcases hleast x hx with rfl | hlt | ⟨hk, hi⟩
      · exact Or.inl rfl
      · exact Or.inr ⟨⟨⟨hx, hlt⟩, hxb⟩, fun r' hr' hk => hmax r' ⟨hr'.1.1, hr'.2⟩ hk⟩
      · exact absurd (hmax r ⟨hr, hb⟩ hk) (not_le.mpr hi)

theorem Tidy.withPart {front : List Track} {t : Track} (h : Tidy (front ++ [t])) (v : List Byte)
    (vs : List (List Byte)) : Tidy (front ++ [{ t with value := v, more := vs }]) where
  sorted := by
    obtain ⟨hfront, _, hback⟩ := List.pairwise_append.mp h.sorted
    refine List.pairwise_append.mpr ⟨hfront, List.pairwise_singleton .., fun u hu u' hu' => ?_⟩
    rw [List.mem_singleton.mp hu']
    exact hback u hu t (List.mem_singleton_self t)
  ordered := by
    intro u hu
    rcases List.mem_append.mp hu with hu | hu
    · exact h.ordered u (List.mem_append_left _ hu)
    · rw [List.mem_singleton.mp hu]
      exact h.ordered t (by simp)
  apart := by
    obtain ⟨hfront, _, hback⟩ := List.pairwise_append.mp h.apart
    refine List.pairwise_append.mpr ⟨hfront, List.pairwise_singleton .., fun u hu u' hu' => ?_⟩
    rw [List.mem_singleton.mp hu']
    exact hback u hu t (List.mem_singleton_self t)

/-- From the middle of a record on, the calls find the rest of it and then the
newest records of the greater keys. -/
def Continues (n : Nat) : Prop :=
  ∀ (it : UshardIterator) (front : List Track) (t : Track),
    it.elements = (front ++ [t]).map cursor → it.lastKey = t.record.key → Tidy (front ++ [t]) →
    inBounds it.maxKey t.record → (∀ u ∈ front, u.AtStart) →
    UshardIterator.calls n it = .ok (pad n (t.record.partsOf t.more ++
      yielded it.maxKey ((held (front ++ [t])).filter (fun r => t.record.key < r.key))))

theorem calls_landed {n : Nat} (hn : Continues n) {it : UshardIterator} {rs : List Record}
    (hu : Unambiguous Record.key Record.idx {r | r ∈ rs}) {moved : Bool × UshardIterator}
    (hnext : it.next = .ok moved) (h : Landed it {r | r ∈ rs} moved) :
    UshardIterator.calls (n + 1) it = .ok (pad (n + 1) (yielded it.maxKey rs)) := by
  obtain ⟨hasNext, it'⟩ := moved
  simp only [UshardIterator.calls, hnext, bind, Except.bind, pure, Except.pure]
  rcases h with ⟨rfl, hnil, hnone⟩ | ⟨rfl, front, t, rfl, htidy, hs, hin, hheld⟩
  · simp only [calls_empty n hnil, yielded_of_none hnone, pad_nil, Bool.false_eq_true, if_false,
      List.replicate_succ]
  · have hcalls := hn { it with elements := (front ++ [t]).map cursor, lastKey := t.record.key }
      front t rfl rfl htidy hin (fun u hu => hs u (List.mem_append_left _ hu))
    have hcur := current_back
      { it with elements := (front ++ [t]).map cursor, lastKey := t.record.key } rfl
    have ht : t.AtStart := hs t (by simp)
    have hmem : t.record ∈ held (front ++ [t]) := mem_held.mpr ⟨t, by simp, t.record_mem⟩
    have hparts : t.record.parts = t.cursor.part :: t.record.partsOf t.more := by
      rw [ht]
      rfl
    rw [yielded_congr hu (fun r => (hheld r).symm),
      yielded_cons htidy.unambiguous hmem hin (fun r hr => htidy.back_least hr), hparts]
    simp only [hcalls, hcur, if_true, Functor.map, Except.map, List.cons_append, pad_cons]

theorem calls_tracks (n : Nat) : Continues n := by
  induction n with
  | zero =>
      intro it front t he hk htidy hin hs
      simp [UshardIterator.calls]
  | succ n ih =>
      intro it front t he hk htidy hin hs
      have hback : it.elements.getLast? = some t.cursor := by simp [he]
      have hlast : it.lastKey ≠ [] := hk ▸ t.record.key_ne
      cases hm : t.more with
      | nil =>
          have heor : t.cursor.part.eor = true := by simp [cursor, Record.part, hm]
          obtain ⟨moved, hmoved, hland⟩ := seek_tracks (it.remaining + 1) he hk.symm htidy hin
            (fun u hu => (List.mem_append.mp hu).imp (hs u)
              (fun h => by rw [List.mem_singleton.mp h, hk])) (Nat.lt_succ_self _)
          have hnext : it.next = .ok moved := by
            simp only [UshardIterator.next, hback, if_neg hlast, heor, hmoved, Bool.true_eq_false,
              if_false]
          have hset : {r | r ∈ held (front ++ [t]) ∧ it.lastKey < r.key} =
              {r | r ∈ (held (front ++ [t])).filter (fun r => t.record.key < r.key)} := by
            ext r
            simp [hk]
          exact calls_landed ih (htidy.unambiguous.mono (fun r hr => List.mem_of_mem_filter hr)) hnext
            (hset ▸ hland)
      | cons v vs =>
          have heor : t.cursor.part.eor = false := by simp [cursor, Record.part, hm]
          have htn : t.next = some { t with value := v, more := vs } := by simp [Track.next, hm]
          have hnext : it.next = .ok (true, { it with
              elements := (front ++ [{ t with value := v, more := vs }]).map cursor }) := by
            simp only [UshardIterator.next, hback, if_neg hlast, heor, if_true, cursor_next, htn,
              Option.map_some]
            simp [he]
          have hcalls := ih
            { it with elements := (front ++ [{ t with value := v, more := vs }]).map cursor }
            front { t with value := v, more := vs } rfl hk (htidy.withPart v vs) hin hs
          have hcur := current_back
            { it with elements := (front ++ [{ t with value := v, more := vs }]).map cursor } rfl
          have hheld : held (front ++ [{ t with value := v, more := vs }]) = held (front ++ [t]) := by
            simp [held, records]
          simp only [UshardIterator.calls, hnext, hcalls, hcur, hheld, bind, Except.bind, pure,
            Except.pure, Functor.map, Except.map, if_true, Record.partsOf, List.cons_append, pad_cons]
          rfl

theorem calls_cursors {it : UshardIterator} {ts : List Track} (he : it.elements = ts.map cursor)
    (hl : it.lastKey = []) (ho : ∀ t ∈ ts, t.records.Pairwise (fun r r' => r.key < r'.key))
    (ha : ts.Pairwise Apart) (hs : ∀ t ∈ ts, t.AtStart) (n : Nat) :
    UshardIterator.calls n it = .ok (pad n (yielded it.maxKey (held ts))) := by
  rcases List.eq_nil_or_concat' ts with rfl | ⟨front, t, hsplit⟩
  · rw [calls_empty n he, yielded_of_none (by simp [held]), pad_nil]
  · cases n with
    | zero => simp [UshardIterator.calls]
    | succ n =>
        have hne : ts ≠ [] := by simp [hsplit]
        obtain ⟨moved, hmoved, hland⟩ := first_tracks he hne ho ha hs
        have hback : it.elements.getLast? = some t.cursor := by simp [he, hsplit]
        have hnext : it.next = .ok moved := by
          simp only [UshardIterator.next, hback, if_pos hl, hmoved]
        exact calls_landed (calls_tracks n) (held_unambiguous ho ha) hnext hland

theorem held_ofRecords (rss : List (List Record)) : held (rss.filterMap ofRecords) = rss.flatten := by
  induction rss with
  | nil => rfl
  | cons rs rss ih =>
      cases rs with
      | nil => exact ih
      | cons r rs => exact congrArg (r :: rs ++ ·) ih

theorem ofRecords_spec {rs : List Record} {t : Track} (h : ofRecords rs = some t) :
    t.records = rs ∧ t.AtStart := by
  cases rs with
  | nil => simp [ofRecords] at h
  | cons r rs =>
      simp only [ofRecords, Option.some.injEq] at h
      subst h
      exact ⟨rfl, rfl⟩

theorem calls_opened (rss : List (List Record))
    (ho : ∀ rs ∈ rss, rs.Pairwise (fun r r' => r.key < r'.key))
    (ha : rss.Pairwise (fun rs rs' => ∀ r ∈ rs, ∀ r' ∈ rs', r.key = r'.key → r.idx ≠ r'.idx))
    {it : UshardIterator} (he : it.elements = (rss.filterMap ofRecords).map cursor)
    (hl : it.lastKey = []) (n : Nat) :
    UshardIterator.calls n it = .ok (pad n (yielded it.maxKey rss.flatten)) := by
  rw [← held_ofRecords]
  refine calls_cursors he hl (fun t ht => ?_) ?_ (fun t ht => ?_) n
  · obtain ⟨rs, hrs, ht⟩ := List.mem_filterMap.mp ht
    rw [(ofRecords_spec ht).1]
    exact ho rs hrs
  · refine List.pairwise_filterMap.mpr (ha.imp (fun hab t ht t' ht' => ?_))
    rw [Apart, (ofRecords_spec ht).1, (ofRecords_spec ht').1]
    exact hab
  · obtain ⟨rs, hrs, ht⟩ := List.mem_filterMap.mp ht
    exact (ofRecords_spec ht).2

theorem calls_begin {slices : List Slice} (hd : Slice.Distinct slices) (n : Nat) :
    UshardIterator.calls n (UshardIterator.begin (slices.map Slice.begin)) =
      .ok (pad n ((newestRecords (slices.flatMap Slice.records)).flatMap Record.parts)) := by
  have hcursors : (UshardIterator.begin (slices.map Slice.begin)).elements =
      ((slices.map Slice.records).filterMap ofRecords).map cursor := by
    simp only [UshardIterator.begin, List.filterMap_map, List.map_filterMap]
    refine List.filterMap_congr (fun s _ => ?_)
    simp only [Function.comp, Slice.begin]
    by_cases hz : s.keyCount = 0
    · simp [hz, s.empty_iff.mp hz, ofRecords]
    · simp [hz, ofParts_records]
  have hall := calls_opened (slices.map Slice.records) (fun rs hrs => by
    obtain ⟨s, _, rfl⟩ := List.mem_map.mp hrs
    exact s.sorted) (List.pairwise_map.mpr hd) hcursors rfl n
  have hfilter : (slices.map Slice.records).flatten.filter (fun r => inBounds [] r) =
      slices.flatMap Slice.records := by
    rw [List.filter_eq_self.mpr (by simp [inBounds])]
    rfl
  rw [hall]
  change Except.ok (pad n (yielded [] _)) = _
  rw [yielded, hfilter]

theorem mem_dropWhile_key {rs : List Record} (h : rs.Pairwise (fun r r' => r.key < r'.key))
    (minKey : Key) {r : Record} :
    r ∈ rs.dropWhile (fun r => r.key < minKey) ↔ r ∈ rs ∧ minKey ≤ r.key := by
  induction rs with
  | nil => simp
  | cons x rs ih =>
      obtain ⟨hx, hrs⟩ := List.pairwise_cons.mp h
      by_cases hlt : x.key < minKey
      · rw [List.dropWhile_cons_of_pos (by simpa using hlt), ih hrs]
        constructor
        · rintro ⟨hr, hle⟩
          exact ⟨List.mem_cons_of_mem _ hr, hle⟩
        · rintro ⟨hr, hle⟩
          rcases List.mem_cons.mp hr with rfl | hr
          · exact absurd hlt hle.not_gt
          · exact ⟨hr, hle⟩
      · rw [List.dropWhile_cons_of_neg (by simpa using hlt)]
        refine ⟨fun hr => ⟨hr, ?_⟩, fun hr => hr.1⟩
        rcases List.mem_cons.mp hr with rfl | hr
        · exact not_lt.mp hlt
        · exact (not_lt.mp hlt).trans (hx r hr).le

/-- The records rs of a slice that its iterator brings into a range form. -/
structure Brings (minKey maxKey : Key) (s : Slice) (rs : List Record) : Prop where
  sublist : rs.Sublist s.records
  within : ∀ r, r ∈ rs ∧ r.key ≤ maxKey ↔ r ∈ s.records ∧ minKey ≤ r.key ∧ r.key ≤ maxKey

theorem Brings.none {minKey maxKey : Key} {s : Slice}
    (h : ∀ r ∈ s.records, minKey ≤ r.key → maxKey < r.key) : Brings minKey maxKey s [] where
  sublist := List.nil_sublist _
  within := by
    intro r
    simp only [List.not_mem_nil, false_and, false_iff, not_and, not_le]
    exact h r

theorem opened_brings {minKey maxKey : Key} {s : Slice} {o : Option (List Part)}
    (h : Slice.Opened minKey maxKey s o) :
    ∃ rs, Brings minKey maxKey s rs ∧
      (o.bind Cursor.ofParts).filter (fun c => c.part.key ≤ maxKey) = (ofRecords rs).map cursor := by
  cases o with
  | none => exact ⟨[], Brings.none h, rfl⟩
  | some ps =>
      have hps : ps = (s.records.dropWhile (fun r => r.key < minKey)).flatMap Record.parts := h
      have hmem : ∀ r, r ∈ s.records.dropWhile (fun r => r.key < minKey) ↔ _ :=
        fun r => mem_dropWhile_key s.sorted minKey
      have hsub := List.dropWhile_sublist (l := s.records) (fun r => decide (r.key < minKey))
      rw [hps, Option.bind_some, ofParts_records]
      cases hd : s.records.dropWhile (fun r => decide (r.key < minKey)) with
      | nil =>
          refine ⟨[], Brings.none (fun r hr hle => ?_), rfl⟩
          exact absurd ((hmem r).mpr ⟨hr, hle⟩) (by simp [hd])
      | cons x rs =>
          have hkey : (start x rs).cursor.part.key = x.key := rfl
          rw [hd] at hsub
          have hsorted := List.pairwise_cons.mp (s.sorted.sublist hsub)
          by_cases hle : x.key ≤ maxKey
          · refine ⟨x :: rs, ⟨hsub, fun r => ?_⟩, by simp [ofRecords, hkey, hle]⟩
            rw [← hd, hmem, and_assoc]
          · refine ⟨[], Brings.none (fun r hr hmin => ?_), ?_⟩
            · have hr' := (hmem r).mpr ⟨hr, hmin⟩
              rw [hd] at hr'
              rcases List.mem_cons.mp hr' with rfl | hr'
              · exact not_le.mp hle
              · exact (not_le.mp hle).trans (hsorted.1 r hr')
            · simp only [ofRecords, Option.map_some, Option.filter_some, hkey, hle, decide_false,
                Bool.false_eq_true, if_false]
              rfl

theorem range_cursors {minKey maxKey : Key} {slices : List Slice} {its : List (Option (List Part))}
    (hits : List.Forall₂ (Slice.Opened minKey maxKey) slices its) :
    ∃ rss, List.Forall₂ (Brings minKey maxKey) slices rss ∧
      (its.filterMap (fun ps => ps.bind Cursor.ofParts)).filter (fun c => c.part.key ≤ maxKey) =
        (rss.filterMap ofRecords).map cursor := by
  simp only [List.filter_filterMap, List.map_filterMap]
  induction hits with
  | nil => exact ⟨[], List.Forall₂.nil, rfl⟩
  | cons h _ ih =>
      obtain ⟨rss, hrss, heq⟩ := ih
      obtain ⟨rs, hrs, hcur⟩ := opened_brings h
      refine ⟨rs :: rss, List.Forall₂.cons hrs hrss, ?_⟩
      rw [List.filterMap_cons, List.filterMap_cons, hcur, heq]

theorem within_of_brings {minKey maxKey : Key} {slices : List Slice} {rss : List (List Record)}
    (h : List.Forall₂ (Brings minKey maxKey) slices rss) {r : Record} :
    r ∈ rss.flatten ∧ r.key ≤ maxKey ↔
      r ∈ slices.flatMap Slice.records ∧ minKey ≤ r.key ∧ r.key ≤ maxKey := by
  induction h with
  | nil => simp
  | cons hb _ ih =>
      rw [List.flatten_cons, List.flatMap_cons, List.mem_append, List.mem_append, or_and_right,
        or_and_right, ih, hb.within]

theorem exists_brings {minKey maxKey : Key} {slices : List Slice} {rss : List (List Record)}
    (h : List.Forall₂ (Brings minKey maxKey) slices rss) {rs : List Record} (hrs : rs ∈ rss) :
    ∃ s ∈ slices, Brings minKey maxKey s rs := by
  induction h with
  | nil => simp at hrs
  | cons hb _ ih =>
      rcases List.mem_cons.mp hrs with rfl | hrs
      · exact ⟨_, List.mem_cons_self .., hb⟩
      · obtain ⟨s, hs, hb'⟩ := ih hrs
        exact ⟨s, List.mem_cons_of_mem _ hs, hb'⟩

theorem apart_of_brings {minKey maxKey : Key} {slices : List Slice} {rss : List (List Record)}
    (h : List.Forall₂ (Brings minKey maxKey) slices rss) (hd : Slice.Distinct slices) :
    rss.Pairwise (fun rs rs' => ∀ r ∈ rs, ∀ r' ∈ rs', r.key = r'.key → r.idx ≠ r'.idx) := by
  induction h with
  | nil => exact List.Pairwise.nil
  | cons hb hrest ih =>
      obtain ⟨hfirst, hd⟩ := List.pairwise_cons.mp hd
      refine List.pairwise_cons.mpr ⟨fun rs' hrs' r hr r' hr' => ?_, ih hd⟩
      obtain ⟨s', hs', hb'⟩ := exists_brings hrest hrs'
      exact hfirst s' hs' r (hb.sublist.mem hr) r' (hb'.sublist.mem hr')

theorem calls_range {slices : List Slice} (hd : Slice.Distinct slices) {minKey maxKey : Key}
    (hmax : maxKey.length ≤ maxKeySize) {its : List (Option (List Part))}
    (hits : List.Forall₂ (Slice.Opened minKey maxKey) slices its) :
    ∃ it, UshardIterator.range its maxKey = .ok it ∧ ∀ n,
      UshardIterator.calls n it = .ok (pad n ((newestRecords ((slices.flatMap Slice.records).filter
        (fun r => minKey ≤ r.key ∧ r.key ≤ maxKey))).flatMap Record.parts)) := by
  obtain ⟨rss, hrss, heq⟩ := range_cursors hits
  have hsorted : ∀ rs ∈ rss, rs.Pairwise (fun r r' => r.key < r'.key) := by
    intro rs hrs
    obtain ⟨s, _, hb⟩ := exists_brings hrss hrs
    exact s.sorted.sublist hb.sublist
  rw [UshardIterator.range]
  simp only [heq]
  by_cases hnil : rss.filterMap ofRecords = []
  · rw [if_pos (by simp [hnil])]
    refine ⟨_, rfl, fun n => ?_⟩
    have hflat : rss.flatten = [] := by
      rw [← held_ofRecords, hnil]
      rfl
    have hnone : (slices.flatMap Slice.records).filter (fun r => minKey ≤ r.key ∧ r.key ≤ maxKey) = [] := by
      rw [List.filter_eq_nil_iff]
      intro r hr hin
      have hmem := (within_of_brings hrss).mpr ⟨hr, by simpa using hin⟩
      simp [hflat] at hmem
    rw [calls_empty n (by simp [hnil]), hnone]
    simp [newestRecords]
  · rw [if_neg (by simpa using hnil), UshardIterator.assignKey, if_pos hmax]
    refine ⟨_, rfl, fun n => ?_⟩
    rw [calls_opened rss hsorted (apart_of_brings hrss hd) rfl rfl, yielded]
    -- a record in bounds has a key, so the bound is not the empty one
    have hbound : maxKey ≠ [] := by
      obtain ⟨t, ht⟩ := List.exists_mem_of_ne_nil _ hnil
      have hle : t.record.key ≤ maxKey := by
        have hmem : t.cursor ∈ (rss.filterMap ofRecords).map cursor := List.mem_map_of_mem ht
        rw [← heq] at hmem
        exact of_decide_eq_true (List.mem_filter.mp hmem).2
      rintro rfl
      obtain ⟨b, bs, hkey⟩ := List.exists_cons_of_ne_nil t.record.key_ne
      rw [hkey] at hle
      exact absurd hle (not_le.mpr (List.nil_lt_cons b bs))
    congr 3
    refine newestRecords_congr ((unambiguous_flatten hsorted (apart_of_brings hrss hd)).mono
      (fun r hr => List.mem_of_mem_filter hr)) (fun r => ?_)
    have := within_of_brings hrss (r := r)
    simp only [List.mem_filter, inBounds, hbound, false_or, decide_eq_true_eq]
    exact this

/-- Both forms of the iterator yield each key once, in key order, with all the
parts of its newest record, and nothing after that. -/
theorem ushard_iterator_newest {slices : List Slice} (hd : Slice.Distinct slices) :
    (∀ n, UshardIterator.calls n (UshardIterator.begin (slices.map Slice.begin)) =
      .ok (pad n ((newestRecords (slices.flatMap Slice.records)).flatMap Record.parts))) ∧
    ∀ minKey maxKey its, maxKey.length ≤ maxKeySize →
      List.Forall₂ (Slice.Opened minKey maxKey) slices its →
      ∃ it, UshardIterator.range its maxKey = .ok it ∧ ∀ n,
        UshardIterator.calls n it = .ok (pad n ((newestRecords ((slices.flatMap Slice.records).filter
          (fun r => minKey ≤ r.key ∧ r.key ≤ maxKey))).flatMap Record.parts)) :=
  ⟨fun n => calls_begin hd n, fun _ _ _ hmax hits => calls_range hd hmax hits⟩

def fruit : Slice where
  records := [⟨[1], 4, false, [10], [[11], [12]], by decide, by decide⟩,
    ⟨[2], 1, true, [], [], by decide, by decide⟩]
  sorted := by decide
  keyCount := 4
  empty_iff := by decide

def overlay : Slice where
  records := [⟨[1], 7, false, [20], [[21]], by decide, by decide⟩,
    ⟨[3], 3, false, [30], [], by decide, by decide⟩]
  sorted := by decide
  keyCount := 3
  empty_iff := by decide

theorem ushard_iterator_newest_overlay :
    UshardIterator.calls 6 (UshardIterator.begin ([fruit, overlay].map Slice.begin)) =
      .ok [some ⟨[1], [20], false, false, 7⟩, some ⟨[1], [21], true, false, 7⟩,
        some ⟨[2], [], true, true, 1⟩, some ⟨[3], [30], true, false, 3⟩, none, none] ∧
    ∃ it, UshardIterator.range [fruit.begin, overlay.begin] [2] = .ok it ∧
      UshardIterator.calls 4 it = .ok [some ⟨[1], [20], false, false, 7⟩,
        some ⟨[1], [21], true, false, 7⟩, some ⟨[2], [], true, true, 1⟩, none] := by
  have hd : Slice.Distinct [fruit, overlay] := by
    simp [Slice.Distinct, Slice.Apart, fruit, overlay]
  obtain ⟨hbegin, hrange⟩ := ushard_iterator_newest hd
  refine ⟨(hbegin 6).trans (by decide), ?_⟩
  obtain ⟨it, hit, hcalls⟩ := hrange [1] [2] [fruit.begin, overlay.begin] (by decide)
    (List.Forall₂.cons rfl (List.Forall₂.cons rfl List.Forall₂.nil))
  exact ⟨it, hit, (hcalls 4).trans (by decide)⟩

end Tyrdbs.Ushard
