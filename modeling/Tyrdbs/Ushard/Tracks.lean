import Tyrdbs.Ushard.Iterator
import Mathlib.Data.List.TakeWhile

namespace Tyrdbs.Ushard

open NewestWins

/-- A cursor inside a sorted slice: the record it is in, the part of the value
it stands on, the parts that follow and the records that come later. -/
structure Track where
  record : Record
  value : List Byte
  more : List (List Byte)
  later : List Record

namespace Track

def start (r : Record) (rs : List Record) : Track := ⟨r, r.value, r.continuation, rs⟩

def records (t : Track) : List Record := t.record :: t.later

def cursor (t : Track) : Cursor :=
  ⟨t.record.part t.value t.more.isEmpty, t.record.partsOf t.more ++ t.later.flatMap Record.parts⟩

def ofRecords : List Record → Option Track
  | [] => none
  | r :: rs => some (start r rs)

def next (t : Track) : Option Track :=
  match t.more with
  | [] => ofRecords t.later
  | v :: vs => some { t with value := v, more := vs }

def Before (t t' : Track) : Prop :=
  t'.record.key < t.record.key ∨ t.record.key = t'.record.key ∧ t.record.idx < t'.record.idx

/-- No version of a key is in both. -/
def Apart (t t' : Track) : Prop :=
  ∀ r ∈ t.records, ∀ r' ∈ t'.records, r.key = r'.key → r.idx ≠ r'.idx

def AtStart (t : Track) : Prop := t = start t.record t.later

end Track

open Track

theorem ofParts_records (rs : List Record) :
    Cursor.ofParts (rs.flatMap Record.parts) = (ofRecords rs).map cursor := by
  cases rs with
  | nil => rfl
  | cons r rs => rfl

theorem cursor_next (t : Track) : t.cursor.next = t.next.map cursor := by
  rw [Cursor.next, Track.next, cursor]
  cases t.more with
  | nil => exact ofParts_records t.later
  | cons v vs => rfl

theorem cmp_iff (c c' : Cursor) : cmp c c' = true ↔
    c'.part.key < c.part.key ∨ c.part.key = c'.part.key ∧ c.part.idx < c'.part.idx := by
  rw [cmp]
  by_cases hk : c.part.key = c'.part.key
  · simp [hk]
  · simp [hk]

theorem cmp_cursor (t t' : Track) : cmp t.cursor t'.cursor = true ↔ Before t t' := cmp_iff _ _

theorem Track.Before.trans {t t' t'' : Track} (h : Before t t') (h' : Before t' t'') : Before t t'' := by
  rcases h with h | ⟨hk, hi⟩
  · rcases h' with h' | ⟨hk', _⟩
    · exact Or.inl (h'.trans h)
    · exact Or.inl (hk' ▸ h)
  · rcases h' with h' | ⟨hk', hi'⟩
    · exact Or.inl (hk ▸ h')
    · exact Or.inr ⟨hk.trans hk', hi.trans hi'⟩

theorem not_before_self (t : Track) : ¬ Before t t := by
  rintro (h | ⟨_, h⟩)
  · exact lt_irrefl _ h
  · exact lt_irrefl _ h

theorem Track.Apart.symm {t t' : Track} (h : Apart t t') : Apart t' t :=
  fun r hr r' hr' hk hi => h r' hr' r hr hk.symm hi.symm

theorem Track.Apart.before_of_not {t t' : Track} (h : Apart t t') (hn : ¬ Before t t') : Before t' t := by
  simp only [Before, not_or, not_and, not_lt] at hn
  rcases hn.1.lt_or_eq with hlt | heq
  · exact Or.inl hlt
  · refine Or.inr ⟨heq.symm, lt_of_le_of_ne (hn.2 heq) ?_⟩
    exact (h _ (List.mem_cons_self ..) _ (List.mem_cons_self ..) heq).symm

theorem insertIdx_length_append (xs ys : List Cursor) (c : Cursor) :
    (xs ++ ys).insertIdx xs.length c = xs ++ c :: ys := by
  induction xs with
  | nil => rfl
  | cons x xs ih => simp [ih]

theorem reinsert_eq (front : List Cursor) (c : Cursor) :
    (if lowerBound (front ++ [c]) c = front.length then front ++ [c]
      else ((front ++ [c]).insertIdx (lowerBound (front ++ [c]) c) c).dropLast) =
    front.takeWhile (fun c' => cmp c' c) ++ c :: front.dropWhile (fun c' => cmp c' c) := by
  have hself : cmp c c = false := by simp [cmp]
  have hbound : lowerBound (front ++ [c]) c = (front.takeWhile (fun c' => cmp c' c)).length := by
    rw [lowerBound, List.takeWhile_append]
    split
    next hall => rw [List.takeWhile_cons, hself]; simp [hall]
    next => rfl
  rw [hbound]
  have hsplit : front = front.takeWhile (fun c' => cmp c' c) ++ front.dropWhile (fun c' => cmp c' c) :=
    (List.takeWhile_append_dropWhile).symm
  generalize front.takeWhile (fun c' => cmp c' c) = before at hsplit ⊢
  generalize front.dropWhile (fun c' => cmp c' c) = behind at hsplit ⊢
  subst hsplit
  split
  next hlen =>
    have hnil : behind = [] := by
      rw [List.length_append] at hlen
      exact List.length_eq_zero_iff.mp (by omega)
    subst hnil
    simp
  next =>
    rw [List.append_assoc, insertIdx_length_append, ← List.cons_append, ← List.append_assoc,
      List.dropLast_concat]

/-- The vector of a running iterator: in the order of cmp, each slice in key
order, and no two holding the same version of a key. -/
structure Tidy (ts : List Track) : Prop where
  sorted : ts.Pairwise Before
  ordered : ∀ t ∈ ts, t.records.Pairwise (fun r r' => r.key < r'.key)
  apart : ts.Pairwise Apart

theorem Tidy.front {ts us : List Track} (h : Tidy (ts ++ us)) : Tidy ts where
  sorted := (List.pairwise_append.mp h.sorted).1
  ordered := fun t ht => h.ordered t (List.mem_append_left _ ht)
  apart := (List.pairwise_append.mp h.apart).1

theorem Tidy.back_max {front : List Track} {t : Track} (h : Tidy (front ++ [t])) :
    ∀ t' ∈ front, Before t' t :=
  fun t' ht' => (List.pairwise_append.mp h.sorted).2.2 t' ht' t (List.mem_singleton_self t)

theorem next_records {t t' : Track} (h : t.next = some t') :
    t'.records <:+ t.records ∧ (t'.record = t.record ∨ t'.AtStart ∧ t'.records = t.later) := by
  cases hm : t.more with
  | nil =>
      cases hl : t.later with
      | nil => simp [Track.next, hm, hl, ofRecords] at h
      | cons r rs =>
          simp only [Track.next, hm, hl, ofRecords, Option.some.injEq] at h
          subst h
          exact ⟨⟨[t.record], by simp [records, start, hl]⟩, Or.inr ⟨rfl, rfl⟩⟩
  | cons v vs =>
      simp only [Track.next, hm, Option.some.injEq] at h
      subst h
      exact ⟨List.suffix_refl _, Or.inl rfl⟩

theorem Tidy.place {front : List Track} {t : Track} (h : Tidy front) (ha : ∀ t' ∈ front, Apart t' t)
    (ho : t.records.Pairwise (fun r r' => r.key < r'.key)) (p : Track → Bool)
    (hp : ∀ t', p t' = true ↔ Before t' t) :
    Tidy (front.takeWhile p ++ t :: front.dropWhile p) := by
  have hperm : (front.takeWhile p ++ t :: front.dropWhile p).Perm (t :: front) := by
    refine List.perm_middle.trans ?_
    rw [List.takeWhile_append_dropWhile]
  have hsplit : (front.takeWhile p ++ front.dropWhile p).Pairwise Before := by
    rw [List.takeWhile_append_dropWhile]
    exact h.sorted
  obtain ⟨hs₁, hs₂, hcross⟩ := List.pairwise_append.mp hsplit
  -- the first cursor that does not come before t comes after it, and so do the others
  have hbehind : ∀ t' ∈ front.dropWhile p, Before t t' := by
    intro t' ht'
    cases hd : front.dropWhile p with
    | nil => simp [hd] at ht'
    | cons d ds =>
        have hdp : p d = false := by
          have := List.head_dropWhile_not p (hd ▸ List.cons_ne_nil d ds)
          simpa [hd] using this
        have hdmem : d ∈ front := (List.dropWhile_sublist p).mem (by simp [hd])
        have hfirst : Before t d := (ha d hdmem).before_of_not (fun hb => by simp [(hp d).mpr hb] at hdp)
        rw [hd] at ht' hs₂
        rcases List.mem_cons.mp ht' with rfl | ht'
        · exact hfirst
        · exact Before.trans hfirst ((List.pairwise_cons.mp hs₂).1 t' ht')
  refine ⟨?_, fun t' ht' => ?_, ?_⟩
  · refine List.pairwise_append.mpr ⟨hs₁, List.pairwise_cons.mpr ⟨hbehind, hs₂⟩, ?_⟩
    intro t' ht' t'' ht''
    rcases List.mem_cons.mp ht'' with rfl | ht''
    · exact (hp t').mp (List.mem_takeWhile_imp ht')
    · exact hcross t' ht' t'' ht''
  · rcases List.mem_cons.mp (hperm.mem_iff.mp ht') with rfl | ht'
    · exact ho
    · exact h.ordered t' ht'
  · refine (List.Perm.pairwise_iff (fun hab => Apart.symm hab) hperm).mpr ?_
    exact List.pairwise_cons.mpr ⟨fun t' ht' => (ha t' ht').symm, h.apart⟩

theorem advance_tracks {it : UshardIterator} {front : List Track} {t : Track}
    (he : it.elements = (front ++ [t]).map cursor) (h : Tidy (front ++ [t])) :
    ∃ ts, ts.Perm (t.next.toList ++ front) ∧ Tidy ts ∧
      it.advance = .ok (!ts.isEmpty, { it with elements := ts.map cursor }) := by
  have hback : it.elements.getLast? = some t.cursor := by simp [he]
  have hfront : it.elements.dropLast = front.map cursor := by simp [he]
  cases hn : t.next with
  | none =>
      refine ⟨front, List.Perm.refl _, h.front, ?_⟩
      simp [UshardIterator.advance, hback, hfront, cursor_next, hn]
  | some t' =>
      obtain ⟨hsuf, _⟩ := next_records hn
      have ha : ∀ u ∈ front, Apart u t' := by
        intro u hu r hr r' hr'
        have := (List.pairwise_append.mp h.apart).2.2 u hu t (List.mem_singleton_self t)
        exact this r hr r' (hsuf.subset hr')
      have ho : t'.records.Pairwise (fun r r' => r.key < r'.key) :=
        (h.ordered t (by simp)).sublist hsuf.sublist
      refine ⟨_, ?_, h.front.place ha ho (fun u => cmp u.cursor t'.cursor) (fun u => cmp_cursor u t'), ?_⟩
      · refine List.perm_middle.trans ?_
        rw [List.takeWhile_append_dropWhile]
        exact List.Perm.refl _
      · have hmap : (front.takeWhile (fun u => cmp u.cursor t'.cursor) ++
            t' :: front.dropWhile (fun u => cmp u.cursor t'.cursor)).map cursor =
            (front.map cursor).takeWhile (fun c => cmp c t'.cursor) ++
              t'.cursor :: (front.map cursor).dropWhile (fun c => cmp c t'.cursor) := by
          rw [List.takeWhile_map, List.dropWhile_map]
          simp [Function.comp_def]
        rw [hmap, ← reinsert_eq]
        simp only [UshardIterator.advance, hback, hfront, cursor_next, hn, Option.map_some]
        split <;> simp

end Tyrdbs.Ushard
