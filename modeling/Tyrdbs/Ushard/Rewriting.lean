import Tyrdbs.Ushard.IteratorNewest

namespace Tyrdbs.Ushard

open NewestWins

def joinParts : List Part → List Version
  | [] => []
  | p :: ps =>
      if p.eor then ⟨p.key, p.idx, p.deleted, p.value⟩ :: joinParts ps
      else
        match joinParts ps with
        | [] => []
        | v :: vs => { v with value := p.value ++ v.value } :: vs

def drainSlices (slices : List Slice) : Except Fault (List Part) :=
  UshardIterator.drain ((slices.flatMap (fun s => s.records.flatMap Record.parts)).length + 1)
    (UshardIterator.begin (slices.map Slice.begin))

/-- slice_writer::add over an iterator: a compaction skips tombstones. -/
def added (compact : Bool) (ps : List Part) : List Part :=
  ps.filter (fun p => ¬ (compact = true ∧ p.deleted = true))

/-- A slice that holds what was added to its writer; the writer may cut a
value at other places. -/
def Committed (ps : List Part) (out : Slice) : Prop :=
  out.keyCount = ps.length ∧ out.records.map Record.version = joinParts ps

instance (ps : List Part) (out : Slice) : Decidable (Committed ps out) :=
  inferInstanceAs (Decidable (_ ∧ _))

/-- A slice that a merge, or a compaction, of these slices may write. -/
def Rewrites (compact : Bool) (slices : List Slice) (out : Slice) : Prop :=
  ∃ ps, drainSlices slices = .ok ps ∧ Committed (added compact ps) out

instance (compact : Bool) (slices : List Slice) (out : Slice) : Decidable (Rewrites compact slices out) :=
  match h : drainSlices slices with
  | .error _ => isFalse (fun ⟨_, hps, _⟩ => by rw [hps] at h; simp at h)
  | .ok ps => decidable_of_iff (Committed (added compact ps) out)
      ⟨fun hc => ⟨ps, h, hc⟩, fun ⟨ps', hps', hc⟩ => by
        rw [hps'] at h
        rwa [← Except.ok.inj h]⟩

theorem drain_of_calls {n : Nat} {it : UshardIterator} {ps : List Part} (hn : ps.length < n)
    (h : ∀ k, UshardIterator.calls k it = .ok (pad k ps)) : it.drain n = .ok ps := by
  induction n generalizing it ps with
  | zero => omega
  | succ n ih =>
      have hcalls : ∀ k, UshardIterator.calls (k + 1) it = .ok (pad (k + 1) ps) := fun k => h (k + 1)
      simp only [UshardIterator.calls, bind, Except.bind] at hcalls
      rw [UshardIterator.drain]
      cases hnext : it.next with
      | error e => simp [hnext] at hcalls
      | ok r =>
          obtain ⟨hasNext, it'⟩ := r
          simp only [hnext] at hcalls
          cases hasNext with
          | false =>
              cases ps with
              | nil => rfl
              | cons p ps => simpa [UshardIterator.calls, pure, Except.pure] using hcalls 0
          | true =>
              cases hcur : it'.current with
              | error e => simp [hcur, Functor.map, Except.map] at hcalls
              | ok p =>
                  simp only [hcur, if_true, Functor.map, Except.map] at hcalls
                  cases ps with
                  | nil => simpa [UshardIterator.calls, pure, Except.pure] using hcalls 0
                  | cons q ps =>
                      have hq : p = q := by
                        simpa [UshardIterator.calls, pure, Except.pure] using hcalls 0
                      have hrest : ∀ k, UshardIterator.calls k it' = .ok (pad k ps) := by
                        intro k
                        have := hcalls k
                        cases hk : UshardIterator.calls k it' with
                        | error e => simp [hk] at this
                        | ok xs =>
                            have hboth : p = q ∧ xs = pad k ps := by
                              simpa [hk, pure, Except.pure] using this
                            rw [hboth.2]
                      have hdrain := ih (by simpa using hn) hrest
                      simp [bind, Except.bind, pure, Except.pure, hcur, hdrain, hq]

theorem newestRecords_parts_length (rs : List Record) :
    ((newestRecords rs).flatMap Record.parts).length ≤ (rs.flatMap Record.parts).length := by
  have hsub : (newestRecords rs).Subperm rs :=
    (List.perm_insertionSort _ _).subperm.trans
      ((List.dedup_sublist _).trans List.filter_sublist).subperm
  obtain ⟨l, hperm, hl⟩ := hsub
  rw [← (hperm.flatMap_right Record.parts).length_eq]
  exact (hl.flatMap Record.parts).length_le

theorem drainSlices_eq {slices : List Slice} (hd : Slice.Distinct slices) :
    drainSlices slices = .ok ((newestRecords (slices.flatMap Slice.records)).flatMap Record.parts) := by
  refine drain_of_calls ?_ (fun k => calls_begin hd k)
  have := newestRecords_parts_length (slices.flatMap Slice.records)
  rw [List.flatMap_assoc] at this
  exact Nat.lt_succ_of_le this

theorem joinParts_partsOf (r : Record) (ps : List Part) (v : List Byte) (vs : List (List Byte)) :
    joinParts (r.partsOf (v :: vs) ++ ps) =
      ⟨r.key, r.idx, r.deleted, v ++ vs.flatten⟩ :: joinParts ps := by
  induction vs generalizing v with
  | nil => simp [Record.partsOf, Record.part, joinParts]
  | cons v' vs ih =>
      have hrest := ih v'
      rw [Record.partsOf, List.cons_append, joinParts, hrest]
      simp [Record.part]

theorem joinParts_records (rs : List Record) :
    joinParts (rs.flatMap Record.parts) = rs.map Record.version := by
  induction rs with
  | nil => rfl
  | cons r rs ih =>
      rw [List.flatMap_cons, Record.parts, joinParts_partsOf, ih, List.map_cons, Record.version]

theorem partsOf_deleted (r : Record) (vs : List (List Byte)) : ∀ p ∈ r.partsOf vs, p.deleted = r.deleted := by
  induction vs with
  | nil => simp [Record.partsOf]
  | cons v vs ih =>
      intro p hp
      rcases List.mem_cons.mp hp with rfl | hp
      · rfl
      · exact ih p hp

theorem added_records (compact : Bool) (rs : List Record) :
    added compact (rs.flatMap Record.parts) =
      (rs.filter (fun r => ¬ (compact = true ∧ r.deleted = true))).flatMap Record.parts := by
  induction rs with
  | nil => rfl
  | cons r rs ih =>
      rw [added] at ih ⊢
      have hdel := partsOf_deleted r (r.value :: r.continuation)
      rw [List.flatMap_cons, List.filter_append, ih]
      by_cases hskip : compact = true ∧ r.deleted = true
      · rw [List.filter_cons_of_neg (by simpa using hskip), List.filter_eq_nil_iff.mpr, List.nil_append]
        intro p hp
        simp [hdel p hp, hskip]
      · rw [List.filter_cons, if_pos (decide_eq_true hskip), List.flatMap_cons,
          List.filter_eq_self.mpr]
        intro p hp
        rw [hdel p hp]
        exact decide_eq_true hskip

def content (slices : List Slice) : Set Version := {v | ∃ s ∈ slices, ∃ r ∈ s.records, r.version = v}

abbrev newestVersions (vs : Set Version) : Set Version := newest Version.key Version.idx vs

def live : Set Version := {v | v.deleted = false}

theorem content_eq_image (slices : List Slice) :
    content slices = Record.version '' {r | r ∈ slices.flatMap Slice.records} := by
  ext v
  simp only [content, List.mem_flatMap, Set.mem_ofPred_eq, Set.mem_image]
  constructor
  · rintro ⟨s, hs, r, hr, rfl⟩
    exact ⟨r, ⟨s, hs, hr⟩, rfl⟩
  · rintro ⟨r, ⟨s, hs, hr⟩, rfl⟩
    exact ⟨s, hs, r, hr, rfl⟩

theorem content_finite (slices : List Slice) : (content slices).Finite := by
  rw [content_eq_image]
  exact (List.finite_toSet _).image _

theorem newest_content (slices : List Slice) :
    newestVersions (content slices) = Record.version '' newestOf (slices.flatMap Slice.records) := by
  rw [content_eq_image]
  exact newest_image Record.version (fun _ => rfl) (fun _ => rfl)

/-- What a merge writes is what is newest in the slices it reads; what a
compaction writes is the live part of it. -/
theorem content_rewrites {compact : Bool} {slices : List Slice} {out : Slice}
    (hd : Slice.Distinct slices) (h : Rewrites compact slices out) {v : Version} :
    (∃ r ∈ out.records, r.version = v) ↔
      v ∈ newestVersions (content slices) ∧ (compact = true → v ∈ live) := by
  obtain ⟨ps, hps, _, hver⟩ := h
  rw [drainSlices_eq hd] at hps
  have hps := (Except.ok.inj hps).symm
  rw [hps, added_records, joinParts_records] at hver
  rw [← List.mem_map, hver, newest_content]
  simp only [List.mem_map, List.mem_filter, mem_newestRecords, decide_eq_true_eq, Set.mem_image]
  constructor
  · rintro ⟨r, ⟨hr, hlive⟩, rfl⟩
    refine ⟨⟨r, hr, rfl⟩, fun hc => ?_⟩
    have hdel : r.deleted = false := by simpa [hc] using hlive
    exact hdel
  · rintro ⟨⟨r, hr, rfl⟩, hlive⟩
    refine ⟨r, ⟨hr, ?_⟩, rfl⟩
    rintro ⟨hc, hdel⟩
    have : r.deleted = false := hlive hc
    simp [this] at hdel

theorem apart_rewrites {compact : Bool} {slices : List Slice} {out s : Slice}
    (hd : Slice.Distinct slices) (h : Rewrites compact slices out)
    (ha : ∀ s' ∈ slices, Slice.Apart s' s) : Slice.Apart out s := by
  intro r hr r' hr' hk
  have hmem := ((content_rewrites hd h).mp ⟨r, hr, rfl⟩).1.1
  obtain ⟨s', hs', x, hx, hver⟩ := hmem
  have hkey : x.key = r.key := congrArg Version.key hver
  have hidx : x.idx = r.idx := congrArg Version.idx hver
  rw [← hidx]
  exact ha s' hs' x hx r' hr' (hkey.trans hk)

theorem content_append (ss ts : List Slice) : content (ss ++ ts) = content ss ∪ content ts := by
  ext v
  simp only [content, List.mem_append, Set.mem_ofPred_eq, Set.mem_union, or_and_right, exists_or]

theorem content_cons (s : Slice) (ss : List Slice) :
    content (s :: ss) = {v | ∃ r ∈ s.records, r.version = v} ∪ content ss := by
  ext v
  simp only [content, List.mem_cons, Set.mem_ofPred_eq, Set.mem_union, or_and_right, exists_or,
    exists_eq_left]

theorem content_perm {ss ts : List Slice} (h : ss.Perm ts) : content ss = content ts := by
  ext v
  simp only [content, Set.mem_ofPred_eq, h.mem_iff]

theorem distinct_perm {ss ts : List Slice} (h : ss.Perm ts) : Slice.Distinct ss ↔ Slice.Distinct ts :=
  List.Perm.pairwise_iff (fun hab => Slice.Apart.symm hab) h

/-- From old to new, some slices were replaced by what was written of them. -/
structure Replaced (compact : Bool) (source : List Slice) (out : Slice) (old new : List Slice) : Prop where
  rewrites : Rewrites compact source out
  perm : ∃ rest, old.Perm (source ++ rest) ∧ new.Perm (out :: rest)

section Replaced

variable {compact : Bool} {source old new : List Slice} {out : Slice}

theorem Replaced.distinct (h : Replaced compact source out old new) (hd : Slice.Distinct old) :
    Slice.Distinct new := by
  obtain ⟨rest, hold, hnew⟩ := h.perm
  obtain ⟨hsource, hrest, hcross⟩ := List.pairwise_append.mp ((distinct_perm hold).mp hd)
  refine (distinct_perm hnew).mpr (List.pairwise_cons.mpr ⟨fun s hs => ?_, hrest⟩)
  exact apart_rewrites hsource h.rewrites (fun s' hs' => hcross s' hs' s hs)

theorem Replaced.mem_content (h : Replaced compact source out old new) (hd : Slice.Distinct old)
    {v : Version} (hv : v ∈ content new) : v ∈ content old := by
  obtain ⟨rest, hold, hnew⟩ := h.perm
  have hsource := (List.pairwise_append.mp ((distinct_perm hold).mp hd)).1
  rw [content_perm hnew, content_cons] at hv
  rw [content_perm hold, content_append]
  exact hv.imp_left (fun hout => ((content_rewrites hsource h.rewrites).mp hout).1.1)

/-- The newest version of a key survives a rewrite, unless it is a tombstone
that a compaction drops. -/
theorem Replaced.keeps (h : Replaced compact source out old new) (hd : Slice.Distinct old)
    {vs : Set Version} (hvs : content old ⊆ vs) {v : Version} (hv : v ∈ newestVersions vs)
    (hold : v ∈ content old) (hlive : compact = true → v ∈ live) : v ∈ content new := by
  obtain ⟨rest, hperm, hnew⟩ := h.perm
  have hsource := (List.pairwise_append.mp ((distinct_perm hperm).mp hd)).1
  rw [content_perm hperm, content_append] at hold hvs
  rw [content_perm hnew, content_cons]
  refine hold.imp_left (fun hin => (content_rewrites hsource h.rewrites).mpr ⟨⟨hin, ?_⟩, hlive⟩)
  exact fun v' hv' hk => hv.2 v' (hvs (Or.inl hv')) hk

end Replaced

end Tyrdbs.Ushard
