import Tyrdbs.Ushard.TierNumbers

namespace Tyrdbs.Ushard

open TierMap NewestWins Tiering

theorem newestRecords_filter_key {rs : List Record} (h : Unambiguous Record.key Record.idx {r | r ∈ rs})
    (p : Key → Bool) :
    newestRecords (rs.filter (fun r => p r.key)) = (newestRecords rs).filter (fun r => p r.key) := by
  refine newestRecords_eq (h.mono (fun r hr => List.mem_of_mem_filter hr)) ?_ (fun r => ?_)
  · exact (newestRecords_sorted h).filter _
  · rw [List.mem_filter, mem_newestRecords]
    simp only [newestOf, newest, Set.mem_ofPred_eq, List.mem_filter]
    constructor
    · rintro ⟨⟨hr, hmax⟩, hp⟩
      exact ⟨⟨hr, hp⟩, fun r' hr' hk => hmax r' hr'.1 hk⟩
    · rintro ⟨⟨hr, hp⟩, hmax⟩
      exact ⟨⟨hr, fun r' hr' hk => hmax r' ⟨hr', hk ▸ hp⟩ hk⟩, hp⟩

theorem newestRecords_slice (s : Slice) : newestRecords s.records = s.records := by
  have hsame : ∀ r ∈ s.records, ∀ r' ∈ s.records, r.key = r'.key → r = r' :=
    fun r hr r' hr' hk => eq_of_key_eq s.sorted hr hr' hk
  refine newestRecords_eq (fun r hr r' hr' hk _ => hsame r hr r' hr' hk) s.sorted (fun r => ?_)
  exact ⟨fun hr => ⟨hr, fun r' hr' hk => (hsame r' hr' r hr hk ▸ le_refl _)⟩, fun hr => hr.1⟩

/-- The newest version of every key, in key order, tombstones and all. -/
def newestInOrder (slices : List Slice) : List Version :=
  (newestRecords (slices.flatMap Slice.records)).map Record.version

def liveOf (vs : List Version) : List Version := vs.filter (fun v => ¬ v.deleted)

/-- What the calls of next on an iterator find, and the records they make up. -/
def Finds (it : UshardIterator) (vs : List Version) : Prop :=
  ∃ ps, joinParts ps = vs ∧ ∀ n, UshardIterator.calls n it = .ok (pad n ps)

theorem mem_newestInOrder {slices : List Slice} {v : Version} :
    v ∈ newestInOrder slices ↔ v ∈ newestVersions (content slices) := by
  rw [newest_content, newestInOrder, List.mem_map]
  exact exists_congr (fun r => and_congr_left (fun _ => mem_newestRecords))

theorem finds_begin {slices : List Slice} (hd : Slice.Distinct slices) :
    Finds (UshardIterator.begin (slices.map Slice.begin)) (newestInOrder slices) :=
  ⟨_, joinParts_records _, fun n => calls_begin hd n⟩

theorem finds_range {slices : List Slice} (hd : Slice.Distinct slices) {minKey maxKey : Key}
    (hmax : maxKey.length ≤ maxKeySize) {its : List (Option (List Part))}
    (hits : List.Forall₂ (Slice.Opened minKey maxKey) slices its) :
    ∃ it, UshardIterator.range its maxKey = .ok it ∧
      Finds it ((newestInOrder slices).filter (fun v => minKey ≤ v.key ∧ v.key ≤ maxKey)) := by
  obtain ⟨it, hit, hcalls⟩ := calls_range hd hmax hits
  refine ⟨it, hit, _, ?_, hcalls⟩
  have hcut := newestRecords_filter_key (records_unambiguous hd) (fun k => decide (minKey ≤ k ∧ k ≤ maxKey))
  rw [joinParts_records, newestInOrder, List.filter_map]
  exact congrArg (List.map Record.version) hcut

theorem newestInOrder_rewrites {slices : List Slice} {out : Slice} (hd : Slice.Distinct slices)
    (h : Rewrites true slices out) : out.records.map Record.version = liveOf (newestInOrder slices) := by
  obtain ⟨ps, hps, -, hver⟩ := h
  rw [drainSlices_eq hd] at hps
  rw [hver, ← Except.ok.inj hps, added_records, joinParts_records, liveOf, newestInOrder, List.filter_map]
  congr 1
  refine List.filter_congr (fun r _ => ?_)
  simp [Record.version]

theorem newestInOrder_single (out : Slice) : newestInOrder [out] = out.records.map Record.version := by
  rw [newestInOrder, List.flatMap_singleton, newestRecords_slice]

theorem liveOf_liveOf (vs : List Version) : liveOf (liveOf vs) = liveOf vs := by
  rw [liveOf, liveOf, List.filter_filter]
  simp

theorem liveOf_filter (p : Version → Bool) (vs : List Version) : liveOf (vs.filter p) = (liveOf vs).filter p :=
  List.filter_comm ..

theorem mem_liveOf {vs : List Version} {v : Version} : v ∈ liveOf vs ↔ v ∈ vs ∧ v ∈ live := by
  simp [liveOf, live]

theorem parts_ne_nil (r : Record) : r.parts ≠ [] := List.cons_ne_nil _ _

/-- The slice that a compaction writes when no value is cut again. -/
def compacted (slices : List Slice) (hd : Slice.Distinct slices) : Slice where
  records := (newestRecords (slices.flatMap Slice.records)).filter (fun r => ¬ r.deleted)
  sorted := (newestRecords_sorted (records_unambiguous hd)).filter _
  keyCount := (((newestRecords (slices.flatMap Slice.records)).filter
    (fun r => ¬ r.deleted)).flatMap Record.parts).length
  empty_iff := by
    rw [List.length_eq_zero_iff, List.flatMap_eq_nil_iff, List.eq_nil_iff_forall_not_mem]
    exact forall₂_congr (fun r _ => iff_of_false (parts_ne_nil r) not_false)

theorem rewrites_compacted {slices : List Slice} (hd : Slice.Distinct slices) :
    Rewrites true slices (compacted slices hd) := by
  have hall : added true ((newestRecords (slices.flatMap Slice.records)).flatMap Record.parts) =
      (compacted slices hd).records.flatMap Record.parts := by
    rw [added_records]
    congr 1
    exact List.filter_congr (fun r _ => by simp)
  exact ⟨_, drainSlices_eq hd, by rw [hall]; rfl, by rw [hall, joinParts_records]⟩

/-- Of two or more slices with a live key a compaction leaves one slice, which
holds the newest records that are live, in key order; a scan, of all keys or of
a range, finds the same live records before and after. -/
theorem compact_leaves_live {z : Nat} {m : TierMap} (hd : Slice.Distinct m.getSlices)
    (hmany : 2 ≤ m.getSlices.length) (hlive : ∃ v ∈ newestVersions (content m.getSlices), v ∈ live) :
    (∃ out, Rewrites true m.getSlices out) ∧ ∀ out, Rewrites true m.getSlices out →
      ∃ m', compact z m out = some m' ∧ m'.getSlices = [out] ∧ 0 < out.keyCount ∧
        out.records.Pairwise (fun r r' => r.key < r'.key) ∧
        (∀ v, v ∈ out.records.map Record.version ↔
          v ∈ newestVersions (content m.getSlices) ∧ v.deleted = false) ∧
        (∃ before after,
          Finds (UshardIterator.begin (m.getSlices.map Slice.begin)) before ∧
          Finds (UshardIterator.begin (m'.getSlices.map Slice.begin)) after ∧
          liveOf after = liveOf before) ∧
        ∀ minKey maxKey its its', maxKey.length ≤ maxKeySize →
          List.Forall₂ (Slice.Opened minKey maxKey) m.getSlices its →
          List.Forall₂ (Slice.Opened minKey maxKey) m'.getSlices its' →
          ∃ it it' before after, UshardIterator.range its maxKey = .ok it ∧
            UshardIterator.range its' maxKey = .ok it' ∧ Finds it before ∧ Finds it' after ∧
            liveOf after = liveOf before := by
  refine ⟨⟨_, rewrites_compacted hd⟩, fun out hw => ?_⟩
  obtain ⟨m', hm', hrep, -⟩ := compact_removes (z := z) m (Nat.not_lt.mpr hmany) hw
  have hone : m'.getSlices = [out] := by
    obtain ⟨rest, hold, hnew⟩ := hrep.perm
    have hlen := hold.length_eq
    rw [List.length_append] at hlen
    rw [List.length_eq_zero_iff.mp (by omega : rest.length = 0)] at hnew
    exact List.perm_singleton.mp hnew
  have hd' : Slice.Distinct m'.getSlices := hone ▸ List.pairwise_singleton ..
  have hsame : newestInOrder m'.getSlices = liveOf (newestInOrder m.getSlices) := by
    rw [hone, newestInOrder_single, newestInOrder_rewrites hd hw]
  refine ⟨m', hm', hone, (keyCount_compacts hd hw).mpr hlive, out.sorted, fun v => ?_, ?_,
    fun minKey maxKey its its' hmax hits hits' => ?_⟩
  · rw [newestInOrder_rewrites hd hw, mem_liveOf, mem_newestInOrder]
    rfl
  · refine ⟨_, _, finds_begin hd, finds_begin hd', ?_⟩
    rw [hsame, liveOf_liveOf]
  · obtain ⟨it, hit, hfinds⟩ := finds_range hd hmax hits
    obtain ⟨it', hit', hfinds'⟩ := finds_range hd' hmax hits'
    refine ⟨it, it', _, _, hit, hit', hfinds, hfinds', ?_⟩
    rw [hsame, liveOf_filter, liveOf_liveOf, liveOf_filter]

/-- A key with two versions, a tombstone and a record of its own. -/
def fruits : TierMap := ((TierMap.add 0 ∅ fruit).1.add 0 overlay).1

theorem compact_leaves_live_fruits :
    ∃ m', compact 0 fruits overlay = some m' ∧ m'.getSlices = [overlay] ∧
      ∀ v, v ∈ overlay.records.map Record.version ↔
        v ∈ newestVersions (content fruits.getSlices) ∧ v.deleted = false := by
  have hd : Slice.Distinct fruits.getSlices := by decide
  have hw : Rewrites true fruits.getSlices overlay := by decide
  have hlive := (keyCount_compacts hd hw).mp (by decide)
  obtain ⟨m', hm', hone, -, -, hmem, -⟩ := (compact_leaves_live (z := 0) hd (by decide) hlive).2 overlay hw
  exact ⟨m', hm', hone, hmem⟩

end Tyrdbs.Ushard
