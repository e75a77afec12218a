import Tyrdbs.Ushard.CompactRuns

namespace Tyrdbs.Ushard

open TierMap NewestWins

/-- compact from its start to its end, where out is the slice it writes. -/
def compact (z : Nat) (m : TierMap) (out : Slice) : Option TierMap :=
  if m.getSlices.length < 2 then some m
  else ((m.add z out).1.removeAll (tierSizes m)).map (fun r => r.1)

def Compacts (z : Nat) (m m' : TierMap) : Prop :=
  ∃ out, (2 ≤ m.getSlices.length → Rewrites true m.getSlices out) ∧ compact z m out = some m'

/-- The live records that a reader sees: those newest of their keys. -/
def liveContent (m : TierMap) : Set Version := newestVersions (content m.getSlices) ∩ live

theorem content_compacts {z : Nat} {m m' : TierMap} (hd : Slice.Distinct m.getSlices)
    (h : Compacts z m m') (hm : 2 ≤ m.getSlices.length) :
    content m'.getSlices = newestVersions (content m.getSlices) ∩ live := by
  obtain ⟨out, hw, hout⟩ := h
  have hw := hw hm
  obtain ⟨r, hr, hrep, _⟩ := compactEnd_replaces z m (fun t => List.prefix_refl _) hw
  rw [compact, if_neg (by omega), hr, Option.map_some, Option.some.injEq] at hout
  obtain ⟨rest, hold, hnew⟩ := hrep.perm
  have hrest : rest = [] := by
    have hlen := hold.length_eq
    rw [List.length_append] at hlen
    exact List.length_eq_zero_iff.mp (by omega)
  rw [hrest] at hnew
  have hnil : content [] = ∅ := by
    ext v
    simp [content]
  rw [← hout, content_perm hnew, content_cons, hnil, Set.union_empty]
  ext v
  exact (content_rewrites hd hw).trans (and_congr_right (fun _ => by simp))

theorem liveContent_compacts {z : Nat} {m m' : TierMap} (hd : Slice.Distinct m.getSlices)
    (h : Compacts z m m') : liveContent m' = liveContent m := by
  by_cases hm : 2 ≤ m.getSlices.length
  · have hidem : newestVersions (newestVersions (content m.getSlices) ∩ live) =
        newestVersions (content m.getSlices) ∩ live := newest_inter_self live
    rw [liveContent, content_compacts hd h hm, hidem, Set.inter_assoc, Set.inter_self, liveContent]
  · obtain ⟨out, _, hout⟩ := h
    rw [compact, if_pos (by omega), Option.some.injEq] at hout
    rw [hout]

theorem records_unambiguous {slices : List Slice} (hd : Slice.Distinct slices) :
    Unambiguous Record.key Record.idx {r | r ∈ slices.flatMap Slice.records} := by
  rw [List.flatMap_def]
  refine unambiguous_flatten (fun rs hrs => ?_) (List.pairwise_map.mpr hd)
  obtain ⟨s, _, rfl⟩ := List.mem_map.mp hrs
  exact s.sorted

theorem content_unambiguous {slices : List Slice} (hd : Slice.Distinct slices) :
    Unambiguous Version.key Version.idx (content slices) := by
  have hrecords := records_unambiguous hd
  rw [content_eq_image]
  rintro _ ⟨r, hr, rfl⟩ _ ⟨r', hr', rfl⟩ hk hi
  rw [hrecords r hr r' hr' hk hi]

theorem newest_slice (s : Slice) :
    newestVersions {v | ∃ r ∈ s.records, r.version = v} = {v | ∃ r ∈ s.records, r.version = v} := by
  ext v
  refine ⟨fun h => h.1, fun h => ⟨h, ?_⟩⟩
  rintro _ ⟨r', hr', rfl⟩ hk
  obtain ⟨r, hr, rfl⟩ := h
  have heq : r' = r := eq_of_key_eq s.sorted hr' hr hk
  rw [heq]

/-- A later commit gives the same live content on both sides of a compaction
if and only if no live record of it is older than a tombstone that is newest
of its key, where there is anything to compact. -/
theorem add_compact_commutes_iff {z : Nat} {m m₁ m₂ : TierMap} {s : Slice}
    (hd : Slice.Distinct (s :: m.getSlices)) (h₁ : Compacts z m m₁)
    (h₂ : Compacts z (m.add z s).1 m₂) :
    liveContent (m₁.add z s).1 = liveContent m₂ ↔
      m.getSlices.length < 2 ∨ ¬ ∃ v ∈ newestVersions (content m.getSlices), v.deleted = true ∧
        ∃ r ∈ s.records, r.deleted = false ∧ r.key = v.key ∧ r.idx < v.idx := by
  have hold := (List.pairwise_cons.mp hd).2
  have hdm : Slice.Distinct (m.add z s).1.getSlices := (distinct_perm (add_perm z m s)).mpr hd
  have hadd : ∀ n : TierMap, content (n.add z s).1.getSlices =
      content n.getSlices ∪ {v | ∃ r ∈ s.records, r.version = v} := by
    intro n
    rw [content_perm (add_perm z n s), content_cons, Set.union_comm]
  rw [liveContent_compacts hdm h₂]
  by_cases hm : m.getSlices.length < 2
  · obtain ⟨out, _, hout⟩ := h₁
    rw [compact, if_pos hm, Option.some.injEq] at hout
    exact iff_of_true (by rw [hout]) (Or.inl hm)
  · rw [liveContent, liveContent, hadd, hadd, content_compacts hold h₁ (by omega)]
    refine (forget_commutes_iff (content_finite _) (content_unambiguous hold) live).trans ?_
    have hslice : newest Version.key Version.idx {v | ∃ r ∈ s.records, r.version = v} = _ := newest_slice s
    rw [hslice, or_iff_right hm, not_iff_not]
    refine exists_congr (fun v => and_congr_right (fun _ => and_congr ?_ ?_))
    · exact Iff.of_eq (Bool.not_eq_false v.deleted)
    · constructor
      · rintro ⟨_, ⟨r, hr, rfl⟩, hlive, hk, hlt⟩
        exact ⟨r, hr, hlive, hk, hlt⟩
      · rintro ⟨r, hr, hlive, hk, hlt⟩
        exact ⟨r.version, ⟨r, hr, rfl⟩, hlive, hk, hlt⟩

def empty : Slice where
  records := []
  sorted := List.Pairwise.nil
  keyCount := 0
  empty_iff := by simp

/-- A live record below a tombstone that a compaction has dropped. -/
def buried : TierMap := ((TierMap.add 0 ∅ (single 1 1 false)).1.add 0 (single 1 3 true)).1

theorem add_compact_commutes_iff_newer :
    ∃ m₁ m₂, Compacts 0 buried m₁ ∧ Compacts 0 (buried.add 0 (single 1 4 false)).1 m₂ ∧
      liveContent (m₁.add 0 (single 1 4 false)).1 = liveContent m₂ := by
  obtain ⟨m₁, hm₁⟩ := Option.isSome_iff_exists.mp (show (compact 0 buried empty).isSome by decide)
  obtain ⟨m₂, hm₂⟩ := Option.isSome_iff_exists.mp
    (show (compact 0 (buried.add 0 (single 1 4 false)).1 (single 1 4 false)).isSome by decide)
  have h₁ : Compacts 0 buried m₁ := ⟨empty, fun _ => by decide, hm₁⟩
  have h₂ : Compacts 0 (buried.add 0 (single 1 4 false)).1 m₂ := ⟨_, fun _ => by decide, hm₂⟩
  refine ⟨m₁, m₂, h₁, h₂, (add_compact_commutes_iff (by decide) h₁ h₂).mpr (Or.inr ?_)⟩
  have hslices : buried.getSlices = [single 1 1 false, single 1 3 true] := by decide
  rw [hslices]
  rintro ⟨v, ⟨⟨s, hs, r, hr, rfl⟩, _⟩, _, r', hr', _, _, hlt⟩
  simp only [List.mem_cons, List.not_mem_nil, or_false] at hs
  have hidx : r.idx ≤ 3 := by
    rcases hs with rfl | rfl
    · rw [List.mem_singleton.mp hr]
      decide
    · rw [List.mem_singleton.mp hr]
  rw [List.mem_singleton.mp hr'] at hlt
  exact absurd (lt_of_lt_of_le hlt hidx) (by decide)

theorem compact_resurrects :
    ∃ m₁ m₂, Compacts 0 buried m₁ ∧ Compacts 0 (buried.add 0 (single 1 2 false)).1 m₂ ∧
      liveContent (m₁.add 0 (single 1 2 false)).1 ≠ liveContent m₂ := by
  obtain ⟨m₁, hm₁⟩ := Option.isSome_iff_exists.mp (show (compact 0 buried empty).isSome by decide)
  obtain ⟨m₂, hm₂⟩ := Option.isSome_iff_exists.mp
    (show (compact 0 (buried.add 0 (single 1 2 false)).1 empty).isSome by decide)
  have hall₁ : ∀ m₁ ∈ compact 0 buried empty,
      (m₁.add 0 (single 1 2 false)).1.getSlices = [empty, single 1 2 false] := by decide
  have hall₂ : ∀ m₂ ∈ compact 0 (buried.add 0 (single 1 2 false)).1 empty,
      m₂.getSlices = [empty] := by decide
  refine ⟨m₁, m₂, ⟨empty, fun _ => by decide, hm₁⟩, ⟨empty, fun _ => by decide, hm₂⟩, fun heq => ?_⟩
  have hmem : (⟨[1], 2, false, []⟩ : Version) ∈ liveContent (m₁.add 0 (single 1 2 false)).1 := by
    rw [liveContent, hall₁ m₁ hm₁]
    simp [newest, content, single, empty, Record.version, live]
  rw [heq, liveContent, hall₂ m₂ hm₂] at hmem
  simp [newest, content, empty] at hmem

end Tyrdbs.Ushard
