import Tyrdbs.Ushard.CompactCommits
import Tyrdbs.Ushard.Settling
import Mathlib.Data.Nat.Size

namespace Tyrdbs.Ushard.Tiering

open TierMap Runs NewestWins

/-- A ushard, and the slices that tier_of was evaluated on, the last one first. -/
structure State where
  tiers : TierMap := ∅
  evaluated : List Slice := []

inductive Operation
  | add (slice : Slice)
  | merge (tier : Nat) (out : Slice)
  | compact (out : Slice)

/-- Each operation from its start to its end, where out is the slice that it writes. -/
def State.apply (z : Nat) (s : State) : Operation → Option State
  | .add slice => some ⟨(s.tiers.add z slice).1, slice :: s.evaluated⟩
  | .merge t out =>
      let count := (s.tiers.tier t).length
      if count ≤ maxSlicesPerTier then some s
      else ((s.tiers.add z out).1.removeFrom t count).map (fun r => ⟨r.1, out :: s.evaluated⟩)
  | .compact out =>
      if s.tiers.getSlices.length < 2 then some s
      else (Ushard.compact z s.tiers out).map (fun tiers => ⟨tiers, out :: s.evaluated⟩)

/-- No version of a key is added twice; a slice may well be empty. -/
def Operation.Allowed (s : State) : Operation → Prop
  | .add slice => ∀ s' ∈ s.tiers.getSlices, Slice.Apart slice s'
  | .merge t out => maxSlicesPerTier < (s.tiers.tier t).length → Rewrites false (s.tiers.tier t) out
  | .compact out => 2 ≤ s.tiers.getSlices.length → Rewrites true s.tiers.getSlices out

instance (s : State) (a : Operation) : Decidable (a.Allowed s) :=
  match a with
  | .add slice => inferInstanceAs (Decidable (∀ s' ∈ s.tiers.getSlices, Slice.Apart slice s'))
  | .merge t out => inferInstanceAs (Decidable (maxSlicesPerTier < (s.tiers.tier t).length → Rewrites false _ out))
  | .compact out => inferInstanceAs (Decidable (2 ≤ s.tiers.getSlices.length → Rewrites true _ out))

def Step (z : Nat) (s : State) (a : Operation) (s' : State) : Prop := a.Allowed s ∧ s.apply z a = some s'

structure Tiered (s : State) : Prop where
  evaluated : ∀ slice ∈ s.evaluated, 0 < slice.keyCount
  tiers : ∀ t, ∀ slice ∈ s.tiers.tier t, t = Nat.size slice.keyCount / 4

/-- What is added has keys, and where there is something to compact, some key
is live. -/
def Fills (s : State) : Operation → Prop
  | .add slice => 0 < slice.keyCount
  | .merge _ _ => True
  | .compact _ =>
      s.tiers.getSlices.length < 2 ∨ ∃ v ∈ newestVersions (content s.tiers.getSlices), v ∈ live

structure Inv (s : State) : Prop where
  tiered : Tiered s
  distinct : Slice.Distinct s.tiers.getSlices
  filled : ∀ slice ∈ s.tiers.getSlices, 0 < slice.keyCount

variable {z : Nat} {s s' : State} {a : Operation}

theorem tierOf_eq_size {slice : Slice} (h : 0 < slice.keyCount) : tierOf z slice = Nat.size slice.keyCount / 4 := by
  have hlog : Nat.size slice.keyCount = slice.keyCount.log2 + 1 := by
    refine le_antisymm (Nat.size_le.mpr Nat.lt_log2_self) (Nat.lt_size.mpr ?_)
    exact Nat.log2_self_le h.ne'
  rw [tierOf, if_neg h.ne', Nat.shiftRight_eq_div_pow, hlog]

theorem mem_tier {m : TierMap} {t : Nat} {slice : Slice} (h : slice ∈ m.tier t) : slice ∈ m.getSlices :=
  (getSlices_perm m t).mem_iff.mpr (List.mem_append_left _ h)

theorem sublist_removeFrom {m : TierMap} {t count : Nat} {r : TierMap × List Callback}
    (h : m.removeFrom t count = some r) (t' : Nat) : (r.1.tier t').Sublist (m.tier t') := by
  rw [removeFrom, Option.ite_none_right_eq_some] at h
  obtain ⟨-, h⟩ := h
  rw [← Option.some.inj h, tier_insert]
  split
  case isTrue ht => exact ht ▸ List.drop_sublist _ _
  case isFalse => exact List.Sublist.refl _

theorem sublist_removeAll {es : List (Nat × Nat)} {m : TierMap} {r : TierMap × List Callback}
    (h : m.removeAll es = some r) (t : Nat) : (r.1.tier t).Sublist (m.tier t) := by
  induction es generalizing m r with
  | nil =>
      rw [removeAll, Option.some.injEq] at h
      subst h
      exact List.Sublist.refl _
  | cons e es ih =>
      simp only [removeAll, bind, Option.bind_eq_some_iff, pure, Option.some.injEq] at h
      obtain ⟨r₁, h₁, r₂, h₂, rfl⟩ := h
      exact (ih h₂).trans (sublist_removeFrom h₁ t)

theorem Inv.tier_add (h : Inv s) {slice : Slice} (hfull : 0 < slice.keyCount) (t : Nat) :
    ∀ x ∈ (s.tiers.add z slice).1.tier t, t = Nat.size x.keyCount / 4 := by
  intro x hx
  rw [TierMap.tier_add] at hx
  split at hx
  case isTrue ht =>
    rcases List.mem_append.mp hx with hx | hx
    · exact h.tiered.tiers t x hx
    · rw [List.mem_singleton.mp hx, ht, tierOf_eq_size hfull]
  case isFalse => exact h.tiered.tiers t x hx

theorem Inv.evaluated (h : Inv s) {slice : Slice} (hfull : 0 < slice.keyCount) :
    ∀ x ∈ slice :: s.evaluated, 0 < x.keyCount := by
  intro x hx
  rcases List.mem_cons.mp hx with rfl | hx
  · exact hfull
  · exact h.tiered.evaluated x hx

theorem Inv.add (h : Inv s) {slice : Slice} (hapart : ∀ s' ∈ s.tiers.getSlices, Slice.Apart slice s')
    (hfull : 0 < slice.keyCount) : Inv ⟨(s.tiers.add z slice).1, slice :: s.evaluated⟩ where
  tiered := ⟨h.evaluated hfull, h.tier_add hfull⟩
  distinct := (distinct_perm (add_perm z s.tiers slice)).mpr (List.pairwise_cons.mpr ⟨hapart, h.distinct⟩)
  filled := by
    intro x hx
    rcases List.mem_cons.mp ((add_perm z s.tiers slice).mem_iff.mp hx) with rfl | hx
    · exact hfull
    · exact h.filled x hx

theorem Inv.replace (h : Inv s) {compact : Bool} {source : List Slice} {out : Slice} {tiers : TierMap}
    (hrep : Replaced compact source out s.tiers.getSlices tiers.getSlices) (hfull : 0 < out.keyCount)
    (hsub : ∀ t, (tiers.tier t).Sublist ((s.tiers.add z out).1.tier t)) : Inv ⟨tiers, out :: s.evaluated⟩ where
  tiered := ⟨h.evaluated hfull, fun t x hx => h.tier_add hfull t x ((hsub t).mem hx)⟩
  distinct := hrep.distinct h.distinct
  filled := by
    obtain ⟨rest, hold, hnew⟩ := hrep.perm
    intro x hx
    rcases List.mem_cons.mp (hnew.mem_iff.mp hx) with rfl | hx
    · exact hfull
    · exact h.filled x (hold.mem_iff.mpr (List.mem_append_right _ hx))

theorem Inv.merge (h : Inv s) {t : Nat} {out : Slice} (hmany : maxSlicesPerTier < (s.tiers.tier t).length)
    (hw : Rewrites false (s.tiers.tier t) out) :
    ∃ s', s.apply z (.merge t out) = some s' ∧ Inv s' := by
  obtain ⟨r, hr, hrep, -⟩ := mergeEnd_replaces (z := z) (m := ⟨t, s.tiers.tier t⟩) (List.prefix_refl _) hw
  have hne : s.tiers.tier t ≠ [] := List.ne_nil_of_length_pos (Nat.zero_lt_of_lt hmany)
  have hfull := Serving.keyCount_rewrites hne (fun x hx => (h.filled x (mem_tier hx)).ne') hw
  refine ⟨⟨r.1, out :: s.evaluated⟩, ?_, h.replace hrep (Nat.pos_of_ne_zero hfull) (sublist_removeFrom hr)⟩
  rw [State.apply]
  simp only [Nat.not_le.mpr hmany, if_false, hr, Option.map_some]

theorem keyCount_compacts {slices : List Slice} {out : Slice} (hd : Slice.Distinct slices)
    (hw : Rewrites true slices out) :
    0 < out.keyCount ↔ ∃ v ∈ newestVersions (content slices), v ∈ live := by
  rw [Nat.pos_iff_ne_zero, Ne, out.empty_iff, List.eq_nil_iff_forall_not_mem, not_forall_not]
  constructor
  · rintro ⟨r, hr⟩
    have hv := (content_rewrites hd hw).mp ⟨r, hr, rfl⟩
    exact ⟨r.version, hv.1, hv.2 rfl⟩
  · rintro ⟨v, hv, hlive⟩
    obtain ⟨r, hr, -⟩ := (content_rewrites hd hw).mpr ⟨hv, fun _ => hlive⟩
    exact ⟨r, hr⟩

theorem compact_removes (m : TierMap) {out : Slice} (hmany : ¬ m.getSlices.length < 2)
    (hw : Rewrites true m.getSlices out) :
    ∃ m', Ushard.compact z m out = some m' ∧ Replaced true m.getSlices out m.getSlices m'.getSlices ∧
      ∀ t, (m'.tier t).Sublist ((m.add z out).1.tier t) := by
  obtain ⟨r, hr, hrep, -⟩ := compactEnd_replaces z m (fun t => List.prefix_refl _) hw
  refine ⟨r.1, ?_, hrep, sublist_removeAll hr⟩
  rw [Ushard.compact, if_neg hmany, hr, Option.map_some]

theorem inv_start : Inv {} where
  tiered := ⟨fun _ h => absurd h List.not_mem_nil, fun _ _ h => absurd h List.not_mem_nil⟩
  distinct := List.Pairwise.nil
  filled := fun _ h => absurd h List.not_mem_nil

theorem inv_step (h : Inv s) (hs : Step z s a s') (hg : Fills s a) : Inv s' := by
  obtain ⟨hok, happ⟩ := hs
  cases a with
  | add slice =>
      rw [State.apply, Option.some.injEq] at happ
      exact happ ▸ h.add hok hg
  | merge t out =>
      by_cases hfew : (s.tiers.tier t).length ≤ maxSlicesPerTier
      · simp only [State.apply, hfew, if_true, Option.some.injEq] at happ
        exact happ ▸ h
      · obtain ⟨s₁, hs₁, hinv⟩ := h.merge (z := z) (Nat.not_le.mp hfew) (hok (Nat.not_le.mp hfew))
        rw [hs₁, Option.some.injEq] at happ
        exact happ ▸ hinv
  | compact out =>
      by_cases hfew : s.tiers.getSlices.length < 2
      · rw [State.apply, if_pos hfew, Option.some.injEq] at happ
        exact happ ▸ h
      · have hw := hok (Nat.not_lt.mp hfew)
        obtain ⟨tiers, htiers, hrep, hsub⟩ := compact_removes (z := z) s.tiers hfew hw
        have hfull := (keyCount_compacts h.distinct hw).mpr (hg.resolve_left hfew)
        rw [State.apply, if_neg hfew, htiers, Option.map_some, Option.some.injEq] at happ
        exact happ ▸ h.replace hrep hfull hsub

/-- Without keys a slice still reaches tier_of. -/
theorem not_tiered_step (h : Inv s) (hs : Step z s a s') (hg : ¬ Fills s a) : ¬ Tiered s' := by
  obtain ⟨hok, happ⟩ := hs
  intro htiered
  cases a with
  | add slice =>
      rw [State.apply, Option.some.injEq] at happ
      subst happ
      exact hg (htiered.evaluated slice (List.mem_cons_self ..))
  | merge t out => exact hg trivial
  | compact out =>
      obtain ⟨hmany, hnone⟩ := not_or.mp hg
      have hw := hok (Nat.not_lt.mp hmany)
      obtain ⟨tiers, htiers, -⟩ := compact_removes (z := z) s.tiers hmany hw
      rw [State.apply, if_neg hmany, htiers, Option.map_some, Option.some.injEq] at happ
      subst happ
      have hfull := htiered.evaluated out (List.mem_cons_self ..)
      exact hnone ((keyCount_compacts h.distinct hw).mp hfull)

/-- In a run of adds, merges and compactions every evaluation of tier_of has
keys to count, and every slice is in the tier of its key count, if and only if
no slice was added empty and no compaction found all the newest records to be
tombstones. -/
theorem tiered_iff {ts : List (State × Operation × State)} (h : Run (Step z) {} ts s) :
    (∀ u ∈ visited {} ts, Tiered u) ↔ ∀ t ∈ ts, Fills t.1 t.2.1 :=
  h.exact Fills Inv Tiered inv_start (fun _ hu => hu.tiered) (fun _ _ _ => inv_step) (fun _ _ _ => not_tiered_step)

def Operation.slice : Operation → Slice
  | .add slice => slice
  | .merge _ out => out
  | .compact out => out

theorem fills_of_full (hd : Slice.Distinct s.tiers.getSlices) (hok : a.Allowed s) (hfull : 0 < a.slice.keyCount) :
    Fills s a := by
  cases a with
  | add slice => exact hfull
  | merge t out => exact trivial
  | compact out =>
      by_cases hfew : s.tiers.getSlices.length < 2
      · exact Or.inl hfew
      · exact Or.inr ((keyCount_compacts hd (hok (Nat.not_lt.mp hfew))).mp hfull)

def attempt (z : Nat) (s : State) (a : Operation) : Option State := if a.Allowed s then s.apply z a else none

theorem step_attempt (h : attempt z s a = some s') : Step z s a s' := by
  rw [attempt, Option.ite_none_right_eq_some] at h
  exact h

def mergeThenCompact : List Operation :=
  [.add (single 1 1 false), .add (single 1 2 true), .add (single 1 3 false), .add (single 1 4 true),
    .add (single 1 5 false), .merge 0 (single 1 5 false), .add (single 2 6 true), .compact (single 1 5 false)]

theorem tiered_iff_mergeThenCompact :
    ∃ ts s, Run (Step 0) {} ts s ∧ s.tiers.getSlices = [single 1 5 false] ∧ ∀ u ∈ visited {} ts, Tiered u := by
  obtain ⟨⟨ts, s⟩, hr⟩ := Option.isSome_iff_exists.mp
    (show (follow (attempt 0) {} mergeThenCompact).isSome by decide)
  have hrun := run_follow (attempt 0) (fun _ _ _ => step_attempt) _ _ hr
  have hall : ∀ r ∈ follow (attempt 0) {} mergeThenCompact, r.2.tiers.getSlices = [single 1 5 false] ∧
      ∀ t ∈ r.1, Slice.Distinct t.1.tiers.getSlices ∧ 0 < t.2.1.slice.keyCount := by decide
  obtain ⟨hslices, hfull⟩ := hall _ hr
  refine ⟨ts, s, hrun, hslices, (tiered_iff hrun).mpr (fun t ht => ?_)⟩
  exact fills_of_full (hfull t ht).1 (hrun.of_mem t ht).2.1 (hfull t ht).2

/-- A tombstone is compacted with the record that it hides, into no records. -/
def compactTombstone : List Operation :=
  [.add (single 1 1 false), .add (single 1 2 true), .compact Ushard.empty]

theorem tier_of_empty :
    (∃ r, follow (attempt 0) {} [.add Ushard.empty] = some r ∧ Run (Step 0) {} r.1 r.2 ∧ ¬ Tiered r.2) ∧
    ∃ r, follow (attempt 0) {} compactTombstone = some r ∧ Run (Step 0) {} r.1 r.2 ∧ ¬ Tiered r.2 := by
  have hrun : ∀ as r, follow (attempt 0) {} as = some r → Run (Step 0) {} r.1 r.2 :=
    fun as _ hr => run_follow (attempt 0) (fun _ _ _ => step_attempt) as _ hr
  have hall : ∀ as ∈ [[.add Ushard.empty], compactTombstone],
      (follow (attempt 0) {} as).isSome ∧
        ∀ r ∈ follow (attempt 0) {} as, ∃ slice ∈ r.2.evaluated, slice.keyCount = 0 := by decide
  have hends : ∀ as ∈ [[.add Ushard.empty], compactTombstone],
      ∃ r, follow (attempt 0) {} as = some r ∧ Run (Step 0) {} r.1 r.2 ∧ ¬ Tiered r.2 := by
    intro as has
    obtain ⟨hsome, hzero⟩ := hall as has
    obtain ⟨r, hr⟩ := Option.isSome_iff_exists.mp hsome
    obtain ⟨slice, hmem, hnone⟩ := hzero r hr
    exact ⟨r, hr, hrun as r hr, fun h => (h.evaluated slice hmem).ne' hnone⟩
  exact ⟨hends _ (by simp), hends _ (by simp)⟩

end Tyrdbs.Ushard.Tiering
