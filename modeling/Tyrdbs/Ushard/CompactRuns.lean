import Tyrdbs.Ushard.MergeRuns

namespace Tyrdbs.Ushard

open TierMap Runs NewestWins

/-- In runs without disturbance a compaction takes away nothing but the slices
it has read, every erase stays within its vector, and no key with a live
newest record gets lost. -/
theorem undisturbed_runs {z : Nat} {ts : List (State × Action × State)} {s : State}
    (h : Run (Step z) {} ts s) (hg : ∀ t ∈ ts, Undisturbed t.1 t.2.1) :
    (∀ u ∈ visited {} ts, (∀ a, a.Allowed u → (u.apply z a).isSome) ∧
      ∀ v ∈ newestVersions (content u.added), v ∈ live → v ∈ newestVersions (content u.tiers.getSlices)) ∧
    ∀ u out v, (u, Action.compactEnd out, v) ∈ ts → ∃ c rest, u.compaction = some c ∧
      u.tiers.getSlices.Perm (c.source ++ rest) ∧ v.tiers.getSlices.Perm (out :: rest) := by
  have hinv := h.visited_guarded Undisturbed hg Inv inv_start (fun _ _ _ hi hs hu => inv_step hi hs hu)
  refine ⟨fun u hu => ⟨fun a ha => apply_isSome (hinv u hu) ha, fun v hv hlive => ?_⟩,
    fun u out v ht => ?_⟩
  · have hu := hinv u hu
    exact ⟨hu.kept v hv hlive, fun v' hv' hk => hv.2 v' (hu.origin hv') hk⟩
  · obtain ⟨hu, hok, happ⟩ := h.of_mem _ ht
    obtain ⟨c, hc, hw⟩ := hok
    obtain ⟨s₁, hs₁, _, _, hrep⟩ := compactEnd_step (z := z) (hinv u hu) hc hw
    have happ : u.apply z (.compactEnd out) = some v := happ
    rw [hs₁, Option.some.injEq] at happ
    subst happ
    obtain ⟨rest, hold, hnew⟩ := hrep.perm
    exact ⟨c, rest, hc, hold, hnew⟩

instance (s : State) (a : Action) : Decidable (Undisturbed s a) :=
  match a with
  | .mergeBegin t =>
      match h : s.compaction with
      | none => decidable_of_iff
          ((s.tiers.tier t).length ≤ maxSlicesPerTier ∨ ∀ m ∈ s.merges, m.tier ≠ t)
          (by simp [Undisturbed, h])
      | some c => decidable_of_iff ((s.tiers.tier t).length ≤ maxSlicesPerTier ∨
          ((∀ m ∈ s.merges, m.tier ≠ t) ∧ c.checkpoint.tier t = []))
          (by simp [Undisturbed, h])
  | .compactBegin => (inferInstance : Decidable (s.tiers.getSlices.length < 2 ∨ s.merges = []))
  | .add _ => isTrue trivial
  | .mergeEnd _ _ => isTrue trivial
  | .compactEnd _ => isTrue trivial

def compactUnderAdd : List Action :=
  [.add (single 1 1 false), .add (single 1 2 false), .compactBegin, .add (single 2 3 false),
    .compactEnd (single 1 2 false)]

theorem undisturbed_runs_add :
    ∃ r, follow (State.attempt 0) {} compactUnderAdd = some r ∧
      r.2.tiers.getSlices = [single 2 3 false, single 1 2 false] ∧
      ∀ v ∈ newestVersions (content r.2.added), v ∈ live →
        v ∈ newestVersions (content r.2.tiers.getSlices) := by
  obtain ⟨r, hr⟩ := Option.isSome_iff_exists.mp
    (show (follow (State.attempt 0) {} compactUnderAdd).isSome by decide)
  have hrun := run_follow (State.attempt 0) (fun _ _ _ => step_of_attempt) _ _ hr
  have hall : ∀ r ∈ follow (State.attempt 0) {} compactUnderAdd,
      (∀ t ∈ r.1, Undisturbed t.1 t.2.1) ∧
        r.2.tiers.getSlices = [single 2 3 false, single 1 2 false] := by decide
  obtain ⟨hguard, hslices⟩ := hall r hr
  exact ⟨r, hr, hslices, ((undisturbed_runs hrun hguard).1 r.2 hrun.mem_visited).2⟩

/-- A merge ends during a compaction that has read the same five slices. -/
def mergeUnderCompact : List Action :=
  [.add (single 1 1 false), .add (single 1 2 false), .add (single 1 3 false), .add (single 1 4 false),
    .add (single 1 5 false), .compactBegin, .mergeBegin 0, .mergeEnd 0 (single 1 5 false),
    .add (single 2 6 false), .add (single 3 7 false), .add (single 4 8 false), .add (single 5 9 false),
    .compactEnd (single 1 5 false)]

theorem compact_erases_added :
    ∃ ts s, Run (Step 0) {} ts s ∧ s.merges = [] ∧ s.compaction = none ∧
      ∃ v ∈ newestVersions (content s.added), v ∈ live ∧ v ∉ content s.tiers.getSlices := by
  obtain ⟨r, hr⟩ := Option.isSome_iff_exists.mp
    (show (follow (State.attempt 0) {} mergeUnderCompact).isSome by decide)
  have hrun := run_follow (State.attempt 0) (fun _ _ _ => step_of_attempt) _ _ hr
  have hall : ∀ r ∈ follow (State.attempt 0) {} mergeUnderCompact,
      r.2.merges = [] ∧ r.2.compaction.isNone ∧ r.2.tiers.getSlices = [single 1 5 false] ∧
        r.2.added = [single 5 9 false, single 4 8 false, single 3 7 false, single 2 6 false,
          single 1 5 false, single 1 4 false, single 1 3 false, single 1 2 false, single 1 1 false] := by
    decide
  obtain ⟨hm, hc, hslices, hadded⟩ := hall r hr
  refine ⟨r.1, r.2, hrun, hm, Option.isNone_iff_eq_none.mp hc, ⟨[2], 6, false, []⟩, ?_, rfl, ?_⟩
  · rw [hadded]
    simp only [newest, content, single, Record.version, List.mem_cons, List.not_mem_nil, or_false,
      Set.mem_ofPred_eq, exists_eq_or_imp, exists_eq_left]
    refine ⟨by simp, fun v hv hk => ?_⟩
    rcases hv with rfl | rfl | rfl | rfl | rfl | rfl | rfl | rfl | rfl <;> simp at hk ⊢
  · rw [hslices]
    simp [content, single, Record.version]

end Tyrdbs.Ushard
