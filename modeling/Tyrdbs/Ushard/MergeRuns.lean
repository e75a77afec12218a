import Tyrdbs.Ushard.MergeInvariants

namespace Tyrdbs.Ushard

open TierMap Runs NewestWins

/-- Merges of different tiers overlap at will, and nothing is compacted. -/
def OneMergePerTier (s : State) : Action → Prop
  | .mergeBegin t => (s.tiers.tier t).length ≤ maxSlicesPerTier ∨ ∀ m ∈ s.merges, m.tier ≠ t
  | .compactBegin => False
  | _ => True

instance (s : State) (a : Action) : Decidable (OneMergePerTier s a) := by
  cases a <;> unfold OneMergePerTier <;> infer_instance

structure Whole (s : State) : Prop where
  inv : Inv s
  still : s.compaction = none
  full : newestVersions (content s.added) ⊆ content s.tiers.getSlices

theorem Whole.visible {s : State} (h : Whole s) :
    newestVersions (content s.tiers.getSlices) = newestVersions (content s.added) :=
  newest_of_between (content_finite _) h.full h.inv.origin

theorem whole_step {z : Nat} (s : State) (a : Action) (s' : State) (h : Whole s) (hs : Step z s a s')
    (hg : OneMergePerTier s a) : Whole s' := by
  have hcalm : Undisturbed s a := by
    cases a with
    | mergeBegin t =>
        refine hg.imp_right (fun hfree => ⟨hfree, fun c hc => ?_⟩)
        rw [h.still] at hc
        simp at hc
    | compactBegin => exact hg.elim
    | _ => trivial
  have hinv := inv_step h.inv hs hcalm
  obtain ⟨hok, happ⟩ := hs
  cases a with
  | add slice =>
      rw [State.apply, Option.some.injEq] at happ
      subst happ
      refine ⟨hinv, h.still, fun v hv => ?_⟩
      change v ∈ content (s.tiers.add z slice).1.getSlices
      rw [content_perm (add_perm z s.tiers slice), content_cons]
      exact (newest_added hv).imp_right (fun hold => h.full hold)
  | mergeBegin t =>
      rw [State.apply] at happ
      by_cases hfew : (s.tiers.tier t).length ≤ maxSlicesPerTier
      · rw [if_pos hfew, Option.some.injEq] at happ
        exact happ ▸ h
      · rw [if_neg hfew, Option.some.injEq] at happ
        subst happ
        exact ⟨hinv, h.still, h.full⟩
  | mergeEnd i out =>
      obtain ⟨m, hm, hw⟩ := hok
      obtain ⟨s₁, hs₁, _, hadded, hstill, hrep⟩ := mergeEnd_step (z := z) h.inv hm hw
      rw [hs₁, Option.some.injEq] at happ
      subst happ
      refine ⟨hinv, hstill.trans h.still, fun v hv => ?_⟩
      rw [hadded] at hv
      exact hrep.keeps h.inv.distinct h.inv.origin hv (h.full hv) (fun hc => absurd hc (by simp))
  | compactBegin => exact hg.elim
  | compactEnd out =>
      obtain ⟨c, hc, _⟩ := hok
      rw [h.still] at hc
      simp at hc

/-- Whatever the order of adds and of merges of different tiers, what can be
seen is what was added; a merge puts one slice in the place of those that it
has read, and no slice gets lost. -/
theorem merges_keep_content {z : Nat} {ts : List (State × Action × State)} {s : State}
    (h : Run (Step z) {} ts s) (hg : ∀ t ∈ ts, OneMergePerTier t.1 t.2.1) :
    (∀ u ∈ visited {} ts,
      newestVersions (content u.tiers.getSlices) = newestVersions (content u.added) ∧
      (u.tiers.getSlices ++ u.rewritten.flatMap (fun r => r.1)).Perm
        (u.added ++ u.rewritten.map (fun r => r.2)) ∧
      (∀ m ∈ u.merges, m.source <+: u.tiers.tier m.tier) ∧
      ∀ a, a.Allowed u → (u.apply z a).isSome) ∧
    ∀ u i out v, (u, Action.mergeEnd i out, v) ∈ ts → ∃ m rest, u.merges[i]? = some m ∧
      u.tiers.getSlices.Perm (m.source ++ rest) ∧ v.tiers.getSlices.Perm (out :: rest) := by
  have hwhole := h.visited_guarded OneMergePerTier hg Whole ⟨inv_start, rfl, fun _ hv => hv.1⟩ whole_step
  refine ⟨fun u hu => ?_, fun u i out v ht => ?_⟩
  · have hw := hwhole u hu
    exact ⟨hw.visible, hw.inv.account, hw.inv.held, fun a ha => apply_isSome hw.inv ha⟩
  · obtain ⟨hu, hok, happ⟩ := h.of_mem _ ht
    obtain ⟨m, hm, hw⟩ := hok
    obtain ⟨s₁, hs₁, _, _, _, hrep⟩ := mergeEnd_step (z := z) (hwhole u hu).inv hm hw
    have happ : u.apply z (.mergeEnd i out) = some v := happ
    rw [hs₁, Option.some.injEq] at happ
    subst happ
    obtain ⟨rest, hold, hnew⟩ := hrep.perm
    exact ⟨m, rest, hm, hold, hnew⟩

def single (key : Byte) (idx : Nat) (deleted : Bool) : Slice where
  records := [⟨[key], idx, deleted, [], [], List.cons_ne_nil _ _, by simp [maxKeySize]⟩]
  sorted := List.pairwise_singleton ..
  keyCount := 1
  empty_iff := by simp

/-- Five versions of one key are merged while a sixth one is added. -/
def mergeUnderAdd : List Action :=
  [.add (single 1 1 false), .add (single 1 2 true), .add (single 1 3 false), .add (single 1 4 true),
    .add (single 1 5 false), .mergeBegin 0, .add (single 1 6 true), .mergeEnd 0 (single 1 5 false)]

theorem merges_keep_content_add :
    ∃ r, follow (State.attempt 0) {} mergeUnderAdd = some r ∧
      r.2.tiers.getSlices = [single 1 6 true, single 1 5 false] ∧
      newestVersions (content r.2.tiers.getSlices) = newestVersions (content r.2.added) := by
  obtain ⟨r, hr⟩ := Option.isSome_iff_exists.mp
    (show (follow (State.attempt 0) {} mergeUnderAdd).isSome by decide)
  have hrun := run_follow (State.attempt 0) (fun _ _ _ => step_of_attempt) _ _ hr
  have hall : ∀ r ∈ follow (State.attempt 0) {} mergeUnderAdd,
      (∀ t ∈ r.1, OneMergePerTier t.1 t.2.1) ∧
        r.2.tiers.getSlices = [single 1 6 true, single 1 5 false] := by decide
  obtain ⟨hguard, hslices⟩ := hall r hr
  exact ⟨r, hr, hslices, ((merges_keep_content hrun hguard).1 r.2 hrun.mem_visited).1⟩

end Tyrdbs.Ushard
