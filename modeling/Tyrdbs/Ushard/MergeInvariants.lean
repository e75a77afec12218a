import Tyrdbs.Ushard.Interleavings

namespace Tyrdbs.Ushard

open TierMap Runs NewestWins

/-- No merge overlaps another one of its tier, or a compaction that has read
slices of its tier. Calls that find too few slices do nothing. -/
def Undisturbed (s : State) : Action → Prop
  | .mergeBegin t =>
      (s.tiers.tier t).length ≤ maxSlicesPerTier ∨
      ((∀ m ∈ s.merges, m.tier ≠ t) ∧ ∀ c, s.compaction = some c → c.checkpoint.tier t = [])
  | .compactBegin => s.tiers.getSlices.length < 2 ∨ s.merges = []
  | _ => True

structure Inv (s : State) : Prop where
  distinct : Slice.Distinct s.tiers.getSlices
  origin : content s.tiers.getSlices ⊆ content s.added
  held : ∀ m ∈ s.merges, m.source <+: s.tiers.tier m.tier
  sole : s.merges.Pairwise (fun m m' => m.tier ≠ m'.tier)
  snapshot : ∀ c, s.compaction = some c → c.source = c.checkpoint.getSlices ∧
    (∀ t, c.checkpoint.tier t <+: s.tiers.tier t) ∧ ∀ m ∈ s.merges, c.checkpoint.tier m.tier = []
  kept : ∀ v ∈ newestVersions (content s.added), v ∈ live → v ∈ content s.tiers.getSlices
  account : (s.tiers.getSlices ++ s.rewritten.flatMap (fun r => r.1)).Perm
    (s.added ++ s.rewritten.map (fun r => r.2))

/-- When its source still stands in front of the tier, the end of a merge puts
one slice in the place of exactly the slices that the merge has read. -/
theorem mergeEnd_replaces {z : Nat} {tiers : TierMap} {m : Merge} {out : Slice}
    (hp : m.source <+: tiers.tier m.tier) (hw : Rewrites false m.source out) :
    ∃ r, (tiers.add z out).1.removeFrom m.tier m.source.length = some r ∧
      Replaced false m.source out tiers.getSlices r.1.getSlices ∧
      ∀ t, t ≠ m.tier → tiers.tier t <+: r.1.tier t := by
  obtain ⟨r₀, _, hold, _⟩ := removeFrom_of_prefix hp
  obtain ⟨r, hr, hperm, _, hother⟩ := removeFrom_of_prefix (hp.trans (prefix_add z tiers out m.tier))
  refine ⟨r, hr, ⟨hw, r₀.1.getSlices, hold, ?_⟩, fun t ht => ?_⟩
  · refine (List.perm_append_left_iff m.source).mp ?_
    exact (hperm.symm.trans (add_perm z tiers out)).trans
      ((hold.cons out).trans List.perm_middle.symm)
  · rw [hother t ht]
    exact prefix_add z tiers out t

theorem tier_of_mem {m : TierMap} {e : Sigma (fun _ : Nat => List Slice)} (he : e ∈ m.entries) :
    m.tier e.1 = e.2 := by
  rw [tier, AList.mem_lookup_iff.mpr he]
  rfl

theorem compactEnd_replaces (z : Nat) (tiers : TierMap) {checkpoint : TierMap} {out : Slice}
    (hp : ∀ t, checkpoint.tier t <+: tiers.tier t) (hw : Rewrites true checkpoint.getSlices out) :
    ∃ r, (tiers.add z out).1.removeAll (tierSizes checkpoint) = some r ∧
      Replaced true checkpoint.getSlices out tiers.getSlices r.1.getSlices ∧
      ∀ t, checkpoint.tier t = [] → tiers.tier t <+: r.1.tier t := by
  have hold := removeAll_of_prefix checkpoint.entries checkpoint.nodupKeys (m := tiers)
    (fun e he => tier_of_mem he ▸ hp e.1)
  obtain ⟨r₀, _, hold, _⟩ := hold
  have hnew := removeAll_of_prefix checkpoint.entries checkpoint.nodupKeys
    (m := (tiers.add z out).1) (fun e he => (tier_of_mem he ▸ hp e.1).trans (prefix_add z tiers out e.1))
  obtain ⟨r, hr, hperm, htier⟩ := hnew
  refine ⟨r, hr, ⟨hw, r₀.1.getSlices, hold, ?_⟩, fun t ht => ?_⟩
  · refine (List.perm_append_left_iff checkpoint.getSlices).mp ?_
    exact (hperm.symm.trans (add_perm z tiers out)).trans
      ((hold.cons out).trans List.perm_middle.symm)
  · have hnone : (checkpoint.entries.dlookup t).getD [] = [] := ht
    have hsame := htier t
    rw [hnone, List.nil_append] at hsame
    rw [← hsame]
    exact prefix_add z tiers out t

theorem newest_added {added : List Slice} {slice : Slice} {v : Version}
    (hv : v ∈ newestVersions (content (slice :: added))) :
    v ∈ {v | ∃ r ∈ slice.records, r.version = v} ∨ v ∈ newestVersions (content added) := by
  rw [content_cons] at hv
  obtain ⟨hin, hmax⟩ := hv
  exact hin.imp_right (fun hold => ⟨hold, fun v' hv' hk => hmax v' (Or.inr hv') hk⟩)

theorem inv_add {z : Nat} {s : State} (h : Inv s) {slice : Slice}
    (ha : ∀ s' ∈ s.added, Slice.Apart slice s') :
    Inv { s with tiers := (s.tiers.add z slice).1, added := slice :: s.added } where
  distinct := by
    refine (distinct_perm (add_perm z s.tiers slice)).mpr (List.pairwise_cons.mpr ⟨?_, h.distinct⟩)
    intro s' hs' r hr r' hr' hk
    obtain ⟨x, hx, y, hy, hver⟩ := h.origin ⟨s', hs', r', hr', rfl⟩
    have hkey : y.key = r'.key := congrArg Version.key hver
    have hidx : y.idx = r'.idx := congrArg Version.idx hver
    rw [← hidx]
    exact ha x hx r hr y hy (hk.trans hkey.symm)
  origin := by
    change content (getSlices _) ⊆ content (slice :: s.added)
    rw [content_perm (add_perm z s.tiers slice), content_cons, content_cons]
    exact Set.union_subset_union_right _ h.origin
  held := fun m hm => (h.held m hm).trans (prefix_add z s.tiers slice m.tier)
  sole := h.sole
  snapshot := by
    intro c hc
    obtain ⟨hsource, hp, hm⟩ := h.snapshot c hc
    exact ⟨hsource, fun t => (hp t).trans (prefix_add z s.tiers slice t), hm⟩
  kept := by
    intro v hv hlive
    rw [content_perm (add_perm z s.tiers slice), content_cons]
    exact (newest_added hv).imp_right (fun hold => h.kept v hold hlive)
  account := by
    exact ((add_perm z s.tiers slice).append_right _).trans (h.account.cons slice)

/-- The part of the invariant that the end of a rewrite keeps, whichever
operation it belongs to. -/
theorem inv_rewrite {s : State} (h : Inv s) {compact : Bool} {source : List Slice} {out : Slice}
    {tiers : TierMap} (hr : Replaced compact source out s.tiers.getSlices tiers.getSlices)
    {merges : List Merge} {compaction : Option Compaction}
    (hheld : ∀ m ∈ merges, m.source <+: tiers.tier m.tier)
    (hsole : merges.Pairwise (fun m m' => m.tier ≠ m'.tier))
    (hsnap : ∀ c, compaction = some c → c.source = c.checkpoint.getSlices ∧
      (∀ t, c.checkpoint.tier t <+: tiers.tier t) ∧ ∀ m ∈ merges, c.checkpoint.tier m.tier = []) :
    Inv { s with
      tiers := tiers, merges := merges, compaction := compaction
      rewritten := (source, out) :: s.rewritten } where
  distinct := hr.distinct h.distinct
  origin := fun _ hv => h.origin (hr.mem_content h.distinct hv)
  held := hheld
  sole := hsole
  snapshot := hsnap
  kept := fun v hv hlive => hr.keeps h.distinct h.origin hv (h.kept v hv hlive) (fun _ => hlive)
  account := by
    obtain ⟨rest, hold, hnew⟩ := hr.perm
    have hback : ∀ read : List Slice, (rest ++ (source ++ read)).Perm (s.tiers.getSlices ++ read) :=
      fun read => List.perm_append_comm_assoc .. |>.trans
        (List.append_assoc .. ▸ (hold.symm.append_right read))
    refine (hnew.append_right _).trans ?_
    refine ((hback _).cons out).trans ?_
    exact (h.account.cons out).trans List.perm_middle.symm

theorem inv_mergeBegin {s : State} (h : Inv s) {t : Nat} (hfree : ∀ m ∈ s.merges, m.tier ≠ t)
    (hempty : ∀ c, s.compaction = some c → c.checkpoint.tier t = []) :
    Inv { s with merges := s.merges ++ [⟨t, s.tiers.tier t⟩] } where
  distinct := h.distinct
  origin := h.origin
  held := by
    intro m hm
    rcases List.mem_append.mp hm with hm | hm
    · exact h.held m hm
    · rw [List.mem_singleton.mp hm]
  sole := by
    refine List.pairwise_append.mpr ⟨h.sole, List.pairwise_singleton .., fun m hm m' hm' => ?_⟩
    rw [List.mem_singleton.mp hm']
    exact hfree m hm
  snapshot := by
    intro c hc
    obtain ⟨hsource, hp, hnone⟩ := h.snapshot c hc
    refine ⟨hsource, hp, fun m hm => ?_⟩
    rcases List.mem_append.mp hm with hm | hm
    · exact hnone m hm
    · rw [List.mem_singleton.mp hm]
      exact hempty c hc
  kept := h.kept
  account := h.account

theorem inv_compactBegin {s : State} (h : Inv s) (hm : s.merges = []) :
    Inv { s with compaction := some ⟨s.tiers.getSlices, s.tiers⟩ } where
  distinct := h.distinct
  origin := h.origin
  held := h.held
  sole := h.sole
  snapshot := by
    intro c hc
    rw [← Option.some.inj hc]
    refine ⟨rfl, fun t => List.prefix_refl _, fun m hmem => ?_⟩
    rw [hm] at hmem
    simp at hmem
  kept := h.kept
  account := h.account

theorem sole_eraseIdx {ms : List Merge} (h : ms.Pairwise (fun m m' => m.tier ≠ m'.tier)) {i : Nat}
    {m : Merge} (hm : ms[i]? = some m) :
    (∀ m' ∈ ms.eraseIdx i, m'.tier ≠ m.tier) ∧
      (ms.eraseIdx i).Pairwise (fun m m' => m.tier ≠ m'.tier) := by
  obtain ⟨hi, hm⟩ := List.getElem?_eq_some_iff.mp hm
  have hperm : (m :: ms.eraseIdx i).Perm ms := hm ▸ List.getElem_cons_eraseIdx_perm hi
  have hsym := (List.Perm.pairwise_iff (fun hab => Ne.symm hab) hperm).mpr h
  obtain ⟨hfirst, hrest⟩ := List.pairwise_cons.mp hsym
  exact ⟨fun m' hm' => (hfirst m' hm').symm, hrest⟩

theorem mergeEnd_step {z : Nat} {s : State} (h : Inv s) {i : Nat} {m : Merge} {out : Slice}
    (hm : s.merges[i]? = some m) (hw : Rewrites false m.source out) :
    ∃ s', s.apply z (.mergeEnd i out) = some s' ∧ Inv s' ∧ s'.added = s.added ∧
      s'.compaction = s.compaction ∧ Replaced false m.source out s.tiers.getSlices s'.tiers.getSlices := by
  have hmem : m ∈ s.merges := List.mem_of_getElem? hm
  obtain ⟨r, hr, hrep, hother⟩ := mergeEnd_replaces (z := z) (h.held m hmem) hw
  obtain ⟨hsole, hrest⟩ := sole_eraseIdx h.sole hm
  have happ : s.apply z (.mergeEnd i out) = some { s with
      tiers := r.1, merges := s.merges.eraseIdx i
      rewritten := (m.source, out) :: s.rewritten } := by
    simp only [State.apply, hm, hr, Option.map_some]
  refine ⟨_, happ, ?_, rfl, rfl, hrep⟩
  refine inv_rewrite h hrep (fun m' hm' => ?_) hrest (fun c hc => ?_)
  · have hin := (List.eraseIdx_sublist _ _).mem hm'
    exact (h.held m' hin).trans (hother _ (hsole m' hm'))
  · obtain ⟨hsource, hp, hnone⟩ := h.snapshot c hc
    refine ⟨hsource, fun t => ?_, fun m' hm' => hnone m' ((List.eraseIdx_sublist _ _).mem hm')⟩
    by_cases ht : t = m.tier
    · rw [ht, hnone m hmem]
      exact List.nil_prefix
    · exact (hp t).trans (hother t ht)

theorem compactEnd_step {z : Nat} {s : State} (h : Inv s) {c : Compaction} {out : Slice}
    (hc : s.compaction = some c) (hw : Rewrites true c.source out) :
    ∃ s', s.apply z (.compactEnd out) = some s' ∧ Inv s' ∧ s'.added = s.added ∧
      Replaced true c.source out s.tiers.getSlices s'.tiers.getSlices := by
  obtain ⟨hsource, hp, hnone⟩ := h.snapshot c hc
  rw [hsource] at hw ⊢
  obtain ⟨r, hr, hrep, hother⟩ := compactEnd_replaces z s.tiers hp hw
  have happ : s.apply z (.compactEnd out) = some { s with
      tiers := r.1, compaction := none
      rewritten := (c.checkpoint.getSlices, out) :: s.rewritten } := by
    simp only [State.apply, hc, hr, Option.map_some, hsource]
  refine ⟨_, happ, ?_, rfl, hrep⟩
  refine inv_rewrite h hrep (fun m hm => ?_) h.sole (fun c' hc' => absurd hc' (by simp))
  exact (h.held m hm).trans (hother _ (hnone m hm))

/-- Whatever is allowed in a state of the invariant erases within bounds. -/
theorem apply_isSome {z : Nat} {s : State} (h : Inv s) {a : Action} (ha : a.Allowed s) :
    (s.apply z a).isSome := by
  cases a with
  | add slice => rfl
  | mergeBegin t =>
      rw [State.apply]
      split <;> rfl
  | mergeEnd i out =>
      obtain ⟨m, hm, hw⟩ := ha
      obtain ⟨s', hs', _⟩ := mergeEnd_step (z := z) h hm hw
      rw [hs']
      rfl
  | compactBegin =>
      rw [State.apply]
      split <;> rfl
  | compactEnd out =>
      obtain ⟨c, hc, hw⟩ := ha
      obtain ⟨s', hs', _⟩ := compactEnd_step (z := z) h hc hw
      rw [hs']
      rfl

theorem inv_step {z : Nat} {s s' : State} {a : Action} (h : Inv s) (hs : Step z s a s')
    (hg : Undisturbed s a) : Inv s' := by
  obtain ⟨hok, happ⟩ := hs
  cases a with
  | add slice =>
      rw [State.apply, Option.some.injEq] at happ
      subst happ
      exact inv_add h hok.2
  | mergeBegin t =>
      rw [State.apply] at happ
      by_cases hfew : (s.tiers.tier t).length ≤ maxSlicesPerTier
      · rw [if_pos hfew, Option.some.injEq] at happ
        exact happ ▸ h
      · rw [if_neg hfew, Option.some.injEq] at happ
        obtain ⟨hfree, hempty⟩ := hg.resolve_left hfew
        exact happ ▸ inv_mergeBegin h hfree hempty
  | mergeEnd i out =>
      obtain ⟨m, hm, hw⟩ := hok
      obtain ⟨s₁, hs₁, hinv, _⟩ := mergeEnd_step (z := z) h hm hw
      rw [hs₁, Option.some.injEq] at happ
      exact happ ▸ hinv
  | compactBegin =>
      rw [State.apply] at happ
      by_cases hfew : s.tiers.getSlices.length < 2
      · rw [if_pos hfew, Option.some.injEq] at happ
        exact happ ▸ h
      · rw [if_neg hfew, Option.some.injEq] at happ
        exact happ ▸ inv_compactBegin h (hg.resolve_left hfew)
  | compactEnd out =>
      obtain ⟨c, hc, hw⟩ := hok
      obtain ⟨s₁, hs₁, hinv, _⟩ := compactEnd_step (z := z) h hc hw
      rw [hs₁, Option.some.injEq] at happ
      exact happ ▸ hinv

theorem inv_start : Inv {} where
  distinct := List.Pairwise.nil
  origin := fun _ hv => hv
  held := by simp
  sole := List.Pairwise.nil
  snapshot := by simp
  kept := fun v hv _ => hv.1
  account := List.Perm.refl _

end Tyrdbs.Ushard
