import Tyrdbs.Ushard.Interleavings

namespace Tyrdbs.Ushard.Serving

open TierMap Runs

/-- A ushard, the tiers that it has asked its callback to merge, and the one
merge that may be on its way. -/
structure State where
  tiers : TierMap := ∅
  requests : List Nat := []
  merging : Option Merge := none

inductive Action
  | add (s : Slice)
  | serve (i : Nat)
  | finish (out : Slice)

def requestsOf (calls : List Callback) : List Nat :=
  calls.filterMap (fun
    | .merge t => some t
    | _ => none)

/-- A merge reads its tier when it is served, and leaves it alone when there
are few slices; it adds what it has written before it removes what it has read. -/
def State.apply (z : Nat) (s : State) : Action → Option State
  | .add slice =>
      let (tiers, calls) := s.tiers.add z slice
      some { s with tiers := tiers, requests := s.requests ++ requestsOf calls }
  | .serve i =>
      match s.requests[i]? with
      | none => none
      | some t =>
          let source := s.tiers.tier t
          let requests := s.requests.eraseIdx i
          if source.length ≤ maxSlicesPerTier then some { s with requests := requests }
          else some { s with requests := requests, merging := some ⟨t, source⟩ }
  | .finish out =>
      match s.merging with
      | none => none
      | some m =>
          let (tiers, added) := s.tiers.add z out
          (tiers.removeFrom m.tier m.source.length).map (fun (tiers, removed) =>
            { tiers := tiers, requests := s.requests ++ requestsOf added ++ requestsOf removed, merging := none })

/-- One merge at a time; what it writes may be any slice that is not empty. -/
def Action.Allowed (s : State) : Action → Prop
  | .add slice => slice.keyCount ≠ 0
  | .serve _ => s.merging = none
  | .finish out => out.keyCount ≠ 0

def Step (z : Nat) (s : State) (a : Action) (s' : State) : Prop := a.Allowed s ∧ s.apply z a = some s'

def Action.Serves : Action → Prop
  | .add _ => False
  | _ => True

/-- A request for the tier waits to be served, or is being served. -/
def Outstanding (s : State) (t : Nat) : Prop := t ∈ s.requests ∨ ∃ m, s.merging = some m ∧ m.tier = t

def weight (s : State) : Nat := 2 * s.tiers.getSlices.length + s.requests.length

structure Inv (s : State) : Prop where
  filled : ∀ slice ∈ s.tiers.getSlices, slice.keyCount ≠ 0
  requested : ∀ t, maxSlicesPerTier < (s.tiers.tier t).length → Outstanding s t
  source : ∀ m, s.merging = some m → m.source <+: s.tiers.tier m.tier ∧ maxSlicesPerTier < m.source.length

variable {z : Nat} {s s' : State} {a : Action}

theorem mem_requestsOf {t : Nat} {slices : List Slice} :
    t ∈ requestsOf (mergeRequest t slices) ↔ maxSlicesPerTier < slices.length := by
  rw [mergeRequest]
  split
  case isTrue h => exact iff_of_true (List.mem_singleton_self t) h
  case isFalse h => exact iff_of_false List.not_mem_nil h

theorem requestsOf_length (t : Nat) (slices : List Slice) : (requestsOf (mergeRequest t slices)).length ≤ 1 := by
  rw [mergeRequest]
  split
  case isTrue => exact Nat.le_refl 1
  case isFalse => exact Nat.zero_le 1

theorem add_spec (m : TierMap) (slice : Slice) :
    ∃ m' calls, m.add z slice = (m', calls) ∧ m'.getSlices.Perm (slice :: m.getSlices) ∧
      (∀ t, m.tier t <+: m'.tier t) ∧ (requestsOf calls).length ≤ 1 ∧
      ∀ t, maxSlicesPerTier < (m'.tier t).length → t ∈ requestsOf calls ∨ m'.tier t = m.tier t := by
  refine ⟨(m.add z slice).1, (m.add z slice).2, rfl, add_perm z m slice, prefix_add z m slice,
    requestsOf_length _ _, fun t ht => ?_⟩
  rw [tier_add] at ht ⊢
  by_cases htier : t = tierOf z slice
  · rw [if_pos htier] at ht
    subst htier
    exact Or.inl (mem_requestsOf.mpr ht)
  · exact Or.inr (if_neg htier)

/-- What remove_from does, when the slices stand in front of their tier. -/
theorem removeFrom_spec {m : TierMap} {t : Nat} {source : List Slice} (h : source <+: m.tier t) :
    ∃ m' calls, m.removeFrom t source.length = some (m', calls) ∧ m.getSlices.Perm (source ++ m'.getSlices) ∧
      (∀ t', t' ≠ t → m'.tier t' = m.tier t') ∧ (requestsOf calls).length ≤ 1 ∧
      (maxSlicesPerTier < (m'.tier t).length → t ∈ requestsOf calls) := by
  obtain ⟨⟨m', calls⟩, hr, hperm, -, hother⟩ := removeFrom_of_prefix h
  have heq := hr
  rw [removeFrom, if_pos h.length_le, Option.some.injEq, Prod.mk.injEq] at heq
  obtain ⟨hm, rfl⟩ := heq
  refine ⟨m', _, hr, hperm, hother, requestsOf_length _ _, fun ht => mem_requestsOf.mpr ?_⟩
  rwa [← hm, tier_insert, if_pos rfl] at ht

theorem inv_init : Inv {} where
  filled := fun slice hs => by simp [getSlices] at hs
  requested := fun t ht => by simp [tier] at ht
  source := fun m hm => by simp at hm

theorem Inv.add (h : Inv s) {slice : Slice} (hfull : slice.keyCount ≠ 0) :
    ∃ s', s.apply z (.add slice) = some s' ∧ Inv s' := by
  obtain ⟨m', calls, hadd, hperm, htiers, -, hreq⟩ := @add_spec z s.tiers slice
  refine ⟨{ s with tiers := m', requests := s.requests ++ requestsOf calls }, ?_, fun x hx => ?_, fun t ht => ?_,
    fun m hm => ?_⟩
  · rw [State.apply, hadd]
  · rcases List.mem_cons.mp (hperm.mem_iff.mp hx) with rfl | hx
    · exact hfull
    · exact h.filled x hx
  · rcases hreq t ht with hin | hsame
    · exact Or.inl (List.mem_append_right _ hin)
    · exact (h.requested t (hsame ▸ ht)).imp_left (List.mem_append_left _)
  · exact ⟨(h.source m hm).1.trans (htiers m.tier), (h.source m hm).2⟩

theorem mem_eraseIdx_or {l : List Nat} {i t u : Nat} (hi : l[i]? = some u) (ht : t ∈ l) :
    t ∈ l.eraseIdx i ∨ t = u := by
  obtain ⟨j, hj⟩ := List.mem_iff_getElem?.mp ht
  by_cases hij : j = i
  · rw [hij, hi, Option.some.injEq] at hj
    exact Or.inr hj.symm
  · exact Or.inl (List.mem_eraseIdx_iff_getElem?.mpr ⟨j, hij, hj⟩)

theorem Inv.serve (h : Inv s) (hfree : s.merging = none) {i t : Nat} (hi : s.requests[i]? = some t) :
    ∃ s', s.apply z (.serve i) = some s' ∧ Inv s' ∧ s'.tiers = s.tiers ∧ s'.requests = s.requests.eraseIdx i := by
  have hothers : ∀ t', maxSlicesPerTier < (s.tiers.tier t').length → t' ∈ s.requests.eraseIdx i ∨ t' = t := by
    intro t' ht'
    refine mem_eraseIdx_or hi ((h.requested t' ht').resolve_right ?_)
    rw [hfree]
    rintro ⟨m, hm, -⟩
    exact absurd hm (Option.some_ne_none m).symm
  rw [State.apply, hi]
  by_cases hfew : (s.tiers.tier t).length ≤ maxSlicesPerTier
  · refine ⟨{ s with requests := s.requests.eraseIdx i }, if_pos hfew, ⟨h.filled, fun t' ht' => ?_, h.source⟩, rfl, rfl⟩
    rcases hothers t' ht' with hin | rfl
    · exact Or.inl hin
    · exact absurd ht' (Nat.not_lt.mpr hfew)
  · refine ⟨{ s with requests := s.requests.eraseIdx i, merging := some ⟨t, s.tiers.tier t⟩ }, if_neg hfew,
      ⟨h.filled, fun t' ht' => ?_, fun m hm => ?_⟩, rfl, rfl⟩
    · rcases hothers t' ht' with hin | rfl
      · exact Or.inl hin
      · exact Or.inr ⟨_, rfl, rfl⟩
    · rw [← Option.some.inj hm]
      exact ⟨List.prefix_refl _, Nat.not_le.mp hfew⟩

theorem Inv.finish (h : Inv s) {m : Merge} (hm : s.merging = some m) {out : Slice} (hfull : out.keyCount ≠ 0) :
    ∃ s', s.apply z (.finish out) = some s' ∧ Inv s' ∧
      s'.tiers.getSlices.length + maxSlicesPerTier ≤ s.tiers.getSlices.length ∧
      s'.requests.length ≤ s.requests.length + 2 := by
  obtain ⟨hsource, hmany⟩ := h.source m hm
  obtain ⟨m₁, added, hadd, hperm₁, htiers, hlen₁, hreq⟩ := @add_spec z s.tiers out
  obtain ⟨m₂, removed, hremove, hperm₂, hother, hlen₂, hrest⟩ := removeFrom_spec (hsource.trans (htiers m.tier))
  refine ⟨⟨m₂, s.requests ++ requestsOf added ++ requestsOf removed, none⟩, ?_, ⟨fun x hx => ?_, fun t ht => ?_,
    fun _ hnone => by simp at hnone⟩, ?_, ?_⟩
  · rw [State.apply, hm]
    simp only [hadd, hremove, Option.map_some]
  · have hx := hperm₁.mem_iff.mp (hperm₂.mem_iff.mpr (List.mem_append_right _ hx))
    rcases List.mem_cons.mp hx with rfl | hx
    · exact hfull
    · exact h.filled x hx
  · left
    by_cases htier : t = m.tier
    · subst htier
      exact List.mem_append_right _ (hrest ht)
    · have ht : maxSlicesPerTier < (m₁.tier t).length := hother t htier ▸ ht
      refine List.mem_append_left _ (List.mem_append.mpr ?_)
      rcases hreq t ht with hin | hsame
      · exact Or.inr hin
      · refine Or.inl ((h.requested t (hsame ▸ ht)).resolve_right ?_)
        rintro ⟨m', hm', htm⟩
        rw [hm, Option.some.injEq] at hm'
        exact htier (hm' ▸ htm.symm)
  · have hlen := hperm₁.length_eq
    rw [hperm₂.length_eq, List.length_append, List.length_cons] at hlen
    change m₂.getSlices.length + _ ≤ _
    omega
  · change (s.requests ++ requestsOf added ++ requestsOf removed).length ≤ _
    rw [List.length_append, List.length_append]
    omega

theorem Inv.step (h : Inv s) (hs : Step z s a s') : Inv s' ∧ (a.Serves → weight s' < weight s) := by
  obtain ⟨hok, happ⟩ := hs
  cases a with
  | add slice =>
      obtain ⟨s₁, hs₁, hinv⟩ := @Inv.add z s h slice hok
      rw [hs₁, Option.some.injEq] at happ
      exact ⟨happ ▸ hinv, False.elim⟩
  | serve i =>
      cases hi : s.requests[i]? with
      | none => simp [State.apply, hi] at happ
      | some t =>
          obtain ⟨s₁, hs₁, hinv, htiers, hreq⟩ := @Inv.serve z s h hok i t hi
          rw [hs₁, Option.some.injEq] at happ
          refine ⟨happ ▸ hinv, fun _ => ?_⟩
          have hlt : i < s.requests.length := (List.getElem?_eq_some_iff.mp hi).1
          rw [← happ, weight, weight, htiers, hreq, List.length_eraseIdx_of_lt hlt]
          omega
  | finish out =>
      cases hm : s.merging with
      | none => simp [State.apply, hm] at happ
      | some m =>
          obtain ⟨s₁, hs₁, hinv, hslices, hreq⟩ := @Inv.finish z s h m hm out hok
          rw [hs₁, Option.some.injEq] at happ
          refine ⟨happ ▸ hinv, fun _ => ?_⟩
          rw [← happ, weight, weight]
          have : maxSlicesPerTier = 4 := rfl
          omega

theorem inv_run {s₀ : State} {ts : List (State × Action × State)} (h : Run (Step z) s₀ ts s) (h₀ : Inv s₀) : Inv s :=
  h.invariant Inv h₀ (fun _ _ _ hu hs => (hu.step hs).1)

theorem weight_run {s₀ : State} {ts : List (State × Action × State)} (h : Run (Step z) s₀ ts s) (h₀ : Inv s₀)
    (hserves : ∀ t ∈ ts, t.2.1.Serves) : ts.length + weight s ≤ weight s₀ := by
  induction h with
  | refl => exact (Nat.zero_add _).le
  | @tail ts u v a hr hs ih =>
      have hprev := ih (fun t ht => hserves t (List.mem_append_left _ ht))
      have hlast : a.Serves := hserves _ (List.mem_append_right _ (List.mem_singleton_self _))
      have hless := ((inv_run hr h₀).step hs).2 hlast
      rw [List.length_append, List.length_singleton]
      omega

def Settled (s : State) : Prop := s.requests = [] ∧ s.merging = none

theorem Inv.settled (h : Inv s) (hs : Settled s) (t : Nat) : (s.tiers.tier t).length ≤ maxSlicesPerTier := by
  by_contra hmany
  rcases h.requested t (Nat.not_le.mp hmany) with hin | ⟨m, hm, -⟩
  · rw [hs.1] at hin
    exact List.not_mem_nil hin
  · rw [hs.2] at hm
    exact absurd hm (Option.some_ne_none m).symm

theorem first_finds {it : UshardIterator} (hne : it.elements ≠ []) (hmax : it.maxKey = [])
    {r : Bool × UshardIterator} (h : it.first = .ok r) : r.1 = true := by
  have hsorted : it.elements.insertionSort (fun c₁ c₂ => ¬ cmp c₂ c₁) ≠ [] := by
    intro hnil
    have hlen := congrArg List.length hnil
    rw [List.length_insertionSort] at hlen
    exact hne (List.length_eq_zero_iff.mp hlen)
  rw [UshardIterator.first, UshardIterator.part, List.getLast?_eq_some_getLast hsorted] at h
  simp only [Option.map_some, UshardIterator.isOutOfBounds, hmax, if_pos] at h
  revert h
  cases UshardIterator.assignKey _ with
  | error e => exact fun h => by cases h
  | ok key => exact fun h => (congrArg Prod.fst (Except.ok.inj h)).symm

theorem drain_ne {it : UshardIterator} (hne : it.elements ≠ []) (hmax : it.maxKey = []) (hlast : it.lastKey = [])
    {rounds : Nat} {ps : List Part} (hps : it.drain rounds = .ok ps) : ps ≠ [] := by
  cases rounds with
  | zero => cases hps
  | succ rounds =>
      have hnext : it.next = it.first := by
        rw [UshardIterator.next, List.getLast?_eq_some_getLast hne]
        exact if_pos hlast
      rw [UshardIterator.drain, hnext] at hps
      cases hfirst : it.first with
      | error e => simp [hfirst, bind, Except.bind] at hps
      | ok r =>
          obtain ⟨found, it'⟩ := r
          have hfound : found = true := first_finds hne hmax hfirst
          subst hfound
          cases hcur : it'.current with
          | error e => simp [hfirst, hcur, bind, Except.bind] at hps
          | ok p =>
              cases hrest : it'.drain rounds with
              | error e => simp [hfirst, hcur, hrest, bind, Except.bind] at hps
              | ok rest =>
                  simp only [hfirst, hcur, hrest, bind, Except.bind, pure, Except.pure] at hps
                  rw [← Except.ok.inj hps]
                  exact List.cons_ne_nil p rest

theorem keyCount_rewrites {source : List Slice} {out : Slice} (hsource : source ≠ [])
    (hfull : ∀ slice ∈ source, slice.keyCount ≠ 0) (h : Rewrites false source out) : out.keyCount ≠ 0 := by
  obtain ⟨ps, hps, hcount, -⟩ := h
  have hall : added false ps = ps := List.filter_eq_self.mpr (fun p _ => by simp)
  rw [hall] at hcount
  rw [hcount, Nat.ne_zero_iff_zero_lt, List.length_pos_iff]
  refine drain_ne ?_ rfl rfl hps
  obtain ⟨slice, rest, rfl⟩ := List.exists_cons_of_ne_nil hsource
  have hne := hfull slice (List.mem_cons_self ..)
  obtain ⟨r, rs, hr⟩ := List.exists_cons_of_ne_nil (fun he => hne (slice.empty_iff.mpr he))
  intro hnil
  rw [UshardIterator.begin] at hnil
  have hbegin : slice.begin = some (r.parts ++ rs.flatMap Record.parts) := by
    rw [Slice.begin, if_neg hne, hr, List.flatMap_cons]
  rw [List.map_cons, hbegin] at hnil
  exact absurd hnil (List.cons_ne_nil _ _)

def one : Slice where
  records := [⟨[0], 0, false, [], [], by simp, by decide⟩]
  sorted := List.pairwise_singleton ..
  keyCount := 1
  empty_iff := by simp

theorem Inv.progress (h : Inv s) (hs : ¬ Settled s) : ∃ a s', a.Serves ∧ Step z s a s' := by
  cases hm : s.merging with
  | some m =>
      obtain ⟨s', happ, -⟩ := @Inv.finish z s h m hm one Nat.one_ne_zero
      exact ⟨.finish one, s', trivial, Nat.one_ne_zero, happ⟩
  | none =>
      cases hreq : s.requests with
      | nil => exact absurd ⟨hreq, hm⟩ hs
      | cons t rest =>
          obtain ⟨s', happ, -⟩ := @Inv.serve z s h hm 0 t (by rw [hreq]; rfl)
          exact ⟨.serve 0, s', trivial, hm, happ⟩

/-- After any adds and merges: every tier is defined by its slices, a tier over
the limit has been requested, and serving the requests in any order ends, with
no tier over the limit. -/
theorem merging_settles {ts : List (State × Action × State)} (h : Run (Step z) {} ts s) :
    (∀ slice ∈ s.tiers.getSlices, slice.keyCount ≠ 0) ∧
    (∀ t, maxSlicesPerTier < (s.tiers.tier t).length → Outstanding s t) ∧
    (∀ ts' s', Run (Step z) s ts' s' → (∀ t ∈ ts', t.2.1.Serves) → ts'.length ≤ weight s) ∧
    (Settled s → ∀ t, (s.tiers.tier t).length ≤ maxSlicesPerTier) ∧
    (¬ Settled s → ∃ a s', a.Serves ∧ Step z s a s') := by
  have hinv := inv_run h inv_init
  refine ⟨hinv.filled, hinv.requested, fun ts' s' hr hserves => ?_, hinv.settled, hinv.progress⟩
  exact (Nat.le_add_right _ _).trans (weight_run hr hinv hserves)

instance (s : State) (a : Action) : Decidable (a.Allowed s) :=
  match a with
  | .add slice => inferInstanceAs (Decidable (slice.keyCount ≠ 0))
  | .serve _ => decidable_of_iff (s.merging.isNone = true) Option.isNone_iff_eq_none
  | .finish out => inferInstanceAs (Decidable (out.keyCount ≠ 0))

def attempt (z : Nat) (s : State) (a : Action) : Option State := if a.Allowed s then s.apply z a else none

theorem step_attempt (h : attempt z s a = some s') : Step z s a s' := by
  rw [attempt, Option.ite_none_right_eq_some] at h
  exact h

/-- Six slices in the lowest tier raise two requests, and their merge a third;
only the first one finds something to merge. -/
def sixOnes : List Action := List.replicate 6 (.add one) ++ [.serve 0, .finish one, .serve 1, .serve 0]

theorem merging_settles_ones : ∃ ts s, Run (Step 0) {} ts s ∧ s.tiers.getSlices = [one] ∧ Settled s ∧
    ∀ t, (s.tiers.tier t).length ≤ maxSlicesPerTier := by
  have hends : (follow (attempt 0) {} sixOnes).any
      (fun r => r.2.tiers.getSlices = [one] ∧ r.2.requests = [] ∧ r.2.merging.isNone) = true := by decide
  obtain ⟨⟨ts, s⟩, hfollow, htest⟩ := (Option.any_eq_true _ _).mp hends
  obtain ⟨hslices, hreq, hnone⟩ := of_decide_eq_true htest
  have hrun := run_follow (attempt 0) (fun _ _ _ => step_attempt) _ _ hfollow
  have hsettled : Settled s := ⟨hreq, Option.isNone_iff_eq_none.mp hnone⟩
  exact ⟨ts, s, hrun, hslices, hsettled, (merging_settles hrun).2.2.2.1 hsettled⟩

end Tyrdbs.Ushard.Serving
