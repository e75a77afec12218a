import Tyrdbs.Common.AllocatorRuns

namespace Tyrdbs.Allocator

open OrderedSet Extents Runs

/-- The free extents are kept maximal: no two touch, and an allocation fails
exactly when there is no run of that many pages that nobody holds. -/
def Maximal (s : State) : Prop :=
  Coalesced s.blocks.extents ∧
    ∀ n, 0 < n → n < 2 ^ 32 →
      ((s.blocks.allocate n).1 = invalidHandle ↔
        ¬ ∃ p, p + n ≤ s.blocks.capacity ∧ ∀ i < n, p + i ∉ s.live)

/-- No pages are added while an empty extent is recorded. -/
def AvoidsEmpty (s : State) : Op → Prop
  | .extend n => n = 0 ∨ ∀ e ∈ s.blocks.extents, e.2 ≠ 0
  | _ => True

instance (s : State) (op : Op) : Decidable (AvoidsEmpty s op) :=
  match op with
  | .extend n => (inferInstance : Decidable (n = 0 ∨ ∀ e ∈ s.blocks.extents, e.2 ≠ 0))
  | .allocate _ => isTrue trivial
  | .free _ _ => isTrue trivial

/-- An empty extent can only stand at the capacity, where nothing follows it. -/
structure Tight (E : Finset Extent) (bound : Nat) : Prop where
  coalesced : Coalesced E
  empty_last : ∀ e ∈ E, e.2 = 0 → e.1 = bound

theorem Tight.erase {E : Finset Extent} {bound : Nat} (h : Tight E bound) (e : Extent) :
    Tight (E.erase e) bound where
  coalesced := fun f hf g hg => h.coalesced f (Finset.mem_of_mem_erase hf) g (Finset.mem_of_mem_erase hg)
  empty_last := fun f hf => h.empty_last f (Finset.mem_of_mem_erase hf)

theorem pack_lt_iff {e f : Extent} (he : e.2 < 2 ^ 32) (hf : f.2 < 2 ^ 32) :
    pack e.1 e.2 ≤ pack f.1 f.2 ↔ e.1 < f.1 ∨ (e.1 = f.1 ∧ e.2 ≤ f.2) := by
  rw [pack_eq he, pack_eq hf]; omega

section joins

variable {a : Allocator} {idx size bound : Nat}

/-- The extent that ends where the range begins is the one that free looks at
below it. -/
theorem predecessor_of_touch (hsep : Separated a.extents) (ht : Tight a.extents bound)
    (hbelow : ∀ e ∈ a.extents, e.1 + e.2 ≤ bound) (hbound : bound < 2 ^ 32) (hin : idx ≤ bound)
    {e : Extent} (he : e ∈ a.extents) (hlt : e.1 < idx) (htouch : e.1 + e.2 = idx) :
    predecessor a.idxSet (lowerBound a.idxSet (pack idx 0)) = some (pack e.1 e.2) := by
  have hpack : ∀ f ∈ a.extents, f.1 < idx → pack f.1 f.2 < pack idx 0 := by
    intro f hf hfi
    have := hbelow f hf
    rw [pack_eq (by omega), pack_eq (by omega)]; omega
  cases hp : predecessor a.idxSet (lowerBound a.idxSet (pack idx 0)) with
  | none =>
      have hno := predecessor_lowerBound_none hp _ (pack_mem_idxSet he)
      exact absurd (hpack e he hlt) (not_lt.mpr hno)
  | some it =>
      obtain ⟨hmem, hit, hmax⟩ := predecessor_lowerBound_some hp
      have hf := mem_extents hmem
      have hle := hmax _ (pack_mem_idxSet he) (hpack e he hlt)
      have hfb := hbelow _ hf
      have heb := hbelow e he
      have hlow : high it < idx := by
        by_contra hge
        exact absurd (pack_zero_le.mpr (not_lt.mp hge)) (not_le.mpr hit)
      rw [← pack_high_low it, @pack_lt_iff e (high it, low it) (by omega) (low_lt it)] at hle
      have hpos : low it ≠ 0 := fun h0 => by
        have := ht.empty_last _ hf h0
        simp only at this
        omega
      simp only at hle hfb
      have hshared : high it ∈ cells e := mem_cells.mpr (by omega)
      have heq := hsep.eq_of_mem he hf hshared (mem_cells.mpr (by simp only; omega))
      rw [heq, pack_high_low]

/-- The extent that begins where the range ends is the one that free looks at
above it. -/
theorem lowerBound_of_touch (hsep : Separated a.extents) (ht : Tight a.extents bound)
    (hbelow : ∀ e ∈ a.extents, e.1 + e.2 ≤ bound) (hbound : bound < 2 ^ 32)
    (hin : idx + size ≤ bound) (hapart : Disjoint (cells (idx, size)) (covered a.extents))
    {e : Extent} (he : e ∈ a.extents) (htouch : idx + size = e.1) :
    lowerBound a.idxSet (pack idx 0) = some (pack e.1 e.2) := by
  have heb := hbelow e he
  have hreach : pack idx 0 ≤ pack e.1 e.2 := pack_zero_le.mpr (by
    rw [high_pack (by omega)]; omega)
  cases hl : lowerBound a.idxSet (pack idx 0) with
  | none => exact absurd (lowerBound_none.mp hl _ (pack_mem_idxSet he)) (not_lt.mpr hreach)
  | some it =>
      obtain ⟨hmem, hit, hmin⟩ := lowerBound_some hl
      have hf := mem_extents hmem
      have hle := hmin _ (pack_mem_idxSet he) hreach
      have hfb := hbelow _ hf
      have hge := pack_zero_le.mp hit
      rw [← pack_high_low it, @pack_lt_iff (high it, low it) e (low_lt it) (by omega)] at hle
      simp only at hle hfb
      have hat : high it = e.1 := by
        by_contra hne
        have hinside : high it ∈ cells (idx, size) := mem_cells.mpr (by simp only; omega)
        have hpos : low it ≠ 0 := fun h0 => by
          have := ht.empty_last _ hf h0
          simp only at this
          omega
        exact Finset.disjoint_left.mp hapart hinside
          (mem_covered.mpr ⟨_, hf, by simp only; omega⟩)
      have heq : (high it, low it) = e := by
        by_contra hne
        have hshared : e.1 ∈ cells (high it, low it) → False := fun hm =>
          hne (hsep.eq_of_mem hf he hm (mem_cells.mpr (by have := mem_cells.mp hm; simp only at this; omega)))
        by_cases h0 : low it = 0
        · exact ht.coalesced _ hf e he hne (by simp only; omega)
        · exact hshared (mem_cells.mpr (by simp only; omega))
      rw [← heq, pack_high_low]

theorem joinBoth_apart {sum : Nat} {cover : Finset Nat} (h : Pending a idx size bound cover sum)
    (ht : Tight a.extents bound) :
    Tight (a.joinBoth idx size).1.extents bound ∧
      (∀ e ∈ (a.joinBoth idx size).1.extents, e.1 < (a.joinBoth idx size).2.1 →
        e.1 + e.2 ≠ (a.joinBoth idx size).2.1) ∧
      (∀ e ∈ (a.joinBoth idx size).1.extents,
        (a.joinBoth idx size).2.1 + (a.joinBoth idx size).2.2 ≠ e.1) ∧
      idx + size ≤ (a.joinBoth idx size).2.1 + (a.joinBoth idx size).2.2 ∧
      size ≤ (a.joinBoth idx size).2.2 := by
  have hin := h.inside
  let nextIt := lowerBound a.idxSet (pack idx 0)
  let p := a.joinPrev (predecessor a.idxSet nextIt) idx size
  have hleft : (p.1.extents ⊆ a.extents) ∧ Tight p.1.extents bound ∧ p.2.1 + p.2.2 = idx + size ∧
      size ≤ p.2.2 ∧ ∀ e ∈ p.1.extents, e.1 < p.2.1 → e.1 + e.2 ≠ p.2.1 := by
    rcases joinPrev_cases h (prev_mem a idx) with ⟨it, hp, htouch, hj⟩ | ⟨hno, hj⟩
    · have hit := mem_extents (prev_mem a idx it hp)
      simp only [p, nextIt, hj, extents_eraseExtent]
      refine ⟨Finset.erase_subset _ _, ht.erase _, by omega, by omega, fun e he _ => ?_⟩
      exact ht.coalesced e (Finset.mem_of_mem_erase he) _ hit (Finset.ne_of_mem_erase he)
    · simp only [p, nextIt, hj]
      refine ⟨subset_rfl, ht, trivial, le_rfl, fun e he hlt htouch => ?_⟩
      have hprev := predecessor_of_touch h.separated ht h.below h.bounded (by omega) he hlt htouch
      have hlow : e.2 < 2 ^ 32 := by
        have := h.below e he
        have := h.bounded
        omega
      exact hno _ hprev (by rw [high_pack hlow, low_pack hlow, htouch])
  obtain ⟨hsub, htight, hend, hsize, hfree⟩ := hleft
  have hp := h.joinPrev (prev_mem a idx)
  rcases joinNext_cases hp (next_mem_joinPrev a idx size) with ⟨it, hn, htouch, hj⟩ | ⟨hno, hj⟩
  · have hit := mem_extents (next_mem_joinPrev a idx size it hn)
    simp only [joinBoth, hj, extents_eraseExtent]
    refine ⟨htight.erase _, fun e he => hfree e (Finset.mem_of_mem_erase he), fun e he hne => ?_, ?_,
      hsize.trans (Nat.le_add_right _ _)⟩
    · refine htight.coalesced _ hit e (Finset.mem_of_mem_erase he) (Finset.ne_of_mem_erase he).symm ?_
      simp only; omega
    · change idx + size ≤ p.2.1 + (p.2.2 + low it)
      omega
  · simp only [joinBoth, hj]
    refine ⟨htight, hfree, fun e he htouch => ?_, hend.ge, hsize⟩
    have heq : idx + size = e.1 := hend.symm.trans htouch
    have hnext := lowerBound_of_touch h.separated ht h.below h.bounded hin h.apart (hsub he) heq
    have hlow : e.2 < 2 ^ 32 := by
      have := h.below e (hsub he)
      have := h.bounded
      omega
    exact hno _ hnext (by rw [high_pack hlow]; exact htouch)

/-- Where empty extents stand at the bound only, free leaves no extent that
touches another one. -/
theorem tight_free (hsame : a.freeExtents = a.extents)
    (hsep : Separated a.extents) (hbelow : ∀ e ∈ a.extents, e.1 + e.2 ≤ bound)
    (hbound : bound < 2 ^ 32) (hin : idx + size ≤ bound)
    (hapart : Disjoint (cells (idx, size)) (covered a.extents))
    (ht : Tight a.extents bound) (hempty : size = 0 → idx = bound) :
    Tight (a.free idx size).extents bound := by
  have h0 : Pending { a with size := a.size - size } idx size bound
      (cells (idx, size) ∪ covered a.extents) (size + total a.extents) :=
    ⟨hsame, hsep, hbelow, hbound, hin, hapart, rfl, rfl⟩
  have hp := h0.joinBoth
  obtain ⟨htight, hbefore, hafter, hend, hgrow⟩ := joinBoth_apart h0 ht
  have hpin := hp.inside
  rw [free_eq, extents_insertExtent _ (by omega)]
  generalize joinBoth { a with size := a.size - size } idx size = r at *
  refine ⟨fun e he f hf hne => ?_, fun e he h0 => ?_⟩
  · rcases Finset.mem_insert.mp he with rfl | heE <;> rcases Finset.mem_insert.mp hf with rfl | hfE
    · exact absurd rfl hne
    · exact hafter f hfE
    · intro htouch
      simp only at htouch
      by_cases hlt : e.1 < r.2.1
      · exact hbefore e heE hlt htouch
      · have hlast := htight.empty_last e heE (by omega)
        exact hafter e heE (by omega)
    · exact htight.coalesced e heE f hfE hne
  · rcases Finset.mem_insert.mp he with rfl | heE
    · simp only at h0 ⊢
      by_cases hs : size = 0
      · have := hempty hs
        omega
      · omega
    · exact htight.empty_last e heE h0

end joins

structure Joined (s : State) : Prop where
  inv : Inv s
  tight : Tight s.blocks.extents s.blocks.maxIdx

theorem joined_empty : Joined {} where
  inv := inv_empty
  tight := ⟨by simp [Coalesced, extents], by simp [extents]⟩

theorem page_free_iff {s : State} (h : Inv s) {p : Nat} (hp : p < s.blocks.maxIdx) :
    p ∉ s.live ↔ p ∈ covered s.blocks.extents := by
  rw [mem_live h]; tauto

theorem maximal_of_joined {s : State} (h : Joined s) : Maximal s := by
  refine ⟨h.tight.coalesced, fun n hn _ => ?_⟩
  rcases allocate_cases h.inv n hn with ⟨hsmall, hv⟩ | ⟨e, he, hfit, _, hidx, hvalid, hsub, _⟩
  · rw [hv]
    refine iff_of_true rfl ?_
    rintro ⟨p, hp, hfree⟩
    rw [capacity] at hp
    obtain ⟨e, he, hlo, hhi⟩ := run_in_extent h.inv.consistent.separated h.tight.coalesced p n hn
      (fun i hi => (page_free_iff h.inv (by omega)).mp (hfree i hi))
    have := hsmall e he
    omega
  · rw [hidx]
    refine iff_of_false hvalid (not_not.mpr ⟨e.1, ?_, fun i hi => ?_⟩)
    · have := h.inv.consistent.below e he
      rw [capacity]; omega
    · have hb := h.inv.consistent.below e he
      refine (page_free_iff h.inv (by omega)).mpr ?_
      exact mem_covered.mpr ⟨e, he, by omega, by omega⟩

theorem joined_extend {s : State} (h : Joined s) {n : Nat} (hn : s.blocks.maxIdx + n < 2 ^ 32)
    (hg : n = 0 ∨ ∀ e ∈ s.blocks.extents, e.2 ≠ 0) : Joined (s.apply (.extend n)) := by
  have hc := h.inv.consistent
  have hmax := (extend_spec hc hn).2.1
  refine ⟨inv_extend h.inv hn, ?_⟩
  change Tight (s.blocks.extend n).extents (s.blocks.extend n).maxIdx
  rw [hmax]
  have hbelow : ∀ e ∈ s.blocks.extents, e.1 + e.2 ≤ s.blocks.maxIdx + n :=
    fun e he => (hc.below e he).trans (Nat.le_add_right _ _)
  have hapart : Disjoint (cells (s.blocks.maxIdx, n)) (covered s.blocks.extents) := by
    refine Finset.disjoint_left.mpr (fun p hp hcov => ?_)
    have hlt := Finset.mem_range.mp (covered_subset_range hc hcov)
    have := (mem_cells.mp hp).1
    simp only at this
    omega
  have htight : Tight s.blocks.extents (s.blocks.maxIdx + n) := by
    refine ⟨h.tight.coalesced, fun e he h0 => ?_⟩
    rcases hg with rfl | hg
    · exact h.tight.empty_last e he h0
    · exact absurd h0 (hg e he)
  exact @tight_free { s.blocks with size := u32 (s.blocks.size + n) } s.blocks.maxIdx n
    (s.blocks.maxIdx + n) hc.same hc.separated hbelow hn le_rfl hapart htight (by omega)

theorem joined_free {s : State} (h : Joined s) {idx n : Nat} (hn : 0 < n)
    (hsub : cells (idx, n) ⊆ s.live) : Joined (s.apply (.free idx n)) := by
  have hc := h.inv.consistent
  obtain ⟨hin, hapart, _⟩ := live_range h.inv hn hsub
  obtain ⟨_, _, _, _, _, hmax, _⟩ :=
    free_spec hc.same hc.separated hc.below hc.bounded hin hapart
  refine ⟨inv_free h.inv hn hsub, ?_⟩
  change Tight (s.blocks.free idx n).extents (s.blocks.free idx n).maxIdx
  rw [hmax]
  exact tight_free hc.same hc.separated hc.below hc.bounded hin hapart h.tight (by omega)

theorem joined_allocate {s : State} (h : Joined s) {n : Nat} (hn : 0 < n) :
    Joined (s.apply (.allocate n)) := by
  rcases allocate_cases h.inv n hn with
    ⟨_, hv⟩ | ⟨e, he, hfit, _, _, _, _, hinv, _, hmax, hext⟩
  · have hs : s.apply (.allocate n) = s := by simp [State.apply, hv]
    rw [hs]; exact h
  · refine ⟨hinv, ?_⟩
    change Tight (s.blocks.allocate n).2.extents (s.blocks.allocate n).2.maxIdx
    have hb := h.inv.consistent.below e he
    rw [hmax, hext]
    split
    next hlt =>
      refine ⟨fun f hf g hg hne => ?_, fun f hf h0 => ?_⟩
      · rcases Finset.mem_insert.mp hf with rfl | hfE <;> rcases Finset.mem_insert.mp hg with rfl | hgE
        · exact absurd rfl hne
        · have := h.tight.coalesced e he g (Finset.mem_of_mem_erase hgE) (Finset.ne_of_mem_erase hgE).symm
          simp only; omega
        · intro htouch
          simp only at htouch
          have hfE' := Finset.mem_of_mem_erase hfE
          by_cases h0 : f.2 = 0
          · have := h.tight.empty_last f hfE' h0
            omega
          · refine Finset.ne_of_mem_erase hfE (h.inv.consistent.separated.eq_of_mem hfE' he
              (mem_cells.mpr (show f.1 ≤ e.1 + n - 1 ∧ e.1 + n - 1 < f.1 + f.2 by omega))
              (mem_cells.mpr (by omega)))
        · exact h.tight.coalesced f (Finset.mem_of_mem_erase hfE) g (Finset.mem_of_mem_erase hgE) hne
      · rcases Finset.mem_insert.mp hf with rfl | hfE
        · simp only at h0
          omega
        · exact h.tight.empty_last f (Finset.mem_of_mem_erase hfE) h0
    next hlt => exact h.tight.erase e

theorem joined_step (s : State) (op : Op) (s' : State) (h : Joined s) (hs : Step s op s')
    (hg : AvoidsEmpty s op) : Joined s' := by
  obtain ⟨hop, rfl⟩ := hs
  cases op with
  | extend n => exact joined_extend h hop hg
  | allocate n => exact joined_allocate h hop.1
  | free idx n => exact joined_free h hop.1 hop.2

/-- Adding pages behind a recorded empty extent puts two extents side by side:
free finds the empty one at the capacity and never looks at another. -/
theorem not_maximal_of_extend {s : State} (h : Joined s) {n : Nat}
    (hn : s.blocks.maxIdx + n < 2 ^ 32) (hpos : n ≠ 0) {e : Extent} (he : e ∈ s.blocks.extents)
    (h0 : e.2 = 0) : ¬ Maximal (s.apply (.extend n)) := by
  have hc := h.inv.consistent
  have hlast := h.tight.empty_last e he h0
  have heq : e = (s.blocks.maxIdx, 0) := Prod.ext hlast h0
  let grown : Allocator := { s.blocks with size := u32 (s.blocks.size + n) - n }
  have hnext : lowerBound s.blocks.idxSet (pack s.blocks.maxIdx 0) = some (pack s.blocks.maxIdx 0) := by
    refine lowerBound_eq_some ?_ le_rfl (fun y _ hy => hy)
    have := pack_mem_idxSet he
    rwa [heq] at this
  have hprev : ∀ it, predecessor s.blocks.idxSet (some (pack s.blocks.maxIdx 0)) = some it →
      high it + low it ≠ s.blocks.maxIdx := by
    intro it hp htouch
    rw [← hnext] at hp
    have hit := mem_extents (prev_mem s.blocks _ it hp)
    have hlt := (predecessor_lowerBound_some hp).2.1
    refine h.tight.coalesced _ hit e he (fun hne => ?_) (by rw [heq]; exact htouch)
    rw [heq, Prod.mk.injEq] at hne
    rw [← pack_high_low it, hne.1, hne.2] at hlt
    exact absurd hlt (lt_irrefl _)
  have hpend : Pending grown s.blocks.maxIdx n (s.blocks.maxIdx + n)
      (cells (s.blocks.maxIdx, n) ∪ covered s.blocks.extents) (n + total s.blocks.extents) := by
    refine ⟨hc.same, hc.separated, fun e he => (hc.below e he).trans (Nat.le_add_right _ _), hn, le_rfl,
      ?_, rfl, rfl⟩
    refine Finset.disjoint_left.mpr (fun p hp hcov => ?_)
    have hlt := Finset.mem_range.mp (covered_subset_range hc hcov)
    have := (mem_cells.mp hp).1
    simp only at this
    omega
  have hjoin : grown.joinBoth s.blocks.maxIdx n = (grown, s.blocks.maxIdx, n) := by
    have hidx : grown.idxSet = s.blocks.idxSet := rfl
    unfold joinBoth
    simp only [hidx, hnext]
    rcases joinPrev_cases hpend (prev_mem grown s.blocks.maxIdx) with ⟨it, hp, htouch, _⟩ | ⟨_, hj⟩
    · rw [hidx, hnext] at hp
      exact absurd htouch (hprev it hp)
    · rw [hidx, hnext] at hj
      have hlow : (0 : Nat) < 2 ^ 32 := by omega
      rw [hj, joinNext, high_pack hlow, u32_of_lt hn, if_neg (by omega)]
  have hext : (s.blocks.extend n).extents = insert (s.blocks.maxIdx, n) s.blocks.extents := by
    change (Allocator.free { s.blocks with size := u32 (s.blocks.size + n) } s.blocks.maxIdx n).extents = _
    rw [free_eq]
    change ((grown.joinBoth s.blocks.maxIdx n).1.insertExtent _ _).extents = _
    rw [hjoin, extents_insertExtent grown (by change n < 2 ^ 32; omega)]
    rfl
  intro hmax
  have hco : Coalesced (s.blocks.extend n).extents := hmax.1
  rw [hext] at hco
  refine hco e (Finset.mem_insert_of_mem he) _ (Finset.mem_insert_self _ _) ?_ (by rw [heq]; rfl)
  rw [heq]
  simpa using hpos.symm

/-- Exactly the runs that never add pages while an empty extent is recorded
keep the free extents maximal in every state. -/
theorem free_extents_maximal_iff {ts : List (State × Op × State)} {s : State} (h : Run Step {} ts s) :
    (∀ v ∈ visited {} ts, Maximal v) ↔ ∀ t ∈ ts, AvoidsEmpty t.1 t.2.1 := by
  refine h.exact AvoidsEmpty Joined Maximal joined_empty (fun _ => maximal_of_joined) joined_step ?_
  rintro u op v hu ⟨hop, rfl⟩ hg
  cases op with
  | extend n =>
      simp only [AvoidsEmpty, not_or, not_forall, not_not] at hg
      obtain ⟨hpos, e, he, h0⟩ := hg
      exact not_maximal_of_extend hu hop hpos he h0
  | allocate n => exact absurd trivial hg
  | free idx n => exact absurd trivial hg

/-- A new backing file adds no pages, and the empty extent this leaves at page
0 hides the free pages behind it when page 0 is given back. -/
theorem extend_zero_fragments :
    ¬ ∀ (ts : List (State × Op × State)) (s : State), Run Step {} ts s → Maximal s := by
  intro h
  let ops : List Op := [.extend 0, .extend 32768, .allocate 5, .free 1 4, .free 0 1]
  have hrun := h _ _ (run_of_allowed State.apply (fun s op => op.Allowed s) ops {} (by decide))
  have hfail : ((ops.foldl State.apply {}).blocks.allocate 32768).1 = invalidHandle := by decide
  have hlive : (ops.foldl State.apply {}).live = ∅ := by decide
  have hcap : (ops.foldl State.apply {}).blocks.capacity = 32768 := by decide
  refine (hrun.2 32768 (by decide) (by decide)).mp hfail ⟨0, ?_, fun i _ => ?_⟩
  · rw [hcap]
  · rw [hlive]
    exact Finset.notMem_empty _

/-- A file that already holds pages never records an empty extent. -/
theorem free_extents_maximal_iff_reopened :
    ∃ ts s, Run Step {} ts s ∧ ts.length = 5 ∧ ∀ v ∈ visited {} ts, Maximal v := by
  have hrun := run_of_allowed State.apply (fun s op => op.Allowed s)
    [.extend 5, .allocate 5, .free 0 1, .free 4 1, .free 1 3] {} (by decide)
  exact ⟨_, _, hrun, rfl, (free_extents_maximal_iff hrun).mpr (by decide)⟩

end Tyrdbs.Allocator
