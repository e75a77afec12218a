import Tyrdbs.Storage.Volume

namespace Tyrdbs.Storage.Volume

open Allocator Extents Outcome DiskWriter

variable {s s' : DiskWriter} {ds : List Descriptor} {t e : Nat} {flush : Flush}

theorem Apportioned.same (h : Apportioned ⟨s, ds⟩) (hblocks : s'.blocks = s.blocks) (hstates : s'.states = s.states)
    (hfiles : ∀ e, (s'.files e).descriptor.extents = (s.files e).descriptor.extents ∧
      (s'.files e).commited = (s.files e).commited)
    (htaken : ∀ flush ∈ s'.unplaced, flush ∈ s.unplaced ∨
      flush.cachedPages ≠ [] ∧ (s.files flush.state).commited = false) : Apportioned ⟨s', ds⟩ where
  consistent := hblocks ▸ h.consistent
  held := by
    have hsame : Volume.held ⟨s', ds⟩ = Volume.held ⟨s, ds⟩ := by
      simp only [Volume.held, hstates, (hfiles _).1]
    rw [hsame, h.held]
    exact congrArg (fun blocks => (inUse blocks).val) hblocks.symm
  live := fun e he x hx => h.live e (hstates ▸ he) x ((hfiles e).1 ▸ hx)
  commited := h.commited
  released := fun e he hc => (hfiles e).1.trans (h.released e (hstates ▸ he) ((hfiles e).2 ▸ hc))
  taken := fun flush hf => ((htaken flush hf).elim (h.taken flush) id).imp_right ((hfiles flush.state).2.trans ·)

theorem Apportioned.quiet (h : Apportioned ⟨s, ds⟩) (hq : Quiet s s') : Apportioned ⟨s', ds⟩ :=
  h.same hq.blocks hq.states (fun e => by rw [hq.files]; exact ⟨rfl, rfl⟩) (fun flush hf => .inl (hq.unplaced flush hf))

theorem Apportioned.update {f : FileWriter} (h : Apportioned ⟨s, ds⟩) (hblocks : s'.blocks = s.blocks)
    (hstates : s'.states = s.states) (hfiles : s'.files = Function.update s.files e f)
    (hextents : f.descriptor.extents = (s.files e).descriptor.extents) (hcommited : f.commited = (s.files e).commited)
    (hthreads : s'.threads = s.threads) : Apportioned ⟨s', ds⟩ := by
  refine h.same hblocks hstates (fun k => ?_) (fun flush hf => .inl ?_)
  · rw [hfiles]
    by_cases hk : k = e
    · subst hk
      rw [Function.update_self]
      exact ⟨hextents, hcommited⟩
    · rw [Function.update_of_ne hk]
      exact ⟨rfl, rfl⟩
  · rwa [unplaced, hthreads] at hf

theorem mem_unplaced_set {threads : List Stage} {stage : Stage}
    (h : flush ∈ (threads.set t stage).filterMap Stage.unplaced) :
    flush ∈ threads.filterMap Stage.unplaced ∨ stage.unplaced = some flush := by
  obtain ⟨x, hx, hf⟩ := List.mem_filterMap.mp h
  rcases List.mem_or_eq_of_mem_set hx with hx | rfl
  · exact .inl (List.mem_filterMap.mpr ⟨x, hx, hf⟩)
  · exact .inr hf

theorem held_update (hnodup : s.states.Nodup) (he : e ∈ s.states) (hstates : s'.states = s.states)
    (hfiles : ∀ k, k ≠ e → (s'.files k).descriptor.extents = (s.files k).descriptor.extents) :
    held ⟨s', ds⟩ + (pagesOf (s.files e).descriptor.extents : Multiset Nat) =
      held ⟨s, ds⟩ + (pagesOf (s'.files e).descriptor.extents : Multiset Nat) := by
  have hsum := Slots.sum_update (fun k => (pagesOf (s.files k).descriptor.extents : Multiset Nat))
    (fun k => (pagesOf (s'.files k).descriptor.extents : Multiset Nat)) hnodup he (fun k hk => by rw [hfiles k hk])
  rw [Volume.held, Volume.held]
  simp only [hstates]
  rw [add_right_comm, hsum, add_right_comm]

theorem Apportioned.place (h : Apportioned ⟨s, ds⟩) (ho : s.Orderly) (ht : s.threads[t]? = some (.allocate flush))
    (hpage : (s.blocks.allocate flush.cachedPages.length).1 ≠ invalidHandle) : Apportioned ⟨s.place flush, ds⟩ := by
  have hstage := List.mem_of_getElem? ht
  obtain ⟨hsome, hopen⟩ := h.taken flush (List.mem_filterMap.mpr ⟨_, hstage, rfl⟩)
  have hopen : (s.files flush.state).commited = false := hopen
  have hpos : 0 < flush.cachedPages.length := List.length_pos_iff.mpr hsome
  have hlive : flush.state ∈ s.states := ho.live _ hstage _ rfl
  obtain ⟨hcons, huse, hdisjoint, hmax⟩ := inUse_allocate (a := s.blocks) h.consistent hpos hpage
  have hbound := hcons.bounded
  have hlt : flush.cachedPages.length < 2 ^ 32 := by
    have hle : flush.cachedPages.length ≤ (s.blocks.allocate flush.cachedPages.length).2.maxIdx := by omega
    exact hle.trans_lt hbound
  have hself : ((s.place flush).files flush.state).descriptor.extents = (s.files flush.state).descriptor.extents ++
      [pack (s.blocks.allocate flush.cachedPages.length).1 flush.cachedPages.length] := by
    rw [DiskWriter.place, setFile_self]
    rfl
  have hother : ∀ k, k ≠ flush.state → (s.place flush).files k = s.files k := fun k hk => Function.update_of_ne hk _ _
  have hsame : ∀ k, ((s.place flush).files k).commited = (s.files k).commited := by
    intro k
    by_cases hk : k = flush.state
    · rw [hk, DiskWriter.place, setFile_self]
      rfl
    · rw [hother k hk]
  refine ⟨hcons, ?_, fun e he x hx => ?_, h.commited, fun e he hc => ?_,
    fun call hc => (h.taken call hc).imp_right ((hsame call.state).trans ·)⟩
  · have hheld : Volume.held ⟨s.place flush, ds⟩ + _ = Volume.held ⟨s, ds⟩ + _ :=
      held_update (List.nodup_append.mp ho.nodup).1 hlive rfl (fun k hk => by rw [hother k hk])
    rw [hself, pagesOf_append, pagesOf_pack hlt, ← Multiset.coe_add, ← add_assoc, add_right_comm] at hheld
    rw [add_right_cancel hheld, h.held, ← val_cells]
    change _ = (inUse (s.blocks.allocate flush.cachedPages.length).2).val
    rw [huse, val_union hdisjoint.symm]
  · by_cases hk : e = flush.state
    · subst hk
      change x ∈ ((s.place flush).files flush.state).descriptor.extents at hx
      rw [hself] at hx
      rcases List.mem_append.mp hx with hx | hx
      · exact h.live _ he x hx
      · rw [List.mem_singleton.mp hx, low_pack hlt]
        exact hpos
    · change x ∈ ((s.place flush).files e).descriptor.extents at hx
      rw [hother e hk] at hx
      exact h.live e he x hx
  · change ((s.place flush).files e).commited = true at hc
    change ((s.place flush).files e).descriptor.extents = []
    rw [hsame] at hc
    by_cases hk : e = flush.state
    · rw [hk, hopen] at hc
      cases hc
    · rw [hother e hk]
      exact h.released e he hc

theorem Apportioned.grow (h : Apportioned ⟨s, ds⟩) (hroom : s.blocks.maxIdx + growPages < 2 ^ 32) :
    Apportioned ⟨{ s with blocks := s.blocks.extend growPages }, ds⟩ where
  consistent := (extend_spec h.consistent hroom).1
  held := by
    change Volume.held ⟨s, ds⟩ = (inUse (s.blocks.extend growPages)).val
    rw [inUse_extend h.consistent hroom]
    exact h.held
  live := h.live
  commited := h.commited
  released := h.released
  taken := h.taken

theorem Apportioned.create (h : Apportioned ⟨s, ds⟩) (ho : s.Orderly) : Apportioned ⟨s.allocate, ds⟩ := by
  have hother : ∀ e ∈ s.states, s.allocate.files e = s.files e := by
    intro e he
    have hne : e ≠ s.freed.headD s.fresh := fun heq => ho.fresh_notMem (heq ▸ he)
    exact Function.update_of_ne hne _ _
  have hself : (s.allocate.files (s.freed.headD s.fresh)).descriptor.extents = [] := by
    change (Function.update s.files _ _ _).descriptor.extents = []
    rw [Function.update_self]
  have hmem : ∀ e ∈ s.allocate.states, e ∈ s.states ∨ e = s.freed.headD s.fresh :=
    fun e he => (List.mem_append.mp he).imp_right List.mem_singleton.mp
  refine ⟨h.consistent, ?_, fun e he x hx => ?_, h.commited, fun e he hc => ?_, fun flush hf => ?_⟩
  · have hold : s.states.map (fun e => (pagesOf (s.allocate.files e).descriptor.extents : Multiset Nat)) =
        s.states.map (fun e => (pagesOf (s.files e).descriptor.extents : Multiset Nat)) :=
      List.map_congr_left (fun e he => by rw [hother e he])
    change ((s.states ++ [s.freed.headD s.fresh]).map (fun e =>
      (pagesOf (s.allocate.files e).descriptor.extents : Multiset Nat))).sum + _ = _
    rw [List.map_append, List.sum_append, hold, List.map_singleton, List.sum_singleton, hself]
    exact (congrArg (· + _) (add_zero _)).trans h.held
  · rcases hmem e he with he | rfl
    · change x ∈ (s.allocate.files e).descriptor.extents at hx
      rw [hother e he] at hx
      exact h.live e he x hx
    · change x ∈ (s.allocate.files _).descriptor.extents at hx
      rw [hself] at hx
      cases hx
  · rcases hmem e he with he | rfl
    · change (s.allocate.files e).commited = true at hc
      change (s.allocate.files e).descriptor.extents = []
      rw [hother e he] at hc ⊢
      exact h.released e he hc
    · exact hself
  · obtain ⟨stage, hstage, hunplaced⟩ := List.mem_filterMap.mp hf
    have hlive := ho.live stage hstage flush.state (Stage.state_of_flush (Stage.flush_of_unplaced hunplaced))
    change _ ∧ (s.allocate.files flush.state).commited = false
    rw [hother _ hlive]
    exact h.taken flush hf

theorem Apportioned.free (h : Apportioned ⟨s, ds⟩) (he : e ∈ s.states) (hcommited : (s.files e).commited = true) :
    Apportioned ⟨s.free e, ds⟩ := by
  refine ⟨h.consistent, ?_, fun k hk => h.live k (List.mem_of_mem_erase hk), h.commited,
    fun k hk => h.released k (List.mem_of_mem_erase hk), h.taken⟩
  have hsum := ((List.perm_cons_erase he).map
    (fun k => (pagesOf (s.files k).descriptor.extents : Multiset Nat))).sum_eq
  rw [List.map_cons, List.sum_cons, h.released e he hcommited] at hsum
  change ((s.states.erase e).map (fun k => (pagesOf (s.files k).descriptor.extents : Multiset Nat))).sum + _ = _
  rw [← show ((s.states.map (fun k => (pagesOf (s.files k).descriptor.extents : Multiset Nat))).sum) = _ from
    hsum.trans (zero_add _)]
  exact h.held

theorem Apportioned.commit (h : Apportioned ⟨s, ds⟩) (ho : s.Orderly) (he : e ∈ s.states) (hu : s.Unflushed e) :
    Apportioned ⟨s.setFile e (DiskWriter.released (s.files e)), ds ++ [(s.files e).descriptor]⟩ := by
  have hself : (s.setFile e (DiskWriter.released (s.files e))).files e = DiskWriter.released (s.files e) := setFile_self ..
  have hother : ∀ k, k ≠ e → (s.setFile e (DiskWriter.released (s.files e))).files k = s.files k :=
    fun k hk => Function.update_of_ne hk _ _
  refine ⟨h.consistent, ?_, fun k hk x hx => ?_, fun d hd x hx => ?_, fun k hk hc => ?_, fun flush hf => ?_⟩
  · have hheld : Volume.held ⟨s.setFile e (DiskWriter.released (s.files e)), ds⟩ + _ = Volume.held ⟨s, ds⟩ + _ :=
      held_update (List.nodup_append.mp ho.nodup).1 he rfl (fun k hk => by rw [hother k hk])
    rw [hself, show pagesOf (DiskWriter.released (s.files e)).descriptor.extents = [] from rfl, Multiset.coe_nil, add_zero,
      h.held] at hheld
    refine Eq.trans ?_ hheld
    rw [Volume.held, Volume.held]
    simp only [List.map_append, List.sum_append, List.map_singleton, List.sum_singleton]
    exact (add_assoc _ _ _).symm
  · by_cases hke : k = e
    · subst hke
      rw [hself] at hx
      cases hx
    · rw [hother k hke] at hx
      exact h.live k hk x hx
  · rcases List.mem_append.mp hd with hd | hd
    · exact h.commited d hd x hx
    · rw [List.mem_singleton.mp hd] at hx
      exact h.live e he x hx
  · by_cases hke : k = e
    · subst hke
      rw [hself]
      rfl
    · rw [hother k hke] at hc ⊢
      exact h.released k hk hc
  · obtain ⟨stage, hstage, hunplaced⟩ := List.mem_filterMap.mp hf
    rw [hother _ (hu stage hstage flush (Stage.flush_of_unplaced hunplaced))]
    exact h.taken flush hf

theorem removeExtents_inUse {blocks blocks' : Allocator} {extents : List Nat} {rest : Multiset Nat}
    (hc : Consistent blocks) (hpos : ∀ x ∈ extents, 0 < low x)
    (huse : (pagesOf extents : Multiset Nat) + rest = (inUse blocks).val) (h : removeExtents blocks extents = .ok blocks') :
    Consistent blocks' ∧ rest = (inUse blocks').val := by
  induction extents generalizing blocks with
  | nil =>
      obtain rfl := Except.ok.inj h
      exact ⟨hc, (zero_add rest).symm.trans huse⟩
  | cons x xs ih =>
      rw [pagesOf_cons, ← Multiset.coe_add, add_assoc] at huse
      have hsub : cells (high x, low x) ⊆ inUse blocks := by
        intro p hp
        rw [← Finset.mem_val, val_cells] at hp
        rw [← Finset.mem_val, ← huse]
        exact Multiset.mem_add.mpr (.inl hp)
      have hinv := inv_free (inv_inUse hc) (hpos x (List.mem_cons_self ..)) hsub
      have hcons : Consistent (blocks.free (high x) (low x)) := hinv.consistent
      have hlive : inUse (blocks.free (high x) (low x)) = inUse blocks \ cells (high x, low x) := hinv.live_eq.symm
      rw [removeExtents] at h
      by_cases hsize : low x ≤ blocks.size
      case neg =>
        rw [check_of_not hsize] at h
        cases h
      case pos =>
        rw [check_of hsize, ok_bind] at h
        refine ih hcons (fun y hy => hpos y (List.mem_cons_of_mem _ hy)) ?_ h
        rw [hlive, Finset.sdiff_val, val_cells, ← huse, add_tsub_cancel_left]

theorem Apportioned.unlink {d : Descriptor} {blocks : Allocator} (h : Apportioned ⟨s, ds⟩) (hd : d ∈ ds)
    (hremove : removeExtents s.blocks d.extents = .ok blocks) :
    Apportioned ⟨{ s with blocks := blocks }, ds.erase d⟩ := by
  have hsum := ((List.perm_cons_erase hd).map (fun d => (pagesOf d.extents : Multiset Nat))).sum_eq
  rw [List.map_cons, List.sum_cons] at hsum
  have huse : (pagesOf d.extents : Multiset Nat) + Volume.held ⟨{ s with blocks := blocks }, ds.erase d⟩ =
      (inUse s.blocks).val := by
    rw [← show Volume.held ⟨s, ds⟩ = (inUse s.blocks).val from h.held, Volume.held, Volume.held]
    simp only [hsum]
    ac_rfl
  obtain ⟨hcons, hheld⟩ := removeExtents_inUse h.consistent (h.commited d hd) huse hremove
  exact ⟨hcons, hheld, h.live, fun c hc => h.commited c (List.mem_of_mem_erase hc), h.released, h.taken⟩

theorem Apportioned.rollBack {pool : Slabs} {blocks : Allocator} {n : Nat} (h : Apportioned ⟨s, ds⟩) (he : e ∈ s.states)
    (hremove : removeExtents s.blocks (s.files e).descriptor.extents = .ok blocks) :
    Apportioned ⟨(s.cleared pool blocks n).free e, ds⟩ := by
  have hsum := ((List.perm_cons_erase he).map
    (fun k => (pagesOf (s.files k).descriptor.extents : Multiset Nat))).sum_eq
  rw [List.map_cons, List.sum_cons] at hsum
  have huse : (pagesOf (s.files e).descriptor.extents : Multiset Nat) +
      Volume.held ⟨(s.cleared pool blocks n).free e, ds⟩ = (inUse s.blocks).val := by
    rw [← show Volume.held ⟨s, ds⟩ = (inUse s.blocks).val from h.held, Volume.held, Volume.held]
    simp only [hsum, add_assoc]
    rfl
  obtain ⟨hcons, hheld⟩ := removeExtents_inUse h.consistent (h.live e he) huse hremove
  exact ⟨hcons, hheld, fun k hk => h.live k (List.mem_of_mem_erase hk), h.commited,
    fun k hk => h.released k (List.mem_of_mem_erase hk), h.taken⟩

theorem Apportioned.disjoint (h : Apportioned ⟨s, ds⟩) {e' : Nat} (he : e ∈ s.states) (he' : e' ∈ s.states)
    (hne : e ≠ e') : Disjoint (pagesOf (s.files e).descriptor.extents : Multiset Nat)
      (pagesOf (s.files e').descriptor.extents) := by
  have hnodup : (Volume.held ⟨s, ds⟩).Nodup := h.held ▸ (inUse _).nodup
  have hsum := ((List.perm_cons_erase he).map (fun k => (pagesOf (s.files k).descriptor.extents : Multiset Nat))).sum_eq
  rw [List.map_cons, List.sum_cons] at hsum
  rw [Volume.held] at hnodup
  simp only [hsum] at hnodup
  refine (Multiset.nodup_add.mp (Multiset.nodup_add.mp hnodup).1).2.2.mono_right ?_
  exact List.le_sum_of_mem (List.mem_map_of_mem ((List.mem_erase_of_ne hne.symm).mpr he'))

theorem Apportioned.apart {d : Descriptor} (h : Apportioned ⟨s, ds⟩) (he : e ∈ s.states) (hd : d ∈ ds) :
    Disjoint (pagesOf (s.files e).descriptor.extents : Multiset Nat) (pagesOf d.extents) := by
  have hnodup : (Volume.held ⟨s, ds⟩).Nodup := h.held ▸ (inUse _).nodup
  refine ((Multiset.nodup_add.mp hnodup).2.2.mono_left ?_).mono_right ?_
  · exact List.le_sum_of_mem (List.mem_map_of_mem he)
  · exact List.le_sum_of_mem (List.mem_map_of_mem hd)

theorem Apportioned.lt (h : Apportioned ⟨s, ds⟩) {p : Nat} (hp : p ∈ Volume.held ⟨s, ds⟩) :
    p < s.blocks.maxIdx ∧ s.blocks.maxIdx < 2 ^ 32 := by
  rw [h.held] at hp
  exact ⟨Finset.mem_range.mp (Finset.mem_sdiff.mp hp).1, h.consistent.bounded⟩

theorem pagesOf_le_held (he : e ∈ s.states) :
    (pagesOf (s.files e).descriptor.extents : Multiset Nat) ≤ Volume.held ⟨s, ds⟩ :=
  (List.le_sum_of_mem (List.mem_map_of_mem (f := fun e => (pagesOf (s.files e).descriptor.extents : Multiset Nat)) he)).trans
    (Multiset.le_add_right _ _)

theorem Apportioned.nodup (h : Apportioned ⟨s, ds⟩) (he : e ∈ s.states) :
    (pagesOf (s.files e).descriptor.extents).Nodup := by
  have hnodup : (Volume.held ⟨s, ds⟩).Nodup := h.held ▸ (inUse _).nodup
  exact Multiset.coe_nodup.mp (Multiset.nodup_of_le (pagesOf_le_held he) hnodup)

theorem Apportioned.base_lt (h : Apportioned ⟨s, ds⟩) (he : e ∈ s.states) :
    (pagesOf (s.files e).descriptor.extents).length < 2 ^ 32 := by
  have hcard := Multiset.card_le_card ((show _ ≤ Volume.held ⟨s, ds⟩ from pagesOf_le_held he))
  rw [h.held, Multiset.coe_card] at hcard
  refine (hcard.trans ((Finset.card_le_card Finset.sdiff_subset).trans (Finset.card_range _).le)).trans_lt ?_
  exact h.consistent.bounded

theorem Apportioned.effect (h : Apportioned ⟨s, ds⟩) (hr : s.Regular) {a : DiskWriter.Action} (heffect : Effect s a s')
    (hroom : a = .go → ∀ t flush, s.current = some t → s.threads[t]? = some (.extend flush) →
      s.blocks.maxIdx + growPages < 2 ^ 32) : Apportioned ⟨s', ds⟩ := by
  cases heffect with
  | quiet hq => exact h.quiet hq
  | @gives _ e page cache _ _ _ _ hq =>
      have hgive : Apportioned ⟨s.give e page cache, ds⟩ := h.update rfl rfl rfl rfl rfl rfl
      exact hgive.quiet hq
  | @puts _ e data _ _ _ _ hq =>
      have hput : Apportioned ⟨s.put e data, ds⟩ := h.update rfl rfl rfl rfl rfl rfl
      exact hput.quiet hq
  | @completes _ e data _ _ _ _ hq =>
      have hput : Apportioned ⟨s.put e data, ds⟩ := h.update rfl rfl rfl rfl rfl rfl
      have hpush : Apportioned ⟨(s.put e data).pushPage e, ds⟩ := hput.update rfl rfl rfl rfl rfl rfl
      exact hpush.quiet hq
  | @marks _ e _ _ _ hq =>
      have hmark : Apportioned ⟨s.mark e, ds⟩ := h.update rfl rfl rfl rfl rfl rfl
      exact hmark.quiet hq
  | @seals _ e _ _ _ hq =>
      have hmark : Apportioned ⟨s.mark e, ds⟩ := h.update rfl rfl rfl rfl rfl rfl
      have hpush : Apportioned ⟨(s.mark e).pushPage e, ds⟩ := hmark.update rfl rfl rfl rfl rfl rfl
      exact hpush.quiet hq
  | @takes t e wait _ ht hsome =>
      have htake : Apportioned ⟨s.take e, ds⟩ := h.update rfl rfl rfl rfl rfl rfl
      refine htake.same rfl rfl (fun _ => ⟨rfl, rfl⟩) (fun flush hf => (mem_unplaced_set hf).imp_right (fun hnew => ?_))
      obtain rfl := Option.some.inj hnew
      refine ⟨hsome, ?_⟩
      have hopen : (s.files e).commited = false := by
        cases hc : (s.files e).commited with
        | false => rfl
        | true => exact absurd (hr.emptied (hr.orderly.live _ (List.mem_of_getElem? ht) e rfl) hc).2 hsome
      exact (congrArg FileWriter.commited (setFile_self ..)).trans hopen
  | places ht hpage =>
      refine (h.place hr.orderly ht hpage).same rfl rfl (fun _ => ⟨rfl, rfl⟩) (fun flush hf => ?_)
      exact (mem_unplaced_set hf).imp_right (fun hnew => by cases hnew)
  | grows hgo hcurrent ht hq => exact (h.grow (hroom hgo _ _ hcurrent ht)).quiet hq
  | @writes t diskPage flush rest ht =>
      rw [ioDone, ht]
      refine h.same rfl rfl (fun _ => ⟨rfl, rfl⟩) (fun flush hf => ?_)
      exact (mem_unplaced_set hf).imp_right (fun hnew => by cases hnew)
  | @finishes t diskPage flush waiting s₁ ht henter =>
      obtain ⟨cache, entered, rfl⟩ := enterPages_eq _ _ _ henter
      refine h.same rfl rfl (fun _ => ⟨rfl, rfl⟩) (fun flush hf => (mem_unplaced_set hf).imp_right (fun hnew => ?_))
      split at hnew <;> cases hnew
  | creates => exact h.create hr.orderly
  | frees he hcommited => exact h.free he hcommited
  | rollsBack he _ hblocks => exact h.rollBack he hblocks

end Tyrdbs.Storage.Volume
