import Tyrdbs.Storage.FlushTurns

namespace Tyrdbs.Storage.DiskWriter

open Outcome

variable {s s' : DiskWriter} {t e : Nat} {stage stage' : Stage} {flush : Flush}

theorem Placed.moved (h : s.Placed) (hm : Moved s t stage s') (htu : s.Turns) (hcurrent : s.current = some t)
    (ht : s.threads[t]? = some stage) : s'.Placed := by
  cases hm with
  | stalled hfills hpage hfull =>
      refine h.startGlobalFlush.move (startGlobalFlush_threads ht) ?_ rfl rfl
      exact places_park ((startGlobalFlush_current s).trans hcurrent) rfl rfl rfl (.inl ⟨rfl, rfl⟩)
  | given => exact h.move ht rfl rfl rfl
  | written => exact h.move ht rfl rfl rfl
  | completed => exact h.move ht (places_yield hcurrent rfl rfl rfl rfl rfl) rfl rfl
  | begun => exact h.move ht rfl rfl rfl
  | waits hw =>
      refine h.move ht ?_ rfl rfl
      simp only [places, suspend, setStage, hcurrent, Table.values_put, Table.values_of_find hw, Multiset.map_cons,
        Multiset.sum_cons, ← Multiset.coe_add, Option.toList_some, Option.toList_none, Multiset.coe_nil, zero_add]
      ac_rfl
  | enters => exact h.move ht rfl rfl rfl
  | @none e wait _ => cases wait <;> exact h.move ht rfl rfl rfl
  | @taken e wait _ =>
      refine h.move ht ?_ rfl rfl
      have hfree := htu.latch_free h hcurrent ht
      rw [cacheId] at hfree
      have hvalues : (s.take e).latch.values = [] ::ₘ s.latch.values := by
        rw [take]
        dsimp only
        rw [hfree, Table.values_put_of_none hfree]
        rfl
      change places (s.take e) = _
      simp only [places, hvalues, Multiset.map_cons, Multiset.sum_cons, Multiset.coe_nil, zero_add]
      rfl
  | placed => exact h.move ht rfl rfl rfl
  | joined => exact h.move ht (places_park hcurrent rfl rfl rfl (.inr ⟨rfl, rfl⟩)) rfl rfl
  | allocating => exact h.sleep (places_sleep hcurrent rfl rfl rfl rfl rfl) rfl
  | extending => exact h.move ht rfl rfl rfl
  | extended =>
      refine h.move ht ?_ rfl rfl
      simp only [places, extendBlocks, setStage, enqueue, ← Multiset.coe_add, Multiset.coe_nil, add_zero]
      ac_rfl
  | writes => exact h.sleep (places_sleep hcurrent rfl rfl rfl rfl rfl) rfl
  | @finished flush diskPage waiting s₁ henter hdirty hw =>
      obtain ⟨cache, entered, rfl⟩ := enterPages_eq _ _ _ henter
      have hcond := (htu.flying _ (List.mem_of_getElem? ht) flush rfl).1
      refine h.move ht (places_finish hw rfl ?_ rfl rfl rfl)
        (show _ = s.threads.set t (s.after flush.state flush.wait) from rfl) ?_
      · change ((s.latch.put flush.cond []).erase (s.cacheId flush.state)).values = _
        rw [← hcond]
        exact congrArg Table.values Table.erase_put
      · rw [after]
        split <;> rfl
  | started => exact h.move ht rfl rfl rfl
  | swept => exact h.sleep (places_sleep hcurrent rfl rfl rfl rfl rfl) rfl
  | passed => exact h.move ht rfl rfl rfl
  | picked => exact h.move ht rfl rfl rfl

structure Steady (s s' : DiskWriter) : Prop where
  states : s'.states = s.states
  ids : ∀ e, s'.cacheId e = s.cacheId e
  latch : s'.latch = s.latch
  next : s'.nextCacheId = s.nextCacheId
  active : s'.globalFlushActive = s.globalFlushActive
  queue : s.runQueue <+: s'.runQueue
  current : s'.current = s.current ∨ s'.current = none

theorem cacheId_of_update {f : FileWriter} (hfiles : s'.files = Function.update s.files e f)
    (h : f.descriptor.cacheId = s.cacheId e) (k : Nat) : s'.cacheId k = s.cacheId k := by
  rw [cacheId, hfiles]
  by_cases hk : k = e
  · rw [hk, Function.update_self, h]
  · rw [Function.update_of_ne hk]
    rfl

theorem cacheId_give (s : DiskWriter) (e page : Nat) (cache : PageCache) (k : Nat) :
    (s.give e page cache).cacheId k = s.cacheId k :=
  cacheId_of_update (e := e) (f := { s.files e with memPage := page }) rfl rfl k

theorem cacheId_put (s : DiskWriter) (e : Nat) (data : List Byte) (k : Nat) : (s.put e data).cacheId k = s.cacheId k :=
  cacheId_of_update (e := e) rfl (by rfl) k

theorem cacheId_pushPage (s : DiskWriter) (e k : Nat) : (s.pushPage e).cacheId k = s.cacheId k :=
  cacheId_of_update (e := e) rfl (by rfl) k

theorem cacheId_place (s : DiskWriter) (flush : Flush) (k : Nat) : (s.place flush).cacheId k = s.cacheId k :=
  cacheId_of_update (e := flush.state) (f := s.extended flush) rfl rfl k

theorem cacheId_mark (s : DiskWriter) (e k : Nat) : (s.mark e).cacheId k = s.cacheId k :=
  cacheId_of_update (e := e) rfl (by rfl) k

section Moves

variable (h : s.Turns) (hp : s.Placed) (hcurrent : s.current = some t) (ht : s.threads[t]? = some stage)
include h hp hcurrent ht

theorem Turns.goOn (hs : Steady s s') (hthreads : s'.threads = s.threads.set t stage')
    (hglobal : stage'.global = false) (hflush : stage'.flush? = none) (hcalm : ∀ e, stage' ≠ .flushPages e true) :
    s'.Turns := by
  have hclear : ∀ e, stage' ≠ .flushPages e false := by
    rintro e rfl
    cases hglobal
  refine h.move ht ⟨⟨hthreads, hs.states, hs.ids, hs.queue, ?_, fun hg => ?_, fun e _ hg => ?_⟩, hs.latch, hs.next,
    hs.active, fun flush hf => ?_, fun e he => absurd he (hcalm e), fun e he => absurd he (hclear e),
    fun id waiting hw => hp.notMem_latched (.inl hcurrent) hw⟩
  · exact hs.current.imp_right (fun hnone => ⟨hcurrent, hnone⟩)
  · rw [hglobal] at hg
    cases hg
  · rw [hglobal] at hg
    cases hg
  · rw [hflush] at hf
    cases hf

theorem Turns.goOnFlushing (hs : Steady s s') (hthreads : s'.threads = s.threads.set t stage')
    (hflush : stage.flush? = some flush) (hflush' : stage'.flush? = some flush) : s'.Turns := by
  have hpages : ∀ e wait, stage' ≠ .flushPages e wait := by
    rintro e wait rfl
    cases hflush'
  refine h.move ht ⟨⟨hthreads, hs.states, hs.ids, hs.queue, ?_, fun hg => ?_, fun e hpast _ => ⟨?_, fun e' he' => ?_⟩⟩,
    hs.latch, hs.next, hs.active, fun call hf => hflush.trans (hflush'.symm.trans hf),
    fun e he => absurd he (hpages e true), fun e he => absurd he (hpages e false),
    fun id waiting hw => hp.notMem_latched (.inl hcurrent) hw⟩
  · exact hs.current.imp_right (fun hnone => ⟨hcurrent, hnone⟩)
  · refine Stage.global_of_flush hflush ?_
    cases hwait : flush.wait with
    | false => rfl
    | true =>
        cases stage' <;> cases hflush' <;> simp [Stage.global, Stage.flush?, hwait] at hg
  · rintro rfl
    cases hflush'
  · rw [Stage.state_of_flush hflush'] at he'
    exact hpast.2 e' ((Stage.state_of_flush hflush).trans he')

theorem Turns.goForward (hs : Steady s s') (hthreads : s'.threads = s.threads.set t stage')
    (hglobal : stage.global = true) (hflush : stage'.flush? = none) (hcalm : ∀ e, stage' ≠ .flushPages e true)
    (hclear : ∀ e, stage' = .flushPages e false → s.latch.find (s.cacheId e) = none)
    (hpast : ∀ e, (stage ≠ .flushThread ∧ ∀ e', stage.state = some e' → s.states.idxOf e < s.states.idxOf e') →
      stage' ≠ .flushThread ∧ ∀ e', stage'.state = some e' → s.states.idxOf e < s.states.idxOf e') : s'.Turns := by
  refine h.move ht ⟨⟨hthreads, hs.states, hs.ids, hs.queue, ?_, fun _ => hglobal, fun e he _ => hpast e he⟩,
    hs.latch, hs.next, hs.active, fun call hf => ?_, fun e he => absurd he (hcalm e), hclear,
    fun id waiting hw => hp.notMem_latched (.inl hcurrent) hw⟩
  · exact hs.current.imp_right (fun hnone => ⟨hcurrent, hnone⟩)
  · rw [hflush] at hf
    cases hf

end Moves

theorem Turns.startGlobalFlush (h : s.Turns) (hp : s.Placed) : s.startGlobalFlush.Turns := by
  rw [DiskWriter.startGlobalFlush]
  split
  · exact h
  case isFalse hactive =>
    have hcreate := h.createThread .flushThread hp rfl (fun _ _ => by simp) (fun _ => by simpa using hactive)
    exact hcreate.same rfl rfl (fun _ => rfl) rfl rfl (by simp [Stage.global, DiskWriter.createThread]) rfl rfl

theorem Turns.moved (h : s.Turns) (ho : s.Orderly) (hp : s.Placed) (hm : Moved s t stage s')
    (hcurrent : s.current = some t) (ht : s.threads[t]? = some stage) : s'.Turns := by
  have hplaced := hp.moved hm h hcurrent ht
  cases hm with
  | @stalled e data hfills hpage hfull =>
      have ht' := startGlobalFlush_threads ht
      refine Turns.goOn (h.startGlobalFlush hp) hp.startGlobalFlush ((startGlobalFlush_current s).trans hcurrent) ht'
        ⟨rfl, fun _ => rfl, rfl, rfl, rfl, List.prefix_refl _, .inr rfl⟩ rfl rfl rfl (fun _ => by simp)
  | given =>
      refine h.goOn hp hcurrent ht ⟨rfl, fun k => cacheId_give _ _ _ _ k, rfl, rfl, rfl, List.prefix_refl _, .inl rfl⟩ rfl rfl rfl
        (fun _ => by simp)
  | written =>
      exact h.goOn hp hcurrent ht ⟨rfl, fun _ => rfl, rfl, rfl, rfl, List.prefix_refl _, .inl rfl⟩ rfl rfl rfl
        (fun _ => by simp)
  | completed =>
      exact h.goOn hp hcurrent ht ⟨rfl, fun k => (cacheId_pushPage _ _ k).trans (cacheId_put ..), rfl, rfl, rfl,
        List.prefix_append _ _, .inr rfl⟩ rfl rfl rfl (fun _ => by simp)
  | begun =>
      exact h.goOn hp hcurrent ht ⟨rfl, fun k => cacheId_put _ _ _ k, rfl, rfl, rfl, List.prefix_refl _, .inl rfl⟩ rfl rfl rfl
        (fun _ => by simp)
  | waits hw => exact h.waits hcurrent ht hw
  | enters hfree =>
      refine h.move ht ⟨⟨rfl, rfl, fun _ => rfl, List.prefix_refl _, .inl rfl, fun hg => absurd hg (by simp [Stage.global]),
        fun _ _ hg => absurd hg (by simp [Stage.global])⟩, rfl, rfl, rfl, fun _ hf => absurd hf (by simp [Stage.flush?]),
        fun e' he' => ?_, fun e' he' => absurd he' (by simp), fun id waiting hw => hp.notMem_latched (.inl hcurrent) hw⟩
      obtain ⟨rfl, -⟩ := Stage.flushPages.inj he'
      exact ⟨hfree, hcurrent⟩
  | @none e wait _ =>
      have hs : Steady s (s.returned t e wait) :=
        ⟨rfl, fun _ => rfl, rfl, rfl, rfl, List.prefix_refl _, .inl rfl⟩
      cases wait with
      | true => exact h.goOn hp hcurrent ht hs rfl rfl rfl (fun _ => by simp)
      | false =>
          refine h.goForward hp hcurrent ht hs rfl rfl rfl (fun _ => by simp) (fun _ he => absurd he (by simp))
            (fun e' hpast => ⟨by simp, fun k hk => ?_⟩)
          exact (hpast.2 e rfl).trans (idxOf_next ho (ho.live _ (List.mem_of_getElem? ht) e rfl) hk)
  | taken => exact h.taken ho hp hcurrent ht
  | placed =>
      exact h.goOnFlushing hp hcurrent ht ⟨rfl, fun k => cacheId_place _ _ k, rfl, rfl, rfl, List.prefix_refl _, .inl rfl⟩ rfl rfl rfl
  | joined =>
      exact h.goOnFlushing hp hcurrent ht ⟨rfl, fun _ => rfl, rfl, rfl, rfl, List.prefix_refl _, .inr rfl⟩ rfl rfl rfl
  | allocating =>
      exact h.goOnFlushing hp hcurrent ht ⟨rfl, fun _ => rfl, rfl, rfl, rfl, List.prefix_refl _, .inr rfl⟩ rfl rfl rfl
  | extending =>
      exact h.goOnFlushing hp hcurrent ht ⟨rfl, fun _ => rfl, rfl, rfl, rfl, List.prefix_refl _, .inl rfl⟩ rfl rfl rfl
  | extended =>
      exact h.goOnFlushing hp hcurrent ht ⟨rfl, fun _ => rfl, rfl, rfl, rfl, List.prefix_append _ _, .inl rfl⟩ rfl rfl rfl
  | writes =>
      exact h.goOnFlushing hp hcurrent ht ⟨rfl, fun _ => rfl, rfl, rfl, rfl, List.prefix_refl _, .inr rfl⟩ rfl rfl rfl
  | @finished flush diskPage waiting s₁ henter hdirty hw =>
      obtain ⟨cache, entered, rfl⟩ := enterPages_eq _ _ _ henter
      have hcond := (h.flying _ (List.mem_of_getElem? ht) flush rfl).1
      refine h.finish ho hplaced hcurrent ht rfl hw ⟨rfl, rfl, fun _ => rfl, rfl, rfl, rfl, fun id => ?_, ?_, ?_⟩
      · change ((s.latch.put flush.cond []).erase (s.cacheId flush.state)).find id = _
        rw [← hcond, Table.find_erase, Table.find_put]
        split <;> rfl
      · exact ⟨s.dirtyPagesCond ++ waiting, (List.append_assoc ..).symm⟩
      · exact List.subset_append_right _ _
  | started =>
      refine h.goForward hp hcurrent ht ⟨rfl, fun _ => rfl, rfl, rfl, rfl, List.prefix_refl _, .inl rfl⟩ rfl rfl rfl
        (fun _ => by simp) (fun _ he => absurd he (by simp)) (fun e' hpast => absurd rfl hpast.1)
  | swept =>
      have hgone : (s.suspend t .ended).Turns :=
        h.goOn hp hcurrent ht ⟨rfl, fun _ => rfl, rfl, rfl, rfl, List.prefix_refl _, .inr rfl⟩ rfl rfl rfl
          (fun _ => by simp)
      refine hgone.deactivate (fun x hx => ?_)
      obtain ⟨k, hk⟩ := List.getElem?_of_mem hx
      rcases get_of_set ht hk with ⟨-, rfl⟩ | ⟨hkt, hold⟩
      · rfl
      · by_contra hg
        exact hkt (h.sole k t x _ hold ht (by simpa using hg) rfl)
  | @passed e waiting hw =>
      refine h.goForward hp hcurrent ht ⟨rfl, fun _ => rfl, rfl, rfl, rfl, List.prefix_refl _, .inl rfl⟩ rfl rfl rfl
        (fun _ => by simp) (fun _ he => absurd he (by simp)) (fun e' hpast => ⟨by simp, fun k hk => ?_⟩)
      exact (hpast.2 e rfl).trans (idxOf_next ho (ho.live _ (List.mem_of_getElem? ht) e rfl) hk)
  | @picked e hfree =>
      refine h.goForward hp hcurrent ht ⟨rfl, fun _ => rfl, rfl, rfl, rfl, List.prefix_refl _, .inl rfl⟩ rfl rfl rfl
        (fun _ => by simp) (fun e' he' => ?_) (fun e' hpast => ⟨by simp, fun k hk => hpast.2 k hk⟩)
      obtain ⟨rfl, -⟩ := Stage.flushPages.inj he'
      exact hfree

/-- A file that is being flushed is not filled, and one that was flushed has no
pages left. -/
structure Settled (s : DiskWriter) : Prop where
  filling : ∀ x ∈ s.threads, ∀ e, x.fills = some e → (s.files e).flushed = false
  flushing : ∀ x ∈ s.threads, ∀ e, x.flushes = some e → (s.files e).flushed = true
  pageless : ∀ e ∈ s.states, (s.files e).flushed = true → (s.files e).memPage = invalidHandle
  own : ∀ x ∈ s.threads, ∀ flush, x.flush? = some flush → flush.wait = true →
    (s.files flush.state).cachedPages = []
  done : ∀ e ∈ s.states, (s.files e).flushed = true → (∀ x ∈ s.threads, x.operand ≠ some e) →
    (s.files e).cachedPages = [] ∧ s.Unflushed e

/-- How a context may go on, as far as what is left of files goes. -/
structure Tidy (s s' : DiskWriter) (t : Nat) (stage stage' : Stage) : Prop where
  threads : s'.threads = s.threads.set t stage'
  states : s'.states = s.states
  flushed : ∀ e, (s'.files e).flushed = (s.files e).flushed
  page : ∀ e, (s.files e).flushed = true → (s'.files e).memPage = (s.files e).memPage
  cached : ∀ e, (s.files e).flushed = true →
    (s'.files e).cachedPages = (s.files e).cachedPages ∨ (s'.files e).cachedPages = []
  fills : ∀ e, stage'.fills = some e → (s.files e).flushed = false
  flushes : ∀ e, stage'.flushes = some e → stage.flushes = some e
  own : ∀ flush, stage'.flush? = some flush → flush.wait = true → (s'.files flush.state).cachedPages = []
  flush : ∀ flush, stage'.flush? = some flush →
    stage.flush? = some flush ∨ (s.files flush.state).cachedPages ≠ []
  leave : ∀ e, stage.operand = some e → stage'.operand = some e ∨ (s.files e).flushed = false ∨
    (s'.files e).cachedPages = [] ∧ s'.Unflushed e

theorem flushes_of_flush (h : stage.flush? = some flush) (hwait : flush.wait = true) :
    stage.flushes = some flush.state := by
  cases stage <;> cases h <;> simp [Stage.flushes, Stage.flush?, hwait]

theorem Settled.move (h : s.Settled) (ht : s.threads[t]? = some stage) (hm : Tidy s s' t stage stage') : s'.Settled := by
  have hmem : ∀ {x}, x ∈ s'.threads → x ∈ s.threads ∨ x = stage' := by
    intro x hx
    rw [hm.threads] at hx
    exact List.mem_or_eq_of_mem_set hx
  have hstage := List.mem_of_getElem? ht
  have hkept : ∀ e, (s.files e).flushed = true → (s.files e).cachedPages = [] → (s'.files e).cachedPages = [] :=
    fun e hf hc => (hm.cached e hf).elim (fun hsame => hsame.trans hc) id
  refine ⟨fun x hx e he => ?_, fun x hx e he => ?_, fun e he hf => ?_, fun x hx flush hf hwait => ?_,
    fun e he hf hidle => ?_⟩
  · rw [hm.flushed]
    rcases hmem hx with hx | rfl
    · exact h.filling x hx e he
    · exact hm.fills e he
  · rw [hm.flushed]
    rcases hmem hx with hx | rfl
    · exact h.flushing x hx e he
    · exact h.flushing stage hstage e (hm.flushes e he)
  · rw [hm.flushed] at hf
    exact (hm.page e hf).trans (h.pageless e (hm.states ▸ he) hf)
  · rcases hmem hx with hx | rfl
    · exact hkept _ (h.flushing x hx _ (flushes_of_flush hf hwait)) (h.own x hx flush hf hwait)
    · exact hm.own flush hf hwait
  · rw [hm.flushed] at hf
    by_cases hoperand : stage.operand = some e
    · rcases hm.leave e hoperand with hstay | hunflushed | hdone
      · refine absurd hstay (hidle stage' ?_)
        rw [hm.threads]
        exact List.mem_of_getElem? (List.getElem?_set_self (List.getElem?_eq_some_iff.mp ht).1)
      · rw [hf] at hunflushed
        cases hunflushed
      · exact hdone
    · obtain ⟨hcached, hun⟩ := h.done e (hm.states ▸ he) hf (fun x hx hxe => by
        obtain ⟨k, hk⟩ := List.getElem?_of_mem hx
        by_cases hkt : k = t
        · subst hkt
          rw [ht] at hk
          exact hoperand (Option.some.inj hk ▸ hxe)
        · refine hidle x ?_ hxe
          rw [hm.threads]
          exact List.mem_of_getElem? ((List.getElem?_set_ne (Ne.symm hkt)).trans hk))
      refine ⟨hkept e hf hcached, fun x hx flush hxf heq => ?_⟩
      rcases hmem hx with hx | rfl
      · exact hun x hx flush hxf heq
      · rcases hm.flush flush hxf with hold | hne
        · exact hun stage hstage flush hold heq
        · exact hne (heq ▸ hcached)

theorem tidy_stage (hthreads : s'.threads = s.threads.set t stage') (hstates : s'.states = s.states)
    (hfiles : ∀ e, (s'.files e).flushed = (s.files e).flushed ∧ (s'.files e).memPage = (s.files e).memPage ∧
      (s'.files e).cachedPages = (s.files e).cachedPages)
    (hfills : ∀ e, stage'.fills = some e → (s.files e).flushed = false)
    (hflushes : ∀ e, stage'.flushes = some e → stage.flushes = some e)
    (hown : ∀ flush, stage'.flush? = some flush → flush.wait = true → (s.files flush.state).cachedPages = [])
    (hflush : ∀ flush, stage'.flush? = some flush → stage.flush? = some flush)
    (hleave : ∀ e, stage.operand = some e → stage'.operand = some e ∨ (s.files e).flushed = false ∨
      (s.files e).cachedPages = [] ∧ s'.Unflushed e) : Tidy s s' t stage stage' := by
  refine ⟨hthreads, hstates, fun e => (hfiles e).1, fun e _ => (hfiles e).2.1, fun e _ => .inl (hfiles e).2.2, hfills,
    hflushes, fun flush hf hwait => ?_, fun flush hf => .inl (hflush flush hf), fun e he => ?_⟩
  · rw [(hfiles _).2.2]
    exact hown flush hf hwait
  · rw [(hfiles e).2.2]
    exact hleave e he

theorem files_of_unflushed {f : FileWriter} (hfiles : s'.files = Function.update s.files e f)
    (hopen : (s.files e).flushed = false) (hf : f.flushed = (s.files e).flushed) :
    (∀ k, (s'.files k).flushed = (s.files k).flushed) ∧
      ∀ k, (s.files k).flushed = true → s'.files k = s.files k := by
  rw [hfiles]
  refine ⟨fun k => ?_, fun k hk => Function.update_of_ne (fun heq => ?_) _ _⟩
  · by_cases hke : k = e
    · rw [hke, Function.update_self, hf]
    · rw [Function.update_of_ne hke]
  · rw [heq, hopen] at hk
    cases hk

variable (stage) in
theorem Settled.createThread (h : s.Settled) (hfiles : s'.files = s.files) (hstates : s'.states = s.states)
    (hthreads : s'.threads = s.threads ++ [stage]) (hstate : stage.state = none) : s'.Settled := by
  have hoperand : ∀ e, stage.operand ≠ some e := by
    intro e he
    rw [Stage.state_of_operand he] at hstate
    cases hstate
  have hflush : ∀ flush, stage.flush? ≠ some flush := by
    intro flush hf
    rw [Stage.state_of_flush hf] at hstate
    cases hstate
  have hmem : ∀ {x}, x ∈ s'.threads → x ∈ s.threads ∨ x = stage := by
    intro x hx
    rw [hthreads] at hx
    exact (List.mem_append.mp hx).imp_right List.mem_singleton.mp
  refine ⟨fun x hx e he => ?_, fun x hx e he => ?_, fun e he hf => ?_, fun x hx flush hf hwait => ?_,
    fun e he hf hidle => ?_⟩
  · rw [hfiles]
    exact (hmem hx).elim (fun hx => h.filling x hx e he)
      (fun heq => absurd (Stage.operand_of_fills (heq ▸ he)) (hoperand e))
  · rw [hfiles]
    exact (hmem hx).elim (fun hx => h.flushing x hx e he)
      (fun heq => absurd (Stage.operand_of_flushes (heq ▸ he)) (hoperand e))
  · rw [hfiles] at hf ⊢
    exact h.pageless e (hstates ▸ he) hf
  · rw [hfiles]
    exact (hmem hx).elim (fun hx => h.own x hx flush hf hwait) (fun heq => absurd (heq ▸ hf) (hflush flush))
  · rw [hfiles] at hf ⊢
    obtain ⟨hcached, hun⟩ := h.done e (hstates ▸ he) hf (fun x hx => hidle x (hthreads ▸ List.mem_append_left _ hx))
    refine ⟨hcached, fun x hx flush hxf => ?_⟩
    exact (hmem hx).elim (fun hx => hun x hx flush hxf) (fun heq => absurd (heq ▸ hxf) (hflush flush))

theorem Settled.same (h : s.Settled) (hfiles : ∀ e, (s'.files e).flushed = (s.files e).flushed ∧
      (s'.files e).memPage = (s.files e).memPage ∧ (s'.files e).cachedPages = (s.files e).cachedPages)
    (hstates : ∀ e ∈ s'.states, e ∈ s.states) (hthreads : s'.threads = s.threads) : s'.Settled := by
  refine ⟨fun x hx e he => ?_, fun x hx e he => ?_, fun e he hf => ?_, fun x hx flush hf hwait => ?_,
    fun e he hf hidle => ?_⟩
  · rw [(hfiles e).1]
    exact h.filling x (hthreads ▸ hx) e he
  · rw [(hfiles e).1]
    exact h.flushing x (hthreads ▸ hx) e he
  · rw [(hfiles e).1] at hf
    exact (hfiles e).2.1.trans (h.pageless e (hstates e he) hf)
  · rw [(hfiles _).2.2]
    exact h.own x (hthreads ▸ hx) flush hf hwait
  · rw [(hfiles e).1] at hf
    rw [(hfiles e).2.2]
    rw [hthreads] at hidle
    obtain ⟨hcached, hun⟩ := h.done e (hstates e he) hf hidle
    exact ⟨hcached, fun x hx => hun x (hthreads ▸ hx)⟩

theorem Settled.startGlobalFlush (h : s.Settled) : s.startGlobalFlush.Settled := by
  rw [DiskWriter.startGlobalFlush]
  split
  · exact h
  · exact h.createThread .flushThread rfl rfl rfl rfl

theorem put_files (s : DiskWriter) (e : Nat) (data : List Byte) :
    (s.put e data).files = Function.update s.files e ((s.put e data).files e) := by
  rw [put_self]
  rfl

theorem put_pushPage_files (s : DiskWriter) (e : Nat) (data : List Byte) :
    ((s.put e data).pushPage e).files =
      Function.update s.files e { (s.put e data).files e with
        cachedPages := ((s.put e data).files e).cachedPages ++ [((s.put e data).files e).memPage]
        memPage := invalidHandle
        bufferOffset := 0 } := by
  change Function.update (s.put e data).files e _ = _
  rw [put_files, Function.update_idem, Function.update_self]

section Moves

variable (h : s.Settled) (ht : s.threads[t]? = some stage)
include h ht

theorem Settled.fill {f : FileWriter} {data : List Byte} (hfills : stage.fills = some e)
    (hthreads : s'.threads = s.threads.set t (.write e data)) (hstates : s'.states = s.states)
    (hfiles : s'.files = Function.update s.files e f) (hf : f.flushed = (s.files e).flushed) : s'.Settled := by
  have hopen := h.filling stage (List.mem_of_getElem? ht) e hfills
  obtain ⟨hflushed, hsame⟩ := files_of_unflushed hfiles hopen hf
  refine h.move ht ⟨hthreads, hstates, hflushed, fun k hk => congrArg FileWriter.memPage (hsame k hk),
    fun k hk => .inl (congrArg FileWriter.cachedPages (hsame k hk)),
    fun k hk => h.filling stage (List.mem_of_getElem? ht) k (hfills.trans hk),
    fun k hk => absurd hk (by simp [Stage.flushes, Stage.flush?]), fun call hc => absurd hc (by simp [Stage.flush?]),
    fun call hc => absurd hc (by simp [Stage.flush?]), fun k hk => .inl ?_⟩
  rw [Stage.operand_of_fills hfills] at hk
  exact hk

/-- A context goes on with the flush of its own file, or the flush thread with
that of any. -/
theorem Settled.goOnFlushing (hflush : stage.flush? = some flush) (hflush' : stage'.flush? = some flush)
    (hthreads : s'.threads = s.threads.set t stage') (hstates : s'.states = s.states)
    (hfiles : ∀ e, (s'.files e).flushed = (s.files e).flushed ∧ (s'.files e).memPage = (s.files e).memPage ∧
      (s'.files e).cachedPages = (s.files e).cachedPages) : s'.Settled := by
  have hsame : ∀ {x : Stage}, x.flush? = some flush → x.fills = none ∧
      x.flushes = (if flush.wait then some flush.state else none) ∧
      x.operand = if flush.wait then some flush.state else none := by
    intro x hx
    cases x <;> cases hx <;> exact ⟨rfl, rfl, rfl⟩
  obtain ⟨hfills, hflushes, hoperand⟩ := hsame hflush
  obtain ⟨hfills', hflushes', hoperand'⟩ := hsame hflush'
  refine h.move ht (tidy_stage hthreads hstates hfiles (fun e he => ?_) (fun e he => ?_) (fun call hc hwait => ?_)
    (fun call hc => hflush.trans (hflush'.symm.trans hc)) (fun e he => .inl ?_))
  · rw [hfills'] at he
    cases he
  · rw [hflushes, ← hflushes', he]
  · refine h.own stage (List.mem_of_getElem? ht) call ?_ hwait
    exact hflush.trans (hflush'.symm.trans hc)
  · rw [hoperand', ← hoperand, he]

theorem Settled.goOn (hthreads : s'.threads = s.threads.set t stage') (hstates : s'.states = s.states)
    (hfiles : s'.files = s.files) (hoperand : ∀ e, stage'.operand ≠ some e) (hflush : stage'.flush? = none)
    (hleave : ∀ e, stage.operand = some e → (s.files e).flushed = false ∨
      (s.files e).cachedPages = [] ∧ s'.Unflushed e) : s'.Settled := by
  refine h.move ht (tidy_stage hthreads hstates (fun e => hfiles ▸ ⟨rfl, rfl, rfl⟩)
    (fun e he => absurd (Stage.operand_of_fills he) (hoperand e))
    (fun e he => absurd (Stage.operand_of_flushes he) (hoperand e)) (fun call hc => ?_) (fun call hc => ?_)
    (fun e he => .inr (hleave e he)))
  · rw [hflush] at hc
    cases hc
  · rw [hflush] at hc
    cases hc

end Moves

theorem unflushed_of_goOn (ht : s.threads[t]? = some stage) (hthreads : s'.threads = s.threads.set t stage')
    (hflush : stage'.flush? = none)
    (hothers : ∀ (k : Nat) (x : Stage), k ≠ t → s.threads[k]? = some x → ∀ flush, x.flush? = some flush →
      flush.state ≠ e) : s'.Unflushed e := by
  intro x hx flush hf
  obtain ⟨k, hk⟩ := List.getElem?_of_mem hx
  rw [hthreads] at hk
  rcases get_of_set ht hk with ⟨-, rfl⟩ | ⟨hkt, hold⟩
  · rw [hflush] at hf
    cases hf
  · exact hothers k x hkt hold flush hf

theorem put_flushed (s : DiskWriter) (e : Nat) (data : List Byte) :
    ((s.put e data).files e).flushed = (s.files e).flushed := by
  rw [put_self]

theorem take_files (s : DiskWriter) (e k : Nat) :
    ((s.take e).files k).flushed = (s.files k).flushed ∧ ((s.take e).files k).memPage = (s.files k).memPage ∧
      ((s.take e).files k).cachedPages = if k = e then [] else (s.files k).cachedPages := by
  by_cases hk : k = e
  · subst hk
    have hself : (s.take k).files k = { s.files k with cachedPages := [] } := Function.update_self ..
    rw [hself, if_pos rfl]
    exact ⟨rfl, rfl, rfl⟩
  · have hother : (s.take e).files k = s.files k := Function.update_of_ne hk _ _
    rw [hother, if_neg hk]
    exact ⟨rfl, rfl, rfl⟩

theorem place_files (s : DiskWriter) (flush : Flush) (k : Nat) :
    ((s.place flush).files k).flushed = (s.files k).flushed ∧
      ((s.place flush).files k).memPage = (s.files k).memPage ∧
      ((s.place flush).files k).cachedPages = (s.files k).cachedPages := by
  by_cases hk : k = flush.state
  · subst hk
    have hself : (s.place flush).files flush.state = s.extended flush := Function.update_self ..
    rw [hself]
    exact ⟨rfl, rfl, rfl⟩
  · have hother : (s.place flush).files k = s.files k := Function.update_of_ne hk _ _
    rw [hother]
    exact ⟨rfl, rfl, rfl⟩

theorem Settled.moved (h : s.Settled) (htu : s.Turns) (hp : s.Placed) (hm : Moved s t stage s')
    (hcurrent : s.current = some t) (ht : s.threads[t]? = some stage) : s'.Settled := by
  have hstage := List.mem_of_getElem? ht
  have hafter : ∀ e wait, (s.after e wait).flush? = none ∧ ∀ k, (s.after e wait).operand ≠ some k := by
    intro e wait
    rw [after]
    split <;> exact ⟨rfl, fun _ => by simp [Stage.operand, Stage.flush?]⟩
  cases hm with
  | @stalled _ e data hfills hpage hfull =>
      refine h.startGlobalFlush.move (startGlobalFlush_threads ht) (tidy_stage rfl rfl (fun _ => ⟨rfl, rfl, rfl⟩)
        (fun k hk => h.startGlobalFlush.filling stage (List.mem_of_getElem? (startGlobalFlush_threads ht)) k (hfills.trans hk))
        (fun k hk => absurd hk (by simp [Stage.flushes, Stage.flush?]))
        (fun call hc => absurd hc (by simp [Stage.flush?])) (fun call hc => absurd hc (by simp [Stage.flush?]))
        (fun k hk => .inl ?_))
      rw [Stage.operand_of_fills hfills] at hk
      exact hk
  | @given _ e page data cache hfills hpage hroom hallocate =>
      exact h.fill ht hfills rfl rfl (f := { s.files e with memPage := page }) rfl rfl
  | @written e =>
      refine h.goOn ht rfl rfl rfl (fun _ => by simp [Stage.operand, Stage.flush?]) rfl (fun k hk => .inl ?_)
      exact h.filling _ hstage k hk
  | @completed e data hpage hfull =>
      exact h.fill ht rfl rfl rfl (put_pushPage_files ..) (put_flushed ..)
  | @begun e data hpage hfull => exact h.fill ht rfl rfl rfl (put_files ..) (put_flushed ..)
  | waits hw =>
      exact h.move ht (tidy_stage rfl rfl (fun _ => ⟨rfl, rfl, rfl⟩) (fun _ he => absurd he (by simp [Stage.fills]))
        (fun _ he => he) (fun _ hf => absurd hf (by simp [Stage.flush?])) (fun _ hf => absurd hf (by simp [Stage.flush?]))
        (fun _ he => .inl he))
  | enters hfree =>
      exact h.move ht (tidy_stage rfl rfl (fun _ => ⟨rfl, rfl, rfl⟩) (fun _ he => absurd he (by simp [Stage.fills]))
        (fun _ he => he) (fun _ hf => absurd hf (by simp [Stage.flush?])) (fun _ hf => absurd hf (by simp [Stage.flush?]))
        (fun _ he => .inl he))
  | @none e wait hnone =>
      obtain ⟨hno, hidle⟩ := hafter e wait
      refine h.goOn ht (show _ = s.threads.set t (s.after e wait) from rfl) rfl rfl hidle hno (fun k hk => .inr ?_)
      cases wait with
      | false => cases hk
      | true =>
          obtain rfl := Option.some.inj hk
          have hun := htu.unflushed (htu.latch_free hp hcurrent ht)
          exact ⟨hnone, unflushed_of_goOn ht rfl hno (fun j x _ hj => hun x (List.mem_of_getElem? hj))⟩
  | @taken e wait hsome =>
      have hoperand : (Stage.allocate (s.taking e wait)).operand = (Stage.flushPages e wait).operand := by
        cases wait <;> rfl
      refine h.move ht ⟨rfl, rfl, fun k => (take_files s e k).1, fun k _ => (take_files s e k).2.1, fun k _ => ?_,
        fun k hk => absurd hk (by simp [Stage.fills]), fun k hk => ?_, fun call hc _ => ?_, fun call hc => .inr ?_,
        fun k hk => .inl (hoperand.trans hk)⟩
      · have hcached := (take_files s e k).2.2
        split at hcached
        · exact .inr hcached
        · exact .inl hcached
      · cases wait <;> exact hk
      · obtain rfl := Option.some.inj hc
        exact (take_files s e e).2.2.trans (if_pos rfl)
      · obtain rfl := Option.some.inj hc
        exact hsome
  | placed hpage => exact h.goOnFlushing ht rfl rfl rfl rfl (place_files s _)
  | joined => exact h.goOnFlushing ht rfl rfl rfl rfl (fun _ => ⟨rfl, rfl, rfl⟩)
  | allocating => exact h.goOnFlushing ht rfl rfl rfl rfl (fun _ => ⟨rfl, rfl, rfl⟩)
  | extending => exact h.goOnFlushing ht rfl rfl rfl rfl (fun _ => ⟨rfl, rfl, rfl⟩)
  | extended => exact h.goOnFlushing ht rfl rfl rfl rfl (fun _ => ⟨rfl, rfl, rfl⟩)
  | writes => exact h.goOnFlushing ht rfl rfl rfl rfl (fun _ => ⟨rfl, rfl, rfl⟩)
  | @finished flush diskPage waiting s₁ henter hdirty hw =>
      obtain ⟨cache, entered, rfl⟩ := enterPages_eq _ _ _ henter
      obtain ⟨hno, hidle⟩ := hafter flush.state flush.wait
      refine h.goOn ht (show _ = s.threads.set t (s.after flush.state flush.wait) from rfl) rfl rfl hidle hno (fun k hk => .inr ?_)
      have hwait : flush.wait = true ∧ flush.state = k := by
        change (if flush.wait then some flush.state else none) = some k at hk
        split at hk
        case isTrue hwait => exact ⟨hwait, Option.some.inj hk⟩
        case isFalse => cases hk
      obtain ⟨hwait, rfl⟩ := hwait
      refine ⟨h.own _ hstage flush rfl hwait, unflushed_of_goOn ht rfl hno (fun j x hjt hj call hc heq => hjt ?_)⟩
      exact htu.alone j t x _ call flush hj ht hc rfl heq
  | started =>
      exact h.goOn ht rfl rfl rfl (fun _ => by simp [Stage.operand]) rfl
        (fun _ hk => absurd hk (by simp [Stage.operand, Stage.flush?]))
  | swept =>
      exact h.goOn ht rfl rfl rfl (fun _ => by simp [Stage.operand, Stage.flush?]) rfl
        (fun _ hk => absurd hk (by simp [Stage.operand]))
  | passed =>
      exact h.goOn ht rfl rfl rfl (fun _ => by simp [Stage.operand]) rfl
        (fun _ hk => absurd hk (by simp [Stage.operand]))
  | picked =>
      exact h.goOn ht rfl rfl rfl (fun _ => by simp [Stage.operand]) rfl
        (fun _ hk => absurd hk (by simp [Stage.operand]))

end Tyrdbs.Storage.DiskWriter
