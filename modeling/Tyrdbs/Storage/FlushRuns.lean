import Tyrdbs.Storage.FlushSteps

namespace Tyrdbs.Storage.DiskWriter

open Outcome Runs

variable {s s' : DiskWriter} {t e : Nat} {stage stage' : Stage} {flush : Flush}

/-- What holds between the steps of contexts that are scheduled in the order in
which they were enqueued. -/
structure Regular (s : DiskWriter) : Prop where
  orderly : s.Orderly
  placed : s.Placed
  turns : s.Turns
  settled : s.Settled

/-- The contexts are scheduled in turn, no file is written to behind its flush,
and one that is rolled back has no pages in flight. -/
def InTurn (s : DiskWriter) : Action → Prop
  | .schedule t => s.runQueue.head? = some t
  | .write e _ => (s.files e).flushed = false
  | .addPadding e => (s.files e).flushed = false
  | .destroy e => (s.files e).commited = false → s.Unflushed e
  | _ => True

theorem Regular.unflushed (h : s.Regular) (hc : s.Callable e) (hcommited : (s.files e).commited = true) :
    s.Unflushed e :=
  (h.settled.done e hc.live ((h.orderly.files e).flushed hcommited) hc.idle).2

theorem Settled.emptied (h : s.Settled) (he : e ∈ s.states) (hflushed : (s.files e).flushed = true)
    (hidle : ∀ x ∈ s.threads, x.operand ≠ some e) :
    (s.files e).memPage = invalidHandle ∧ (s.files e).cachedPages = [] :=
  ⟨h.pageless e he hflushed, (h.done e he hflushed hidle).1⟩

theorem Regular.emptied (h : s.Regular) (he : e ∈ s.states) (hcommited : (s.files e).commited = true) :
    (s.files e).memPage = invalidHandle ∧ (s.files e).cachedPages = [] := by
  refine h.settled.emptied he ((h.orderly.files e).flushed hcommited) (fun x hx hoperand => ?_)
  rw [h.orderly.uncommited x hx e hoperand] at hcommited
  cases hcommited

theorem Regular.leftPages (h : s.Regular) {a : Action} (hadmits : s.Admits a) : s.leftPages a = 0 := by
  refine emptied_iff.mp ?_
  cases a with
  | destroy e => exact h.emptied hadmits.live
  | _ => trivial

theorem Regular.removable (h : s.Regular) {a : Action} (hadmits : s.Admits a) (hturn : s.InTurn a) : s.Removable a := by
  cases a with
  | destroy e =>
      cases hcommited : (s.files e).commited with
      | true => exact h.unflushed hadmits hcommited
      | false => exact hturn hcommited
  | _ => trivial

theorem Regular.go (h : s.Regular) (hcurrent : s.current = some t) (hgo : s.go t = .ok s') :
    s'.Placed ∧ s'.Turns ∧ s'.Settled := by
  cases ht : s.threads[t]? with
  | none =>
      rw [DiskWriter.go, ht] at hgo
      obtain rfl := Except.ok.inj hgo
      exact ⟨h.placed, h.turns, h.settled⟩
  | some stage =>
      have hpageless : ∀ e data, stage = .allocatePage e data → (s.files e).memPage = invalidHandle :=
        fun e data heq => h.orderly.pageless e data (heq ▸ List.mem_of_getElem? ht)
      rcases go_moved hpageless ht hgo with hm | rfl
      · exact ⟨h.placed.moved hm h.turns hcurrent ht, h.turns.moved h.orderly h.placed hm hcurrent ht,
          h.settled.moved h.turns h.placed hm hcurrent ht⟩
      · exact ⟨h.placed, h.turns, h.settled⟩

theorem Placed.notMem_of_asleep (h : s.Placed) (ht : s.threads[t]? = some stage) (hasleep : stage.asleep = true)
    {id : Nat} {waiting : List Nat} (hw : s.latch.find id = some waiting) : t ∉ waiting :=
  fun hm => h.notMem ht hasleep (Multiset.mem_add.mpr (.inr (mem_latched hw hm)))

/-- A context that slept is enqueued; it goes on with the flush that it was in,
if any. -/
theorem Turns.wake (h : s.Turns) (hp : s.Placed) (ht : s.threads[t]? = some stage) (hasleep : stage.asleep = true)
    (hs : Steady s s') (hcurrent : s'.current = s.current) (hthreads : s'.threads = s.threads.set t stage')
    (hflush : stage'.flush? = stage.flush?) (hcase : stage' = .user ∨ ∃ flush, stage.flush? = some flush) : s'.Turns := by
  have hpages : ∀ e wait, stage' ≠ .flushPages e wait := by
    rintro e wait rfl
    rcases hcase with heq | ⟨flush, hf⟩
    · cases heq
    · rw [← hflush] at hf
      cases hf
  refine h.move ht ⟨⟨hthreads, hs.states, hs.ids, hs.queue, .inl hcurrent, fun hg => ?_, fun e hpast hg => ?_⟩,
    hs.latch, hs.next, hs.active, fun call hf => hflush ▸ hf, fun e he => absurd he (hpages e true),
    fun e he => absurd he (hpages e false), fun id waiting hw => hp.notMem_of_asleep ht hasleep hw⟩
  · rcases hcase with rfl | ⟨flush, hf⟩
    · cases hg
    · refine Stage.global_of_flush hf ?_
      rw [← hflush] at hf
      cases hwait : flush.wait with
      | false => rfl
      | true => cases stage' <;> cases hf <;> simp [Stage.global, Stage.flush?, hwait] at hg
  · rcases hcase with rfl | ⟨flush, hf⟩
    · cases hg
    · refine ⟨?_, fun e' he' => hpast.2 e' ?_⟩
      · rintro rfl
        rw [← hflush] at hf
        cases hf
      · rw [Stage.state_of_flush (hflush.trans hf)] at he'
        exact (Stage.state_of_flush hf).trans he'

theorem Turns.ioDone (h : s.Turns) (hp : s.Placed) (t : Nat) : (s.ioDone t).Turns := by
  rw [DiskWriter.ioDone]
  split
  case h_1 flush diskPage rest ht =>
    exact h.wake hp ht rfl ⟨rfl, fun _ => rfl, rfl, rfl, rfl, List.prefix_append _ _, .inl rfl⟩ rfl rfl rfl
      (.inr ⟨flush, rfl⟩)
  case h_2 flush ht =>
    exact h.wake hp ht rfl ⟨rfl, fun _ => rfl, rfl, rfl, rfl, List.prefix_append _ _, .inl rfl⟩ rfl rfl rfl
      (.inr ⟨flush, rfl⟩)
  case h_3 => exact h

theorem Placed.ioDone (h : s.Placed) (t : Nat) : (s.ioDone t).Placed := by
  rw [DiskWriter.ioDone]
  split
  case h_1 flush diskPage rest ht => exact h.wake ht rfl (places_wake rfl rfl rfl rfl rfl) rfl rfl
  case h_2 flush ht => exact h.wake ht rfl (places_wake rfl rfl rfl rfl rfl) rfl rfl
  case h_3 => exact h

theorem Settled.ioDone (h : s.Settled) (t : Nat) : (s.ioDone t).Settled := by
  rw [DiskWriter.ioDone]
  split
  case h_1 flush diskPage rest ht => exact h.goOnFlushing ht rfl rfl rfl rfl (fun _ => ⟨rfl, rfl, rfl⟩)
  case h_2 flush ht => exact h.goOnFlushing ht rfl rfl rfl rfl (fun _ => ⟨rfl, rfl, rfl⟩)
  case h_3 => exact h

/-- file_writer::flush up to the end of write_page. -/
theorem Settled.markFlushed (h : s.Settled) (hc : s.Callable e) (ht : s.threads[t]? = some .user)
    (hthreads : s'.threads = s.threads.set t (.flush e)) (hstates : s'.states = s.states)
    (hself : (s'.files e).flushed = true ∧ (s'.files e).memPage = invalidHandle)
    (hothers : ∀ k, k ≠ e → s'.files k = s.files k) : s'.Settled := by
  have hmem : ∀ {x}, x ∈ s'.threads → x ∈ s.threads ∨ x = .flush e := by
    intro x hx
    rw [hthreads] at hx
    exact List.mem_or_eq_of_mem_set hx
  have hne : ∀ {x k}, x ∈ s.threads → x.operand = some k → k ≠ e := fun hx hk heq => hc.idle _ hx (heq ▸ hk)
  refine ⟨fun x hx k hk => ?_, fun x hx k hk => ?_, fun k hk hf => ?_, fun x hx flush hf hwait => ?_,
    fun k hk hf hidle => ?_⟩
  · rcases hmem hx with hx | rfl
    · rw [hothers k (hne hx (Stage.operand_of_fills hk))]
      exact h.filling x hx k hk
    · cases hk
  · rcases hmem hx with hx | rfl
    · rw [hothers k (hne hx (Stage.operand_of_flushes hk))]
      exact h.flushing x hx k hk
    · obtain rfl := Option.some.inj hk
      exact hself.1
  · by_cases hke : k = e
    · exact hke ▸ hself.2
    · rw [hothers k hke] at hf ⊢
      exact h.pageless k (hstates ▸ hk) hf
  · rcases hmem hx with hx | rfl
    · rw [hothers _ (hne hx (Stage.operand_of_flush hf hwait))]
      exact h.own x hx flush hf hwait
    · cases hf
  · by_cases hke : k = e
    · refine absurd rfl (hke ▸ hidle (.flush e) ?_)
      rw [hthreads]
      exact List.mem_of_getElem? (List.getElem?_set_self (List.getElem?_eq_some_iff.mp ht).1)
    · rw [hothers k hke] at hf ⊢
      obtain ⟨hcached, hun⟩ := h.done k (hstates ▸ hk) hf (fun x hx hxk => by
        obtain ⟨j, hj⟩ := List.getElem?_of_mem hx
        have hjt : j ≠ t := by
          rintro rfl
          rw [ht] at hj
          rw [← Option.some.inj hj] at hxk
          cases hxk
        refine hidle x ?_ hxk
        rw [hthreads]
        exact List.mem_of_getElem? ((List.getElem?_set_ne (Ne.symm hjt)).trans hj))
      refine ⟨hcached, fun x hx flush hf => ?_⟩
      rcases hmem hx with hx | rfl
      · exact hun x hx flush hf
      · cases hf

theorem Settled.allocate (h : s.Settled) (ho : s.Orderly) : s.allocate.Settled := by
  have hlive : ∀ {x e}, x ∈ s.threads → x.state = some e → s.allocate.files e = s.files e :=
    fun hx he => allocate_files_of_live ho (ho.live _ hx _ he)
  have hnew : ∀ {e}, e ∈ s.allocate.states → (s.allocate.files e).flushed = true →
      e ∈ s.states ∧ s.allocate.files e = s.files e := by
    intro e he hf
    rcases (List.mem_append.mp he).imp_right List.mem_singleton.mp with he | rfl
    · exact ⟨he, allocate_files_of_live ho he⟩
    · rw [allocate_files_self] at hf
      cases hf
  refine ⟨fun x hx e he => ?_, fun x hx e he => ?_, fun e he hf => ?_, fun x hx flush hf hwait => ?_,
    fun e he hf hidle => ?_⟩
  · rw [hlive hx (Stage.state_of_operand (Stage.operand_of_fills he))]
    exact h.filling x hx e he
  · rw [hlive hx (Stage.state_of_operand (Stage.operand_of_flushes he))]
    exact h.flushing x hx e he
  · obtain ⟨he, hsame⟩ := hnew he hf
    rw [hsame] at hf ⊢
    exact h.pageless e he hf
  · rw [hlive hx (Stage.state_of_flush hf)]
    exact h.own x hx flush hf hwait
  · obtain ⟨he, hsame⟩ := hnew he hf
    rw [hsame] at hf ⊢
    exact h.done e he hf hidle

theorem mark_files (s : DiskWriter) (e : Nat) :
    ((s.mark e).files e).flushed = true ∧ ((s.mark e).files e).memPage = (s.files e).memPage ∧
      ∀ k, k ≠ e → (s.mark e).files k = s.files k := by
  have hself : (s.mark e).files e = { s.files e with flushed := true } := Function.update_self ..
  rw [hself]
  exact ⟨rfl, rfl, fun k hk => Function.update_of_ne hk _ _⟩

theorem pushPage_files (s : DiskWriter) (e : Nat) :
    ((s.pushPage e).files e).flushed = (s.files e).flushed ∧ ((s.pushPage e).files e).memPage = invalidHandle ∧
      ∀ k, k ≠ e → (s.pushPage e).files k = s.files k := by
  have hself : (s.pushPage e).files e = { s.files e with
      cachedPages := (s.files e).cachedPages ++ [(s.files e).memPage], memPage := invalidHandle, bufferOffset := 0 } :=
    Function.update_self ..
  rw [hself]
  exact ⟨rfl, rfl, fun k hk => Function.update_of_ne hk _ _⟩

/-- Only files are different. -/
structure SameControl (s s' : DiskWriter) : Prop where
  current : s'.current = s.current
  runQueue : s'.runQueue = s.runQueue
  dirtyPagesCond : s'.dirtyPagesCond = s.dirtyPagesCond
  allocationCond : s'.allocationCond = s.allocationCond
  latch : s'.latch = s.latch
  states : s'.states = s.states
  threads : s'.threads = s.threads
  next : s'.nextCacheId = s.nextCacheId
  active : s'.globalFlushActive = s.globalFlushActive
  ids : ∀ e, s'.cacheId e = s.cacheId e

theorem sameControl_mark (s : DiskWriter) (e : Nat) : SameControl s (s.mark e) :=
  ⟨rfl, rfl, rfl, rfl, rfl, rfl, rfl, rfl, rfl, cacheId_mark s e⟩

theorem sameControl_pushPage (s : DiskWriter) (e : Nat) : SameControl s (s.pushPage e) :=
  ⟨rfl, rfl, rfl, rfl, rfl, rfl, rfl, rfl, rfl, cacheId_pushPage s e⟩

theorem SameControl.trans {s'' : DiskWriter} (h : SameControl s s') (h' : SameControl s' s'') : SameControl s s'' :=
  ⟨h'.current.trans h.current, h'.runQueue.trans h.runQueue, h'.dirtyPagesCond.trans h.dirtyPagesCond,
    h'.allocationCond.trans h.allocationCond, h'.latch.trans h.latch, h'.states.trans h.states,
    h'.threads.trans h.threads, h'.next.trans h.next, h'.active.trans h.active, fun e => (h'.ids e).trans (h.ids e)⟩

theorem SameControl.regular (hs : SameControl s s') (h : s.Regular)
    (hfiles : ∀ e, (s'.files e).flushed = (s.files e).flushed ∧ (s'.files e).memPage = (s.files e).memPage ∧
      (s'.files e).cachedPages = (s.files e).cachedPages) : s'.Placed ∧ s'.Turns ∧ s'.Settled := by
  refine ⟨h.placed.same ?_ hs.threads,
    h.turns.same hs.threads hs.states hs.ids hs.latch hs.next hs.active hs.runQueue hs.current,
    h.settled.same hfiles (fun _ he => hs.states ▸ he) hs.threads⟩
  rw [places, hs.current, hs.runQueue, hs.dirtyPagesCond, hs.allocationCond, hs.latch]
  rfl

theorem flush_regular (h : s.Regular) (hc : s.Callable e) (hcurrent : s.current = some t)
    (ht : s.threads[t]? = some .user) (hflush : s.flush t e = .ok s') : s'.Placed ∧ s'.Turns ∧ s'.Settled := by
  obtain ⟨hflushed, hothers⟩ := (mark_files s e).imp_right And.right
  obtain ⟨-, hcase⟩ := flush_cases hflush
  rcases hcase with ⟨hoffset, hpage, rfl⟩ | ⟨hoffset, rfl⟩
  · have hs := sameControl_mark s e
    have hfiles : ((s.mark e).files e).flushed = true ∧ ((s.mark e).files e).memPage = invalidHandle :=
      ⟨hflushed, (mark_files s e).2.1.trans hpage⟩
    generalize s.mark e = u at hs hfiles hothers
    refine ⟨?_, ?_, ?_⟩
    · refine h.placed.move ht ?_ (congrArg (List.set · t (Stage.flush e)) hs.threads) rfl
      change u.places = s.places
      rw [places, hs.current, hs.runQueue, hs.dirtyPagesCond, hs.allocationCond, hs.latch]
      rfl
    · refine h.turns.goOn h.placed hcurrent ht ⟨hs.states, hs.ids, hs.latch, hs.next, hs.active, ?_, .inl hs.current⟩
        (congrArg (List.set · t (Stage.flush e)) hs.threads) rfl rfl (fun _ => by simp)
      exact hs.runQueue ▸ List.prefix_refl _
    · exact h.settled.markFlushed hc ht (congrArg (List.set · t (Stage.flush e)) hs.threads) hs.states hfiles hothers
  · obtain ⟨hflushed', hpage, hothers'⟩ := pushPage_files (s.mark e) e
    have hs := (sameControl_mark s e).trans (sameControl_pushPage _ e)
    have hfiles := And.intro (hflushed'.trans hflushed) hpage
    have hothers : ∀ k, k ≠ e → ((s.mark e).pushPage e).files k = s.files k :=
      fun k hk => (hothers' k hk).trans (hothers k hk)
    generalize (s.mark e).pushPage e = u at hs hfiles hothers
    have hqueue : (u.yield t (.flush e)).runQueue = s.runQueue ++ [t] := congrArg (· ++ [t]) hs.runQueue
    refine ⟨?_, ?_, ?_⟩
    · exact h.placed.move ht (places_yield hcurrent hqueue hs.latch rfl hs.dirtyPagesCond hs.allocationCond)
        (congrArg (List.set · t (Stage.flush e)) hs.threads) rfl
    · refine h.turns.goOn h.placed hcurrent ht ⟨hs.states, hs.ids, hs.latch, hs.next, hs.active, ?_, .inr rfl⟩
        (congrArg (List.set · t (Stage.flush e)) hs.threads) rfl rfl (fun _ => by simp)
      rw [hqueue]
      exact List.prefix_append _ _
    · exact h.settled.markFlushed hc ht (congrArg (List.set · t (Stage.flush e)) hs.threads) hs.states hfiles hothers

theorem put_kept (s : DiskWriter) (e : Nat) (data : List Byte) (k : Nat) :
    ((s.put e data).files k).flushed = (s.files k).flushed ∧ ((s.put e data).files k).memPage = (s.files k).memPage ∧
      ((s.put e data).files k).cachedPages = (s.files k).cachedPages := by
  by_cases hk : k = e
  · subst hk
    rw [put_self]
    exact ⟨rfl, rfl, rfl⟩
  · rw [put_files, Function.update_of_ne hk]
    exact ⟨rfl, rfl, rfl⟩

theorem places_cleared (s : DiskWriter) (pool : Slabs) (blocks : Allocator) (n : Nat) :
    (s.cleared pool blocks n).places = s.places := by
  change (s.current.toList : Multiset Nat) + ((s.runQueue ++ s.dirtyPagesCond : List Nat) : Multiset Nat) + 0 +
    s.allocationCond + (s.latch.values.map Multiset.ofList).sum = s.places
  rw [places, ← Multiset.coe_add]
  ac_rfl

theorem perform_regular (h : s.Regular) (hcurrent : s.current = some t) {a : Action} (hadmits : s.Admits a)
    (hturn : s.InTurn a) (hperform : s.perform t a = .ok s') : s'.Placed ∧ s'.Turns ∧ s'.Settled := by
  have huser : s.IsUser → s.threads[t]? = some .user := by
    rintro ⟨k, hk, hstage⟩
    rw [hcurrent] at hk
    rwa [Option.some.inj hk]
  cases a with
  | create =>
      obtain rfl := Except.ok.inj hperform
      have ht := huser hadmits
      exact ⟨h.placed.same rfl rfl, h.turns.allocate h.orderly hcurrent ht, h.settled.allocate h.orderly⟩
  | write e data =>
      have ht := huser hadmits.user
      rcases write_cases hperform with rfl | ⟨hopen, hsize, rfl⟩
      · exact ⟨h.placed, h.turns, h.settled⟩
      · refine ⟨h.placed.move ht rfl rfl rfl, ?_, ?_⟩
        · exact h.turns.goOn h.placed hcurrent ht ⟨rfl, fun _ => rfl, rfl, rfl, rfl, List.prefix_refl _, .inl rfl⟩ rfl
            rfl rfl (fun _ => by simp)
        · refine h.settled.move ht (tidy_stage rfl rfl (fun _ => ⟨rfl, rfl, rfl⟩) (fun k hk => ?_)
            (fun k hk => absurd hk (by simp [Stage.flushes, Stage.flush?]))
            (fun call hc => absurd hc (by simp [Stage.flush?])) (fun call hc => absurd hc (by simp [Stage.flush?]))
            (fun k hk => absurd hk (by simp [Stage.operand, Stage.flush?])))
          obtain rfl := Option.some.inj hk
          exact hturn
  | addPadding e =>
      obtain ⟨-, rfl | ⟨-, rfl⟩⟩ := addPadding_cases hperform
      · exact ⟨h.placed, h.turns, h.settled⟩
      · exact SameControl.regular (s := s) ⟨rfl, rfl, rfl, rfl, rfl, rfl, rfl, rfl, rfl, cacheId_put s e _⟩ h
          (put_kept s e _)
  | flush e => exact flush_regular h hadmits hcurrent (huser hadmits.user) hperform
  | commit e =>
      obtain ⟨-, -, rfl⟩ := commit_cases hperform
      have hid : ∀ k, (s.setFile e (released (s.files e))).cacheId k = s.cacheId k :=
        cacheId_of_update (e := e) (f := released (s.files e)) rfl rfl
      refine SameControl.regular (s := s) ⟨rfl, rfl, rfl, rfl, rfl, rfl, rfl, rfl, rfl, hid⟩ h (fun k => ?_)
      by_cases hk : k = e
      · subst hk
        rw [setFile_self]
        exact ⟨rfl, rfl, rfl⟩
      · have hother : (s.setFile e (released (s.files e))).files k = s.files k := Function.update_of_ne hk _ _
        rw [hother]
        exact ⟨rfl, rfl, rfl⟩
  | destroy e =>
      have ht := huser hadmits.user
      rcases destroy_cases hperform with ⟨-, rfl⟩ | ⟨-, pool, blocks, n, -, rfl⟩
      · exact ⟨h.placed.same rfl rfl, h.turns.free hcurrent ht e,
          h.settled.same (fun _ => ⟨rfl, rfl, rfl⟩) (fun _ he => List.mem_of_mem_erase he) rfl⟩
      · have hthreads : s.threads = s.threads.set t .user := by
          obtain ⟨hlt, hget⟩ := List.getElem?_eq_some_iff.mp ht
          rw [← hget, List.set_getElem_self]
        have hturns : (s.cleared pool blocks n).Turns := h.turns.goOn h.placed hcurrent ht
          ⟨rfl, fun _ => rfl, rfl, rfl, rfl, List.prefix_append _ _, .inl rfl⟩ hthreads rfl rfl (fun _ => by simp)
        exact ⟨h.placed.same (places_cleared s pool blocks n) rfl, hturns.free hcurrent ht e,
          h.settled.same (fun _ => ⟨rfl, rfl, rfl⟩) (fun _ he => List.mem_of_mem_erase he) rfl⟩
  | unlink extents =>
      have hunlink : s.unlink extents = .ok s' := hperform
      rw [DiskWriter.unlink] at hunlink
      cases hremove : removeExtents s.blocks extents with
      | error stop =>
          rw [hremove] at hunlink
          cases hunlink
      | ok blocks =>
          rw [hremove] at hunlink
          obtain rfl := Except.ok.inj hunlink
          exact ⟨h.placed.same rfl rfl, h.turns.same rfl rfl (fun _ => rfl) rfl rfl rfl rfl rfl,
            h.settled.same (fun _ => ⟨rfl, rfl, rfl⟩) (fun _ he => he) rfl⟩
  | go => exact h.go hcurrent hperform
  | pause =>
      obtain rfl := Except.ok.inj hperform
      have ht := huser hadmits
      refine ⟨h.placed.sleep (places_sleep hcurrent rfl rfl rfl rfl rfl) rfl, ?_, ?_⟩
      · exact h.turns.goOn h.placed hcurrent ht ⟨rfl, fun _ => rfl, rfl, rfl, rfl, List.prefix_refl _, .inr rfl⟩ rfl rfl
          rfl (fun _ => by simp)
      · exact h.settled.goOn ht rfl rfl rfl (fun _ => by simp [Stage.operand, Stage.flush?]) rfl
          (fun _ hk => absurd hk (by simp [Stage.operand, Stage.flush?]))
  | _ =>
      obtain rfl := Except.ok.inj hperform
      exact ⟨h.placed, h.turns, h.settled⟩

theorem Step.regular {a : Action} (hs : Step s a s') (hturn : s.InTurn a) (h : s.Regular) : s'.Regular := by
  have horderly := hs.orderly (h.removable hs.1 hturn) h.orderly
  obtain ⟨hadmits, happly⟩ := hs
  have hrest : s'.Placed ∧ s'.Turns ∧ s'.Settled := by
    cases a with
    | schedule t =>
        obtain rfl := Except.ok.inj happly
        obtain ⟨hnone, -⟩ := hadmits
        obtain ⟨queue, hqueue⟩ : ∃ queue, s.runQueue = t :: queue := List.head?_eq_some_iff.mp hturn
        have herase : s.runQueue.erase t = queue := by rw [hqueue, List.erase_cons_head]
        rw [herase]
        refine ⟨h.placed.same ?_ rfl, h.turns.schedule hnone hqueue,
          h.settled.same (fun _ => ⟨rfl, rfl, rfl⟩) (fun _ he => he) rfl⟩
        simp only [places, hnone, hqueue, Option.toList_some, Option.toList_none, Multiset.coe_nil, zero_add,
          ← Multiset.cons_coe, Multiset.cons_add]
    | start =>
        obtain rfl := Except.ok.inj happly
        refine ⟨h.placed.create .user ?_ rfl rfl, ?_, h.settled.createThread .user rfl rfl rfl rfl⟩
        · simp only [places, createThread, ← Multiset.coe_add, ← Multiset.singleton_add, ← Multiset.coe_singleton]
          ac_rfl
        · have hcreate := h.turns.createThread .user h.placed rfl (fun _ _ => by simp) (fun hg => by cases hg)
          exact hcreate.same rfl rfl (fun _ => rfl) rfl rfl (by simp [Stage.global, Stage.flush?, DiskWriter.createThread])
            rfl rfl
    | wake t =>
        obtain rfl := Except.ok.inj happly
        have ht : s.threads[t]? = some .outside := hadmits
        refine ⟨h.placed.wake ht rfl (places_wake rfl rfl rfl rfl rfl) rfl rfl, ?_, ?_⟩
        · exact h.turns.wake h.placed ht rfl ⟨rfl, fun _ => rfl, rfl, rfl, rfl, List.prefix_append _ _, .inl rfl⟩ rfl rfl
            rfl (.inl rfl)
        · exact h.settled.goOn ht rfl rfl rfl (fun _ => by simp [Stage.operand, Stage.flush?]) rfl
            (fun _ hk => absurd hk (by simp [Stage.operand, Stage.flush?]))
    | ioDone t =>
        obtain rfl := Except.ok.inj happly
        exact ⟨h.placed.ioDone t, h.turns.ioDone h.placed t, h.settled.ioDone t⟩
    | read a =>
        have hread : (do let reader ← s.reader.apply a; return { s with reader := reader }) = .ok s' := happly
        cases hreader : s.reader.apply a with
        | error stop =>
            rw [hreader] at hread
            cases hread
        | ok reader =>
            rw [hreader] at hread
            obtain rfl := Except.ok.inj hread
            exact ⟨h.placed.same rfl rfl, h.turns.same rfl rfl (fun _ => rfl) rfl rfl rfl rfl rfl,
              h.settled.same (fun _ => ⟨rfl, rfl, rfl⟩) (fun _ he => he) rfl⟩
    | _ =>
        cases hcurrent : s.current with
        | none =>
            simp only [apply, hcurrent] at happly
            obtain rfl := Except.ok.inj happly
            exact ⟨h.placed, h.turns, h.settled⟩
        | some t =>
            simp only [apply, hcurrent] at happly
            exact perform_regular h hcurrent hadmits hturn happly
  exact ⟨horderly, hrest.1, hrest.2.1, hrest.2.2⟩

/-- The pages of a file are in flight to the disk for one call at a time. -/
def Exclusive (s : DiskWriter) : Prop :=
  ∀ (t t' : Nat) (x x' : Stage) (flush flush' : Flush), s.threads[t]? = some x → s.threads[t']? = some x' →
    x.flush? = some flush → x'.flush? = some flush' → flush.state = flush'.state → t = t'

/-- Between these states a call of file_writer::flush has come to its end. -/
def Returns (s s' : DiskWriter) (t e : Nat) : Prop :=
  ∃ stage, s.threads[t]? = some stage ∧ stage.flushes = some e ∧ s'.threads[t]? = some .user

/-- No page of the file is left to be written, by anybody. -/
structure Flushed (s : DiskWriter) (e : Nat) : Prop where
  page : (s.files e).memPage = invalidHandle
  cached : (s.files e).cachedPages = []
  flight : s.Unflushed e

theorem Moved.returns (hm : Moved s t stage s') (ht : s.threads[t]? = some stage) (he : stage.flushes = some e)
    (huser : s'.threads[t]? = some .user) :
    s'.threads = s.threads.set t .user ∧ s'.states = s.states ∧ s'.files = s.files := by
  have hself : ∀ {x : Stage}, (s.threads.set t x)[t]? = some .user → x = .user := by
    intro x hx
    rw [List.getElem?_set_self (List.getElem?_eq_some_iff.mp ht).1] at hx
    exact Option.some.inj hx
  have hfilling : ∀ {k}, stage.fills ≠ some k := by
    intro k hk
    rw [Stage.not_fills_of_flushes he] at hk
    cases hk
  have hafter : ∀ k wait, (s.threads.set t (s.after k wait))[t]? = some .user → s.after k wait = .user := fun _ _ => hself
  cases hm with
  | stalled hfills => exact absurd hfills hfilling
  | given hfills => exact absurd hfills hfilling
  | written => exact absurd rfl hfilling
  | completed => exact absurd rfl hfilling
  | begun => exact absurd rfl hfilling
  | @none k wait hnone =>
      refine ⟨?_, rfl, rfl⟩
      rw [← hafter k wait huser]
      rfl
  | @finished flush diskPage waiting s₁ henter hdirty hw =>
      obtain ⟨cache, entered, rfl⟩ := enterPages_eq _ _ _ henter
      refine ⟨?_, rfl, rfl⟩
      rw [← hafter flush.state flush.wait huser]
      rfl
  | waits | enters | taken | placed | joined | allocating | extending | extended | writes | started | swept | passed |
    picked => cases hself huser

theorem perform_threads {a : Action} (hperform : s.perform t a = .ok s') (ha : a ≠ .go) :
    s'.threads = s.threads ∨ ∃ x, x ≠ .user ∧ s'.threads = s.threads.set t x := by
  cases a with
  | create =>
      obtain rfl := Except.ok.inj hperform
      exact .inl rfl
  | write e data =>
      rcases write_cases hperform with rfl | ⟨-, -, rfl⟩
      · exact .inl rfl
      · exact .inr ⟨_, by simp, rfl⟩
  | addPadding e =>
      obtain ⟨-, rfl | ⟨-, rfl⟩⟩ := addPadding_cases hperform
      · exact .inl rfl
      · exact .inl rfl
  | flush e =>
      obtain ⟨-, ⟨-, -, rfl⟩ | ⟨-, rfl⟩⟩ := flush_cases hperform
      · exact .inr ⟨.flush e, by simp, rfl⟩
      · exact .inr ⟨.flush e, by simp, congrArg (List.set · t (Stage.flush e))
          ((sameControl_mark s e).trans (sameControl_pushPage _ e)).threads⟩
  | commit e =>
      obtain ⟨-, -, rfl⟩ := commit_cases hperform
      exact .inl rfl
  | destroy e =>
      have hdestroy : s.destroy e = .ok s' := hperform
      rw [DiskWriter.destroy] at hdestroy
      split at hdestroy
      · obtain rfl := Except.ok.inj hdestroy
        exact .inl rfl
      · cases hremove : s.remove e with
        | error stop =>
            rw [hremove] at hdestroy
            cases hdestroy
        | ok s₁ =>
            rw [hremove] at hdestroy
            obtain rfl := Except.ok.inj hdestroy
            exact .inl ((aside_remove e).of_ok hremove).threads
  | unlink extents =>
      have hunlink : s.unlink extents = .ok s' := hperform
      rw [DiskWriter.unlink] at hunlink
      cases hremove : removeExtents s.blocks extents with
      | error stop =>
          rw [hremove] at hunlink
          cases hunlink
      | ok blocks =>
          rw [hremove] at hunlink
          obtain rfl := Except.ok.inj hunlink
          exact .inl rfl
  | go => exact absurd rfl ha
  | pause =>
      obtain rfl := Except.ok.inj hperform
      exact .inr ⟨.outside, by simp, rfl⟩
  | _ =>
      obtain rfl := Except.ok.inj hperform
      exact .inl rfl

theorem ioDone_threads (s : DiskWriter) (t : Nat) :
    (s.ioDone t).threads = s.threads ∨ ∃ x, x ≠ .user ∧ (s.ioDone t).threads = s.threads.set t x := by
  rw [DiskWriter.ioDone]
  split
  case h_1 => exact .inr ⟨_, by simp, rfl⟩
  case h_2 => exact .inr ⟨_, by simp, rfl⟩
  case h_3 => exact .inl rfl

theorem Moved.others (hm : Moved s t stage s') {k : Nat} {x : Stage} (hk : k ≠ t) (hx : s.threads[k]? = some x) :
    s'.threads[k]? = some x := by
  have hset : ∀ y, (s.threads.set t y)[k]? = some x := fun y => (List.getElem?_set_ne (Ne.symm hk)).trans hx
  cases hm with
  | stalled => exact (List.getElem?_set_ne (Ne.symm hk)).trans (startGlobalFlush_threads hx)
  | finished henter =>
      obtain ⟨cache, entered, rfl⟩ := enterPages_eq _ _ _ henter
      exact hset _
  | given | written | completed | begun | waits | enters | none | taken | placed | joined | allocating | extending |
    extended | writes | started | swept | passed | picked => exact hset _

theorem Step.returns {a : Action} (hs : Step s a s') (ho : s.Orderly) (hr : s.Returns s' t e) :
    s.current = some t ∧ s.go t = .ok s' := by
  obtain ⟨stage, ht, he, huser⟩ := hr
  obtain ⟨hadmits, happly⟩ := hs
  have hstage : stage ≠ .user := by
    rintro rfl
    cases he
  have hkept : s'.threads[t]? ≠ s.threads[t]? := by
    rw [huser, ht]
    exact fun hsame => hstage (Option.some.inj hsame).symm
  have hset : ∀ {k : Nat} {y : Stage}, y ≠ .user → s'.threads ≠ s.threads.set k y := by
    intro k y hy hthreads
    by_cases htk : t = k
    · subst htk
      rw [hthreads, List.getElem?_set_self (List.getElem?_eq_some_iff.mp ht).1] at huser
      exact hy (Option.some.inj huser)
    · rw [hthreads, List.getElem?_set_ne (Ne.symm htk)] at hkept
      exact hkept rfl
  have hno : (s'.threads = s.threads ∨ ∃ x, x ≠ .user ∧ ∃ k, s'.threads = s.threads.set k x) → False := by
    rintro (hsame | ⟨x, hx, k, hthreads⟩)
    · exact hkept (congrArg (·[t]?) hsame)
    · exact hset hx hthreads
  cases a with
  | schedule k =>
      obtain rfl := Except.ok.inj happly
      exact absurd rfl hkept
  | start =>
      obtain rfl := Except.ok.inj happly
      exact absurd (List.getElem?_append_left (List.getElem?_eq_some_iff.mp ht).1) hkept
  | wake k =>
      obtain rfl := Except.ok.inj happly
      have hadmits : s.threads[k]? = some .outside := hadmits
      by_cases htk : t = k
      · subst htk
        rw [ht] at hadmits
        rw [Option.some.inj hadmits] at he
        cases he
      · exact absurd (List.getElem?_set_ne (Ne.symm htk)) hkept
  | ioDone k =>
      obtain rfl := Except.ok.inj happly
      rcases ioDone_threads s k with hsame | ⟨x, hx, hthreads⟩
      · exact (hno (.inl hsame)).elim
      · exact (hno (.inr ⟨x, hx, k, hthreads⟩)).elim
  | read a =>
      have hread : (do let reader ← s.reader.apply a; return { s with reader := reader }) = .ok s' := happly
      cases hreader : s.reader.apply a with
      | error stop =>
          rw [hreader] at hread
          cases hread
      | ok reader =>
          rw [hreader] at hread
          obtain rfl := Except.ok.inj hread
          exact absurd rfl hkept
  | go =>
      obtain ⟨k, hk⟩ := Option.ne_none_iff_exists'.mp hadmits
      simp only [apply, hk] at happly
      by_cases htk : t = k
      · exact ⟨htk ▸ hk, htk ▸ happly⟩
      · exfalso
        have hgo : s.go k = .ok s' := happly
        cases hstage' : s.threads[k]? with
        | none =>
            rw [DiskWriter.go, hstage'] at hgo
            obtain rfl := Except.ok.inj hgo
            exact hkept rfl
        | some x =>
            rcases go_moved (fun e data heq => ho.pageless e data (heq ▸ List.mem_of_getElem? hstage')) hstage' hgo with
              hm | rfl
            · exact hkept ((hm.others htk ht).trans ht.symm)
            · exact hkept rfl
  | _ =>
      exfalso
      cases hcurrent : s.current with
      | none =>
          simp only [apply, hcurrent] at happly
          obtain rfl := Except.ok.inj happly
          exact hkept rfl
      | some k =>
          simp only [apply, hcurrent] at happly
          rcases perform_threads happly (by simp) with hsame | ⟨x, hx, hthreads⟩
          · exact hno (.inl hsame)
          · exact hno (.inr ⟨x, hx, k, hthreads⟩)

theorem Step.flushed {a : Action} (hs : Step s a s') (hturn : s.InTurn a) (h : s.Regular) (hr : s.Returns s' t e) :
    s'.Flushed e := by
  have h' := hs.regular hturn h
  obtain ⟨hcurrent, hgo⟩ := hs.returns h.orderly hr
  obtain ⟨stage, ht, he, huser⟩ := hr
  have hoperand := Stage.operand_of_flushes he
  have hlive := h.orderly.live stage (List.mem_of_getElem? ht) e (Stage.state_of_operand hoperand)
  have hflushed := h.settled.flushing stage (List.mem_of_getElem? ht) e he
  have hpageless : ∀ e data, stage = .allocatePage e data → (s.files e).memPage = invalidHandle :=
    fun e data heq => h.orderly.pageless e data (heq ▸ List.mem_of_getElem? ht)
  rcases go_moved hpageless ht hgo with hm | rfl
  · obtain ⟨hthreads, hstates, hfiles⟩ := hm.returns ht he huser
    have hidle : ∀ x ∈ s'.threads, x.operand ≠ some e := by
      intro x hx hxe
      obtain ⟨k, hk⟩ := List.getElem?_of_mem hx
      rw [hthreads] at hk
      rcases get_of_set ht hk with ⟨-, rfl⟩ | ⟨hkt, hold⟩
      · cases hxe
      · exact hkt (h.orderly.single k t x stage e hold ht hxe hoperand)
    have hlive' : e ∈ s'.states := hstates ▸ hlive
    have hflushed' : (s'.files e).flushed = true := hfiles ▸ hflushed
    obtain ⟨hcached, hun⟩ := h'.settled.done e hlive' hflushed' hidle
    exact ⟨h'.settled.pageless e hlive' hflushed', hcached, hun⟩
  · rw [ht] at huser
    rw [Option.some.inj huser] at he
    cases he

section Initial

variable {clzOfZero : UInt32} {cacheBits writeCacheBits filePages : Nat} {preallocateSpace : Bool}
  {image memory : Nat → Page}

theorem initial_regular :
    (initial clzOfZero cacheBits writeCacheBits filePages preallocateSpace image memory).Regular where
  orderly := initial_orderly
  placed := ⟨Multiset.nodup_zero, fun _ h => absurd h (Multiset.notMem_zero _)⟩
  turns := by
    refine ⟨fun _ h => absurd h List.not_mem_nil, fun _ h => absurd h List.not_mem_nil,
      fun _ h => absurd h List.not_mem_nil, fun _ _ _ _ _ _ h => absurd h (by simp [initial]),
      fun _ _ _ _ h => absurd h (by simp [initial]), fun _ h => absurd h List.not_mem_nil,
      fun _ h => absurd h List.not_mem_nil, fun _ _ _ h => absurd h (by simp [initial]),
      fun _ _ _ h => absurd h (by simp [initial]), fun _ _ h => absurd h (by simp [initial])⟩
  settled := ⟨fun _ h => absurd h List.not_mem_nil, fun _ h => absurd h List.not_mem_nil,
    fun _ h => absurd h List.not_mem_nil, fun _ h => absurd h List.not_mem_nil, fun _ h => absurd h List.not_mem_nil⟩

/-- In a run of contexts that are scheduled in turn no two flushes of a file
overlap, and file_writer::flush comes back only when all pages of its file have
been written, by whichever context. -/
theorem flushes_exclusive {ts : List (DiskWriter × Action × DiskWriter)} {u : DiskWriter}
    (hrun : Run Step (initial clzOfZero cacheBits writeCacheBits filePages preallocateSpace image memory) ts u)
    (hturn : ∀ x ∈ ts, x.1.InTurn x.2.1) :
    (∀ s ∈ visited (initial clzOfZero cacheBits writeCacheBits filePages preallocateSpace image memory) ts,
      s.Exclusive) ∧ ∀ x ∈ ts, ∀ t e, x.1.Returns x.2.2 t e → x.2.2.Flushed e := by
  have hregular := hrun.visited_guarded InTurn hturn Regular initial_regular
    (fun u a v hu hstep hg => hstep.regular hg hu)
  refine ⟨fun s hs => (hregular s hs).turns.alone, fun x hx t e hr => ?_⟩
  obtain ⟨hvisited, hstep⟩ := hrun.of_mem x hx
  exact hstep.flushed (hturn x hx) (hregular _ hvisited) hr

end Initial

section Waiting

def Wakes (s : DiskWriter) : Action → Prop
  | .wake t => s.threads[t]? = some .outside
  | _ => False

instance (s : DiskWriter) (a : Action) : Decidable (s.Wakes a) :=
  match a with
  | .wake _ => inferInstanceAs (Decidable (_ = _))
  | .create | .write _ _ | .addPadding _ | .flush _ | .commit _ | .destroy _ | .unlink _ | .go | .pause | .schedule _ |
    .start | .ioDone _ | .read _ => inferInstanceAs (Decidable False)

instance (s : DiskWriter) (e : Nat) : Decidable (s.Unflushed e) :=
  inferInstanceAs (Decidable (∀ x ∈ s.threads, ∀ flush ∈ x.flush?, flush.state ≠ e))

instance (s : DiskWriter) (a : Action) : Decidable (s.InTurn a) :=
  match a with
  | .schedule _ => inferInstanceAs (Decidable (_ = _))
  | .write _ _ => inferInstanceAs (Decidable (_ = _))
  | .addPadding _ => inferInstanceAs (Decidable (_ = _))
  | .destroy e => inferInstanceAs (Decidable ((s.files e).commited = false → s.Unflushed e))
  | .create | .flush _ | .commit _ | .unlink _ | .go | .pause | .wake _ | .start | .ioDone _ | .read _ =>
      inferInstanceAs (Decidable True)

def attemptInTurn (s : DiskWriter) (a : Action) : Option DiskWriter :=
  if s.InTurn a ∧ (s.Allows a ∨ s.Wakes a) then (s.apply a).toOption else none

theorem step_attemptInTurn {a : Action} (h : s.attemptInTurn a = some s') : Step s a s' ∧ s.InTurn a := by
  obtain ⟨⟨hturn, hallows⟩, happly⟩ := ok_of_toOption h
  refine ⟨⟨?_, happly⟩, hturn⟩
  rcases hallows with hallows | hwakes
  · exact hallows.admits.1
  · cases a with
    | wake t => exact hwakes
    | _ => exact hwakes.elim

/-- The flush thread has the page of the first file in flight while its writer
comes to flush it. -/
def overlap : List Action :=
  [.start, .start, .schedule 0, .create, .write 0 (List.replicate 4096 1), .go, .go, .schedule 1, .pause, .schedule 0,
    .go, .pause, .wake 1, .schedule 1, .create, .write 1 [3], .go, .wake 0, .schedule 2, .go, .go, .go, .go, .go,
    .schedule 0, .flush 0, .go, .ioDone 2, .schedule 2, .go, .go, .go, .go, .schedule 1, .go, .go, .go, .pause,
    .schedule 0, .go, .commit 0, .destroy 0]

theorem overlap_done : (follow attemptInTurn single overlap).any (fun r =>
    r.2.entered.length == 1 && r.1.any (fun x => decide (x.1.threads[0]? = some (.flushPages 0 true)) &&
      decide (x.2.2.threads[0]? = some .user))) = true := by
  decide +kernel

theorem flushes_exclusive_overlap : ∃ ts u, (u.entered.length == 1 && ts.any (fun x =>
      decide (x.1.threads[0]? = some (.flushPages 0 true)) && decide (x.2.2.threads[0]? = some .user))) = true ∧
    Run Step single ts u ∧ (∀ s ∈ visited single ts, s.Exclusive) ∧
      ∀ x ∈ ts, ∀ t e, x.1.Returns x.2.2 t e → x.2.2.Flushed e := by
  obtain ⟨⟨ts, u⟩, hfollow, hdone⟩ := (Option.any_eq_true _ _).mp overlap_done
  have hguarded : Run (fun s a s' => Step s a s' ∧ s.InTurn a) single ts u :=
    run_follow attemptInTurn (fun _ _ _ h => step_attemptInTurn h) overlap single hfollow
  have hrun : Run Step single ts u := run_follow attemptInTurn (fun _ _ _ h => (step_attemptInTurn h).1) overlap single hfollow
  exact ⟨ts, u, hdone, hrun, flushes_exclusive hrun (fun x hx => (hguarded.of_mem x hx).2.2)⟩

end Waiting

end Tyrdbs.Storage.DiskWriter
