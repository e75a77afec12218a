import Tyrdbs.Library.Queue
import Tyrdbs.Storage.WriterPlaces

namespace Tyrdbs.Storage.DiskWriter

open Queue

variable {s s' : DiskWriter} {t e : Nat} {stage stage' : Stage} {flush : Flush}

/-- Woken to flush a file, a context has its turn before the flush thread is
back at the file. -/
structure Ahead (s : DiskWriter) (t e : Nat) : Prop where
  queued : s.current = some t ∨ t ∈ s.runQueue
  before : ∀ (k : Nat) (x : Stage), s.threads[k]? = some x → x.global = true → k ∈ s.runQueue →
    s.current = some t ∨ Precedes s.runQueue t k
  past : ∀ (k : Nat) (x : Stage), s.threads[k]? = some x → x.global = true → s.current = some k →
    x ≠ .flushThread ∧ ∀ e', x.state = some e' → s.states.idxOf e < s.states.idxOf e'

/-- A file has one flush in flight at most, behind its latch entry, and whoever
waits for that finds the latch free when it is scheduled. -/
structure Turns (s : DiskWriter) : Prop where
  ids : ∀ e ∈ s.states, s.cacheId e < s.nextCacheId
  distinct : ∀ e ∈ s.states, ∀ e' ∈ s.states, s.cacheId e = s.cacheId e' → e = e'
  flying : ∀ x ∈ s.threads, ∀ flush, x.flush? = some flush →
    flush.cond = s.cacheId flush.state ∧ s.latch.find flush.cond ≠ none
  alone : ∀ (t t' : Nat) (x x' : Stage) (flush flush' : Flush), s.threads[t]? = some x → s.threads[t']? = some x' →
    x.flush? = some flush → x'.flush? = some flush' → flush.state = flush'.state → t = t'
  sole : ∀ (t t' : Nat) (x x' : Stage), s.threads[t]? = some x → s.threads[t']? = some x' → x.global = true →
    x'.global = true → t = t'
  active : ∀ x ∈ s.threads, x.global = true → s.globalFlushActive = true
  clear : ∀ e, Stage.flushPages e false ∈ s.threads → s.latch.find (s.cacheId e) = none
  waiting : ∀ (id : Nat) (waiting : List Nat) (t : Nat), s.latch.find id = some waiting → t ∈ waiting →
    ∃ e, s.threads[t]? = some (.flushPages e true) ∧ s.cacheId e = id
  parked : ∀ (t e : Nat) (waiting : List Nat), s.threads[t]? = some (.flushPages e true) →
    s.latch.find (s.cacheId e) = some waiting → t ∈ waiting
  ahead : ∀ t e : Nat, s.threads[t]? = some (.flushPages e true) → s.latch.find (s.cacheId e) = none → s.Ahead t e

/-- How a context may go on, as far as the order of flushes goes. -/
structure Ordinary (s s' : DiskWriter) (t : Nat) (stage stage' : Stage) : Prop where
  threads : s'.threads = s.threads.set t stage'
  states : s'.states = s.states
  ids : ∀ e, s'.cacheId e = s.cacheId e
  queue : s.runQueue <+: s'.runQueue
  current : s'.current = s.current ∨ s.current = some t ∧ s'.current = none
  global : stage'.global = true → stage.global = true
  past : ∀ e, (stage ≠ .flushThread ∧ ∀ e', stage.state = some e' → s.states.idxOf e < s.states.idxOf e') →
    stage'.global = true → stage' ≠ .flushThread ∧ ∀ e', stage'.state = some e' → s.states.idxOf e < s.states.idxOf e'

theorem get_of_set {xs : List Stage} (ht : xs[t]? = some stage) {k : Nat} {x : Stage}
    (h : (xs.set t stage')[k]? = some x) : k = t ∧ x = stage' ∨ k ≠ t ∧ xs[k]? = some x := by
  by_cases hk : k = t
  · subst hk
    rw [List.getElem?_set_self (List.getElem?_eq_some_iff.mp ht).1] at h
    exact .inl ⟨rfl, (Option.some.inj h).symm⟩
  · rw [List.getElem?_set_ne (Ne.symm hk)] at h
    exact .inr ⟨hk, h⟩

theorem Ordinary.ahead (h : Ordinary s s' t stage stage') (ht : s.threads[t]? = some stage) {k : Nat} (hkt : k ≠ t)
    (ha : s.Ahead k e) : s'.Ahead k e := by
  have hcurrent : s.current = some k → s'.current = some k := by
    intro hk
    rcases h.current with hsame | ⟨hmove, -⟩
    · exact hsame.trans hk
    · rw [hk] at hmove
      exact absurd (Option.some.inj hmove) hkt
  have hget : ∀ {j : Nat} {x : Stage}, s'.threads[j]? = some x → x.global = true →
      ∃ y, s.threads[j]? = some y ∧ y.global = true ∧ (j = t ∧ x = stage' ∧ y = stage ∨ y = x) := by
    intro j x hj hx
    rw [h.threads] at hj
    rcases get_of_set ht hj with ⟨rfl, rfl⟩ | ⟨-, hj⟩
    · exact ⟨stage, ht, h.global hx, .inl ⟨rfl, rfl, rfl⟩⟩
    · exact ⟨x, hj, hx, .inr rfl⟩
  refine ⟨?_, fun j x hj hx hjq => ?_, fun j x hj hx hjc => ?_⟩
  · exact ha.queued.imp hcurrent (fun hq => h.queue.subset hq)
  · obtain ⟨y, hy, hglobal, -⟩ := hget hj hx
    by_cases hjs : j ∈ s.runQueue
    · exact (ha.before j y hy hglobal hjs).imp hcurrent (fun hp => hp.enqueue hjs h.queue)
    · exact ha.queued.imp hcurrent (fun hq => precedes_enqueued hq hjs h.queue)
  · obtain ⟨y, hy, hglobal, hcase⟩ := hget hj hx
    have hjc' : s.current = some j := by
      rcases h.current with hsame | ⟨-, hnone⟩
      · exact hsame.symm.trans hjc
      · rw [hnone] at hjc
        cases hjc
    have hpast := ha.past j y hy hglobal hjc'
    rw [h.states]
    rcases hcase with ⟨-, rfl, rfl⟩ | rfl
    · exact h.past e hpast hx
    · exact hpast

structure Unlatched (s s' : DiskWriter) (t : Nat) (stage stage' : Stage) : Prop extends Ordinary s s' t stage stage' where
  latch : s'.latch = s.latch
  next : s'.nextCacheId = s.nextCacheId
  active : s'.globalFlushActive = s.globalFlushActive
  flush : ∀ flush, stage'.flush? = some flush → stage.flush? = some flush
  enters : ∀ e, stage' = .flushPages e true → s.latch.find (s.cacheId e) = none ∧ s'.current = some t
  clear : ∀ e, stage' = .flushPages e false → s.latch.find (s.cacheId e) = none
  free : ∀ id waiting, s.latch.find id = some waiting → t ∉ waiting

theorem Turns.move (h : s.Turns) (ht : s.threads[t]? = some stage) (hm : Unlatched s s' t stage stage') : s'.Turns := by
  have hget : ∀ {k : Nat} {x : Stage}, s'.threads[k]? = some x → k = t ∧ x = stage' ∨ k ≠ t ∧ s.threads[k]? = some x := by
    intro k x hk
    rw [hm.threads] at hk
    exact get_of_set ht hk
  have hmem : ∀ {x}, x ∈ s'.threads → x ∈ s.threads ∨ x = stage' := by
    intro x hx
    rw [hm.threads] at hx
    exact List.mem_or_eq_of_mem_set hx
  have hflush : ∀ {k : Nat} {x : Stage} {flush : Flush}, s'.threads[k]? = some x → x.flush? = some flush →
      ∃ y, s.threads[k]? = some y ∧ y.flush? = some flush := by
    intro k x flush hk hx
    rcases hget hk with ⟨rfl, rfl⟩ | ⟨-, hk⟩
    · exact ⟨stage, ht, hm.flush flush hx⟩
    · exact ⟨x, hk, hx⟩
  have hglobal : ∀ {k : Nat} {x : Stage}, s'.threads[k]? = some x → x.global = true →
      ∃ y, s.threads[k]? = some y ∧ y.global = true := by
    intro k x hk hx
    rcases hget hk with ⟨rfl, rfl⟩ | ⟨-, hk⟩
    · exact ⟨stage, ht, hm.global hx⟩
    · exact ⟨x, hk, hx⟩
  refine ⟨?_, ?_, fun x hx flush hf => ?_, fun k k' x x' call call' hk hk' hx hx' hcall => ?_,
    fun k k' x x' hk hk' hx hx' => ?_, fun x hx hg => ?_, fun e he => ?_, fun id w k hw hk => ?_,
    fun k e w hk hw => ?_, fun k e hk hnone => ?_⟩
  · intro e he
    rw [hm.ids, hm.next]
    exact h.ids e (hm.states ▸ he)
  · intro e he e' he' heq
    rw [hm.ids, hm.ids] at heq
    exact h.distinct e (hm.states ▸ he) e' (hm.states ▸ he') heq
  · obtain ⟨k, hk⟩ := List.getElem?_of_mem hx
    obtain ⟨y, hy, hyf⟩ := hflush hk hf
    rw [hm.ids, hm.latch]
    exact h.flying y (List.mem_of_getElem? hy) flush hyf
  · obtain ⟨y, hy, hyf⟩ := hflush hk hx
    obtain ⟨y', hy', hyf'⟩ := hflush hk' hx'
    exact h.alone k k' y y' call call' hy hy' hyf hyf' hcall
  · obtain ⟨y, hy, hyg⟩ := hglobal hk hx
    obtain ⟨y', hy', hyg'⟩ := hglobal hk' hx'
    exact h.sole k k' y y' hy hy' hyg hyg'
  · obtain ⟨k, hk⟩ := List.getElem?_of_mem hx
    obtain ⟨y, hy, hyg⟩ := hglobal hk hg
    exact hm.active.trans (h.active y (List.mem_of_getElem? hy) hyg)
  · rw [hm.latch, hm.ids]
    rcases hmem he with he | heq
    · exact h.clear e he
    · exact hm.clear e heq.symm
  · rw [hm.latch] at hw
    obtain ⟨e, he, hid⟩ := h.waiting id w k hw hk
    have hkt : k ≠ t := fun heq => hm.free id w hw (heq ▸ hk)
    refine ⟨e, ?_, (hm.ids e).trans hid⟩
    rw [hm.threads, List.getElem?_set_ne (Ne.symm hkt)]
    exact he
  · rw [hm.latch, hm.ids] at hw
    rcases hget hk with ⟨-, heq⟩ | ⟨-, hk⟩
    · rw [(hm.enters e heq.symm).1] at hw
      cases hw
    · exact h.parked k e w hk hw
  · rw [hm.latch, hm.ids] at hnone
    rcases hget hk with ⟨rfl, heq⟩ | ⟨hkt, hk⟩
    · have hcurrent := (hm.enters e heq.symm).2
      refine ⟨.inl hcurrent, fun _ _ _ _ _ => .inl hcurrent, fun j x hj hx hjc => ?_⟩
      rw [hcurrent] at hjc
      obtain rfl := Option.some.inj hjc
      rw [hk] at hj
      rw [← Option.some.inj hj] at hx
      cases hx
    · exact hm.ahead ht hkt (h.ahead k e hk hnone)

theorem Turns.same (h : s.Turns) (hthreads : s'.threads = s.threads) (hstates : s'.states = s.states)
    (hids : ∀ e, s'.cacheId e = s.cacheId e) (hlatch : s'.latch = s.latch) (hnext : s'.nextCacheId = s.nextCacheId)
    (hactive : s'.globalFlushActive = s.globalFlushActive) (hqueue : s'.runQueue = s.runQueue)
    (hcurrent : s'.current = s.current) : s'.Turns := by
  have hsame : s'.cacheId = s.cacheId := funext hids
  obtain ⟨hids, hdistinct, hflying, halone, hsole, hactives, hclear, hwaiting, hparked, hahead⟩ := h
  refine ⟨?_, ?_, ?_, ?_, ?_, ?_, ?_, ?_, ?_, fun t e ht hnone => ?_⟩
  · rwa [hstates, hsame, hnext]
  · rwa [hstates, hsame]
  · rwa [hthreads, hsame, hlatch]
  · rwa [hthreads]
  · rwa [hthreads]
  · rwa [hthreads, hactive]
  · rwa [hthreads, hlatch, hsame]
  · rwa [hthreads, hlatch, hsame]
  · rwa [hthreads, hlatch, hsame]
  · rw [hthreads] at ht
    rw [hlatch, hsame] at hnone
    obtain ⟨hq, hb, hp⟩ := hahead t e ht hnone
    refine ⟨?_, ?_, ?_⟩
    · rwa [hcurrent, hqueue]
    · rwa [hthreads, hqueue, hcurrent]
    · rwa [hthreads, hcurrent, hstates]

variable (stage) in
theorem Turns.createThread (h : s.Turns) (hp : s.Placed) (hplain : stage.flush? = none)
    (hcalm : ∀ e wait, stage ≠ .flushPages e wait)
    (hglobal : stage.global = true → s.globalFlushActive = false) :
    Turns { s.createThread stage with globalFlushActive := s.globalFlushActive || stage.global } := by
  have hget : ∀ {k : Nat} {x : Stage}, (s.threads ++ [stage])[k]? = some x →
      s.threads[k]? = some x ∨ k = s.threads.length ∧ x = stage := by
    intro k x hk
    rcases Nat.lt_or_ge k s.threads.length with hlt | hge
    · rw [List.getElem?_append_left hlt] at hk
      exact .inl hk
    · have hlt := (List.getElem?_eq_some_iff.mp hk).1
      rw [List.length_append, List.length_singleton] at hlt
      obtain rfl : k = s.threads.length := by omega
      rw [List.getElem?_append_right le_rfl, Nat.sub_self, List.getElem?_cons_zero] at hk
      exact .inr ⟨rfl, (Option.some.inj hk).symm⟩
  have hold : ∀ {k : Nat} {x : Stage}, s.threads[k]? = some x → (s.threads ++ [stage])[k]? = some x := by
    intro k x hk
    rw [List.getElem?_append_left (List.getElem?_eq_some_iff.mp hk).1]
    exact hk
  have hflush : ∀ {k : Nat} {x : Stage} {flush : Flush}, (s.threads ++ [stage])[k]? = some x →
      x.flush? = some flush → s.threads[k]? = some x := by
    intro k x flush hk hx
    rcases hget hk with hk | ⟨-, rfl⟩
    · exact hk
    · rw [hplain] at hx
      cases hx
  have hpages : ∀ {k e : Nat} {wait : Bool}, (s.threads ++ [stage])[k]? = some (.flushPages e wait) →
      s.threads[k]? = some (.flushPages e wait) := by
    intro k e wait hk
    rcases hget hk with hk | ⟨-, heq⟩
    · exact hk
    · exact absurd heq.symm (hcalm e wait)
  have hinactive : ∀ {k : Nat} {x : Stage}, s.threads[k]? = some x → x.global = true → stage.global = true → False := by
    intro k x hk hx hg
    have hactive := h.active x (List.mem_of_getElem? hk) hx
    rw [hglobal hg] at hactive
    cases hactive
  refine ⟨h.ids, h.distinct, fun x hx flush hf => ?_, fun k k' x x' call call' hk hk' hx hx' hcall => ?_,
    fun k k' x x' hk hk' hx hx' => ?_, fun x hx hg => ?_, fun e he => ?_, fun id w k hw hk => ?_,
    fun k e w hk hw => h.parked k e w (hpages hk) hw, fun k e hk hnone => ?_⟩
  · obtain ⟨k, hk⟩ := List.getElem?_of_mem hx
    exact h.flying x (List.mem_of_getElem? (hflush hk hf)) flush hf
  · exact h.alone k k' x x' call call' (hflush hk hx) (hflush hk' hx') hx hx' hcall
  · rcases hget hk with hold₁ | ⟨hlen, heq⟩
    · rcases hget hk' with hold₂ | ⟨-, heq'⟩
      · exact h.sole k k' x x' hold₁ hold₂ hx hx'
      · exact (hinactive hold₁ hx (heq' ▸ hx')).elim
    · rcases hget hk' with hold₂ | ⟨hlen', -⟩
      · exact (hinactive hold₂ hx' (heq ▸ hx)).elim
      · rw [hlen, hlen']
  · rcases List.mem_append.mp hx with hx | hx
    · exact Bool.or_eq_true_iff.mpr (.inl (h.active x hx hg))
    · exact Bool.or_eq_true_iff.mpr (.inr (List.mem_singleton.mp hx ▸ hg))
  · obtain ⟨k, hk⟩ := List.getElem?_of_mem he
    exact h.clear e (List.mem_of_getElem? (hpages hk))
  · obtain ⟨e, he, hid⟩ := h.waiting id w k hw hk
    exact ⟨e, hold he, hid⟩
  · have ha := h.ahead k e (hpages hk) hnone
    have hfresh : s.threads.length ∉ s.places := fun hm => Nat.lt_irrefl _ (hp.lt hm)
    refine ⟨ha.queued.imp_right (List.mem_append_left _), fun j x hj hx hjq => ?_, fun j x hj hx hjc => ?_⟩
    · by_cases hjs : j ∈ s.runQueue
      · rcases hget hj with hj | ⟨heq, -⟩
        · exact (ha.before j x hj hx hjs).imp_right (fun hb => hb.enqueue hjs (List.prefix_append _ _))
        · exact absurd (heq ▸ mem_places_of_queued hjs) hfresh
      · exact ha.queued.imp_right (fun hq => precedes_enqueued hq hjs (List.prefix_append _ _))
    · have hjp : j ∈ s.places := mem_places_of_current hjc
      rcases hget hj with hj | ⟨heq, -⟩
      · exact ha.past j x hj hx hjc
      · exact absurd (heq ▸ hjp) hfresh

theorem Turns.schedule (h : s.Turns) {queue : List Nat} (hcurrent : s.current = none)
    (hqueue : s.runQueue = t :: queue) : Turns { s with current := some t, runQueue := queue } := by
  refine ⟨h.ids, h.distinct, h.flying, h.alone, h.sole, h.active, h.clear, h.waiting, h.parked,
    fun k e hk hnone => ?_⟩
  have ha := h.ahead k e hk hnone
  have hkq : k ∈ t :: queue := by
    have hqueued := ha.queued
    rw [hcurrent, hqueue] at hqueued
    exact hqueued.resolve_left (by simp)
  have hbefore : ∀ (j : Nat) (x : Stage), s.threads[j]? = some x → x.global = true → j ∈ t :: queue →
      Precedes (t :: queue) k j := by
    intro j x hj hx hjq
    have hb := ha.before j x hj hx (hqueue ▸ hjq)
    rw [hcurrent, hqueue] at hb
    exact hb.resolve_left (by simp)
  by_cases hkt : k = t
  · subst hkt
    refine ⟨.inl rfl, fun j x hj hx _ => .inl rfl, fun j x hj hx hjc => ?_⟩
    obtain rfl := Option.some.inj hjc
    exact absurd rfl (hbefore _ x hj hx (List.mem_cons_self ..)).not_head
  · refine ⟨.inr ((List.mem_cons.mp hkq).resolve_left hkt), fun j x hj hx hjq => .inr ?_, fun j x hj hx hjc => ?_⟩
    · exact (hbefore j x hj hx (List.mem_cons_of_mem _ hjq)).dequeue hkt
    · obtain rfl := Option.some.inj hjc
      exact absurd rfl (hbefore _ x hj hx (List.mem_cons_self ..)).not_head

theorem Turns.deactivate (h : s.Turns) (hnone : ∀ x ∈ s.threads, x.global = false) :
    Turns { s with globalFlushActive := false } := by
  refine ⟨h.ids, h.distinct, h.flying, h.alone, h.sole, fun x hx hg => ?_, h.clear, h.waiting, h.parked,
    fun t e ht hw => ?_⟩
  · rw [hnone x hx] at hg
    cases hg
  · have ha := h.ahead t e ht hw
    exact ⟨ha.queued, ha.before, ha.past⟩

theorem Turns.waits (h : s.Turns) (hcurrent : s.current = some t) (ht : s.threads[t]? = some (.flush e))
    {w : List Nat} (hw : s.latch.find (s.cacheId e) = some w) :
    Turns ({ s with latch := s.latch.put (s.cacheId e) (w ++ [t]) }.suspend t (.flushPages e true)) := by
  have hfind : ∀ id, (s.latch.put (s.cacheId e) (w ++ [t])).find id =
      if id = s.cacheId e then some (w ++ [t]) else s.latch.find id := fun id => Table.find_put
  have hm : Ordinary s ({ s with latch := s.latch.put (s.cacheId e) (w ++ [t]) }.suspend t (.flushPages e true)) t
      (.flush e) (.flushPages e true) :=
    ⟨rfl, rfl, fun _ => rfl, List.prefix_refl _, .inr ⟨hcurrent, rfl⟩, fun hg => absurd hg (by simp [Stage.global]),
      fun _ _ hg => absurd hg (by simp [Stage.global])⟩
  have hget : ∀ {k : Nat} {x : Stage}, (s.threads.set t (.flushPages e true))[k]? = some x →
      k = t ∧ x = .flushPages e true ∨ k ≠ t ∧ s.threads[k]? = some x := get_of_set ht
  have hold : ∀ {k : Nat} {x : Stage}, (s.threads.set t (.flushPages e true))[k]? = some x →
      (∀ e', x ≠ .flushPages e' true) → s.threads[k]? = some x := by
    intro k x hk hx
    rcases hget hk with ⟨-, heq⟩ | ⟨-, hk⟩
    · exact absurd heq (hx e)
    · exact hk
  refine ⟨h.ids, h.distinct, fun x hx flush hf => ?_, fun k k' x x' call call' hk hk' hx hx' hcall => ?_,
    fun k k' x x' hk hk' hx hx' => ?_, fun x hx hg => ?_, fun e' he => ?_, fun id w' k hw' hk => ?_,
    fun k e' w' hk hw' => ?_, fun k e' hk hnone => ?_⟩
  · obtain ⟨k, hk⟩ := List.getElem?_of_mem hx
    have hk := hold hk (fun e' heq => by rw [heq] at hf; cases hf)
    obtain ⟨hcond, hsome⟩ := h.flying x (List.mem_of_getElem? hk) flush hf
    refine ⟨hcond, ?_⟩
    change (s.latch.put _ _).find _ ≠ none
    rw [hfind]
    split
    · exact Option.some_ne_none _
    · exact hsome
  · exact h.alone k k' x x' call call' (hold hk (fun e' heq => by rw [heq] at hx; cases hx))
      (hold hk' (fun e' heq => by rw [heq] at hx'; cases hx')) hx hx' hcall
  · exact h.sole k k' x x' (hold hk (fun e' heq => by rw [heq] at hx; cases hx))
      (hold hk' (fun e' heq => by rw [heq] at hx'; cases hx')) hx hx'
  · obtain ⟨k, hk⟩ := List.getElem?_of_mem hx
    exact h.active x (List.mem_of_getElem? (hold hk (fun e' heq => by rw [heq] at hg; cases hg))) hg
  · obtain ⟨k, hk⟩ := List.getElem?_of_mem he
    have hnone := h.clear e' (List.mem_of_getElem? (hold hk (fun e' heq => by cases heq)))
    change (s.latch.put _ _).find (s.cacheId e') = none
    rw [hfind, if_neg, hnone]
    intro heq
    rw [heq, hw] at hnone
    cases hnone
  · change (s.latch.put _ _).find id = some w' at hw'
    have hset : k ≠ t → ∀ e', s.threads[k]? = some (.flushPages e' true) →
        (s.threads.set t (.flushPages e true))[k]? = some (.flushPages e' true) := by
      intro hkt e' he'
      rw [List.getElem?_set_ne (Ne.symm hkt)]
      exact he'
    have hne : ∀ e', s.threads[k]? = some (.flushPages e' true) → k ≠ t := by
      rintro e' he' rfl
      rw [ht] at he'
      cases he'
    rw [hfind] at hw'
    split at hw'
    case isTrue hid =>
      obtain rfl := Option.some.inj hw'
      rcases List.mem_append.mp hk with hk | hk
      · obtain ⟨e', he', hid'⟩ := h.waiting _ w k hw hk
        exact ⟨e', hset (hne e' he') e' he', hid'.trans hid.symm⟩
      · obtain rfl := List.mem_singleton.mp hk
        exact ⟨e, List.getElem?_set_self (List.getElem?_eq_some_iff.mp ht).1, hid.symm⟩
    case isFalse =>
      obtain ⟨e', he', hid'⟩ := h.waiting id w' k hw' hk
      exact ⟨e', hset (hne e' he') e' he', hid'⟩
  · change (s.latch.put _ _).find (s.cacheId e') = some w' at hw'
    rw [hfind] at hw'
    rcases hget hk with ⟨rfl, heq⟩ | ⟨-, hk⟩
    · obtain ⟨rfl, -⟩ := Stage.flushPages.inj heq
      rw [if_pos rfl] at hw'
      rw [← Option.some.inj hw']
      exact List.mem_append_right _ (List.mem_singleton_self _)
    · split at hw'
      case isTrue hid =>
        rw [← Option.some.inj hw']
        exact List.mem_append_left _ (h.parked k e' w hk (hid ▸ hw))
      case isFalse => exact h.parked k e' w' hk hw'
  · change (s.latch.put _ _).find (s.cacheId e') = none at hnone
    rw [hfind] at hnone
    split at hnone
    case isTrue => cases hnone
    case isFalse hid =>
      rcases hget hk with ⟨rfl, heq⟩ | ⟨hkt, hk⟩
      · obtain ⟨rfl, -⟩ := Stage.flushPages.inj heq
        exact absurd rfl hid
      · exact hm.ahead ht hkt (h.ahead k e' hk hnone)

/-- The latch is free for a context that goes into flush_pages. -/
theorem Turns.latch_free (h : s.Turns) (hp : s.Placed) (hcurrent : s.current = some t) {wait : Bool}
    (ht : s.threads[t]? = some (.flushPages e wait)) : s.latch.find (s.cacheId e) = none := by
  cases wait with
  | false => exact h.clear e (List.mem_of_getElem? ht)
  | true =>
      cases hw : s.latch.find (s.cacheId e) with
      | none => rfl
      | some w => exact absurd (h.parked t e w ht hw) (hp.notMem_latched (.inl hcurrent) hw)

theorem Turns.only (h : s.Turns) (ho : s.Orderly) (hp : s.Placed) (hcurrent : s.current = some t) {wait : Bool}
    (ht : s.threads[t]? = some (.flushPages e wait)) {k : Nat} {wait' : Bool}
    (hk : s.threads[k]? = some (.flushPages e wait')) : k = t := by
  have hfree := h.latch_free hp hcurrent ht
  cases wait' with
  | false =>
      have hsweep := ho.sweeping k _ hk rfl
      rw [hcurrent] at hsweep
      exact (Option.some.inj hsweep).symm
  | true =>
      cases wait with
      | true => exact ho.single k t _ _ e hk ht rfl rfl
      | false => exact absurd (((h.ahead k e hk hfree).past t _ ht rfl hcurrent).2 e rfl) (Nat.lt_irrefl _)

theorem Turns.unflushed (h : s.Turns)
    (hfree : s.latch.find (s.cacheId e) = none) : s.Unflushed e := by
  intro x hx flush hf heq
  obtain ⟨hcond, hsome⟩ := h.flying x hx flush hf
  rw [hcond, heq] at hsome
  exact hsome hfree

theorem Turns.taken (h : s.Turns) (ho : s.Orderly) (hp : s.Placed) (hcurrent : s.current = some t) {wait : Bool}
    (ht : s.threads[t]? = some (.flushPages e wait)) :
    ((s.take e).setStage t (.allocate (s.taking e wait))).Turns := by
  have hlive : ∀ {k : Nat} {x : Stage} {e' : Nat}, s.threads[k]? = some x → x.state = some e' → e' ∈ s.states :=
    fun hk hx => ho.live _ (List.mem_of_getElem? hk) _ hx
  have he : e ∈ s.states := hlive ht rfl
  have hfree := h.latch_free hp hcurrent ht
  have hids : ∀ e', (s.take e).cacheId e' = s.cacheId e' := by
    intro e'
    change (Function.update s.files e _ e').descriptor.cacheId = _
    by_cases heq : e' = e
    · rw [heq, Function.update_self]
      rfl
    · rw [Function.update_of_ne heq]
      rfl
  have hfind : ∀ id, (s.take e).latch.find id = if id = s.cacheId e then some [] else s.latch.find id := by
    intro id
    change (s.latch.put (s.cacheId e) ((s.latch.find (s.cacheId e)).getD [])).find id = _
    rw [hfree, Table.find_put]
    rfl
  have hm : Ordinary s ((s.take e).setStage t (.allocate (s.taking e wait))) t (.flushPages e wait)
      (.allocate (s.taking e wait)) := by
    refine ⟨rfl, rfl, hids, List.prefix_refl _, .inl rfl, fun hg => ?_, fun e' hpast _ => ⟨by simp, hpast.2⟩⟩
    simpa [Stage.global, Stage.flush?, taking] using hg
  have hget : ∀ {k : Nat} {x : Stage}, (s.threads.set t (.allocate (s.taking e wait)))[k]? = some x →
      k = t ∧ x = .allocate (s.taking e wait) ∨ k ≠ t ∧ s.threads[k]? = some x := get_of_set ht
  have hpages : ∀ {k e' : Nat} {wait' : Bool},
      (s.threads.set t (.allocate (s.taking e wait)))[k]? = some (.flushPages e' wait') →
      k ≠ t ∧ s.threads[k]? = some (.flushPages e' wait') ∧ s.cacheId e' ≠ s.cacheId e := by
    intro k e' wait' hk
    rcases hget hk with ⟨-, heq⟩ | ⟨hkt, hold⟩
    · cases heq
    · refine ⟨hkt, hold, fun hid => hkt ?_⟩
      obtain rfl := h.distinct e' (hlive hold rfl) e he hid
      exact h.only ho hp hcurrent ht hold
  have hglobal : ∀ {k : Nat} {x : Stage}, (s.threads.set t (.allocate (s.taking e wait)))[k]? = some x →
      x.global = true → ∃ y, s.threads[k]? = some y ∧ y.global = true := by
    intro k x hk hx
    rcases hget hk with ⟨rfl, rfl⟩ | ⟨-, hk⟩
    · exact ⟨_, ht, hm.global hx⟩
    · exact ⟨x, hk, hx⟩
  have halone : ∀ {k : Nat} {x : Stage} {call : Flush}, s.threads[k]? = some x → x.flush? = some call →
      call.state ≠ e :=
    fun hk hx => h.unflushed hfree _ (List.mem_of_getElem? hk) _ hx
  refine ⟨fun e' he' => ?_, fun e' he' e'' he'' heq => ?_, fun x hx flush hf => ?_,
    fun k k' x x' call call' hk hk' hx hx' hcall => ?_, fun k k' x x' hk hk' hx hx' => ?_, fun x hx hg => ?_,
    fun e' he' => ?_, fun id w k hw hk => ?_, fun k e' w hk hw => ?_, fun k e' hk hnone => ?_⟩
  · change (s.take e).cacheId e' < s.nextCacheId
    rw [hids]
    exact h.ids e' he'
  · change (s.take e).cacheId e' = (s.take e).cacheId e'' at heq
    rw [hids, hids] at heq
    exact h.distinct e' he' e'' he'' heq
  · change flush.cond = (s.take e).cacheId flush.state ∧ (s.take e).latch.find flush.cond ≠ none
    rw [hids, hfind]
    obtain ⟨k, hk⟩ := List.getElem?_of_mem hx
    rcases hget hk with ⟨-, rfl⟩ | ⟨-, hk⟩
    · obtain rfl := Option.some.inj hf
      refine ⟨rfl, ?_⟩
      rw [if_pos (show (s.taking e wait).cond = s.cacheId e from rfl)]
      exact Option.some_ne_none _
    · obtain ⟨hcond, hsome⟩ := h.flying x (List.mem_of_getElem? hk) flush hf
      refine ⟨hcond, ?_⟩
      split
      · exact Option.some_ne_none _
      · exact hsome
  · have hstate : ∀ {call : Flush}, (Stage.allocate (s.taking e wait)).flush? = some call → call.state = e :=
      fun hc => by rw [← Option.some.inj hc]; rfl
    rcases hget hk with ⟨hkt, heq⟩ | ⟨-, hold⟩
    · rcases hget hk' with ⟨hkt', -⟩ | ⟨-, hold'⟩
      · rw [hkt, hkt']
      · exact absurd (hcall.symm.trans (hstate (heq ▸ hx))) (halone hold' hx')
    · rcases hget hk' with ⟨-, heq'⟩ | ⟨-, hold'⟩
      · exact absurd (hcall.trans (hstate (heq' ▸ hx'))) (halone hold hx)
      · exact h.alone k k' x x' call call' hold hold' hx hx' hcall
  · obtain ⟨y, hy, hyg⟩ := hglobal hk hx
    obtain ⟨y', hy', hyg'⟩ := hglobal hk' hx'
    exact h.sole k k' y y' hy hy' hyg hyg'
  · obtain ⟨k, hk⟩ := List.getElem?_of_mem hx
    obtain ⟨y, hy, hyg⟩ := hglobal hk hg
    exact h.active y (List.mem_of_getElem? hy) hyg
  · obtain ⟨k, hk⟩ := List.getElem?_of_mem he'
    obtain ⟨-, hk, hid⟩ := hpages hk
    change (s.take e).latch.find ((s.take e).cacheId e') = none
    rw [hids, hfind, if_neg hid]
    exact h.clear e' (List.mem_of_getElem? hk)
  · change (s.take e).latch.find id = some w at hw
    rw [hfind] at hw
    split at hw
    case isTrue =>
      obtain rfl := Option.some.inj hw
      cases hk
    case isFalse hid =>
      obtain ⟨e', he', hid'⟩ := h.waiting id w k hw hk
      refine ⟨e', ?_, (hids e').trans hid'⟩
      have hkt : k ≠ t := by
        rintro rfl
        rw [ht] at he'
        obtain ⟨rfl, -⟩ := Stage.flushPages.inj (Option.some.inj he')
        exact hid hid'.symm
      exact (List.getElem?_set_ne (Ne.symm hkt)).trans he'
  · obtain ⟨-, hk, hid⟩ := hpages hk
    change (s.take e).latch.find ((s.take e).cacheId e') = some w at hw
    rw [hids, hfind, if_neg hid] at hw
    exact h.parked k e' w hk hw
  · obtain ⟨hkt, hk, hid⟩ := hpages hk
    change (s.take e).latch.find ((s.take e).cacheId e') = none at hnone
    rw [hids, hfind, if_neg hid] at hnone
    exact hm.ahead ht hkt (h.ahead k e' hk hnone)

theorem idxOf_dropWhile {e e' : Nat} {xs : List Nat} (hnodup : xs.Nodup)
    (h : (xs.dropWhile (· ≠ e))[1]? = some e') : xs.idxOf e' = xs.idxOf e + 1 := by
  induction xs with
  | nil => cases h
  | cons x xs ih =>
      obtain ⟨hx, hnodup⟩ := List.nodup_cons.mp hnodup
      by_cases hxe : x = e
      · subst hxe
        rw [List.dropWhile_cons_of_neg (by simp), List.getElem?_cons_succ] at h
        have hne : x ≠ e' := fun heq => hx (heq ▸ List.mem_of_getElem? h)
        rw [List.idxOf_cons_self, List.idxOf_cons_ne _ hne]
        cases xs with
        | nil => cases h
        | cons y ys =>
            obtain rfl := Option.some.inj h
            rw [List.idxOf_cons_self]
      · rw [List.dropWhile_cons_of_pos (by simpa using hxe)] at h
        have hne : x ≠ e' := fun heq => hx (heq ▸ (List.dropWhile_sublist _).subset (List.mem_of_getElem? h))
        rw [List.idxOf_cons_ne _ hne, List.idxOf_cons_ne _ hxe, ih hnodup h]

theorem idxOf_next (ho : s.Orderly) (he : e ∈ s.states) {e' : Nat} (h : s.next e = some e') :
    s.states.idxOf e < s.states.idxOf e' := by
  rw [next, if_pos he] at h
  rw [idxOf_dropWhile (List.nodup_append.mp ho.nodup).1 h]
  exact Nat.lt_succ_self _

/-- Where a context goes on behind flush_pages. -/
def after (s : DiskWriter) (e : Nat) (wait : Bool) : Stage := if wait then .user else .sweep (s.next e)

/-- A flush ends, and those that waited for it are enqueued. -/
structure Finishes (s s' : DiskWriter) (t : Nat) (flush : Flush) (waiting : List Nat) : Prop where
  threads : s'.threads = s.threads.set t (s.after flush.state flush.wait)
  states : s'.states = s.states
  ids : ∀ e, s'.cacheId e = s.cacheId e
  next : s'.nextCacheId = s.nextCacheId
  active : s'.globalFlushActive = s.globalFlushActive
  current : s'.current = s.current
  latch : ∀ id, s'.latch.find id = if id = flush.cond then none else s.latch.find id
  queue : s.runQueue <+: s'.runQueue
  woken : waiting ⊆ s'.runQueue

theorem Turns.finish (h : s.Turns) (ho : s.Orderly) (hp : s'.Placed) (hcurrent : s.current = some t)
    (ht : s.threads[t]? = some stage) (hflush : stage.flush? = some flush) {waiting : List Nat}
    (hw : s.latch.find flush.cond = some waiting) (hm : Finishes s s' t flush waiting) : s'.Turns := by
  have hlive : ∀ {k : Nat} {x : Stage} {e' : Nat}, s.threads[k]? = some x → x.state = some e' → e' ∈ s.states :=
    fun hk hx => ho.live _ (List.mem_of_getElem? hk) _ hx
  have he : flush.state ∈ s.states := hlive ht (Stage.state_of_flush hflush)
  have hcond : flush.cond = s.cacheId flush.state := (h.flying stage (List.mem_of_getElem? ht) flush hflush).1
  have hno : (s.after flush.state flush.wait).flush? = none := by
    rw [after]
    split <;> rfl
  have hnopages : ∀ e wait, s.after flush.state flush.wait ≠ .flushPages e wait := by
    intro e wait
    rw [after]
    split <;> simp
  have hone : (s.after flush.state flush.wait).global = true → stage.global = true := by
    intro hg
    rw [after] at hg
    split at hg
    · cases hg
    case isFalse hwait => exact Stage.global_of_flush hflush (by simpa using hwait)
  have hm' : Ordinary s s' t stage (s.after flush.state flush.wait) := by
    refine ⟨hm.threads, hm.states, hm.ids, hm.queue, .inl hm.current, hone, fun e hpast hg => ?_⟩
    rw [after] at hg ⊢
    split at hg
    · cases hg
    case isFalse hwait =>
      rw [if_neg hwait]
      refine ⟨by simp, fun e' he' => ?_⟩
      exact (hpast.2 flush.state (Stage.state_of_flush hflush)).trans (idxOf_next ho he he')
  have hget : ∀ {k : Nat} {x : Stage}, s'.threads[k]? = some x →
      k = t ∧ x = s.after flush.state flush.wait ∨ k ≠ t ∧ s.threads[k]? = some x := by
    intro k x hk
    rw [hm.threads] at hk
    exact get_of_set ht hk
  have hflushes : ∀ {k : Nat} {x : Stage} {call : Flush}, s'.threads[k]? = some x → x.flush? = some call →
      k ≠ t ∧ s.threads[k]? = some x := by
    intro k x call hk hx
    rcases hget hk with ⟨-, heq⟩ | hold
    · rw [heq, hno] at hx
      cases hx
    · exact hold
  have hpages : ∀ {k e' : Nat} {wait' : Bool}, s'.threads[k]? = some (.flushPages e' wait') →
      k ≠ t ∧ s.threads[k]? = some (.flushPages e' wait') := by
    intro k e' wait' hk
    rcases hget hk with ⟨-, heq⟩ | hold
    · exact absurd heq.symm (hnopages e' wait')
    · exact hold
  have hglobal : ∀ {k : Nat} {x : Stage}, s'.threads[k]? = some x → x.global = true →
      ∃ y, s.threads[k]? = some y ∧ y.global = true := by
    intro k x hk hx
    rcases hget hk with ⟨heq, rfl⟩ | ⟨-, hold⟩
    · exact ⟨stage, heq ▸ ht, hone hx⟩
    · exact ⟨x, hold, hx⟩
  refine ⟨fun e' he' => ?_, fun e' he' e'' he'' heq => ?_, fun x hx call hf => ?_,
    fun k k' x x' call call' hk hk' hx hx' hcall => ?_, fun k k' x x' hk hk' hx hx' => ?_, fun x hx hg => ?_,
    fun e' he' => ?_, fun id w k hw hk => ?_, fun k e' w hk hw => ?_, fun k e' hk hnone => ?_⟩
  · rw [hm.ids, hm.next]
    exact h.ids e' (hm.states ▸ he')
  · rw [hm.ids, hm.ids] at heq
    exact h.distinct e' (hm.states ▸ he') e'' (hm.states ▸ he'') heq
  · obtain ⟨k, hk⟩ := List.getElem?_of_mem hx
    obtain ⟨hkt, hold⟩ := hflushes hk hf
    obtain ⟨hid, hsome⟩ := h.flying x (List.mem_of_getElem? hold) call hf
    refine ⟨hid.trans (hm.ids _).symm, ?_⟩
    rw [hm.latch, if_neg]
    · exact hsome
    · intro heq
      have hstate := h.distinct _ (hlive hold (Stage.state_of_flush hf)) _ he (hid.symm.trans (heq.trans hcond))
      exact hkt (h.alone k t x stage call flush hold ht hf hflush hstate)
  · exact h.alone k k' x x' call call' (hflushes hk hx).2 (hflushes hk' hx').2 hx hx' hcall
  · obtain ⟨y, hy, hyg⟩ := hglobal hk hx
    obtain ⟨y', hy', hyg'⟩ := hglobal hk' hx'
    exact h.sole k k' y y' hy hy' hyg hyg'
  · obtain ⟨k, hk⟩ := List.getElem?_of_mem hx
    obtain ⟨y, hy, hyg⟩ := hglobal hk hg
    exact hm.active.trans (h.active y (List.mem_of_getElem? hy) hyg)
  · obtain ⟨k, hk⟩ := List.getElem?_of_mem he'
    rw [hm.latch, hm.ids]
    split
    · rfl
    · exact h.clear e' (List.mem_of_getElem? (hpages hk).2)
  · rw [hm.latch] at hw
    split at hw
    · cases hw
    · obtain ⟨e', he', hid⟩ := h.waiting id w k hw hk
      refine ⟨e', ?_, (hm.ids e').trans hid⟩
      have hkt : k ≠ t := by
        rintro rfl
        rw [ht] at he'
        rw [Option.some.inj he'] at hflush
        cases hflush
      rw [hm.threads, List.getElem?_set_ne (Ne.symm hkt)]
      exact he'
  · rw [hm.latch, hm.ids] at hw
    split at hw
    · cases hw
    · exact h.parked k e' w (hpages hk).2 hw
  · obtain ⟨hkt, hold⟩ := hpages hk
    rw [hm.latch, hm.ids] at hnone
    split at hnone
    case isFalse => exact hm'.ahead ht hkt (h.ahead k e' hold hnone)
    case isTrue hid =>
      obtain rfl : e' = flush.state := h.distinct e' (hlive hold rfl) _ he (hid.trans hcond)
      have hqueued : k ∈ s'.runQueue := hm.woken (h.parked k _ waiting hold (hid ▸ hw))
      have hwait : flush.wait = false := by
        by_contra hwait
        exact hkt (ho.single k t _ stage _ hold ht rfl (Stage.operand_of_flush hflush (by simpa using hwait)))
      have hafter : s.after flush.state flush.wait = .sweep (s.next flush.state) := by
        rw [after, hwait]
        rfl
      have honly : ∀ {j : Nat} {x : Stage}, s'.threads[j]? = some x → x.global = true → j = t := by
        intro j x hj hx
        obtain ⟨y, hy, hyg⟩ := hglobal hj hx
        exact h.sole j t y stage hy ht hyg (Stage.global_of_flush hflush hwait)
      have hcurrent' : s'.current = some t := hm.current.trans hcurrent
      refine ⟨.inr hqueued, fun j x hj hx hjq => ?_, fun j x hj hx _ => ?_⟩
      · obtain rfl := honly hj hx
        exact absurd hjq (hp.current_notMem hcurrent')
      · rcases hget hj with ⟨-, rfl⟩ | ⟨hjt, -⟩
        · rw [hafter, hm.states]
          exact ⟨by simp, fun e'' he'' => idxOf_next ho he he''⟩
        · exact absurd (honly hj hx) hjt

theorem allocate_files_of_live (ho : s.Orderly) (he : e ∈ s.states) : s.allocate.files e = s.files e :=
  Function.update_of_ne (fun heq : e = s.freed.headD s.fresh => ho.fresh_notMem (heq ▸ he)) _ _

theorem allocate_files_self (s : DiskWriter) :
    s.allocate.files (s.freed.headD s.fresh) = { descriptor := { cacheId := s.nextCacheId } } := Function.update_self ..

theorem Turns.allocate (h : s.Turns) (ho : s.Orderly) (hcurrent : s.current = some t)
    (ht : s.threads[t]? = some .user) : s.allocate.Turns := by
  have hid : ∀ e ∈ s.states, s.allocate.cacheId e = s.cacheId e :=
    fun e he => congrArg (fun f => f.descriptor.cacheId) (allocate_files_of_live ho he)
  have hself : s.allocate.cacheId (s.freed.headD s.fresh) = s.nextCacheId :=
    congrArg (fun f => f.descriptor.cacheId) (allocate_files_self s)
  have hlive : ∀ {k : Nat} {x : Stage} {e' : Nat}, s.threads[k]? = some x → x.state = some e' → e' ∈ s.states :=
    fun hk hx => ho.live _ (List.mem_of_getElem? hk) _ hx
  have hstates : ∀ {e}, e ∈ s.allocate.states → e ∈ s.states ∨ e = s.freed.headD s.fresh := by
    intro e he
    exact (List.mem_append.mp he).imp_right List.mem_singleton.mp
  refine ⟨fun e he => ?_, fun e he e' he' heq => ?_, fun x hx flush hf => ?_, h.alone, h.sole, h.active,
    fun e he => ?_, fun id w k hw hk => ?_, fun k e w hk hw => ?_, fun k e hk hnone => ?_⟩
  · change s.allocate.cacheId e < s.nextCacheId + 1
    rcases hstates he with he | rfl
    · rw [hid e he]
      exact (h.ids e he).trans (Nat.lt_succ_self _)
    · rw [hself]
      exact Nat.lt_succ_self _
  · rcases hstates he with he | rfl
    · rw [hid e he] at heq
      rcases hstates he' with he' | rfl
      · rw [hid e' he'] at heq
        exact h.distinct e he e' he' heq
      · rw [hself] at heq
        exact absurd heq (h.ids e he).ne
    · rw [hself] at heq
      rcases hstates he' with he' | rfl
      · rw [hid e' he'] at heq
        exact absurd heq.symm (h.ids e' he').ne
      · rfl
  · obtain ⟨k, hk⟩ := List.getElem?_of_mem hx
    rw [hid _ (hlive hk (Stage.state_of_flush hf))]
    exact h.flying x hx flush hf
  · obtain ⟨k, hk⟩ := List.getElem?_of_mem he
    rw [hid e (hlive hk rfl)]
    exact h.clear e he
  · obtain ⟨e, he, hcache⟩ := h.waiting id w k hw hk
    exact ⟨e, he, (hid e (hlive he rfl)).trans hcache⟩
  · rw [hid e (hlive hk rfl)] at hw
    exact h.parked k e w hk hw
  · rw [hid e (hlive hk rfl)] at hnone
    have ha := h.ahead k e hk hnone
    refine ⟨ha.queued, ha.before, fun j x hj hx hjc => ?_⟩
    have hjc : s.current = some j := hjc
    rw [hcurrent] at hjc
    obtain rfl := Option.some.inj hjc
    have hj : s.threads[t]? = some x := hj
    rw [ht] at hj
    rw [← Option.some.inj hj] at hx
    cases hx

theorem Turns.free (h : s.Turns) (hcurrent : s.current = some t) (ht : s.threads[t]? = some .user) (e : Nat) :
    (s.free e).Turns := by
  have hstates : ∀ {k}, k ∈ (s.free e).states → k ∈ s.states := List.mem_of_mem_erase
  refine ⟨fun k hk => h.ids k (hstates hk), fun k hk k' hk' => h.distinct k (hstates hk) k' (hstates hk'), h.flying,
    h.alone, h.sole, h.active, h.clear, h.waiting, h.parked, fun k e' hk hnone => ?_⟩
  have ha := h.ahead k e' hk hnone
  refine ⟨ha.queued, ha.before, fun j x hj hx hjc => ?_⟩
  have hjc : s.current = some j := hjc
  rw [hcurrent] at hjc
  obtain rfl := Option.some.inj hjc
  have hj : s.threads[t]? = some x := hj
  rw [ht] at hj
  rw [← Option.some.inj hj] at hx
  cases hx

end Tyrdbs.Storage.DiskWriter
