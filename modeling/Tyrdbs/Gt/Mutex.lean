import Tyrdbs.Gt.Scheduler

namespace Tyrdbs.Gt.Mutex

open Runs Outcome

/-- A mutex and the scheduler that serves it; inLock marks the contexts that
lock has put to sleep, inside those between lock and unlock. -/
structure System where
  engine : Engine := {}
  owner : Option Nat := none
  waitQueue : List Nat := []
  inLock : Nat → Bool := fun _ => false
  inside : Nat → Bool := fun _ => false

/-- What the current context does next. -/
inductive Op
  | lock
  | locked
  | unlock
  | other (a : Action)

namespace System

def own (s : System) (ctx : Nat) : System :=
  { s with owner := some ctx, inside := Function.update s.inside ctx true }

def lock (s : System) (ctx : Nat) : Except Fault System :=
  match s.owner with
  | none => .ok (s.own ctx)
  | some _ => do
      let (_, engine) ← s.engine.yield false
      return { s with
        engine := engine
        waitQueue := s.waitQueue ++ [ctx]
        inLock := Function.update s.inLock ctx true }

def locked (s : System) (ctx : Nat) : Except Fault System := do
  check (s.owner = none) .assertion
  return { s with inLock := Function.update s.inLock ctx false }.own ctx

def unlock (s : System) (ctx : Nat) : Except Fault System := do
  check (s.owner = some ctx) .assertion
  let s := { s with owner := none, inside := Function.update s.inside ctx false }
  match s.waitQueue with
  | [] => return s
  | front :: rest => do
      let engine ← s.engine.enqueue front
      return { s with engine := engine, waitQueue := rest }

def ended (s : System) (ctx : Nat) : Action → Nat → Bool
  | .exit => Function.update s.inside ctx false
  | _ => s.inside

def apply (s : System) (op : Op) : Except Fault System :=
  match op, s.engine.currentCtx with
  | .lock, some ctx => s.lock ctx
  | .locked, some ctx => s.locked ctx
  | .unlock, some ctx => s.unlock ctx
  | .other a, some ctx => do
      let engine ← s.engine.apply a
      return { s with engine := engine, inside := s.ended ctx a }
  | .other a, none => do
      let engine ← s.engine.apply a
      return { s with engine := engine }
  | _, none => .error .noContext

def CurrentInLock (s : System) : Prop := ∃ ctx, s.engine.currentCtx = some ctx ∧ s.inLock ctx = true

/-- A context resumed inside lock goes on there, and nobody but the mutex
wakes a context that sleeps in lock. -/
def Admits (s : System) : Op → Prop
  | .lock => s.engine.IsCurrent .running ∧ ¬ s.CurrentInLock
  | .locked => s.engine.IsCurrent .running ∧ s.CurrentInLock
  | .unlock => s.engine.IsCurrent .running ∧ ¬ s.CurrentInLock
  | .other (.enqueue ctx) => s.engine.Admits (.enqueue ctx) ∧ ¬ s.CurrentInLock ∧ s.inLock ctx = false
  | .other a => s.engine.Admits a ∧ ¬ s.CurrentInLock

def Step (s : System) (op : Op) (s' : System) : Prop := s.Admits op ∧ s.apply op = .ok s'

/-- At most one context is between lock and unlock, and one that is resumed
inside lock finds no owner. -/
def Exclusive (s : System) : Prop :=
  (∀ a b, s.inside a = true → s.inside b = true → a = b) ∧
  ∀ ctx, s.engine.currentCtx = some ctx → s.inLock ctx = true → s.owner = none

/-- The operations that give up the processor, if the mutex is taken. -/
def GivesUp : Op → Prop
  | .lock => True
  | .other (.yield _) => True
  | .other .exit => True
  | _ => False

/-- The owner gives up the processor while a context that unlock has woken is
still on its way. -/
def Barges (s : System) (op : Op) : Prop :=
  GivesUp op ∧ s.owner ≠ none ∧ s.engine.currentCtx = s.owner ∧ ∃ w ∈ s.engine.runQueue, s.inLock w = true

structure Held (s : System) : Prop where
  good : Engine.Good s.engine
  inside : ∀ ctx, s.inside ctx = true → s.owner = some ctx
  nodup : s.waitQueue.Nodup
  asleep : ∀ w ∈ s.waitQueue, ∃ c, s.engine.contexts.find w = some c ∧ c.state = .suspended
  locking : ∀ w ∈ s.waitQueue, s.inLock w = true
  placed : ∀ w, s.inLock w = true → w ∈ s.waitQueue ∨ w ∈ s.engine.runQueue ∨ s.engine.currentCtx = some w
  woken : ∀ o, s.owner = some o → ∀ w ∈ s.engine.runQueue, s.inLock w = true → s.engine.currentCtx = some o
  entry : ∀ ctx, s.engine.currentCtx = some ctx → s.inLock ctx = true → s.owner = none

variable {s s' : System} {ctx : Nat} {e : Engine}

theorem held_init : Held {} where
  good := Engine.good_init
  inside := fun _ h => by simp at h
  nodup := List.nodup_nil
  asleep := fun w hw => by simp at hw
  locking := fun w hw => by simp at hw
  placed := fun w hw => by simp at hw
  woken := fun o ho => by simp at ho
  entry := fun ctx h => by simp at h

theorem Held.exclusive (h : Held s) : Exclusive s :=
  ⟨fun a b ha hb => Option.some.inj ((h.inside a ha).symm.trans (h.inside b hb)), h.entry⟩

/-- The engine went on, and no context in lock was touched by it. -/
structure Aside (s : System) (e : Engine) (new : List Nat) : Prop where
  good : Engine.Good e
  rests : Engine.Rests s.engine e new
  free : ∀ k ∈ new, s.inLock k = false

theorem Aside.asleep {new : List Nat} (ha : Aside s e new) (h : Held s) :
    ∀ w ∈ s.waitQueue, ∃ c, e.contexts.find w = some c ∧ c.state = .suspended := by
  intro w hw
  obtain ⟨c, hc, hs⟩ := h.asleep w hw
  refine ⟨c, ha.rests w c hc hs (fun hn => ?_), hs⟩
  have hlocked := h.locking w hw
  rw [ha.free w hn] at hlocked
  exact Bool.noConfusion hlocked

theorem Held.goesOn (h : Held s) {new : List Nat} (ha : Aside s e new)
    (hqueue : e.runQueue = s.engine.runQueue ++ new) (hcur : e.currentCtx = s.engine.currentCtx) :
    Held { s with engine := e } := by
  have hold : ∀ w ∈ e.runQueue, s.inLock w = true → w ∈ s.engine.runQueue := by
    intro w hw hl
    rw [hqueue] at hw
    refine (List.mem_append.mp hw).resolve_right (fun hn => ?_)
    rw [ha.free w hn] at hl
    exact Bool.noConfusion hl
  refine ⟨ha.good, h.inside, h.nodup, ha.asleep h, h.locking, fun w hw => ?_, fun o ho w hw hl => ?_, fun k hk => ?_⟩
  · change w ∈ s.waitQueue ∨ w ∈ e.runQueue ∨ e.currentCtx = some w
    rw [hqueue, hcur, List.mem_append]
    have := h.placed w hw
    tauto
  · exact hcur.trans (h.woken o ho w (hold w hw hl) hl)
  · exact h.entry k (hcur.symm.trans hk)

/-- The current context gives up the processor, and whoever comes next finds
the mutex free if it comes back in lock. -/
theorem Held.switches (h : Held s) {new : List Nat} (ha : Aside s e new) {inside : Nat → Bool}
    (hinside : ∀ k, inside k = true → s.inside k = true)
    (hqueue : e.currentCtx.toList ++ e.runQueue = s.engine.runQueue ++ new) (hcur : ¬ s.CurrentInLock)
    (hfree : s.owner ≠ none → ∀ w ∈ s.engine.runQueue, s.inLock w = false) :
    Held { s with engine := e, inside := inside } := by
  have hold : ∀ w, w ∈ e.currentCtx.toList ++ e.runQueue → s.owner ≠ none → s.inLock w = false := by
    intro w hw ho
    rw [hqueue] at hw
    rcases List.mem_append.mp hw with hw | hw
    · exact hfree ho w hw
    · exact ha.free w hw
  refine ⟨ha.good, fun k hk => h.inside k (hinside k hk), h.nodup, ha.asleep h, h.locking, fun w hw => ?_,
    fun o ho w hw hl => ?_, fun k hk hl => ?_⟩
  · have hmem : w ∈ s.engine.runQueue → w ∈ e.currentCtx.toList ++ e.runQueue := fun hm =>
      hqueue ▸ List.mem_append_left _ hm
    rw [List.mem_append, Option.mem_toList] at hmem
    rcases h.placed w hw with hp | hp | hp
    · exact Or.inl hp
    · exact Or.inr ((hmem hp).symm)
    · exact absurd ⟨w, hp, hw⟩ hcur
  · have := hold w (List.mem_append_right _ hw) (by simp [show s.owner = some o from ho])
    rw [this] at hl
    exact Bool.noConfusion hl
  · by_contra ho
    have := hold k (List.mem_append_left _ (by simp [show e.currentCtx = some k from hk])) ho
    rw [this] at hl
    exact Bool.noConfusion hl

theorem Held.free_of_not_barges (h : Held s) {op : Op} (hop : GivesUp op) (hb : ¬ Barges s op) :
    s.owner ≠ none → ∀ w ∈ s.engine.runQueue, s.inLock w = false := by
  intro ho w hw
  by_contra hl
  have hl : s.inLock w = true := by simpa using hl
  obtain ⟨o, hown⟩ := Option.ne_none_iff_exists'.mp ho
  exact hb ⟨hop, ho, (h.woken o hown w hw hl).trans hown.symm, w, hw, hl⟩

theorem not_inLock (hcur : s.engine.currentCtx = some ctx) (h : ¬ s.CurrentInLock) : s.inLock ctx = false := by
  by_contra hl
  exact h ⟨ctx, hcur, by simpa using hl⟩

theorem Held.own (h : Held s) (hcur : s.engine.currentCtx = some ctx) (hfree : s.owner = none)
    (hl : s.inLock ctx = false) : Held (s.own ctx) := by
  refine ⟨h.good, fun k hk => ?_, h.nodup, h.asleep, h.locking, h.placed, fun o ho _ _ _ => ?_, fun k hk hlk => ?_⟩
  · by_cases hkc : k = ctx
    · rw [hkc]
      rfl
    · have hk : Function.update s.inside ctx true k = true := hk
      rw [Function.update_of_ne hkc] at hk
      exact absurd ((h.inside k hk).symm.trans hfree) (Option.some_ne_none k)
  · have ho : ctx = o := Option.some.inj ho
    exact ho ▸ hcur
  · have hk : k = ctx := Option.some.inj (hk.symm.trans hcur)
    have hlk : s.inLock k = true := hlk
    rw [hk, hl] at hlk
    exact Bool.noConfusion hlk

theorem Held.sleeps (h : Held s) (hcur : s.engine.currentCtx = some ctx) (hrun : s.engine.IsCurrent .running)
    (hfree : ∀ w ∈ s.engine.runQueue, s.inLock w = false) :
    ∃ r e, s.engine.yield false = .ok (r, e) ∧
      Held { s with engine := e, waitQueue := s.waitQueue ++ [ctx], inLock := Function.update s.inLock ctx true } := by
  obtain ⟨e, hyield, hgood, hqueue, hrests, hkeeps⟩ := Engine.yield_spec h.good (Or.inr hrun) false
  obtain ⟨c, hc, hs⟩ := hrun.find hcur
  have hqueue : e.currentCtx.toList ++ e.runQueue = s.engine.runQueue := hqueue.trans (List.append_nil _)
  have hnot : ctx ∉ e.currentCtx.toList ++ e.runQueue := by
    rw [hqueue]
    exact h.good.inv.not_queued hc (by simp [hs])
  rw [List.mem_append, Option.mem_toList, not_or] at hnot
  have hnowait : ctx ∉ s.waitQueue := by
    intro hw
    obtain ⟨c', hc', hs'⟩ := h.asleep ctx hw
    rw [hc, Option.some.injEq] at hc'
    rw [hc', hs'] at hs
    exact CtxState.noConfusion hs
  have hasleep : ∃ c, e.contexts.find ctx = some c ∧ c.state = .suspended := by
    obtain ⟨⟨state, user⟩, hc'⟩ := hkeeps ctx c hc
    have hrunning := hgood.inv.running ctx _ hc'
    have hqueued := hgood.inv.queued ctx
    cases state with
    | suspended => exact ⟨_, hc', rfl⟩
    | waiting => exact absurd (hqueued.mpr ⟨_, hc', rfl⟩) hnot.2
    | running => exact absurd (hrunning.mp (Or.inl rfl)) hnot.1
    | terminated => exact absurd (hrunning.mp (Or.inr rfl)) hnot.1
  have hclear : ∀ w, w ∈ e.currentCtx.toList ++ e.runQueue → Function.update s.inLock ctx true w = false := by
    intro w hw
    have hne : w ≠ ctx := fun hwc => by
      rw [hwc, List.mem_append, Option.mem_toList] at hw
      exact hw.elim hnot.1 hnot.2
    rw [Function.update_of_ne hne]
    exact hfree w (hqueue ▸ hw)
  refine ⟨_, e, hyield, hgood, h.inside, ?_, fun w hw => ?_, fun w hw => ?_, fun w hw => ?_, fun o _ w hw hl => ?_,
    fun k hk hl => ?_⟩
  · exact List.nodup_append.mpr ⟨h.nodup, List.nodup_singleton _, fun x hx y hy hxy =>
      hnowait (by rw [List.mem_singleton] at hy; rwa [← hy, ← hxy])⟩
  · rcases List.mem_append.mp hw with hw | hw
    · obtain ⟨c', hc', hs'⟩ := h.asleep w hw
      exact ⟨c', hrests w c' hc' hs' (List.not_mem_nil), hs'⟩
    · exact List.mem_singleton.mp hw ▸ hasleep
  · rcases List.mem_append.mp hw with hw | hw
    · have hne : w ≠ ctx := fun hwc => hnowait (hwc ▸ hw)
      exact (Function.update_of_ne hne _ _).trans (h.locking w hw)
    · rw [List.mem_singleton.mp hw]
      exact Function.update_self ..
  · by_cases hwc : w = ctx
    · exact Or.inl (List.mem_append_right _ (by simp [hwc]))
    · have hw : s.inLock w = true := (Function.update_of_ne hwc _ _).symm.trans hw
      rcases h.placed w hw with hp | hp | hp
      · exact Or.inl (List.mem_append_left _ hp)
      · exact absurd (hfree w hp) (by simp [hw])
      · exact absurd (hp.symm.trans hcur) (by simp [hwc])
  · exact absurd ((hclear w (List.mem_append_right _ hw)).symm.trans hl) (by simp)
  · have hmem : k ∈ e.currentCtx.toList := by simp [show e.currentCtx = some k from hk]
    exact absurd ((hclear k (List.mem_append_left _ hmem)).symm.trans hl) (by simp)

theorem Held.lock (h : Held s) (hcur : s.engine.currentCtx = some ctx) (hadmits : s.Admits .lock)
    (hb : ¬ s.Barges .lock) : ∃ s', s.lock ctx = .ok s' ∧ Held s' := by
  cases ho : s.owner with
  | none =>
      refine ⟨s.own ctx, ?_, h.own hcur ho (not_inLock hcur hadmits.2)⟩
      rw [System.lock, ho]
  | some o =>
      have howned : s.owner ≠ none := by simp [ho]
      obtain ⟨r, e, hyield, hheld⟩ := h.sleeps hcur hadmits.1 (h.free_of_not_barges (show GivesUp .lock from trivial)
        hb howned)
      refine ⟨_, ?_, hheld⟩
      rw [System.lock, ho]
      simp only [hyield, ok_bind]
      rfl

/-- The assertion in lock holds, and the context owns the mutex. -/
theorem Held.locked (h : Held s) (hcur : s.engine.currentCtx = some ctx) (hadmits : s.Admits .locked) :
    ∃ s', s.locked ctx = .ok s' ∧ Held s' := by
  obtain ⟨hrun, k, hk, hl⟩ := hadmits
  have hkc : k = ctx := Option.some.inj (hk.symm.trans hcur)
  subst hkc
  have hfree := h.entry k hcur hl
  obtain ⟨c, hc, hs⟩ := hrun.find hcur
  have hleft : Held { s with inLock := Function.update s.inLock k false } := by
    have hdown : ∀ w, Function.update s.inLock k false w = true → w ≠ k ∧ s.inLock w = true := by
      intro w hw
      by_cases hwk : w = k
      · rw [hwk, Function.update_self] at hw
        exact Bool.noConfusion hw
      · exact ⟨hwk, (Function.update_of_ne hwk _ _).symm.trans hw⟩
    refine ⟨h.good, h.inside, h.nodup, h.asleep, fun w hw => ?_, fun w hw => h.placed w (hdown w hw).2,
      fun o ho w hw hl => h.woken o ho w hw (hdown w hl).2, fun _ _ _ => hfree⟩
    have hne : w ≠ k := by
      rintro rfl
      obtain ⟨c', hc', hs'⟩ := h.asleep w hw
      rw [hc, Option.some.injEq] at hc'
      rw [hc', hs'] at hs
      exact CtxState.noConfusion hs
    exact (Function.update_of_ne hne _ _).trans (h.locking w hw)
  refine ⟨_, ?_, hleft.own hcur hfree (Function.update_self ..)⟩
  rw [System.locked, check_of hfree]
  rfl

theorem Held.unlock (h : Held s) (hs : s.unlock ctx = .ok s') : Held s' := by
  by_cases ho : s.owner = some ctx
  · have hfreed : Held { s with owner := none, inside := Function.update s.inside ctx false } := by
      refine ⟨h.good, fun k hk => ?_, h.nodup, h.asleep, h.locking, h.placed, fun o ho => by simp at ho,
        fun _ _ _ => rfl⟩
      by_cases hkc : k = ctx
      · rw [hkc] at hk
        exact absurd ((Function.update_self ctx false s.inside).symm.trans hk) (by simp)
      · have hk : s.inside k = true := (Function.update_of_ne hkc _ _).symm.trans hk
        exact absurd ((h.inside k hk).symm.trans ho) (by simp [hkc])
    rw [System.unlock, check_of ho, ok_bind] at hs
    cases hw : s.waitQueue with
    | nil =>
        rw [hw] at hs
        exact Except.ok.inj hs ▸ (hw ▸ hfreed)
    | cons front rest =>
        have hnodup : front ∉ rest ∧ rest.Nodup := List.nodup_cons.mp (hw ▸ h.nodup)
        have hmem : ∀ w ∈ rest, w ∈ s.waitQueue := fun w hr => hw ▸ List.mem_cons_of_mem front hr
        obtain ⟨c, hc, hsus⟩ := h.asleep front (hw ▸ List.mem_cons_self ..)
        obtain ⟨e, henq, hgood, hqueue, hcur, hrests⟩ := Engine.enqueue_good h.good hc hsus
        rw [hw] at hs
        simp only [henq, ok_bind] at hs
        rw [← Except.ok.inj hs]
        refine ⟨hgood, hfreed.inside, hnodup.2, fun w hr => ?_, fun w hr => h.locking w (hmem w hr), fun w hl => ?_,
          fun o ho => by simp at ho, fun _ _ _ => rfl⟩
        · obtain ⟨c', hc', hs'⟩ := h.asleep w (hmem w hr)
          refine ⟨c', hrests w c' hc' hs' (fun hf => ?_), hs'⟩
          exact hnodup.1 (List.mem_singleton.mp hf ▸ hr)
        · change w ∈ rest ∨ w ∈ e.runQueue ∨ e.currentCtx = some w
          have hp := h.placed w hl
          rw [hw, List.mem_cons] at hp
          rw [hqueue, hcur, List.mem_append, List.mem_singleton]
          tauto
  · rw [System.unlock, check_of_not ho] at hs
    exact absurd hs (by intro h; cases h)

theorem ended_inside (a : Action) (k : Nat) (h : s.ended ctx a k = true) : s.inside k = true := by
  cases a with
  | exit =>
      rw [ended] at h
      by_cases hk : k = ctx
      · rw [hk, Function.update_self] at h
        exact Bool.noConfusion h
      · rwa [Function.update_of_ne hk] at h
  | create | enqueue | yield | finish => exact h

theorem Held.other (h : Held s) {a : Action} (hadmits : s.Admits (.other a)) (hb : ¬ s.Barges (.other a))
    {inside : Nat → Bool} (hinside : ∀ k, inside k = true → s.inside k = true) :
    ∃ e, s.engine.apply a = .ok e ∧ Held { s with engine := e, inside := inside } := by
  have hfewer : Held { s with inside := inside } := ⟨h.good, fun k hk => h.inside k (hinside k hk), h.nodup,
    h.asleep, h.locking, h.placed, h.woken, h.entry⟩
  cases a with
  | create ctx user =>
      obtain ⟨e, hstep, hgood, hqueue, hcur, hrests⟩ := Engine.create_spec h.good hadmits.1 user
      refine ⟨e, hstep, hfewer.goesOn ⟨hgood, hrests, fun k hk => ?_⟩ hqueue hcur⟩
      rw [List.mem_singleton.mp hk]
      by_contra hl
      have hdead : s.engine.contexts.find ctx = none := hadmits.1
      rcases h.placed ctx (by simpa using hl) with hp | hp | hp
      · obtain ⟨c, hc, -⟩ := h.asleep ctx hp
        simp [hdead] at hc
      · obtain ⟨c, hc, -⟩ := (h.good.inv.queued ctx).mp hp
        simp [hdead] at hc
      · obtain ⟨c, hc⟩ := h.good.live ctx hp
        simp [hdead] at hc
  | enqueue ctx =>
      obtain ⟨⟨c, hc, hs⟩, -, hl⟩ := hadmits
      obtain ⟨e, hstep, hgood, hqueue, hcur, hrests⟩ := Engine.enqueue_good h.good hc hs
      exact ⟨e, hstep, hfewer.goesOn ⟨hgood, hrests, fun k hk => List.mem_singleton.mp hk ▸ hl⟩ hqueue hcur⟩
  | yield b =>
      obtain ⟨e, hstep, hgood, hqueue, hrests, -⟩ := Engine.yield_spec h.good hadmits.1 b
      refine ⟨e, by rw [Engine.apply, hstep]; rfl, h.switches ⟨hgood, hrests, fun k hk => ?_⟩ hinside hqueue
        hadmits.2 (h.free_of_not_barges (show GivesUp (.other (.yield b)) from trivial) hb)⟩
      cases b with
      | false => exact absurd hk List.not_mem_nil
      | true => exact not_inLock (Option.mem_toList.mp hk) hadmits.2
  | finish =>
      obtain ⟨ctx, -, hctx, -⟩ := id hadmits.1
      obtain ⟨e, hstep, hgood, hqueue, hcur, hrests⟩ := Engine.finish_spec h.good hctx hadmits.1
      refine ⟨e, by rw [Engine.apply, hctx]; exact hstep, hfewer.goesOn ⟨hgood, hrests, fun k hk => ?_⟩
        (hqueue.trans (List.append_nil _).symm) hcur⟩
      exact absurd hk List.not_mem_nil
  | exit =>
      obtain ⟨ctx, -, hctx, -⟩ := id hadmits.1
      obtain ⟨e, hstep, hgood, hqueue, hcur, hrests⟩ := Engine.exit_spec h.good hctx hadmits.1
      refine ⟨e, by rw [Engine.apply, hctx]; exact hstep, h.switches ⟨hgood, hrests, fun k hk => ?_⟩ hinside ?_
        hadmits.2 (h.free_of_not_barges (show GivesUp (.other .exit) from trivial) hb)⟩
      · exact absurd hk List.not_mem_nil
      · rw [hcur, hqueue, List.append_nil]
        rfl

theorem Held.step (h : Held s) {op : Op} (hs : Step s op s') (hb : ¬ s.Barges op) : Held s' := by
  obtain ⟨hadmits, hstep⟩ := hs
  cases hcur : s.engine.currentCtx with
  | none =>
      cases op with
      | lock | locked | unlock => simp [apply, hcur] at hstep
      | other a =>
          obtain ⟨e, he, hheld⟩ := h.other hadmits hb (fun _ hk => hk)
          simp only [apply, hcur, he, ok_bind] at hstep
          exact Except.ok.inj hstep ▸ hheld
  | some ctx =>
      cases op with
      | lock =>
          obtain ⟨s₁, hs₁, hheld⟩ := h.lock hcur hadmits hb
          simp only [apply, hcur] at hstep
          exact Except.ok.inj (hs₁.symm.trans hstep) ▸ hheld
      | locked =>
          obtain ⟨s₁, hs₁, hheld⟩ := h.locked hcur hadmits
          simp only [apply, hcur] at hstep
          exact Except.ok.inj (hs₁.symm.trans hstep) ▸ hheld
      | unlock =>
          simp only [apply, hcur] at hstep
          exact h.unlock hstep
      | other a =>
          obtain ⟨e, he, hheld⟩ := h.other hadmits hb (ended_inside a)
          simp only [apply, hcur, he, ok_bind] at hstep
          exact Except.ok.inj hstep ▸ hheld

/-- The mutex excludes, as long as no owner gives up the processor before a
context that it has woken. -/
theorem exclusive_runs {ts : List (System × Op × System)} (h : Run Step {} ts s)
    (hpolite : ∀ t ∈ ts, ¬ t.1.Barges t.2.1) : ∀ v ∈ visited {} ts, Exclusive v := by
  intro v hv
  refine Held.exclusive (h.visited_guarded (fun u op => ¬ u.Barges op) hpolite Held held_init ?_ v hv)
  exact fun _ _ _ hu hs hg => hu.step hs hg

theorem currentInLock_iff : s.engine.currentCtx.any s.inLock = true ↔ s.CurrentInLock := Option.any_eq_true ..

instance (s : System) : Decidable s.CurrentInLock := decidable_of_iff _ currentInLock_iff

instance (s : System) (op : Op) : Decidable (s.Admits op) :=
  match op with
  | .lock => inferInstanceAs (Decidable (s.engine.IsCurrent .running ∧ ¬ s.CurrentInLock))
  | .locked => inferInstanceAs (Decidable (s.engine.IsCurrent .running ∧ s.CurrentInLock))
  | .unlock => inferInstanceAs (Decidable (s.engine.IsCurrent .running ∧ ¬ s.CurrentInLock))
  | .other (.enqueue ctx) =>
      inferInstanceAs (Decidable (s.engine.Admits (.enqueue ctx) ∧ ¬ s.CurrentInLock ∧ s.inLock ctx = false))
  | .other (.create ctx user) => inferInstanceAs (Decidable (s.engine.Admits (.create ctx user) ∧ ¬ s.CurrentInLock))
  | .other (.yield b) => inferInstanceAs (Decidable (s.engine.Admits (.yield b) ∧ ¬ s.CurrentInLock))
  | .other .finish => inferInstanceAs (Decidable (s.engine.Admits .finish ∧ ¬ s.CurrentInLock))
  | .other .exit => inferInstanceAs (Decidable (s.engine.Admits .exit ∧ ¬ s.CurrentInLock))

instance (op : Op) : Decidable (GivesUp op) :=
  match op with
  | .lock | .other (.yield _) | .other .exit => isTrue trivial
  | .locked | .unlock | .other (.create _ _) | .other (.enqueue _) | .other .finish => isFalse id

instance (s : System) (op : Op) : Decidable (s.Barges op) :=
  inferInstanceAs (Decidable (GivesUp op ∧ s.owner ≠ none ∧ s.engine.currentCtx = s.owner ∧
    ∃ w ∈ s.engine.runQueue, s.inLock w = true))

def attempt (s : System) (op : Op) : Option System := if s.Admits op then (s.apply op).toOption else none

theorem step_attempt {op : Op} (h : s.attempt op = some s') : Step s op s' :=
  ok_of_toOption h

/-- The second context asks for the mutex while the first one has it. -/
def contend : List Op :=
  [.other (.create 0 true), .other (.create 1 true), .other (.yield false), .lock, .other (.yield true), .lock, .unlock]

theorem exclusive_contend : ∃ ts s, Run Step {} ts s ∧ s.inside 1 = true ∧ ∀ v ∈ visited {} ts, Exclusive v := by
  have hends : (follow attempt {} (contend ++ [.other (.yield true), .locked])).any
      (fun r => r.2.inside 1 = true ∧ ∀ t ∈ r.1, ¬ t.1.Barges t.2.1) = true := by decide
  obtain ⟨⟨ts, s⟩, hfollow, htest⟩ := (Option.any_eq_true _ _).mp hends
  obtain ⟨hinside, hpolite⟩ := of_decide_eq_true htest
  have hrun := run_follow attempt (fun _ _ _ => step_attempt) _ _ hfollow
  exact ⟨ts, s, hrun, hinside, exclusive_runs hrun hpolite⟩

/-- The first context takes the mutex again before the second one has run, and
then yields to it. -/
theorem woken_finds_owner : ∃ ts s, Run Step {} ts s ∧ s.Admits .locked ∧ s.owner = some 0 ∧
    s.locked 1 = .error .assertion ∧ ¬ Exclusive s := by
  have hends : (follow attempt {} (contend ++ [.lock, .other (.yield true)])).any
      (fun r => r.2.Admits .locked ∧ r.2.owner = some 0 ∧ r.2.engine.currentCtx = some 1 ∧
        r.2.inLock 1 = true) = true := by decide
  obtain ⟨⟨ts, s⟩, hfollow, htest⟩ := (Option.any_eq_true _ _).mp hends
  obtain ⟨hadmits, howner, hcur, hl⟩ := of_decide_eq_true htest
  have howned : s.owner ≠ none := by simp [show s.owner = some 0 from howner]
  refine ⟨ts, s, run_follow attempt (fun _ _ _ => step_attempt) _ _ hfollow, hadmits, howner, ?_, fun h => ?_⟩
  · rw [locked, check_of_not howned]
    rfl
  · exact howned (h.2 1 hcur hl)

end System

end Tyrdbs.Gt.Mutex
