import Tyrdbs.Gt.Scheduler
import Mathlib.Data.List.Basic

namespace Tyrdbs.Io.IoUring

open Runs Outcome Gt

/-- An entry of the submission queue; link stands for IOSQE_IO_LINK. -/
inductive Entry
  | operation (op ctx : Nat) (link : Bool)
  | linkTimeout (op : Nat)
  deriving DecidableEq

/-- Where a context is in an operation: in its get_sqe, in that of
add_timeout_to, or in wait_for. -/
inductive Phase
  | ready
  | acquiring (op : Nat) (timeout : Bool)
  | linking (op : Nat)
  | waiting (op : Nat)
  deriving DecidableEq

/-- The ring, its queue_flow and the scheduler; the submissions are kept as
they were made. -/
structure System where
  engine : Engine
  enqueued : Nat := 0
  waitQueue : List Nat := []
  sq : List Entry := []
  inFlight : List Entry := []
  submitted : List (List Entry) := []
  lastEnqueued : Nat := 0
  phase : Nat → Phase := fun _ => .ready
  issued : Nat := 0

/-- What the current context does next; the kernel chooses what is done when
the io thread looks. -/
inductive Op
  | start (timeout : Bool)
  | resume
  | round (terminated : Bool) (done : List Entry)
  | other (a : Action)

def ioThread : Nat := 0

namespace System

def initial : System where
  engine := { runQueue := [ioThread], contexts := Table.empty.put ioThread { state := .waiting, isUserCtx := false } }

variable (queueSize : Nat)

def wait (s : System) (ctx : Nat) (phase : Phase) : Except Fault System := do
  let (_, engine) ← s.engine.yield false
  return { s with
    engine := engine
    waitQueue := s.waitQueue ++ [ctx]
    phase := Function.update s.phase ctx phase }

def waitFor (s : System) (ctx op : Nat) : Except Fault System := do
  let (_, engine) ← s.engine.yield false
  return { s with engine := engine, phase := Function.update s.phase ctx (.waiting op) }

/-- The ring has as many entries as queue_flow lets through. -/
def push (s : System) (entry : Entry) : System :=
  { s with enqueued := s.enqueued + 1, sq := s.sq ++ [entry] }

def addTimeoutTo (s : System) (ctx op : Nat) : Except Fault System :=
  if s.enqueued = queueSize then s.wait ctx (.linking op)
  else (s.push (.linkTimeout op)).waitFor ctx op

/-- An operation, from its get_sqe on. -/
def perform (s : System) (ctx op : Nat) (timeout : Bool) : Except Fault System :=
  if s.enqueued = queueSize then s.wait ctx (.acquiring op timeout)
  else if timeout then (s.push (.operation op ctx true)).addTimeoutTo queueSize ctx op
  else (s.push (.operation op ctx false)).waitFor ctx op

def resume (s : System) (ctx : Nat) : Except Fault System :=
  match s.phase ctx with
  | .ready => .error .noContext
  | .acquiring op timeout => s.perform queueSize ctx op timeout
  | .linking op => s.addTimeoutTo queueSize ctx op
  | .waiting _ => .ok { s with phase := Function.update s.phase ctx .ready }

def submit (s : System) : System :=
  if s.lastEnqueued ≠ s.enqueued ∨ s.engine.userCtxWaiting = 0 then
    { s with submitted := s.submitted ++ [s.sq], inFlight := s.inFlight ++ s.sq, sq := [] }
  else s

def enqueueAll (e : Engine) : List Nat → Except Fault Engine
  | [] => .ok e
  | ctx :: rest => do
      let e ← e.enqueue ctx
      enqueueAll e rest

def release (s : System) (count : Nat) : Except Fault System := do
  check (s.enqueued ≥ count) .assertion
  let engine ← enqueueAll s.engine s.waitQueue
  return { s with engine := engine, enqueued := s.enqueued - count, waitQueue := [] }

/-- The contexts whose requests are done; a timeout carries no request. -/
def requests (done : List Entry) : List Nat :=
  done.filterMap (fun
    | .operation _ ctx _ => some ctx
    | .linkTimeout _ => none)

def reap (s : System) (done : List Entry) : Except Fault System := do
  let engine ← enqueueAll s.engine (requests done)
  let s ← { s with engine := engine, inFlight := s.inFlight.diff done }.release done.length
  return { s with lastEnqueued := s.enqueued }

/-- One turn of the loop of io_uring_thread. -/
def round (s : System) (ctx : Nat) (terminated : Bool) (done : List Entry) : Except Fault System :=
  if s.enqueued = 0 then
    if terminated then do
      let engine ← s.engine.finish ctx
      return { s with engine := engine }
    else do
      let (_, engine) ← s.engine.yield true
      return { s with engine := engine }
  else do
    let s ← s.submit.reap done
    let (_, engine) ← s.engine.yield true
    return { s with engine := engine }

def apply (s : System) (op : Op) : Except Fault System :=
  match op, s.engine.currentCtx with
  | .start timeout, some ctx => { s with issued := s.issued + 1 }.perform queueSize ctx s.issued timeout
  | .resume, some ctx => s.resume queueSize ctx
  | .round terminated done, some ctx => s.round ctx terminated done
  | .other a, _ => do
      let engine ← s.engine.apply a
      return { s with engine := engine }
  | _, none => .error .noContext

def CurrentIs (s : System) (p : Nat → Prop) : Prop := ∃ ctx, s.engine.currentCtx = some ctx ∧ p ctx

/-- A context in an operation does nothing else, and only the ring wakes it;
the kernel has done what it was given. -/
def Admits (s : System) : Op → Prop
  | .start _ => s.engine.IsCurrent .running ∧ s.CurrentIs (fun ctx => ctx ≠ ioThread ∧ s.phase ctx = .ready)
  | .resume => s.engine.IsCurrent .running ∧ s.CurrentIs (fun ctx => s.phase ctx ≠ .ready)
  | .round _ done =>
      s.engine.IsCurrent .running ∧ s.engine.currentCtx = some ioThread ∧ done.Subperm s.submit.inFlight
  | .other a => s.engine.Admits a ∧ ¬ s.CurrentIs (fun ctx => ctx = ioThread ∨ s.phase ctx ≠ .ready) ∧
      match a with
      | .enqueue ctx => s.phase ctx = .ready
      | _ => True

def Step (s : System) (op : Op) (s' : System) : Prop := s.Admits op ∧ s.apply queueSize op = .ok s'

/-- An entry that carries the link flag and the link-timeout of its operation
stand next to each other. -/
def WellLinked (l : List Entry) : Prop :=
  (∀ i op ctx, l[i]? = some (.operation op ctx true) → l[i + 1]? = some (.linkTimeout op)) ∧
  ∀ i op, l[i]? = some (.linkTimeout op) → ∃ j ctx, i = j + 1 ∧ l[j]? = some (.operation op ctx true)

/-- In the queue, and in each submission that was made. -/
def Linked (s : System) : Prop := WellLinked s.sq ∧ ∀ l ∈ s.submitted, WellLinked l

/-- An operation with a timeout takes the last free entry of the ring. -/
def Splits (s : System) (op : Op) : Prop :=
  s.enqueued + 1 = queueSize ∧
  (op = .start true ∨ op = .resume ∧ s.CurrentIs (fun ctx => ∃ op, s.phase ctx = .acquiring op true))

variable {queueSize} {s s' : System} {ctx op : Nat} {l : List Entry}

theorem wellLinked_nil : WellLinked [] := ⟨fun _ _ _ h => by simp at h, fun _ _ h => by simp at h⟩

theorem WellLinked.append (h : WellLinked l) {m : List Entry} (hm : WellLinked m) : WellLinked (l ++ m) := by
  refine ⟨fun i op ctx hi => ?_, fun i op hi => ?_⟩
  · rcases Nat.lt_or_ge i l.length with hlt | hge
    · rw [List.getElem?_append_left hlt] at hi
      have hnext := h.1 i op ctx hi
      rw [List.getElem?_append_left (List.getElem?_eq_some_iff.mp hnext).1]
      exact hnext
    · rw [List.getElem?_append_right hge] at hi
      rw [List.getElem?_append_right (Nat.le_succ_of_le hge), Nat.succ_sub hge]
      exact hm.1 _ op ctx hi
  · rcases Nat.lt_or_ge i l.length with hlt | hge
    · rw [List.getElem?_append_left hlt] at hi
      obtain ⟨j, ctx, rfl, hj⟩ := h.2 i op hi
      exact ⟨j, ctx, rfl, (List.getElem?_append_left (Nat.lt_of_succ_lt hlt)).trans hj⟩
    · rw [List.getElem?_append_right hge] at hi
      obtain ⟨j, ctx, hij, hj⟩ := hm.2 _ op hi
      refine ⟨l.length + j, ctx, by omega, ?_⟩
      rw [List.getElem?_append_right (Nat.le_add_right ..), Nat.add_sub_cancel_left]
      exact hj

theorem wellLinked_single : WellLinked [.operation op ctx false] := by
  refine ⟨fun i op' ctx' hi => ?_, fun i op' hi => ?_⟩ <;>
    (rw [List.getElem?_singleton] at hi; split at hi <;> simp at hi)

theorem wellLinked_pair : WellLinked [.operation op ctx true, .linkTimeout op] := by
  refine ⟨fun i op' ctx' hi => ?_, fun i op' hi => ?_⟩
  · match i with
    | 0 =>
        simp only [List.getElem?_cons_zero, Option.some.injEq, Entry.operation.injEq] at hi
        simp [hi.1]
    | 1 => simp at hi
    | i + 2 => simp at hi
  · match i with
    | 0 => simp at hi
    | 1 =>
        simp only [List.getElem?_cons_succ, List.getElem?_cons_zero, Option.some.injEq, Entry.linkTimeout.injEq] at hi
        exact ⟨0, ctx, rfl, by simp [hi]⟩
    | i + 2 => simp at hi

theorem not_wellLinked : ¬ WellLinked (l ++ [.operation op ctx true]) := by
  intro h
  have hlast : (l ++ [.operation op ctx true])[l.length]? = some (.operation op ctx true) := by simp
  have hnext := h.1 _ _ _ hlast
  simp at hnext

/-- No context has been suspended between an entry and its timeout. -/
structure Whole (s : System) : Prop where
  linked : Linked s
  closed : ∀ ctx op, s.phase ctx ≠ .linking op

theorem whole_initial : Whole initial :=
  ⟨⟨wellLinked_nil, fun l hl => by simp [initial] at hl⟩, fun _ _ h => by simp [initial] at h⟩

theorem closed_update {phase : Phase} (h : ∀ k op, s.phase k ≠ .linking op) (hphase : ∀ op, phase ≠ .linking op)
    (k op : Nat) : Function.update s.phase ctx phase k ≠ .linking op := by
  by_cases hk : k = ctx
  · rw [hk, Function.update_self]
    exact hphase op
  · rw [Function.update_of_ne hk]
    exact h k op

/-- Whatever the engine does, the ring is as before. -/
theorem Whole.scheduled (h : Whole s) (x : Except Fault Engine) :
    Yields (fun _ => True) Whole (x >>= fun engine => pure { s with engine := engine }) := by
  cases x with
  | error e => trivial
  | ok engine => exact ⟨h.linked, h.closed⟩

theorem Whole.wait (h : Whole s) {phase : Phase} (hphase : ∀ op, phase ≠ .linking op) :
    Yields (fun _ => True) Whole (s.wait ctx phase) :=
  (yields_true _).bind (fun _ _ => ⟨h.linked, closed_update h.closed hphase⟩)

theorem Whole.waitFor (h : Whole s) : Yields (fun _ => True) Whole (s.waitFor ctx op) :=
  (yields_true _).bind (fun _ _ => ⟨h.linked, closed_update h.closed (fun _ => Phase.noConfusion)⟩)

theorem Whole.pushed (h : Whole s) {m : List Entry} (hm : WellLinked m) {enqueued : Nat} :
    Whole { s with enqueued := enqueued, sq := s.sq ++ m } :=
  ⟨⟨h.linked.1.append hm, h.linked.2⟩, h.closed⟩

theorem Whole.perform (h : Whole s) {timeout : Bool} (hroom : ¬ (s.enqueued + 1 = queueSize ∧ timeout = true)) :
    Yields (fun _ => True) Whole (s.perform queueSize ctx op timeout) := by
  rw [System.perform]
  by_cases hfull : s.enqueued = queueSize
  · rw [if_pos hfull]
    exact h.wait (fun _ => Phase.noConfusion)
  · rw [if_neg hfull]
    cases timeout with
    | false => exact (h.pushed wellLinked_single).waitFor
    | true =>
        have hnext : (s.push (.operation op ctx true)).enqueued ≠ queueSize := fun hn => hroom ⟨hn, rfl⟩
        rw [if_pos rfl, addTimeoutTo, if_neg hnext]
        have hboth := @Whole.pushed s h _ (@wellLinked_pair ctx op) (s.enqueued + 1 + 1)
        have heq : (s.push (.operation op ctx true)).push (.linkTimeout op) =
            { s with enqueued := s.enqueued + 1 + 1, sq := s.sq ++ [.operation op ctx true, .linkTimeout op] } := by
          simp [push]
        rw [heq]
        exact hboth.waitFor

theorem perform_splits (hlast : s.enqueued + 1 = queueSize) :
    Yields (fun _ => True) (fun s' => ¬ Linked s') (s.perform queueSize ctx op true) := by
  have hroom : s.enqueued ≠ queueSize := by omega
  have hfull : (s.push (.operation op ctx true)).enqueued = queueSize := hlast
  rw [System.perform, if_neg hroom, if_pos rfl, addTimeoutTo, if_pos hfull]
  exact (yields_true _).bind (fun _ _ hl => not_wellLinked hl.1)

theorem Whole.submit (h : Whole s) : Whole s.submit := by
  rw [System.submit]
  split
  case isTrue =>
    refine ⟨⟨wellLinked_nil, fun l hl => ?_⟩, h.closed⟩
    rcases List.mem_append.mp hl with hl | hl
    · exact h.linked.2 l hl
    · exact List.mem_singleton.mp hl ▸ h.linked.1
  case isFalse => exact h

theorem Whole.reap (h : Whole s) {done : List Entry} : Yields (fun _ => True) Whole (s.reap done) := by
  refine (yields_true _).bind (fun engine _ => ?_)
  have hreleased : Yields (fun _ => True) Whole
      ({ s with engine := engine, inFlight := s.inFlight.diff done }.release done.length) :=
    (yields_true _).bind (fun _ _ => (yields_true _).bind (fun _ _ => ⟨h.linked, h.closed⟩))
  exact hreleased.bind (fun s' hs' => ⟨hs'.linked, hs'.closed⟩)

theorem Whole.round (h : Whole s) {terminated : Bool} {done : List Entry} :
    Yields (fun _ => True) Whole (s.round ctx terminated done) := by
  rw [System.round]
  by_cases hnone : s.enqueued = 0
  · rw [if_pos hnone]
    cases terminated with
    | true => exact h.scheduled _
    | false => exact (yields_true _).bind (fun _ _ => ⟨h.linked, h.closed⟩)
  · rw [if_neg hnone]
    exact h.submit.reap.bind (fun s' hs' => (yields_true _).bind (fun _ _ => ⟨hs'.linked, hs'.closed⟩))

theorem Whole.step (h : Whole s) {op : Op} (hs : Step queueSize s op s') (hg : ¬ s.Splits queueSize op) :
    Whole s' := by
  obtain ⟨hadmits, hstep⟩ := hs
  cases op with
  | other a => exact (h.scheduled (s.engine.apply a)).of_ok hstep
  | start timeout =>
      obtain ⟨-, ctx, hcur, -⟩ := hadmits
      simp only [apply, hcur] at hstep
      have hissued : Whole { s with issued := s.issued + 1 } := ⟨h.linked, h.closed⟩
      refine (hissued.perform (fun ⟨hlast, ht⟩ => hg ⟨hlast, Or.inl ?_⟩)).of_ok hstep
      rw [ht]
  | round terminated done =>
      simp only [apply, hadmits.2.1] at hstep
      exact h.round.of_ok hstep
  | resume =>
      obtain ⟨-, ctx, hcur, hready⟩ := hadmits
      simp only [apply, hcur, System.resume] at hstep
      cases hphase : s.phase ctx with
      | ready => exact absurd hphase hready
      | linking op => exact absurd hphase (h.closed ctx op)
      | acquiring op timeout =>
          simp only [hphase] at hstep
          refine (h.perform (fun ⟨hlast, ht⟩ => hg ⟨hlast, Or.inr ⟨rfl, ctx, hcur, op, ?_⟩⟩)).of_ok hstep
          rw [hphase, ht]
      | waiting op =>
          simp only [hphase] at hstep
          rw [← Except.ok.inj hstep]
          exact ⟨h.linked, closed_update h.closed (fun _ => Phase.noConfusion)⟩

theorem Step.splits {op : Op} (hs : Step queueSize s op s') (hg : s.Splits queueSize op) : ¬ Linked s' := by
  obtain ⟨hadmits, hstep⟩ := hs
  obtain ⟨hlast, rfl | ⟨rfl, ctx, hcur, op, hphase⟩⟩ := hg
  · obtain ⟨-, ctx, hcur, -⟩ := hadmits
    simp only [apply, hcur] at hstep
    exact (@perform_splits _ { s with issued := s.issued + 1 } ctx s.issued hlast).of_ok hstep
  · simp only [apply, hcur, System.resume, hphase] at hstep
    exact (perform_splits hlast).of_ok hstep

/-- A timeout stands next to its operation in every queue and submission of a
run, if and only if no operation with a timeout has taken the last free entry. -/
theorem linked_runs_iff {ts : List (System × Op × System)} (h : Run (Step queueSize) initial ts s) :
    (∀ v ∈ visited initial ts, Linked v) ↔ ∀ t ∈ ts, ¬ t.1.Splits queueSize t.2.1 :=
  h.exact (fun u op => ¬ u.Splits queueSize op) Whole Linked whole_initial (fun _ hu => hu.linked)
    (fun _ _ _ hu hs hg => hu.step hs hg) (fun _ _ _ _ hs hg => hs.splits (not_not.mp hg))

instance (s : System) (p : Nat → Prop) [DecidablePred p] : Decidable (s.CurrentIs p) :=
  decidable_of_iff (s.engine.currentCtx.any (fun ctx => p ctx) = true)
    ((Option.any_eq_true ..).trans (by simp only [decide_eq_true_eq, CurrentIs]))

instance (s : System) (op : Op) : Decidable (s.Admits op) :=
  match op with
  | .start _ => inferInstanceAs (Decidable (s.engine.IsCurrent .running ∧
      s.CurrentIs (fun ctx => ctx ≠ ioThread ∧ s.phase ctx = .ready)))
  | .resume => inferInstanceAs (Decidable (s.engine.IsCurrent .running ∧ s.CurrentIs (fun ctx => s.phase ctx ≠ .ready)))
  | .round _ done => inferInstanceAs (Decidable (s.engine.IsCurrent .running ∧ s.engine.currentCtx = some ioThread ∧
      done.Subperm s.submit.inFlight))
  | .other (.enqueue k) => inferInstanceAs (Decidable (s.engine.Admits (.enqueue k) ∧
      ¬ s.CurrentIs (fun ctx => ctx = ioThread ∨ s.phase ctx ≠ .ready) ∧ s.phase k = .ready))
  | .other (.create k user) => inferInstanceAs (Decidable (s.engine.Admits (.create k user) ∧
      ¬ s.CurrentIs (fun ctx => ctx = ioThread ∨ s.phase ctx ≠ .ready) ∧ True))
  | .other (.yield b) => inferInstanceAs (Decidable (s.engine.Admits (.yield b) ∧
      ¬ s.CurrentIs (fun ctx => ctx = ioThread ∨ s.phase ctx ≠ .ready) ∧ True))
  | .other .finish => inferInstanceAs (Decidable (s.engine.Admits .finish ∧
      ¬ s.CurrentIs (fun ctx => ctx = ioThread ∨ s.phase ctx ≠ .ready) ∧ True))
  | .other .exit => inferInstanceAs (Decidable (s.engine.Admits .exit ∧
      ¬ s.CurrentIs (fun ctx => ctx = ioThread ∨ s.phase ctx ≠ .ready) ∧ True))

def attempt (queueSize : Nat) (s : System) (op : Op) : Option System :=
  if s.Admits op then (s.apply queueSize op).toOption else none

theorem step_attempt {op : Op} (h : s.attempt queueSize op = some s') : Step queueSize s op s' :=
  ok_of_toOption h

/-- Two contexts receive, the second one with a timeout, and the io thread
looks at the ring. -/
def receive : List Op :=
  [.other (.create 1 true), .other (.create 2 true), .other (.yield false), .round false [],
    .start false, .start true, .round false []]

theorem linked_receive : ∃ ts s, Run (Step 3) initial ts s ∧
    s.submitted = [[.operation 0 1 false, .operation 1 2 true, .linkTimeout 1]] ∧
    ((∀ v ∈ visited initial ts, Linked v) ↔ ∀ t ∈ ts, ¬ t.1.Splits 3 t.2.1) := by
  have hends : (follow (attempt 3) initial receive).any
      (fun r => r.2.submitted = [[.operation 0 1 false, .operation 1 2 true, .linkTimeout 1]]) = true := by decide
  obtain ⟨⟨ts, s⟩, hfollow, htest⟩ := (Option.any_eq_true _ _).mp hends
  have hrun := run_follow (attempt 3) (fun _ _ _ => step_attempt) _ _ hfollow
  exact ⟨ts, s, hrun, of_decide_eq_true htest, linked_runs_iff hrun⟩

/-- In a ring of two entries the io thread submits the second operation
without its timeout. -/
theorem submitted_split : ∃ ts s, Run (Step 2) initial ts s ∧
    s.submitted = [[.operation 0 1 false, .operation 1 2 true]] ∧ ¬ Linked s := by
  have hends : (follow (attempt 2) initial receive).any
      (fun r => r.2.submitted = [[.operation 0 1 false, .operation 1 2 true]]) = true := by decide
  obtain ⟨⟨ts, s⟩, hfollow, htest⟩ := (Option.any_eq_true _ _).mp hends
  have hsubmitted := of_decide_eq_true htest
  refine ⟨ts, s, run_follow (attempt 2) (fun _ _ _ => step_attempt) _ _ hfollow, hsubmitted, fun h => ?_⟩
  have hlast := h.2 [.operation 0 1 false, .operation 1 2 true] (by simp [show s.submitted = _ from hsubmitted])
  exact (not_wellLinked (show WellLinked ([.operation 0 1 false] ++ [.operation 1 2 true]) from hlast))

end System

end Tyrdbs.Io.IoUring
