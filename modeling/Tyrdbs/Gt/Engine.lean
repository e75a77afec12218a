import Tyrdbs.Library.Outcome
import Tyrdbs.Library.Table
import Mathlib.Data.Multiset.Count

namespace Tyrdbs.Gt

open Outcome

/-- A failed assertion, or a context that is not there. -/
inductive Fault
  | assertion
  | noContext
  deriving DecidableEq

inductive CtxState
  | waiting
  | running
  | suspended
  | terminated
  deriving DecidableEq

structure Context where
  state : CtxState := .suspended
  isUserCtx : Bool
  deriving DecidableEq

/-- The live contexts are named by their addresses; the idle context is the
one that runs while no other is current. -/
structure Engine where
  runQueue : List Nat := []
  suspendedCtx : Nat := 0
  userCtx : Nat := 0
  userCtxWaiting : Nat := 0
  contexts : Table Nat Context := Table.empty
  currentCtx : Option Nat := none

namespace Engine

def context (e : Engine) (ctx : Nat) : Except Fault Context :=
  match e.contexts.find ctx with
  | some c => .ok c
  | none => .error .noContext

def setState (e : Engine) (ctx : Nat) (c : Context) (state : CtxState) : Engine :=
  { e with contexts := e.contexts.put ctx { c with state := state } }

def enqueue (e : Engine) (ctx : Nat) : Except Fault Engine := do
  let c ← e.context ctx
  check (c.state = .suspended) .assertion
  let e := e.setState ctx c .waiting
  check (e.suspendedCtx ≠ 0) .assertion
  let e := { e with suspendedCtx := e.suspendedCtx - 1 }
  let e := if c.isUserCtx then { e with userCtxWaiting := e.userCtxWaiting + 1 } else e
  return { e with runQueue := e.runQueue ++ [ctx] }

def leave (e : Engine) (ctx : Nat) (enqueueCtx : Bool) : Except Fault Engine := do
  let c ← e.context ctx
  let e := e.setState ctx c .suspended
  let e := { e with suspendedCtx := e.suspendedCtx + 1 }
  if enqueueCtx then e.enqueue ctx else return e

def switchToIdle (e : Engine) (ctx : Nat) (enqueueCtx : Bool) : Except Fault Engine := do
  let e ← e.leave ctx enqueueCtx
  return { e with currentCtx := none }

def resume (e : Engine) : Except Fault Engine :=
  match e.runQueue with
  | [] => .error .noContext
  | ctx :: rest => do
      let c ← e.context ctx
      let e := { e.setState ctx c .running with runQueue := rest, currentCtx := some ctx }
      if c.isUserCtx then
        check (e.userCtxWaiting ≠ 0) .assertion
        return { e with userCtxWaiting := e.userCtxWaiting - 1 }
      else return e

def switchToNext (e : Engine) (enqueueCtx : Bool) : Except Fault Engine :=
  match e.currentCtx with
  | some ctx => do
      let e ← e.leave ctx enqueueCtx
      e.resume
  | none => e.resume

def yield (e : Engine) (enqueueCtx : Bool) : Except Fault (Bool × Engine) :=
  match e.runQueue, e.currentCtx with
  | [], some ctx => do
      let e ← e.switchToIdle ctx enqueueCtx
      return (true, e)
  | [], none => .ok (e.suspendedCtx ≠ 0, e)
  | _ :: _, _ => do
      let e ← e.switchToNext enqueueCtx
      return (true, e)

def createContext (e : Engine) (ctx : Nat) (isUserCtx : Bool) : Except Fault Engine :=
  let e := { e with contexts := e.contexts.put ctx { isUserCtx := isUserCtx } }
  let e := if isUserCtx then { e with userCtx := e.userCtx + 1 } else e
  { e with suspendedCtx := e.suspendedCtx + 1 }.enqueue ctx

/-- The thread callback of the current context has returned; its terminate
callback runs next. -/
def finish (e : Engine) (ctx : Nat) : Except Fault Engine := do
  let c ← e.context ctx
  return e.setState ctx c .terminated

/-- The rest of __start_thread: the context is freed and the idle one goes on. -/
def exit (e : Engine) (ctx : Nat) : Except Fault Engine := do
  let c ← e.context ctx
  if c.isUserCtx then
    check (e.userCtx ≠ 0) .assertion
    return { e with userCtx := e.userCtx - 1, contexts := e.contexts.erase ctx, currentCtx := none }
  else return { e with contexts := e.contexts.erase ctx, currentCtx := none }

def count (e : Engine) (p : Context → Bool) : Nat := e.contexts.values.countP (p ·)

def isSuspended (c : Context) : Bool := c.state = .suspended

def isWaitingUser (c : Context) : Bool := c.state = .waiting && c.isUserCtx

/-- The counters, the run queue and the states agree; active is the one
context that runs or has just ended. -/
structure Inv (e : Engine) (active : Option Nat) : Prop where
  nodup : e.runQueue.Nodup
  queued : ∀ ctx, ctx ∈ e.runQueue ↔ ∃ c, e.contexts.find ctx = some c ∧ c.state = .waiting
  suspended : e.suspendedCtx = e.count isSuspended
  waiting : e.userCtxWaiting = e.count isWaitingUser
  users : e.userCtx = e.count Context.isUserCtx
  running : ∀ ctx c, e.contexts.find ctx = some c →
    ((c.state = .running ∨ c.state = .terminated) ↔ active = some ctx)

variable {e : Engine} {active : Option Nat} {ctx : Nat} {c : Context}

theorem context_eq (h : e.contexts.find ctx = some c) : e.context ctx = .ok c := by rw [context, h]

theorem count_setState (h : e.contexts.find ctx = some c) (state : CtxState) (p : Context → Bool) :
    (e.setState ctx c state).count p + (p c).toNat = e.count p + (p { c with state := state }).toNat := by
  have hnew : (e.setState ctx c state).contexts.values =
      { c with state := state } ::ₘ (e.contexts.erase ctx).values := Table.values_put
  rw [count, count, hnew, Table.values_of_find h, Multiset.countP_cons, Multiset.countP_cons]
  cases p c <;> cases p { c with state := state } <;> simp

theorem count_pos (h : e.contexts.find ctx = some c) {p : Context → Bool} (hp : p c = true) : 0 < e.count p := by
  rw [count, Table.values_of_find h, Multiset.countP_cons, if_pos hp]
  exact Nat.succ_pos _

/-- One context changed its state, and the queue and the counters followed. -/
structure Moved (e e' : Engine) (ctx : Nat) (c : Context) (state : CtxState) : Prop where
  contexts : e'.contexts = e.contexts.put ctx { c with state := state }
  nodup : e'.runQueue.Nodup
  queued : ∀ k, k ∈ e'.runQueue ↔ if k = ctx then state = .waiting else k ∈ e.runQueue
  suspended : e'.suspendedCtx + (isSuspended c).toNat = e.suspendedCtx + (isSuspended { c with state := state }).toNat
  waiting : e'.userCtxWaiting + (isWaitingUser c).toNat =
    e.userCtxWaiting + (isWaitingUser { c with state := state }).toNat
  users : e'.userCtx = e.userCtx

theorem Moved.find {e' : Engine} {state : CtxState} (hm : Moved e e' ctx c state) (k : Nat) :
    e'.contexts.find k = if k = ctx then some { c with state := state } else e.contexts.find k := by
  rw [hm.contexts, Table.find_put]

theorem Inv.moved {e' : Engine} {active' : Option Nat} {state : CtxState} (h : Inv e active)
    (hc : e.contexts.find ctx = some c) (hm : Moved e e' ctx c state)
    (hself : (state = .running ∨ state = .terminated) ↔ active' = some ctx)
    (hothers : ∀ k, k ≠ ctx → (active' = some k ↔ active = some k)) : Inv e' active' := by
  have hcount : ∀ p, e'.count p + (p c).toNat = e.count p + (p { c with state := state }).toNat := by
    intro p
    rw [count, hm.contexts]
    exact count_setState hc state p
  refine ⟨hm.nodup, fun k => ?_, ?_, ?_, ?_, fun k c' hk => ?_⟩
  · rw [hm.queued, hm.find]
    by_cases hk : k = ctx
    · rw [if_pos hk, if_pos hk]
      refine ⟨fun hw => ⟨_, rfl, hw⟩, fun ⟨c', hc', hw⟩ => ?_⟩
      rw [Option.some.injEq] at hc'
      rw [← hc'] at hw
      exact hw
    · rw [if_neg hk, if_neg hk]
      exact h.queued k
  · have := hm.suspended
    have := hcount isSuspended
    have := h.suspended
    omega
  · have := hm.waiting
    have := hcount isWaitingUser
    have := h.waiting
    omega
  · rw [hm.users, h.users]
    exact (Nat.add_right_cancel (hcount Context.isUserCtx)).symm
  · rw [hm.find] at hk
    by_cases hkc : k = ctx
    · rw [if_pos hkc, Option.some.injEq] at hk
      rw [← hk, hkc]
      exact hself
    · rw [if_neg hkc] at hk
      rw [h.running k c' hk]
      exact (hothers k hkc).symm

theorem Inv.not_queued (h : Inv e active) (hc : e.contexts.find ctx = some c) (hs : c.state ≠ .waiting) :
    ctx ∉ e.runQueue := by
  intro hm
  obtain ⟨c', hc', hw⟩ := (h.queued ctx).mp hm
  rw [hc, Option.some.injEq] at hc'
  exact hs (hc' ▸ hw)

theorem enqueue_spec (h : Inv e active) (hc : e.contexts.find ctx = some c) (hs : c.state = .suspended) :
    ∃ e', e.enqueue ctx = .ok e' ∧ Inv e' active ∧ e'.runQueue = e.runQueue ++ [ctx] ∧
      e'.contexts = e.contexts.put ctx { c with state := .waiting } ∧ e'.currentCtx = e.currentCtx := by
  obtain ⟨state, user⟩ := c
  have hs : state = .suspended := hs
  subst hs
  have hpos : 0 < e.suspendedCtx := h.suspended ▸ count_pos hc (show isSuspended _ = true from rfl)
  have hnot : ctx ∉ e.runQueue := h.not_queued hc (by simp)
  have hstep : e.enqueue ctx = .ok { e with
      contexts := e.contexts.put ctx ⟨.waiting, user⟩
      suspendedCtx := e.suspendedCtx - 1
      userCtxWaiting := e.userCtxWaiting + user.toNat
      runQueue := e.runQueue ++ [ctx] } := by
    rw [enqueue, context_eq hc]
    change (check (e.suspendedCtx ≠ 0) Fault.assertion >>= _) = _
    rw [check_of hpos.ne']
    cases user <;> rfl
  refine ⟨_, hstep, @Inv.moved _ _ _ _ _ active .waiting h hc ⟨rfl, ?_, fun k => ?_, ?_, ?_, rfl⟩ ?_ (fun _ _ => Iff.rfl),
    rfl, rfl, rfl⟩
  · exact List.nodup_append.mpr ⟨h.nodup, List.nodup_singleton _, fun x hx y hy hxy =>
      hnot (by rw [List.mem_singleton] at hy; rwa [← hy, ← hxy])⟩
  · by_cases hk : k = ctx <;> simp [hk]
  · change e.suspendedCtx - 1 + 1 = e.suspendedCtx + 0
    omega
  · cases user <;> rfl
  · exact iff_of_false (by simp) (fun ha => by simpa using (h.running ctx _ hc).mpr ha)

theorem leave_spec (h : Inv e (some ctx)) (hc : e.contexts.find ctx = some c) (hr : c.state = .running)
    (enqueueCtx : Bool) : ∃ e', e.leave ctx enqueueCtx = .ok e' ∧ Inv e' none ∧
      e'.runQueue = e.runQueue ++ (if enqueueCtx then [ctx] else []) ∧ e'.currentCtx = e.currentCtx ∧
      e'.contexts = e.contexts.put ctx { c with state := if enqueueCtx then .waiting else .suspended } := by
  obtain ⟨state, user⟩ := c
  have hr : state = .running := hr
  subst hr
  have hnot : ctx ∉ e.runQueue := h.not_queued hc (by simp)
  have hmoved : Moved e { e.setState ctx ⟨.running, user⟩ .suspended with suspendedCtx := e.suspendedCtx + 1 }
      ctx ⟨.running, user⟩ .suspended := by
    refine ⟨rfl, h.nodup, fun k => ?_, rfl, rfl, rfl⟩
    by_cases hk : k = ctx
    · rw [if_pos hk, hk]
      exact iff_of_false hnot (by simp)
    · rw [if_neg hk]
      exact Iff.rfl
  have hinv : Inv _ none := h.moved hc hmoved (by simp) (fun k hk => by simp [Ne.symm hk])
  cases enqueueCtx with
  | false =>
      refine ⟨_, ?_, hinv, (List.append_nil _).symm, rfl, rfl⟩
      rw [leave, context_eq hc]
      rfl
  | true =>
      have hself := hmoved.find ctx
      rw [if_pos rfl] at hself
      obtain ⟨e', henq, hinv', hqueue, hctxs, hcur⟩ := enqueue_spec hinv hself rfl
      refine ⟨e', ?_, hinv', hqueue, hcur, ?_⟩
      · rw [leave, context_eq hc]
        exact henq
      · rw [hctxs]
        exact Table.put_put

theorem resume_spec (h : Inv e none) {rest : List Nat} (hq : e.runQueue = ctx :: rest) :
    ∃ e' c, e.resume = .ok e' ∧ Inv e' (some ctx) ∧ e'.runQueue = rest ∧ e'.currentCtx = some ctx ∧
      e.contexts.find ctx = some c ∧ e'.contexts = e.contexts.put ctx { c with state := .running } := by
  obtain ⟨⟨state, user⟩, hc, hw⟩ := (h.queued ctx).mp (hq ▸ List.mem_cons_self ..)
  have hw : state = .waiting := hw
  subst hw
  have hnodup : ctx ∉ rest ∧ rest.Nodup := List.nodup_cons.mp (hq ▸ h.nodup)
  have hstep : ∃ n, n + user.toNat = e.userCtxWaiting ∧ e.resume = .ok { e with
      contexts := e.contexts.put ctx ⟨.running, user⟩
      userCtxWaiting := n
      runQueue := rest
      currentCtx := some ctx } := by
    rw [resume, hq]
    simp only
    rw [context_eq hc, ok_bind]
    cases user with
    | true =>
        have hpos : 0 < e.userCtxWaiting := h.waiting ▸ count_pos hc (show isWaitingUser _ = true from rfl)
        refine ⟨e.userCtxWaiting - 1, Nat.sub_add_cancel hpos, ?_⟩
        change (check (e.userCtxWaiting ≠ 0) Fault.assertion >>= _) = _
        rw [check_of hpos.ne']
        rfl
    | false => exact ⟨e.userCtxWaiting, rfl, rfl⟩
  obtain ⟨n, hn, hstep⟩ := hstep
  refine ⟨_, ⟨.waiting, user⟩, hstep, @Inv.moved _ _ _ _ _ (some ctx) .running h hc
    ⟨rfl, hnodup.2, fun k => ?_, rfl, ?_, rfl⟩ (by simp) (fun k hk => by simp [Ne.symm hk]), rfl, rfl, hc, rfl⟩
  · change k ∈ rest ↔ _
    by_cases hk : k = ctx
    · rw [if_pos hk, hk]
      exact iff_of_false hnodup.1 (by simp)
    · rw [if_neg hk, hq, List.mem_cons, or_iff_right hk]
  · rw [← hn]
    cases user <;> rfl

end Engine

end Tyrdbs.Gt
