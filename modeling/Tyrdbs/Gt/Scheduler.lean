import Tyrdbs.Gt.Engine
import Tyrdbs.Library.Runs

namespace Tyrdbs.Gt

open Runs Outcome

/-- What the code of a thread asks of the engine; a context ends in two
moves, since its terminate callback may enqueue others in between. -/
inductive Action
  | create (ctx : Nat) (isUserCtx : Bool)
  | enqueue (ctx : Nat)
  | yield (enqueueCtx : Bool)
  | finish
  | exit

namespace Engine

def IsCurrent (e : Engine) (state : CtxState) : Prop :=
  ∃ ctx c, e.currentCtx = some ctx ∧ e.contexts.find ctx = some c ∧ c.state = state

/-- A new context has an address of its own, only suspended contexts are
enqueued, and an ended context does nothing but run its callback. -/
def Admits (e : Engine) : Action → Prop
  | .create ctx _ => e.contexts.find ctx = none
  | .enqueue ctx => ∃ c, e.contexts.find ctx = some c ∧ c.state = .suspended
  | .yield _ => e.currentCtx = none ∨ e.IsCurrent .running
  | .finish => e.IsCurrent .running
  | .exit => e.IsCurrent .terminated

def apply (e : Engine) : Action → Except Fault Engine
  | .create ctx isUserCtx => e.createContext ctx isUserCtx
  | .enqueue ctx => e.enqueue ctx
  | .yield enqueueCtx => do
      let (_, e) ← e.yield enqueueCtx
      return e
  | .finish =>
      match e.currentCtx with
      | some ctx => e.finish ctx
      | none => .error .noContext
  | .exit =>
      match e.currentCtx with
      | some ctx => e.exit ctx
      | none => .error .noContext

def Step (e : Engine) (a : Action) (e' : Engine) : Prop := e.Admits a ∧ e.apply a = .ok e'

def enqueuedBy (e : Engine) : Action → List Nat
  | .create ctx _ => [ctx]
  | .enqueue ctx => [ctx]
  | .yield true => e.currentCtx.toList
  | _ => []

def resumedBy : Action → Engine → List Nat
  | .yield _, e' => e'.currentCtx.toList
  | _, _ => []

def enqueuedIn (ts : List (Engine × Action × Engine)) : List Nat := ts.flatMap (fun t => t.1.enqueuedBy t.2.1)

def resumedIn (ts : List (Engine × Action × Engine)) : List Nat := ts.flatMap (fun t => resumedBy t.2.1 t.2.2)

/-- The suspended contexts are left alone, those on the list apart. -/
def Rests (e e' : Engine) (woken : List Nat) : Prop :=
  ∀ ctx c, e.contexts.find ctx = some c → c.state = .suspended → ctx ∉ woken → e'.contexts.find ctx = some c

/-- No context is gone. -/
def Keeps (e e' : Engine) : Prop :=
  ∀ ctx c, e.contexts.find ctx = some c → ∃ c', e'.contexts.find ctx = some c'

def isUser (e : Engine) (ctx : Nat) : Bool := (e.contexts.find ctx).any Context.isUserCtx

/-- Between two actions the current context is the one that runs. -/
structure Good (e : Engine) : Prop where
  inv : Inv e e.currentCtx
  live : ∀ ctx, e.currentCtx = some ctx → ∃ c, e.contexts.find ctx = some c

variable {e e' : Engine} {ctx : Nat} {c : Context}

theorem count_put_of_none (h : e.contexts.find ctx = none) (p : Context → Bool) :
    (e.contexts.put ctx c).values.countP (p ·) = e.count p + (p c).toNat := by
  rw [Table.values_put_of_none h, Multiset.countP_cons, count]
  cases p c <;> rfl

theorem count_erase (h : e.contexts.find ctx = some c) (p : Context → Bool) :
    (e.contexts.erase ctx).values.countP (p ·) + (p c).toNat = e.count p := by
  rw [count, Table.values_of_find h, Multiset.countP_cons]
  cases p c <;> rfl

theorem rests_put {e₁ : Engine} {woken : List Nat} {c' : Context} (h : Rests e e₁ woken)
    (hctxs : e'.contexts = e₁.contexts.put ctx c')
    (hctx : ctx ∈ woken ∨ ∀ c, e.contexts.find ctx = some c → c.state ≠ .suspended) : Rests e e' woken := by
  intro k c hc hs hk
  have hne : k ≠ ctx := by
    rintro rfl
    rcases hctx with hctx | hctx
    · exact hk hctx
    · exact hctx c hc hs
  rw [hctxs, Table.find_put, if_neg hne]
  exact h k c hc hs hk

theorem keeps_put {e₁ : Engine} {c' : Context} (h : Keeps e e₁) (hctxs : e'.contexts = e₁.contexts.put ctx c') :
    Keeps e e' := by
  intro k c hc
  rw [hctxs, Table.find_put]
  by_cases hk : k = ctx
  · rw [if_pos hk]
    exact ⟨_, rfl⟩
  · rw [if_neg hk]
    exact h k c hc

theorem keeps_refl : Keeps e e := fun _ c hc => ⟨c, hc⟩

theorem good_init : Good {} where
  inv := ⟨List.nodup_nil, fun ctx => ⟨fun h => by simp at h, fun ⟨c, hc, _⟩ => by simp at hc⟩,
    rfl, rfl, rfl, fun ctx c hc => by simp at hc⟩
  live := fun ctx h => by simp at h

theorem IsCurrent.find (hcur : e.currentCtx = some ctx) {state : CtxState} (h : e.IsCurrent state) :
    ∃ c, e.contexts.find ctx = some c ∧ c.state = state := by
  obtain ⟨ctx', c, hctx, hc, hs⟩ := h
  rw [hcur, Option.some.injEq] at hctx
  exact ⟨c, hctx ▸ hc, hs⟩

theorem good_idle (h : Inv e none) (hcur : e.currentCtx = none) : Good e := by
  refine ⟨?_, fun ctx hctx => ?_⟩
  · rw [hcur]
    exact h
  · exact absurd (hcur.symm.trans hctx) (Option.some_ne_none ctx).symm

theorem rests_leave {state : CtxState} {woken : List Nat} (hc : e.contexts.find ctx = some c)
    (hs : c.state = .running) (hctxs : e'.contexts = e.contexts.put ctx { c with state := state }) :
    Rests e e' woken := by
  refine rests_put (fun _ _ hk _ _ => hk) hctxs (Or.inr (fun c' hc' => ?_))
  rw [hc, Option.some.injEq] at hc'
  simp [← hc', hs]

theorem switchToNext_spec (h : Good e) (hadmits : e.currentCtx = none ∨ e.IsCurrent .running)
    (hq : e.runQueue ≠ []) (b : Bool) : ∃ e', e.switchToNext b = .ok e' ∧ Good e' ∧
      e'.currentCtx.toList ++ e'.runQueue = e.runQueue ++ e.enqueuedBy (.yield b) ∧
      Rests e e' (e.enqueuedBy (.yield b)) ∧ Keeps e e' := by
  have hleft : ∃ e₁, e.switchToNext b = e₁.resume ∧ Inv e₁ none ∧
      e₁.runQueue = e.runQueue ++ e.enqueuedBy (.yield b) ∧
      Rests e e₁ (e.enqueuedBy (.yield b)) ∧ Keeps e e₁ := by
    cases hcur : e.currentCtx with
    | none =>
        refine ⟨e, ?_, hcur ▸ h.inv, ?_, fun _ _ hk _ _ => hk, keeps_refl⟩
        · rw [switchToNext, hcur]
        · cases b <;> simp [enqueuedBy, hcur]
    | some ctx =>
        have hrun := hadmits.resolve_left (by simp [hcur])
        obtain ⟨c, hc, hs⟩ := hrun.find hcur
        obtain ⟨e₁, hleave, hinv, hqueue, -, hctxs⟩ := leave_spec (hcur ▸ h.inv) hc hs b
        refine ⟨e₁, ?_, hinv, ?_, rests_leave hc hs hctxs, keeps_put keeps_refl hctxs⟩
        · rw [switchToNext, hcur]
          simp only [hleave, ok_bind]
        · rw [hqueue]
          cases b <;> simp [enqueuedBy, hcur]
  obtain ⟨e₁, hstep, hinv, hqueue, hrests, hkeeps⟩ := hleft
  cases hfront : e₁.runQueue with
  | nil =>
      rw [hfront] at hqueue
      exact absurd (List.append_eq_nil_iff.mp hqueue.symm).1 hq
  | cons next rest =>
      obtain ⟨e', c, hresume, hinv', hrest, hcur', hc, hctxs⟩ := resume_spec hinv hfront
      refine ⟨e', hstep.trans hresume, ⟨hcur' ▸ hinv', fun ctx hctx => ?_⟩, ?_, ?_, keeps_put hkeeps hctxs⟩
      · rw [hcur', Option.some.injEq] at hctx
        rw [hctxs, Table.find_put, if_pos hctx.symm]
        exact ⟨_, rfl⟩
      · rw [hcur', hrest, ← hqueue, hfront]
        rfl
      · refine rests_put hrests hctxs ?_
        have hnext : next ∈ e.runQueue ++ e.enqueuedBy (.yield b) := hqueue ▸ hfront ▸ List.mem_cons_self ..
        rcases List.mem_append.mp hnext with hnext | hnext
        · refine Or.inr (fun c₀ hc₀ hs₀ => ?_)
          exact h.inv.not_queued hc₀ (by simp [hs₀]) hnext
        · exact Or.inl hnext

/-- A yield of the current context, or of the idle one: it returns false when
the idle context finds nothing to wait for. -/
theorem yield_spec (h : Good e) (hadmits : e.currentCtx = none ∨ e.IsCurrent .running) (b : Bool) :
    ∃ e', e.yield b = .ok (decide (e.runQueue ≠ [] ∨ e.currentCtx ≠ none ∨ e.suspendedCtx ≠ 0), e') ∧ Good e' ∧
      e'.currentCtx.toList ++ e'.runQueue = e.runQueue ++ e.enqueuedBy (.yield b) ∧
      Rests e e' (e.enqueuedBy (.yield b)) ∧ Keeps e e' := by
  cases hq : e.runQueue with
  | cons next rest =>
      obtain ⟨e', hstep, hgood, hfifo, hrests⟩ := switchToNext_spec h hadmits (by simp [hq]) b
      refine ⟨e', ?_, hgood, hq ▸ hfifo, hrests⟩
      rw [yield, hq]
      simp [hstep]
  | nil =>
      cases hcur : e.currentCtx with
      | none =>
          refine ⟨e, ?_, h, ?_, fun _ _ hk _ _ => hk, keeps_refl⟩
          · rw [yield, hq, hcur]
            simp
          · cases b <;> simp [enqueuedBy, hcur, hq]
      | some ctx =>
          have hrun := hadmits.resolve_left (by simp [hcur])
          obtain ⟨c, hc, hs⟩ := hrun.find hcur
          obtain ⟨e₁, hleave, hinv, hqueue, -, hctxs⟩ := leave_spec (hcur ▸ h.inv) hc hs b
          refine ⟨{ e₁ with currentCtx := none }, ?_, good_idle ⟨hinv.nodup, hinv.queued, hinv.suspended,
            hinv.waiting, hinv.users, hinv.running⟩ rfl, ?_, rests_leave hc hs hctxs, keeps_put keeps_refl hctxs⟩
          · rw [yield, hq, hcur]
            simp [switchToIdle, hleave]
          · change [] ++ e₁.runQueue = _
            rw [hqueue, hq]
            cases b <;> simp [enqueuedBy, hcur]

theorem create_spec (h : Good e) (hfree : e.contexts.find ctx = none) (user : Bool) :
    ∃ e', e.createContext ctx user = .ok e' ∧ Good e' ∧ e'.runQueue = e.runQueue ++ [ctx] ∧
      e'.currentCtx = e.currentCtx ∧ Rests e e' [ctx] := by
  have habsent : ∀ c, e.contexts.find ctx ≠ some c := fun c hc => by simp [hfree] at hc
  have hidle : e.currentCtx ≠ some ctx := fun hcur => (h.live ctx hcur).elim habsent
  have hcount : ∀ p : Context → Bool, (e.contexts.put ctx ⟨.suspended, user⟩).values.countP (p ·) =
      e.count p + (p ⟨.suspended, user⟩).toNat := fun p => count_put_of_none hfree p
  have hinv : Inv { e with
      contexts := e.contexts.put ctx ⟨.suspended, user⟩
      userCtx := e.userCtx + user.toNat
      suspendedCtx := e.suspendedCtx + 1 } e.currentCtx := by
    refine ⟨h.inv.nodup, fun k => ?_, ?_, ?_, ?_, fun k c hk => ?_⟩
    · rw [Table.find_put]
      by_cases hk : k = ctx
      · rw [if_pos hk, hk, h.inv.queued]
        exact ⟨fun ⟨c, hc, _⟩ => (habsent c hc).elim, fun ⟨c, hc, hw⟩ => by
          rw [Option.some.injEq] at hc
          simp [← hc] at hw⟩
      · rw [if_neg hk]
        exact h.inv.queued k
    · exact (congrArg (· + 1) h.inv.suspended).trans (hcount isSuspended).symm
    · exact h.inv.waiting.trans (hcount isWaitingUser).symm
    · exact (congrArg (· + user.toNat) h.inv.users).trans (hcount Context.isUserCtx).symm
    · rw [Table.find_put] at hk
      by_cases hkc : k = ctx
      · rw [if_pos hkc, Option.some.injEq] at hk
        rw [← hk, hkc]
        exact iff_of_false (by simp) hidle
      · rw [if_neg hkc] at hk
        exact h.inv.running k c hk
  obtain ⟨e', henq, hinv', hqueue, hctxs, hcur⟩ := enqueue_spec hinv (Table.find_put.trans (if_pos rfl)) rfl
  refine ⟨e', ?_, ⟨hcur ▸ hinv', fun k hk => ?_⟩, hqueue, hcur, ?_⟩
  · rw [createContext]
    cases user <;> exact henq
  · rw [hctxs, Table.find_put, Table.find_put]
    rw [hcur] at hk
    by_cases hkc : k = ctx
    · exact absurd (hkc ▸ hk) hidle
    · rw [if_neg hkc, if_neg hkc]
      exact h.live k hk
  · exact rests_put (fun _ _ hk _ _ => hk) (hctxs.trans Table.put_put) (Or.inl (List.mem_singleton_self ctx))

theorem enqueue_good (h : Good e) (hc : e.contexts.find ctx = some c) (hs : c.state = .suspended) :
    ∃ e', e.enqueue ctx = .ok e' ∧ Good e' ∧ e'.runQueue = e.runQueue ++ [ctx] ∧ e'.currentCtx = e.currentCtx ∧
      Rests e e' [ctx] := by
  obtain ⟨e', henq, hinv, hqueue, hctxs, hcur⟩ := enqueue_spec h.inv hc hs
  refine ⟨e', henq, ⟨hcur ▸ hinv, fun k hk => ?_⟩, hqueue, hcur,
    rests_put (fun _ _ hk _ _ => hk) hctxs (Or.inl (List.mem_singleton_self ctx))⟩
  rw [hctxs, Table.find_put]
  by_cases hkc : k = ctx
  · rw [if_pos hkc]
    exact ⟨_, rfl⟩
  · rw [if_neg hkc]
    exact h.live k (hcur ▸ hk)

theorem finish_spec (h : Good e) (hcur : e.currentCtx = some ctx) (hrun : e.IsCurrent .running) :
    ∃ e', e.finish ctx = .ok e' ∧ Good e' ∧ e'.runQueue = e.runQueue ∧ e'.currentCtx = e.currentCtx ∧
      Rests e e' [] := by
  obtain ⟨⟨state, user⟩, hc, hs⟩ := hrun.find hcur
  have hs : state = .running := hs
  subst hs
  have hmoved : Moved e (e.setState ctx ⟨.running, user⟩ .terminated) ctx ⟨.running, user⟩ .terminated := by
    refine ⟨rfl, h.inv.nodup, fun k => ?_, rfl, rfl, rfl⟩
    by_cases hk : k = ctx
    · rw [if_pos hk, hk]
      exact iff_of_false (h.inv.not_queued hc (by simp)) (by simp)
    · rw [if_neg hk]
      exact Iff.rfl
  refine ⟨_, ?_, ⟨h.inv.moved hc hmoved ?_ (fun _ _ => Iff.rfl), fun k hk => ?_⟩, rfl, rfl,
    rests_leave hc rfl hmoved.contexts⟩
  · rw [finish, context_eq hc]
    rfl
  · exact iff_of_true (Or.inr rfl) hcur
  · rw [hmoved.find]
    by_cases hkc : k = ctx
    · rw [if_pos hkc]
      exact ⟨_, rfl⟩
    · rw [if_neg hkc]
      exact h.live k hk

theorem exit_spec (h : Good e) (hcur : e.currentCtx = some ctx) (hend : e.IsCurrent .terminated) :
    ∃ e', e.exit ctx = .ok e' ∧ Good e' ∧ e'.runQueue = e.runQueue ∧ e'.currentCtx = none ∧ Rests e e' [] := by
  obtain ⟨⟨state, user⟩, hc, hs⟩ := hend.find hcur
  have hs : state = .terminated := hs
  subst hs
  have hstep : ∃ n, n + user.toNat = e.userCtx ∧
      e.exit ctx = .ok { e with userCtx := n, contexts := e.contexts.erase ctx, currentCtx := none } := by
    rw [exit, context_eq hc, ok_bind]
    cases user with
    | true =>
        have hpos : 0 < e.userCtx := h.inv.users ▸ count_pos hc (show Context.isUserCtx _ = true from rfl)
        refine ⟨e.userCtx - 1, Nat.sub_add_cancel hpos, ?_⟩
        change (check (e.userCtx ≠ 0) Fault.assertion >>= _) = _
        rw [check_of hpos.ne']
        rfl
    | false => exact ⟨e.userCtx, rfl, rfl⟩
  obtain ⟨n, hn, hstep⟩ := hstep
  have hcount := count_erase hc
  refine ⟨_, hstep, good_idle ⟨h.inv.nodup, fun k => ?_, ?_, ?_, ?_, fun k c hk => ?_⟩ rfl, rfl, rfl,
    fun k c hk hs _ => ?_⟩
  · rw [Table.find_erase]
    by_cases hk : k = ctx
    · rw [if_pos hk, hk]
      exact iff_of_false (h.inv.not_queued hc (by simp)) (fun ⟨c, hc, _⟩ => by simp at hc)
    · rw [if_neg hk]
      exact h.inv.queued k
  · exact h.inv.suspended.trans (hcount isSuspended).symm
  · exact h.inv.waiting.trans (hcount isWaitingUser).symm
  · have husers := hcount Context.isUserCtx
    rw [← h.inv.users, ← hn] at husers
    exact (Nat.add_right_cancel husers).symm
  · rw [Table.find_erase] at hk
    by_cases hkc : k = ctx
    · simp [hkc] at hk
    · rw [if_neg hkc] at hk
      rw [h.inv.running k c hk, hcur, Option.some.injEq]
      exact iff_of_false (Ne.symm hkc) (by simp)
  · refine Table.find_erase.trans ((if_neg ?_).trans hk)
    rintro rfl
    rw [hc, Option.some.injEq] at hk
    simp [← hk] at hs

/-- Every action that is admitted goes through, and what it takes off the
queue it takes off the front. -/
theorem apply_spec (h : Good e) {a : Action} (hadmits : e.Admits a) :
    ∃ e', e.apply a = .ok e' ∧ Good e' ∧ resumedBy a e' ++ e'.runQueue = e.runQueue ++ e.enqueuedBy a ∧
      Rests e e' (e.enqueuedBy a) := by
  cases a with
  | create ctx user =>
      obtain ⟨e', hstep, hgood, hqueue, -, hrests⟩ := create_spec h hadmits user
      exact ⟨e', hstep, hgood, hqueue, hrests⟩
  | enqueue ctx =>
      obtain ⟨c, hc, hs⟩ := hadmits
      obtain ⟨e', hstep, hgood, hqueue, -, hrests⟩ := enqueue_good h hc hs
      exact ⟨e', hstep, hgood, hqueue, hrests⟩
  | yield b =>
      obtain ⟨e', hstep, hgood, hqueue, hrests, -⟩ := yield_spec h hadmits b
      exact ⟨e', by rw [apply, hstep]; rfl, hgood, hqueue, hrests⟩
  | finish =>
      obtain ⟨ctx, -, hcur, -⟩ := id hadmits
      obtain ⟨e', hstep, hgood, hqueue, -, hrests⟩ := finish_spec h hcur hadmits
      exact ⟨e', by rw [apply, hcur]; exact hstep, hgood, hqueue.trans (List.append_nil _).symm, hrests⟩
  | exit =>
      obtain ⟨ctx, -, hcur, -⟩ := id hadmits
      obtain ⟨e', hstep, hgood, hqueue, -, hrests⟩ := exit_spec h hcur hadmits
      exact ⟨e', by rw [apply, hcur]; exact hstep, hgood, hqueue.trans (List.append_nil _).symm, hrests⟩

theorem good_run {ts : List (Engine × Action × Engine)} (h : Run Step {} ts e) : Good e := by
  refine h.invariant Good good_init (fun u a v hu hs => ?_)
  obtain ⟨e', hstep, hgood, -⟩ := apply_spec hu hs.1
  have heq : e' = v := Except.ok.inj (hstep.symm.trans hs.2)
  exact heq ▸ hgood

theorem fifo_run {ts : List (Engine × Action × Engine)} (h : Run Step {} ts e) :
    resumedIn ts ++ e.runQueue = enqueuedIn ts := by
  induction h with
  | refl => rfl
  | @tail ts u v a hr hs ih =>
      obtain ⟨e', hstep, -, hfifo, -⟩ := apply_spec (good_run hr) hs.1
      have heq : e' = v := Except.ok.inj (hstep.symm.trans hs.2)
      subst heq
      calc resumedIn (ts ++ [(u, a, e')]) ++ e'.runQueue
          = resumedIn ts ++ (resumedBy a e' ++ e'.runQueue) := by simp [resumedIn]
        _ = (resumedIn ts ++ u.runQueue) ++ u.enqueuedBy a := by rw [hfifo, List.append_assoc]
        _ = enqueuedIn (ts ++ [(u, a, e')]) := by rw [ih]; simp [enqueuedIn]

theorem Inv.queue_perm {active : Option Nat} (h : Inv e active) :
    e.runQueue.Perm ((e.contexts.entries.filter (fun p => p.2.state = .waiting)).map Sigma.fst) := by
  have hnodup : ((e.contexts.entries.filter (fun p => p.2.state = .waiting)).map Sigma.fst).Nodup :=
    e.contexts.nodupKeys.sublist List.filter_sublist
  refine (List.perm_ext_iff_of_nodup h.nodup hnodup).mpr (fun ctx => ?_)
  rw [h.queued, List.mem_map]
  constructor
  · rintro ⟨c, hc, hw⟩
    exact ⟨⟨ctx, c⟩, List.mem_filter.mpr ⟨Table.find_eq_some.mp hc, decide_eq_true hw⟩, rfl⟩
  · rintro ⟨⟨k, c⟩, hp, rfl⟩
    have hp := List.mem_filter.mp hp
    exact ⟨c, Table.find_eq_some.mpr hp.1, of_decide_eq_true hp.2⟩

theorem Inv.waiting_queue {active : Option Nat} (h : Inv e active) :
    e.userCtxWaiting = e.runQueue.countP e.isUser := by
  rw [h.waiting, h.queue_perm.countP_eq, List.countP_map, List.countP_filter, count, Table.values,
    Multiset.coe_countP, List.countP_map]
  refine List.countP_congr (fun p hp => ?_)
  have hfind : e.contexts.find p.1 = some p.2 := Table.find_eq_some.mpr hp
  simp [isWaitingUser, isUser, hfind, and_comm]

/-- The idle context has nothing left to wait for. -/
def Settled (e : Engine) : Prop :=
  e.currentCtx = none ∧ ∀ ctx c, e.contexts.find ctx = some c → c.state ≠ .suspended ∧ ctx ∉ e.runQueue

theorem settled_iff (h : Good e) : e.Settled ↔ e.runQueue = [] ∧ e.currentCtx = none ∧ e.suspendedCtx = 0 := by
  rw [h.inv.suspended, count, Multiset.countP_eq_zero]
  constructor
  · rintro ⟨hcur, hall⟩
    refine ⟨List.eq_nil_iff_forall_not_mem.mpr (fun ctx hm => ?_), hcur, fun c hc => ?_⟩
    · obtain ⟨c, hc, -⟩ := (h.inv.queued ctx).mp hm
      exact (hall ctx c hc).2 hm
    · obtain ⟨p, hp, rfl⟩ := List.mem_map.mp hc
      simpa [isSuspended] using (hall p.1 p.2 (Table.find_eq_some.mpr hp)).1
  · rintro ⟨hq, hcur, hnone⟩
    refine ⟨hcur, fun ctx c hc => ⟨fun hs => ?_, by simp [hq]⟩⟩
    exact hnone c (List.mem_map.mpr ⟨⟨ctx, c⟩, Table.find_eq_some.mp hc, rfl⟩) (decide_eq_true hs)

theorem Inv.count_queue {active : Option Nat} (h : Inv e active) (hc : e.contexts.find ctx = some c) :
    e.runQueue.count ctx = if c.state = .waiting then 1 else 0 := by
  by_cases hw : c.state = .waiting
  · rw [if_pos hw]
    exact List.count_eq_one_of_mem h.nodup ((h.queued ctx).mpr ⟨c, hc, hw⟩)
  · rw [if_neg hw]
    exact List.count_eq_zero.mpr (h.not_queued hc hw)

/-- After any run, the counters tell the states of the contexts, the run queue
holds the waiting ones once and has served them in order, no action that is
admitted fails, and a yield returns false when nothing is left. -/
theorem scheduler_runs {ts : List (Engine × Action × Engine)} (h : Run Step {} ts e) :
    (e.suspendedCtx = e.count isSuspended ∧
      (∀ ctx c, e.contexts.find ctx = some c → e.runQueue.count ctx = if c.state = .waiting then 1 else 0) ∧
      (∀ ctx ∈ e.runQueue, ∃ c, e.contexts.find ctx = some c) ∧
      e.userCtxWaiting = e.runQueue.countP e.isUser) ∧
    resumedIn ts ++ e.runQueue = enqueuedIn ts ∧
    (∀ a, e.Admits a → ∃ e', e.apply a = .ok e') ∧
    ∀ b, e.Admits (.yield b) → ∃ r e', e.yield b = .ok (r, e') ∧ (r = false ↔ e.Settled) := by
  have hgood := good_run h
  refine ⟨⟨hgood.inv.suspended, fun ctx c hc => hgood.inv.count_queue hc, fun ctx hm => ?_,
    hgood.inv.waiting_queue⟩, fifo_run h, fun a ha => ?_, fun b hb => ?_⟩
  · obtain ⟨c, hc, -⟩ := (hgood.inv.queued ctx).mp hm
    exact ⟨c, hc⟩
  · obtain ⟨e', he', -⟩ := apply_spec hgood ha
    exact ⟨e', he'⟩
  · obtain ⟨e', he', -⟩ := yield_spec hgood hb b
    refine ⟨_, e', he', ?_⟩
    rw [settled_iff hgood]
    simp only [decide_eq_false_iff_not, not_or, Decidable.not_not]

theorem isCurrent_iff {state : CtxState} :
    (e.currentCtx.bind e.contexts.find).any (fun c => c.state = state) = true ↔ e.IsCurrent state := by
  rw [Option.any_eq_true]
  simp only [Option.bind_eq_some_iff, decide_eq_true_eq, IsCurrent]
  constructor
  · rintro ⟨c, ⟨ctx, hctx, hc⟩, hs⟩
    exact ⟨ctx, c, hctx, hc, hs⟩
  · rintro ⟨ctx, c, hctx, hc, hs⟩
    exact ⟨c, ⟨ctx, hctx, hc⟩, hs⟩

instance (e : Engine) (state : CtxState) : Decidable (e.IsCurrent state) := decidable_of_iff _ isCurrent_iff

instance (e : Engine) (a : Action) : Decidable (e.Admits a) :=
  match a with
  | .create ctx _ => inferInstanceAs (Decidable (e.contexts.find ctx = none))
  | .enqueue ctx => decidable_of_iff ((e.contexts.find ctx).any (fun c => c.state = .suspended) = true)
      (by simp [Option.any_eq_true, Admits])
  | .yield _ => inferInstanceAs (Decidable (e.currentCtx = none ∨ e.IsCurrent .running))
  | .finish => inferInstanceAs (Decidable (e.IsCurrent .running))
  | .exit => inferInstanceAs (Decidable (e.IsCurrent .terminated))

def attempt (e : Engine) (a : Action) : Option Engine := if e.Admits a then (e.apply a).toOption else none

theorem step_attempt {a : Action} (h : e.attempt a = some e') : Step e a e' :=
  ok_of_toOption h

/-- Two contexts that take turns, one of which wakes the other and ends. -/
def turns : List Action :=
  [.create 0 true, .create 1 false, .yield true, .yield false, .enqueue 0, .finish, .exit, .yield true]

theorem scheduler_turns : ∃ ts e, Run Step {} ts e ∧ resumedIn ts = [0, 1, 0] ∧ e.runQueue = [] ∧
    resumedIn ts ++ e.runQueue = enqueuedIn ts ∧ e.suspendedCtx = e.count isSuspended := by
  have hends : (follow attempt {} turns).any (fun r => resumedIn r.1 = [0, 1, 0] ∧ r.2.runQueue = []) = true := by
    decide
  obtain ⟨⟨ts, e⟩, hfollow, htest⟩ := (Option.any_eq_true _ _).mp hends
  obtain ⟨hresumed, hqueue⟩ := of_decide_eq_true htest
  have hrun := run_follow attempt (fun _ _ _ => step_attempt) _ _ hfollow
  have hall := scheduler_runs hrun
  exact ⟨ts, e, hrun, hresumed, hqueue, hall.2.1, hall.1.1⟩

end Engine

end Tyrdbs.Gt
