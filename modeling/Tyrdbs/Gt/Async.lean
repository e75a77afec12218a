import Tyrdbs.Library.Runs
import Tyrdbs.Library.Table
import Mathlib.Logic.Function.Basic

namespace Tyrdbs.Gt.Async

open Runs

structure Job where
  done : Bool := false
  waitQueue : List Nat := []
  deriving DecidableEq

/-- Contexts with the jobs that they have run and not yet waited for. The entries that
the jobs are in come from a pool that all contexts share; a thread that has not ended
will signal the entry of its job. Of the engine only what job::wait rests on is kept: a
context that waits is suspended, and from when it is enqueued on it is among the woken. -/
structure System where
  entries : Table Nat Job := Table.empty
  jobs : Nat → List Nat := fun _ => []
  threads : List (Nat × Nat) := []
  woken : List Nat := []
  inWait : Nat → Bool := fun _ => false

inductive Action
  | run (ctx job : Nat)
  | ends (ctx job : Nat)
  | wait (ctx : Nat)
  | resume (ctx : Nat)
  deriving DecidableEq

namespace System

/-- engine::enqueue, which asserts that the context is suspended. -/
def enqueue (s : System) (ctx : Nat) : Option System :=
  if s.inWait ctx = true ∧ ctx ∉ s.woken then some { s with woken := s.woken ++ [ctx] } else none

def enqueueAll : System → List Nat → Option System
  | s, [] => some s
  | s, ctx :: rest => do
      let s ← s.enqueue ctx
      s.enqueueAll rest

/-- job::signal, on an entry that must not have been freed. -/
def signal (s : System) (job : Nat) : Option System := do
  let j ← s.entries.find job
  enqueueAll { s with entries := s.entries.put job { done := true } } j.waitQueue

/-- The loop of jobs::wait, up to where it returns or gives up the processor. -/
def drain : System → Nat → List Nat → Option System
  | s, ctx, [] => some { s with
      jobs := Function.update s.jobs ctx [], inWait := Function.update s.inWait ctx false }
  | s, ctx, job :: rest => do
      let j ← s.entries.find job
      if j.done then drain { s with entries := s.entries.erase job } ctx rest
      else some { s with
        entries := s.entries.put job { j with waitQueue := j.waitQueue ++ [ctx] }
        jobs := Function.update s.jobs ctx (job :: rest), inWait := Function.update s.inWait ctx true }

/-- A context that was woken in job::wait finds its job done, or fails an assertion. -/
def resume (s : System) (ctx : Nat) : Option System :=
  match s.jobs ctx with
  | [] => none
  | job :: rest => do
      let j ← s.entries.find job
      if j.done then
        drain { s with woken := s.woken.erase ctx, entries := s.entries.erase job } ctx rest
      else none

def apply (s : System) : Action → Option System
  | .run ctx job => some { s with
      entries := s.entries.put job {}, jobs := Function.update s.jobs ctx (s.jobs ctx ++ [job])
      threads := (ctx, job) :: s.threads }
  | .ends ctx job => signal { s with threads := s.threads.erase (ctx, job) } job
  | .wait ctx => s.drain ctx (s.jobs ctx)
  | .resume ctx => s.resume ctx

end System

/-- A context that waits does nothing else; the pool hands out entries that are not in use. -/
def Action.Allowed (s : System) : Action → Prop
  | .run ctx job => s.inWait ctx = false ∧ s.entries.find job = none
  | .ends ctx job => (ctx, job) ∈ s.threads
  | .wait ctx => s.inWait ctx = false
  | .resume ctx => ctx ∈ s.woken

instance (s : System) : (a : Action) → Decidable (a.Allowed s)
  | .run ctx job => inferInstanceAs (Decidable (s.inWait ctx = false ∧ s.entries.find job = none))
  | .ends ctx job => inferInstanceAs (Decidable ((ctx, job) ∈ s.threads))
  | .wait ctx => inferInstanceAs (Decidable (s.inWait ctx = false))
  | .resume ctx => inferInstanceAs (Decidable (ctx ∈ s.woken))

def Step (s : System) (a : Action) (s' : System) : Prop := a.Allowed s ∧ s.apply a = some s'

/-- An entry is in the list of one context while it is in use, a thread runs for it until
it is done, and a context that waits sleeps in the queue of its first job, or was woken
when that job was done. -/
structure Inv (s : System) : Prop where
  sole : ∀ a b job, job ∈ s.jobs a → job ∈ s.jobs b → a = b
  nodup : ∀ a, (s.jobs a).Nodup
  used : ∀ a, ∀ job ∈ s.jobs a, ∃ j, s.entries.find job = some j
  threads : ∀ a job, (a, job) ∈ s.threads ↔
    job ∈ s.jobs a ∧ ∃ j, s.entries.find job = some j ∧ j.done = false
  once : s.threads.Nodup
  queued : ∀ job j, s.entries.find job = some j → j.waitQueue = [] ∨ j.done = false ∧
    ∃ a rest, j.waitQueue = [a] ∧ s.jobs a = job :: rest ∧ s.inWait a = true ∧ a ∉ s.woken
  woken : ∀ a ∈ s.woken, s.inWait a = true ∧
    ∃ job rest j, s.jobs a = job :: rest ∧ s.entries.find job = some j ∧ j.done = true
  wokenOnce : s.woken.Nodup
  waits : ∀ a, s.inWait a = true → a ∈ s.woken ∨
    ∃ job rest j, s.jobs a = job :: rest ∧ s.entries.find job = some j ∧ j.waitQueue = [a]

variable {s s' : System} {ctx job : Nat} {rest : List Nat} {j : Job}

theorem inv_start : Inv {} where
  sole _ _ _ h := absurd h List.not_mem_nil
  nodup _ := List.nodup_nil
  used _ _ h := absurd h List.not_mem_nil
  threads _ _ := ⟨fun h => absurd h List.not_mem_nil, fun h => absurd h.1 List.not_mem_nil⟩
  once := List.nodup_nil
  queued _ _ h := absurd h (by simp)
  woken _ h := absurd h List.not_mem_nil
  wokenOnce := List.nodup_nil
  waits _ h := absurd h (by simp)

/-- What a context that is awake does to its jobs leaves those of the ones that sleep. -/
theorem jobs_asleep (hawake : s.inWait ctx = false) {a : Nat} (ha : s.inWait a = true) (jobs : List Nat) :
    Function.update s.jobs ctx jobs a = s.jobs a := by
  refine Function.update_of_ne ?_ _ _
  rintro rfl
  rw [hawake] at ha
  exact Bool.noConfusion ha

theorem inv_pop (h : Inv s) (hjobs : s.jobs ctx = job :: rest) (hj : s.entries.find job = some j)
    (hdone : j.done = true) (hawake : s.inWait ctx = false) :
    Inv { s with entries := s.entries.erase job, jobs := Function.update s.jobs ctx rest } := by
  have hmem : job ∈ s.jobs ctx := hjobs ▸ List.mem_cons_self
  obtain ⟨hout, hrest⟩ := List.nodup_cons.mp (hjobs ▸ h.nodup ctx)
  have hsub : ∀ a, ∀ k ∈ Function.update s.jobs ctx rest a, k ∈ s.jobs a ∧ k ≠ job := by
    intro a k hk
    by_cases ha : a = ctx
    · subst ha
      rw [Function.update_self] at hk
      exact ⟨hjobs ▸ List.mem_cons_of_mem _ hk, fun heq => hout (heq ▸ hk)⟩
    · rw [Function.update_of_ne ha] at hk
      exact ⟨hk, fun heq => ha (h.sole a ctx job (heq ▸ hk) hmem)⟩
  have hkeep : ∀ a, ∀ k ∈ s.jobs a, k ≠ job → k ∈ Function.update s.jobs ctx rest a := by
    intro a k hk hne
    by_cases ha : a = ctx
    · subst ha
      rw [Function.update_self]
      rw [hjobs] at hk
      exact (List.mem_cons.mp hk).resolve_left hne
    · rwa [Function.update_of_ne ha]
  have hother : ∀ a, s.inWait a = true → Function.update s.jobs ctx rest a = s.jobs a :=
    fun a ha => jobs_asleep hawake ha rest
  have hfind : ∀ k, k ≠ job → (s.entries.erase job).find k = s.entries.find k :=
    fun k hk => (Table.find_erase).trans (if_neg hk)
  have hback : ∀ k i, (s.entries.erase job).find k = some i → s.entries.find k = some i := by
    intro k i hi
    rw [Table.find_erase] at hi
    split at hi
    · exact absurd hi (by simp)
    · exact hi
  refine ⟨fun a b k ha hb => h.sole a b k (hsub a k ha).1 (hsub b k hb).1, fun a => ?_, fun a k hk => ?_,
    fun a k => ?_, h.once, fun k i hi => ?_, fun a ha => ?_, h.wokenOnce, fun a ha => ?_⟩
  · by_cases ha : a = ctx
    · subst ha
      simp only [Function.update_self]
      exact hrest
    · simp only [Function.update_of_ne ha]
      exact h.nodup a
  · obtain ⟨hk, hne⟩ := hsub a k hk
    obtain ⟨i, hi⟩ := h.used a k hk
    exact ⟨i, (hfind k hne).trans hi⟩
  · rw [h.threads]
    constructor
    · rintro ⟨hk, i, hi, hrun⟩
      have hne : k ≠ job := by
        rintro rfl
        rw [hj, Option.some.injEq] at hi
        rw [← hi, hdone] at hrun
        exact Bool.noConfusion hrun
      exact ⟨hkeep a k hk hne, i, (hfind k hne).trans hi, hrun⟩
    · rintro ⟨hk, i, hi, hrun⟩
      exact ⟨(hsub a k hk).1, i, hback k i hi, hrun⟩
  · refine (h.queued k i (hback k i hi)).imp_right fun ⟨hrun, a, more, hqueue, hfront, ha, hout⟩ => ?_
    exact ⟨hrun, a, more, hqueue, (hother a ha).trans hfront, ha, hout⟩
  · obtain ⟨hin, k, more, i, hfront, hi, hk⟩ := h.woken a ha
    have hne : k ≠ job := (hsub a k ((hother a hin) ▸ hfront ▸ List.mem_cons_self)).2
    exact ⟨hin, k, more, i, (hother a hin).trans hfront, (hfind k hne).trans hi, hk⟩
  · refine (h.waits a ha).imp_right fun ⟨k, more, i, hfront, hi, hqueue⟩ => ?_
    have hne : k ≠ job := (hsub a k ((hother a ha) ▸ hfront ▸ List.mem_cons_self)).2
    exact ⟨k, more, i, (hother a ha).trans hfront, (hfind k hne).trans hi, hqueue⟩

theorem inv_sleep (h : Inv s) (hjobs : s.jobs ctx = job :: rest) (hj : s.entries.find job = some j)
    (hrun : j.done = false) (hawake : s.inWait ctx = false) :
    Inv { s with
      entries := s.entries.put job { j with waitQueue := j.waitQueue ++ [ctx] }
      inWait := Function.update s.inWait ctx true } := by
  have hnone : j.waitQueue = [] := by
    refine (h.queued job j hj).resolve_right ?_
    rintro ⟨-, a, more, -, hfront, ha, -⟩
    obtain rfl : a = ctx := h.sole a ctx job (hfront ▸ List.mem_cons_self) (hjobs ▸ List.mem_cons_self)
    rw [hawake] at ha
    exact Bool.noConfusion ha
  have hout : ctx ∉ s.woken := by
    intro hin
    rw [(h.woken ctx hin).1] at hawake
    exact Bool.noConfusion hawake
  rw [hnone, List.nil_append]
  have hwaits : ∀ a, s.inWait a = true → Function.update s.inWait ctx true a = true := by
    intro a ha
    by_cases heq : a = ctx
    · rw [heq, Function.update_self]
    · rwa [Function.update_of_ne heq]
  -- apart from the queue of its first job nothing that is found has changed
  have hdone : ∀ k b, (∃ i, (s.entries.put job { j with waitQueue := [ctx] }).find k = some i ∧ i.done = b) ↔
      ∃ i, s.entries.find k = some i ∧ i.done = b := by
    intro k b
    by_cases hk : k = job
    · subst hk
      rw [Table.find_put_self, hj]
      constructor
      · rintro ⟨i, hi, hb⟩
        obtain rfl := Option.some.inj hi
        exact ⟨j, rfl, hb⟩
      · rintro ⟨i, hi, hb⟩
        obtain rfl := Option.some.inj hi
        exact ⟨_, rfl, hb⟩
    · rw [Table.find_put_of_ne hk]
  refine ⟨h.sole, h.nodup, fun a k hk => ?_, fun a k => ?_, h.once, fun k i hi => ?_, fun a ha => ?_, h.wokenOnce,
    fun a ha => ?_⟩
  · obtain ⟨i, hi⟩ := h.used a k hk
    obtain ⟨i', hi', -⟩ := (hdone k i.done).mpr ⟨i, hi, rfl⟩
    exact ⟨i', hi'⟩
  · rw [h.threads, hdone]
  · by_cases hk : k = job
    · subst hk
      rw [Table.find_put_self, Option.some.injEq] at hi
      subst hi
      exact .inr ⟨hrun, ctx, rest, rfl, hjobs, Function.update_self .., hout⟩
    · rw [Table.find_put_of_ne hk] at hi
      refine (h.queued k i hi).imp_right fun ⟨hgo, a, more, hqueue, hfront, ha, hno⟩ => ?_
      exact ⟨hgo, a, more, hqueue, hfront, hwaits a ha, hno⟩
  · obtain ⟨hin, k, more, i, hfront, hi, hk⟩ := h.woken a ha
    obtain ⟨i', hi', hk'⟩ := (hdone k true).mpr ⟨i, hi, hk⟩
    exact ⟨hwaits a hin, k, more, i', hfront, hi', hk'⟩
  · by_cases heq : a = ctx
    · subst heq
      exact .inr ⟨job, rest, _, hjobs, Table.find_put_self, rfl⟩
    · simp only [Function.update_of_ne heq] at ha
      refine (h.waits a ha).imp_right fun ⟨k, more, i, hfront, hi, hqueue⟩ => ?_
      have hk : k ≠ job := by
        rintro rfl
        exact heq (h.sole a ctx k (hfront ▸ List.mem_cons_self) (hjobs ▸ List.mem_cons_self))
      exact ⟨k, more, i, hfront, (Table.find_put_of_ne hk).trans hi, hqueue⟩

theorem inv_wake (h : Inv s) (hin : ctx ∈ s.woken) :
    Inv { s with woken := s.woken.erase ctx, inWait := Function.update s.inWait ctx false } := by
  have hother : ∀ a, a ≠ ctx → Function.update s.inWait ctx false a = s.inWait a :=
    fun a ha => Function.update_of_ne ha _ _
  refine ⟨h.sole, h.nodup, h.used, h.threads, h.once, fun k i hi => ?_, fun a ha => ?_, h.wokenOnce.erase ctx,
    fun a ha => ?_⟩
  · refine (h.queued k i hi).imp_right fun ⟨hgo, a, more, hqueue, hfront, ha, hno⟩ => ?_
    have hne : a ≠ ctx := fun heq => hno (heq ▸ hin)
    exact ⟨hgo, a, more, hqueue, hfront, (hother a hne).trans ha, fun hback => hno (List.mem_of_mem_erase hback)⟩
  · obtain ⟨hne, ha⟩ := h.wokenOnce.mem_erase_iff.mp ha
    obtain ⟨hwait, hfront⟩ := h.woken a ha
    exact ⟨(hother a hne).trans hwait, hfront⟩
  · have hne : a ≠ ctx := by
      rintro rfl
      simp only [Function.update_self] at ha
      exact Bool.noConfusion ha
    simp only [hother a hne] at ha
    exact (h.waits a ha).imp_left fun hback => h.wokenOnce.mem_erase_iff.mpr ⟨hne, hback⟩

/-- jobs::wait returns when no job is left, or the context sleeps. The induction is on
the jobs that are left. -/
theorem inv_drain (ctx : Nat) (jobs : List Nat) : ∀ {s : System},
    Inv { s with jobs := Function.update s.jobs ctx jobs, inWait := Function.update s.inWait ctx false } →
      ∃ s', s.drain ctx jobs = some s' ∧ Inv s' ∧ (s'.inWait ctx = false → s'.jobs ctx = []) := by
  induction jobs with
  | nil => exact fun h => ⟨_, rfl, h, fun _ => Function.update_self ..⟩
  | cons job rest ih =>
      intro s h
      have hjobs : Function.update s.jobs ctx (job :: rest) ctx = job :: rest := Function.update_self ..
      have hawake : Function.update s.inWait ctx false ctx = false := Function.update_self ..
      obtain ⟨j, hj⟩ := h.used ctx job (by simp only [hjobs]; exact List.mem_cons_self)
      by_cases hdone : j.done = true
      · have hpop := inv_pop h hjobs hj hdone hawake
        simp only [Function.update_idem] at hpop
        obtain ⟨s', hs', hinv, hleft⟩ := ih (s := { s with entries := s.entries.erase job }) hpop
        refine ⟨s', ?_, hinv, hleft⟩
        have hj : s.entries.find job = some j := hj
        simp only [System.drain, hj, bind, Option.bind, hdone, if_true]
        exact hs'
      · have hsleep := inv_sleep h hjobs hj (Bool.eq_false_iff.mpr hdone) hawake
        simp only [Function.update_idem] at hsleep
        refine ⟨_, ?_, hsleep, fun hno => ?_⟩
        · have hj : s.entries.find job = some j := hj
          simp only [System.drain, hj, bind, Option.bind, hdone, if_false, Bool.false_eq_true]
        · simp only [Function.update_self] at hno
          exact Bool.noConfusion hno

end Tyrdbs.Gt.Async
