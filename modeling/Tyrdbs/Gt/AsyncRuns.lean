import Tyrdbs.Gt.Async

namespace Tyrdbs.Gt.Async

open Runs

variable {s s' : System} {ctx job : Nat} {a : Action}

theorem wait_step (h : Inv s) (ha : Action.Allowed s (.wait ctx)) :
    ∃ s', s.apply (.wait ctx) = some s' ∧ Inv s' ∧ (s'.inWait ctx = false → s'.jobs ctx = []) := by
  have hawake : s.inWait ctx = false := ha
  refine inv_drain ctx (s.jobs ctx) ?_
  rw [Function.update_eq_self, ← hawake, Function.update_eq_self]
  exact h

theorem resume_step (h : Inv s) (ha : Action.Allowed s (.resume ctx)) :
    ∃ s', s.apply (.resume ctx) = some s' ∧ Inv s' ∧ (s'.inWait ctx = false → s'.jobs ctx = []) := by
  have hin : ctx ∈ s.woken := ha
  obtain ⟨-, job, rest, j, hjobs, hj, hdone⟩ := h.woken ctx hin
  have hpop := inv_pop (inv_wake h hin) hjobs hj hdone (Function.update_self ..)
  obtain ⟨s', hs', hinv, hleft⟩ := inv_drain ctx rest
    (s := { s with woken := s.woken.erase ctx, entries := s.entries.erase job }) hpop
  refine ⟨s', ?_, hinv, hleft⟩
  rw [System.apply, System.resume, hjobs]
  simp only [hj, bind, Option.bind, hdone, if_true]
  exact hs'

theorem mem_jobs_run {k b : Nat} :
    k ∈ Function.update s.jobs ctx (s.jobs ctx ++ [job]) b ↔ k ∈ s.jobs b ∨ b = ctx ∧ k = job := by
  by_cases hb : b = ctx
  · subst hb
    rw [Function.update_self, List.mem_append, List.mem_singleton]
    exact or_congr_right ⟨fun hk => ⟨rfl, hk⟩, fun hk => hk.2⟩
  · rw [Function.update_of_ne hb]
    exact ⟨.inl, fun hk => hk.resolve_right fun hno => hb hno.1⟩

theorem run_step (h : Inv s) (ha : Action.Allowed s (.run ctx job)) :
    ∃ s', s.apply (.run ctx job) = some s' ∧ Inv s' := by
  obtain ⟨hawake, hfree⟩ := ha
  have hout : ∀ b, job ∉ s.jobs b := by
    intro b hb
    obtain ⟨j, hj⟩ := h.used b job hb
    rw [hfree] at hj
    exact absurd hj (by simp)
  have hother : ∀ b, s.inWait b = true → Function.update s.jobs ctx (s.jobs ctx ++ [job]) b = s.jobs b :=
    fun b hb => jobs_asleep hawake hb _
  have hkept : ∀ k j, s.entries.find k = some j → (s.entries.put job {}).find k = some j := by
    intro k j hj
    have hk : k ≠ job := by
      rintro rfl
      rw [hfree] at hj
      exact absurd hj (by simp)
    rw [Table.find_put_of_ne hk, hj]
  refine ⟨_, rfl, ⟨fun b c k hb hc => ?_, fun b => ?_, fun b k hk => ?_, fun b k => ?_, ?_, fun k j hj => ?_,
    fun b hb => ?_, h.wokenOnce, fun b hb => ?_⟩⟩
  · rcases mem_jobs_run.mp hb with hold | ⟨hfirst, hk⟩
    · rcases mem_jobs_run.mp hc with hold' | ⟨-, hk⟩
      · exact h.sole b c k hold hold'
      · exact absurd (hk ▸ hold) (hout b)
    · rcases mem_jobs_run.mp hc with hold | ⟨hsecond, -⟩
      · exact absurd (hk ▸ hold) (hout c)
      · rw [hfirst, hsecond]
  · by_cases hb : b = ctx
    · subst hb
      simp only [Function.update_self]
      refine List.nodup_append.mpr ⟨h.nodup b, List.nodup_singleton job, fun k hk k' hk' heq => ?_⟩
      rw [List.mem_singleton.mp hk'] at heq
      exact hout b (heq ▸ hk)
    · simp only [Function.update_of_ne hb]
      exact h.nodup b
  · rcases mem_jobs_run.mp hk with hk | ⟨-, rfl⟩
    · obtain ⟨j, hj⟩ := h.used b k hk
      exact ⟨j, hkept k j hj⟩
    · exact ⟨_, Table.find_put_self⟩
  · rw [List.mem_cons, h.threads, mem_jobs_run]
    by_cases hk : k = job
    · subst hk
      constructor
      · rintro (heq | ⟨hk, -⟩)
        · exact ⟨.inr ⟨congrArg Prod.fst heq, rfl⟩, {}, Table.find_put_self, rfl⟩
        · exact absurd hk (hout b)
      · rintro ⟨hk | ⟨rfl, -⟩, -⟩
        · exact absurd hk (hout b)
        · exact .inl rfl
    · simp only [Table.find_put_of_ne hk]
      constructor
      · rintro (heq | ⟨hk', hj⟩)
        · exact absurd (congrArg Prod.snd heq) hk
        · exact ⟨.inl hk', hj⟩
      · rintro ⟨hk' | ⟨-, hk'⟩, hj⟩
        · exact .inr ⟨hk', hj⟩
        · exact absurd hk' hk
  · refine List.nodup_cons.mpr ⟨fun hin => ?_, h.once⟩
    exact hout ctx ((h.threads ctx job).mp hin).1
  · by_cases hk : k = job
    · subst hk
      rw [Table.find_put_self, Option.some.injEq] at hj
      exact .inl (by rw [← hj])
    · rw [Table.find_put_of_ne hk] at hj
      refine (h.queued k j hj).imp_right fun hasleep => ?_
      obtain ⟨hgo, b, more, hqueue, hfront, hb, hno⟩ := hasleep
      exact ⟨hgo, b, more, hqueue, (hother b hb).trans hfront, hb, hno⟩
  · obtain ⟨hin, k, more, j, hfront, hj, hk⟩ := h.woken b hb
    exact ⟨hin, k, more, j, (hother b hin).trans hfront, hkept k j hj, hk⟩
  · refine (h.waits b hb).imp_right fun hasleep => ?_
    obtain ⟨k, more, j, hfront, hj, hqueue⟩ := hasleep
    exact ⟨k, more, j, (hother b hb).trans hfront, hkept k j hj, hqueue⟩

theorem enqueueAll_queue {queue : List Nat}
    (h : queue = [] ∨ ∃ b, queue = [b] ∧ s.inWait b = true ∧ b ∉ s.woken) :
    s.enqueueAll queue = some { s with woken := s.woken ++ queue } := by
  rcases h with rfl | ⟨b, rfl, hb, hout⟩
  · rw [List.append_nil]
    rfl
  · rw [System.enqueueAll, System.enqueue, if_pos ⟨hb, hout⟩]
    rfl

theorem ends_step (h : Inv s) (ha : Action.Allowed s (.ends ctx job)) :
    ∃ s', s.apply (.ends ctx job) = some s' ∧ Inv s' := by
  have hin : (ctx, job) ∈ s.threads := ha
  obtain ⟨hmem, j, hj, hrun⟩ := (h.threads ctx job).mp hin
  have hqueue := h.queued job j hj
  have happ : s.apply (.ends ctx job) = some { s with
      threads := s.threads.erase (ctx, job), entries := s.entries.put job { done := true }
      woken := s.woken ++ j.waitQueue } := by
    simp only [System.apply, System.signal, hj, bind, Option.bind]
    refine enqueueAll_queue (hqueue.imp_right ?_)
    rintro ⟨-, b, more, hb, -, hwait, hout⟩
    exact ⟨b, hb, hwait, hout⟩
  -- whoever is woken had this job first
  have hwoken : ∀ b ∈ j.waitQueue, ∃ more, s.jobs b = job :: more ∧ s.inWait b = true ∧ b ∉ s.woken := by
    intro b hb
    rcases hqueue with hnone | ⟨-, c, more, hc, hfront, hwait, hout⟩
    · rw [hnone] at hb
      exact absurd hb List.not_mem_nil
    · rw [hc, List.mem_singleton] at hb
      subst hb
      exact ⟨more, hfront, hwait, hout⟩
  refine ⟨_, happ, ⟨h.sole, h.nodup, fun b k hk => ?_, fun b k => ?_, h.once.erase _, fun k i hi => ?_,
    fun b hb => ?_, ?_, fun b hb => ?_⟩⟩
  · by_cases hkj : k = job
    · subst hkj
      exact ⟨_, Table.find_put_self⟩
    · obtain ⟨i, hi⟩ := h.used b k hk
      exact ⟨i, (Table.find_put_of_ne hkj).trans hi⟩
  · rw [h.once.mem_erase_iff, h.threads]
    by_cases hk : k = job
    · subst hk
      rw [Table.find_put_self]
      constructor
      · rintro ⟨hne, hk, -⟩
        exact absurd (congrArg (fun c => (c, k)) (h.sole b ctx k hk hmem)) hne
      · rintro ⟨-, i, hi, hgo⟩
        rw [← Option.some.inj hi] at hgo
        exact Bool.noConfusion hgo
    · rw [Table.find_put_of_ne hk]
      exact ⟨fun hall => hall.2, fun hall => ⟨fun heq => hk (congrArg Prod.snd heq), hall⟩⟩
  · by_cases hk : k = job
    · subst hk
      rw [Table.find_put_self, Option.some.injEq] at hi
      exact .inl (by rw [← hi])
    · rw [Table.find_put_of_ne hk] at hi
      refine (h.queued k i hi).imp_right fun hasleep => ?_
      obtain ⟨hgo, b, more, hb, hfront, hwait, hout⟩ := hasleep
      refine ⟨hgo, b, more, hb, hfront, hwait, fun hback => ?_⟩
      rcases List.mem_append.mp hback with hback | hback
      · exact hout hback
      · obtain ⟨more', hfront', -⟩ := hwoken b hback
        rw [hfront] at hfront'
        exact hk (List.cons.inj hfront').1
  · rcases List.mem_append.mp hb with hb | hb
    · obtain ⟨hwait, k, more, i, hfront, hi, hdone⟩ := h.woken b hb
      by_cases hk : k = job
      · subst hk
        exact ⟨hwait, k, more, _, hfront, Table.find_put_self, rfl⟩
      · exact ⟨hwait, k, more, i, hfront, (Table.find_put_of_ne hk).trans hi, hdone⟩
    · obtain ⟨more, hfront, hwait, -⟩ := hwoken b hb
      exact ⟨hwait, job, more, _, hfront, Table.find_put_self, rfl⟩
  · refine List.nodup_append.mpr ⟨h.wokenOnce, ?_, fun b hb c hc heq => ?_⟩
    · rcases hqueue with hnone | ⟨-, c, more, hc, -⟩
      · rw [hnone]
        exact List.nodup_nil
      · rw [hc]
        exact List.nodup_singleton c
    · obtain ⟨-, -, -, hout⟩ := hwoken c hc
      exact hout (heq ▸ hb)
  · rcases h.waits b hb with hwoke | ⟨k, more, i, hfront, hi, hwaits⟩
    · exact .inl (List.mem_append_left _ hwoke)
    · by_cases hk : k = job
      · subst hk
        rw [hj, Option.some.injEq] at hi
        subst hi
        refine .inl (List.mem_append_right _ ?_)
        rw [hwaits]
        exact List.mem_singleton_self b
      · exact .inr ⟨k, more, i, hfront, (Table.find_put_of_ne hk).trans hi, hwaits⟩

theorem inv_apply (h : Inv s) (ha : a.Allowed s) : ∃ s', s.apply a = some s' ∧ Inv s' := by
  cases a with
  | run ctx job => exact run_step h ha
  | ends ctx job => exact ends_step h ha
  | wait ctx =>
      obtain ⟨s', hs', hinv, -⟩ := wait_step h ha
      exact ⟨s', hs', hinv⟩
  | resume ctx =>
      obtain ⟨s', hs', hinv, -⟩ := resume_step h ha
      exact ⟨s', hs', hinv⟩

theorem inv_step (h : Inv s) (hs : Step s a s') : Inv s' := by
  obtain ⟨s₁, happ, hinv⟩ := inv_apply h hs.1
  rw [hs.2, Option.some.injEq] at happ
  exact happ ▸ hinv

/-- A context sleeps in wait only as long as a thread of its own runs that will wake it. -/
theorem Inv.awaited (h : Inv s) {b : Nat} (hb : s.inWait b = true) : b ∈ s.woken ∨ ∃ k, (b, k) ∈ s.threads := by
  refine (h.waits b hb).imp_right fun hasleep => ?_
  obtain ⟨k, more, i, hfront, hi, hwaits⟩ := hasleep
  refine ⟨k, (h.threads b k).mpr ⟨hfront ▸ List.mem_cons_self, i, hi, ?_⟩⟩
  rcases h.queued k i hi with hnone | ⟨hgo, -⟩
  · rw [hwaits] at hnone
    exact absurd hnone (List.cons_ne_nil _ _)
  · exact hgo

/-- In every order in which contexts run jobs, threads end and contexts wait: no end of a
thread touches an entry that was given back, and no assertion fails; who sleeps in wait
has a thread of its own that will wake it; and when wait returns, all threads that the
context has run have ended. -/
theorem joins_sound {ts : List (System × Action × System)} {u : System} (h : Run Step {} ts u) :
    (∀ s ∈ visited {} ts, (∀ a : Action, a.Allowed s → (s.apply a).isSome) ∧
      ∀ b, s.inWait b = true → b ∈ s.woken ∨ ∃ k, (b, k) ∈ s.threads) ∧
    ∀ t ∈ ts, ∀ b, t.2.1 = .wait b ∨ t.2.1 = .resume b → t.2.2.inWait b = false →
      ∀ k, (b, k) ∉ t.2.2.threads := by
  have hall : ∀ s ∈ visited {} ts, Inv s :=
    h.visited_guarded (fun _ _ => True) (fun _ _ => trivial) Inv inv_start fun _ _ _ h hs _ => inv_step h hs
  refine ⟨fun s hs => ⟨fun a ha => ?_, fun b hb => (hall s hs).awaited hb⟩, fun t ht b hwhat hback k hk => ?_⟩
  · obtain ⟨s', hs', -⟩ := inv_apply (hall s hs) ha
    rw [hs']
    rfl
  · obtain ⟨hvisited, hallowed, happ⟩ := h.of_mem t ht
    have hinv := hall t.1 hvisited
    obtain ⟨s', hs', hinv', hleft⟩ : ∃ s', t.1.apply t.2.1 = some s' ∧ Inv s' ∧
        (s'.inWait b = false → s'.jobs b = []) := by
      rcases hwhat with hwhat | hwhat
      · rw [hwhat] at hallowed ⊢
        exact wait_step hinv hallowed
      · rw [hwhat] at hallowed ⊢
        exact resume_step hinv hallowed
    rw [happ, Option.some.injEq] at hs'
    subst hs'
    have hmem := ((hinv'.threads b k).mp hk).1
    rw [hleft hback] at hmem
    exact absurd hmem List.not_mem_nil

def System.attempt (s : System) (a : Action) : Option System := if a.Allowed s then s.apply a else none

theorem step_of_attempt (h : s.attempt a = some s') : Step s a s' := by
  rw [System.attempt] at h
  split at h
  next hok => exact ⟨hok, h⟩
  next => exact absurd h (by simp)

/-- The second of two jobs ends first, and its entry is used again by another context. -/
def twoJobs : List Action :=
  [.run 1 0, .run 1 1, .ends 1 1, .wait 1, .ends 1 0, .resume 1, .run 2 1, .wait 2, .ends 2 1, .resume 2]

theorem joins_sound_two : ∃ r ∈ follow System.attempt {} twoJobs, r.2.inWait 2 = false ∧
    ∀ s ∈ visited {} r.1, ∀ b, s.inWait b = true → b ∈ s.woken ∨ ∃ k, (b, k) ∈ s.threads := by
  have hall : ∃ r ∈ follow System.attempt {} twoJobs, r.2.inWait 2 = false := by decide +kernel
  obtain ⟨r, hr, hback⟩ := hall
  have hrun := run_follow System.attempt (fun _ _ _ => step_of_attempt) _ _ hr
  exact ⟨r, hr, hback, fun s hs => ((joins_sound hrun).1 s hs).2⟩

end Tyrdbs.Gt.Async
