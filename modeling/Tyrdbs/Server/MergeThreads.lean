import Tyrdbs.Ushard.Settling
import Mathlib.Data.Finset.Basic

namespace Tyrdbs.Server.Merging

open Ushard Ushard.TierMap Ushard.Serving Runs

abbrev MergeRequest := Nat × Nat

/-- A merge thread where it has yielded: in its loop, on the condition, or in
the merge of a tier whose slices it has read. -/
inductive Thread
  | ready
  | waiting
  | merging (r : MergeRequest) (source : List Slice)
  | stopped

structure State where
  ushards : Nat → TierMap
  mergeRequests : List MergeRequest := []
  tierLocks : Finset MergeRequest := ∅
  threads : Nat → Thread
  waiters : List Nat := []

def start (mergeThreads : Nat) : State where
  ushards := fun _ => ∅
  threads := fun i => if i < mergeThreads then .ready else .stopped

namespace State

def signal (s : State) : State :=
  match s.waiters with
  | [] => s
  | i :: rest => { s with waiters := rest, threads := Function.update s.threads i .ready }

/-- What cb::merge does. The tier of a slice with keys is at most 16, so it
fits in the 16 bits that the callback takes. -/
def merge (s : State) (r : MergeRequest) : State :=
  signal { s with mergeRequests := s.mergeRequests ++ [r] }

def callback (u : Nat) (calls : List Callback) (s : State) : State :=
  (requestsOf calls).foldl (fun s t => s.merge (u, t)) s

def add (z u : Nat) (slice : Slice) (s : State) : State :=
  let (tiers, calls) := (s.ushards u).add z slice
  callback u calls { s with ushards := Function.update s.ushards u tiers }

def removeFrom (r : MergeRequest) (count : Nat) (s : State) : Option State :=
  ((s.ushards r.1).removeFrom r.2 count).map (fun (tiers, calls) =>
    callback r.1 calls { s with ushards := Function.update s.ushards r.1 tiers })

/-- A thread runs its loop until it waits, yields or stops. It drops the
requests for locked tiers, and a merge of few slices never yields. -/
def mergeThread (terminated : Bool) (i : Nat) (s : State) : State :=
  match s.mergeRequests.dropWhile (· ∈ s.tierLocks) with
  | [] =>
      if terminated then { s with mergeRequests := [], threads := Function.update s.threads i .stopped }
      else { s with mergeRequests := [], threads := Function.update s.threads i .waiting, waiters := s.waiters ++ [i] }
  | r :: rest =>
      let source := (s.ushards r.1).tier r.2
      if source.length ≤ maxSlicesPerTier then
        { s with mergeRequests := rest, threads := Function.update s.threads i .ready }
      else
        { s with mergeRequests := rest
                 tierLocks := insert r s.tierLocks
                 threads := Function.update s.threads i (.merging r source) }

/-- A merge ends: nothing yields from the commit of what it has written until
the tier is unlocked. -/
def finish (z i : Nat) (out : Slice) (s : State) : Option State :=
  match s.threads i with
  | .merging r source =>
      ((s.add z r.1 out).removeFrom r source.length).map (fun s =>
        { s with tierLocks := s.tierLocks.erase r, threads := Function.update s.threads i .ready })
  | _ => none

end State

inductive Action
  | add (u : Nat) (slice : Slice)
  | run (terminated : Bool) (i : Nat)
  | finish (i : Nat) (out : Slice)

def State.apply (z : Nat) (s : State) : Action → Option State
  | .add u slice => some (s.add z u slice)
  | .run terminated i =>
      match s.threads i with
      | .ready => some (s.mergeThread terminated i)
      | _ => none
  | .finish i out => s.finish z i out

def Step (z : Nat) (s : State) (a : Action) (s' : State) : Prop := s.apply z a = some s'

def tierOver (s : State) (r : MergeRequest) : Prop := maxSlicesPerTier < ((s.ushards r.1).tier r.2).length

/-- Some thread comes back to the requests, unless all have stopped. -/
def Awake (s : State) : Prop :=
  (∃ i, s.threads i = .ready ∨ ∃ r source, s.threads i = .merging r source) ∨ ∀ i, s.threads i = .stopped

structure Queue (s : State) : Prop where
  waiting : ∀ i, s.threads i = .waiting ↔ i ∈ s.waiters
  nodup : s.waiters.Nodup

structure Inv (s : State) : Prop where
  queue : Queue s
  awake : s.mergeRequests ≠ [] → Awake s
  requested : ∀ r, tierOver s r → r ∈ s.mergeRequests ∨ r ∈ s.tierLocks
  locked : ∀ r ∈ s.tierLocks, ∃ i source, s.threads i = .merging r source
  merging : ∀ i r source, s.threads i = .merging r source →
    r ∈ s.tierLocks ∧ source <+: (s.ushards r.1).tier r.2 ∧ maxSlicesPerTier < source.length
  exclusive : ∀ i j r source source', s.threads i = .merging r source → s.threads j = .merging r source' → i = j

variable {z : Nat} {s s' : State}

structure Called (s s' : State) : Prop where
  queue : Queue s'
  ushards : s'.ushards = s.ushards
  locks : s'.tierLocks = s.tierLocks
  merging : ∀ i r source, s'.threads i = .merging r source ↔ s.threads i = .merging r source

theorem Called.refl (h : Queue s) : Called s s := ⟨h, rfl, rfl, fun _ _ _ => Iff.rfl⟩

theorem Called.trans {s₁ s₂ s₃ : State} (h : Called s₁ s₂) (h' : Called s₂ s₃) : Called s₁ s₃ where
  queue := h'.queue
  ushards := h'.ushards.trans h.ushards
  locks := h'.locks.trans h.locks
  merging := fun i r source => (h'.merging i r source).trans (h.merging i r source)

theorem Queue.signal (h : Queue s) : Called s s.signal ∧ s.signal.mergeRequests = s.mergeRequests := by
  cases hw : s.waiters with
  | nil =>
      have heq : s.signal = s := by rw [State.signal, hw]
      rw [heq]
      exact ⟨Called.refl h, rfl⟩
  | cons j rest =>
      have heq : s.signal = { s with waiters := rest, threads := Function.update s.threads j .ready } := by
        rw [State.signal, hw]
      have hj : s.threads j = .waiting := (h.waiting j).mpr (hw ▸ List.mem_cons_self ..)
      obtain ⟨hnot, hrest⟩ := List.nodup_cons.mp (hw ▸ h.nodup)
      rw [heq]
      refine ⟨⟨⟨fun i => ?_, hrest⟩, rfl, rfl, fun i r source => ?_⟩, rfl⟩
      · by_cases hij : i = j
        · subst hij
          simp [hnot]
        · simp [h.waiting i, hw, hij]
      · by_cases hij : i = j
        · subst hij
          simp [hj]
        · simp [Function.update_of_ne hij]

theorem Queue.awake_signal (h : Queue s) : Awake s.signal := by
  cases hw : s.waiters with
  | cons j rest =>
      refine Or.inl ⟨j, Or.inl ?_⟩
      rw [State.signal, hw]
      exact Function.update_self ..
  | nil =>
      have heq : s.signal = s := by rw [State.signal, hw]
      rw [heq]
      by_cases hstopped : ∀ i, s.threads i = .stopped
      · exact Or.inr hstopped
      · obtain ⟨i, hi⟩ := not_forall.mp hstopped
        have hnot : s.threads i ≠ .waiting := fun hwait => by
          have := (h.waiting i).mp hwait
          simp [hw] at this
        refine Or.inl ⟨i, ?_⟩
        cases hth : s.threads i with
        | ready => exact Or.inl rfl
        | waiting => exact absurd hth hnot
        | merging r source => exact Or.inr ⟨r, source, rfl⟩
        | stopped => exact absurd hth hi

theorem Queue.merge (h : Queue s) (r : MergeRequest) :
    Called s (s.merge r) ∧ (s.merge r).mergeRequests = s.mergeRequests ++ [r] ∧ Awake (s.merge r) := by
  have hq : Queue { s with mergeRequests := s.mergeRequests ++ [r] } := ⟨h.waiting, h.nodup⟩
  obtain ⟨hcalled, hreq⟩ := hq.signal
  exact ⟨⟨hcalled.queue, hcalled.ushards, hcalled.locks, hcalled.merging⟩, hreq, hq.awake_signal⟩

theorem Queue.callback (h : Queue s) (u : Nat) (calls : List Callback) :
    Called s (s.callback u calls) ∧
      (s.callback u calls).mergeRequests = s.mergeRequests ++ (requestsOf calls).map (fun t => (u, t)) ∧
      (Awake s ∨ requestsOf calls ≠ [] → Awake (s.callback u calls)) := by
  rw [State.callback]
  induction requestsOf calls generalizing s with
  | nil =>
      refine ⟨Called.refl h, (List.append_nil _).symm, fun hawake => ?_⟩
      exact hawake.resolve_right (fun hne => hne rfl)
  | cons t ts ih =>
      obtain ⟨hcalled, hreq, hawake⟩ := h.merge (u, t)
      obtain ⟨hrest, hreqs, hawakes⟩ := ih hcalled.queue
      refine ⟨hcalled.trans hrest, ?_, fun _ => hawakes (Or.inl hawake)⟩
      rw [List.foldl_cons, hreqs, hreq, List.append_assoc, List.map_cons, List.singleton_append]

theorem tierOver_of_ushards {r : MergeRequest} (h : s'.ushards = s.ushards) : tierOver s' r ↔ tierOver s r := by
  rw [tierOver, tierOver, h]

theorem Queue.add (h : Queue s) (u : Nat) (slice : Slice) :
    Queue (s.add z u slice) ∧ (s.add z u slice).tierLocks = s.tierLocks ∧
      (∀ i r source, (s.add z u slice).threads i = .merging r source ↔ s.threads i = .merging r source) ∧
      (∀ r : MergeRequest, (s.ushards r.1).tier r.2 <+: ((s.add z u slice).ushards r.1).tier r.2) ∧
      (∀ r, r ∈ s.mergeRequests → r ∈ (s.add z u slice).mergeRequests) ∧
      (∀ r, tierOver (s.add z u slice) r → r ∈ (s.add z u slice).mergeRequests ∨ tierOver s r) ∧
      ((s.mergeRequests ≠ [] → Awake s) → (s.add z u slice).mergeRequests ≠ [] → Awake (s.add z u slice)) := by
  obtain ⟨m', calls, hadd, -, htiers, -, hreq⟩ := @add_spec z (s.ushards u) slice
  set t : State := { s with ushards := Function.update s.ushards u m' } with ht
  have hq : Queue t := ⟨h.waiting, h.nodup⟩
  obtain ⟨hcalled, hreqs, hawake⟩ := hq.callback u calls
  have heq : s.add z u slice = t.callback u calls := by rw [State.add, hadd]
  have hpre : ∀ r : MergeRequest, (s.ushards r.1).tier r.2 <+: (t.ushards r.1).tier r.2 := fun r => by
    by_cases hu : r.1 = u
    · rw [ht, hu]
      simpa only [Function.update_self] using htiers r.2
    · simpa only [ht, Function.update_of_ne hu] using List.prefix_refl _
  rw [heq]
  refine ⟨hcalled.queue, hcalled.locks, hcalled.merging, fun r => ?_, fun r hr => ?_, fun r hover => ?_, fun hs hne => ?_⟩
  · rw [hcalled.ushards]
    exact hpre r
  · rw [hreqs]
    exact List.mem_append_left _ hr
  · rw [tierOver_of_ushards hcalled.ushards] at hover
    by_cases hu : r.1 = u
    · have hover' : maxSlicesPerTier < (m'.tier r.2).length := by
        simpa only [tierOver, ht, hu, Function.update_self] using hover
      rcases hreq r.2 hover' with hin | hsame
      · left
        rw [hreqs, ← hu]
        exact List.mem_append_right _ (List.mem_map_of_mem hin)
      · right
        rw [tierOver, hu, ← hsame]
        exact hover'
    · right
      simpa only [tierOver, ht, Function.update_of_ne hu] using hover
  · by_cases hnone : requestsOf calls = []
    · refine hawake (Or.inl (hs ?_))
      rwa [hreqs, hnone, List.map_nil, List.append_nil] at hne
    · exact hawake (Or.inr hnone)

theorem Queue.removeFrom (h : Queue s) {r : MergeRequest} {source : List Slice}
    (hsource : source <+: (s.ushards r.1).tier r.2) :
    ∃ s', s.removeFrom r source.length = some s' ∧ Called { s with ushards := s'.ushards } s' ∧
      (∀ r' : MergeRequest, r' ≠ r → (s'.ushards r'.1).tier r'.2 = (s.ushards r'.1).tier r'.2) ∧
      (∀ r', r' ∈ s.mergeRequests → r' ∈ s'.mergeRequests) ∧ (tierOver s' r → r ∈ s'.mergeRequests) := by
  obtain ⟨m', calls, hremove, -, hother, -, hreq⟩ := removeFrom_spec hsource
  set t : State := { s with ushards := Function.update s.ushards r.1 m' } with ht
  have hq : Queue t := ⟨h.waiting, h.nodup⟩
  obtain ⟨hcalled, hreqs, -⟩ := hq.callback r.1 calls
  refine ⟨t.callback r.1 calls, ?_, ?_, fun r' hne => ?_, fun r' hr' => ?_, fun hover => ?_⟩
  · rw [State.removeFrom, hremove]
    rfl
  · rw [hcalled.ushards]
    exact hcalled
  · rw [hcalled.ushards]
    by_cases hu : r'.1 = r.1
    · have ht' : r'.2 ≠ r.2 := fun heq => hne (Prod.ext hu heq)
      simpa only [ht, hu, Function.update_self] using hother r'.2 ht'
    · simp only [ht, Function.update_of_ne hu]
  · rw [hreqs]
    exact List.mem_append_left _ hr'
  · rw [tierOver_of_ushards hcalled.ushards] at hover
    rw [hreqs]
    refine List.mem_append_right _ (List.mem_map.mpr ⟨r.2, hreq ?_, rfl⟩)
    simpa only [tierOver, ht, Function.update_self] using hover

theorem Inv.add (h : Inv s) (u : Nat) (slice : Slice) : Inv (s.add z u slice) := by
  obtain ⟨hqueue, hlocks, hmerging, htiers, hreq, hover, hawake⟩ := @Queue.add z s h.queue u slice
  refine ⟨hqueue, hawake h.awake, fun r hr => ?_, fun r hr => ?_, fun i r source hi => ?_,
    fun i j r source source' hi hj => ?_⟩
  · rw [hlocks]
    rcases hover r hr with hin | hold
    · exact Or.inl hin
    · exact (h.requested r hold).imp_left (hreq r)
  · obtain ⟨i, source, hi⟩ := h.locked r (hlocks ▸ hr)
    exact ⟨i, source, (hmerging i r source).mpr hi⟩
  · obtain ⟨hlock, hsource, hmany⟩ := h.merging i r source ((hmerging i r source).mp hi)
    exact ⟨hlocks ▸ hlock, hsource.trans (htiers r), hmany⟩
  · exact h.exclusive i j r source source' ((hmerging i r source).mp hi) ((hmerging j r source').mp hj)

theorem Queue.update (h : Queue s) {i : Nat} {th : Thread} (hi : s.threads i ≠ .waiting) (hth : th ≠ .waiting)
    (hthreads : s'.threads = Function.update s.threads i th) (hwaiters : s'.waiters = s.waiters) : Queue s' := by
  refine ⟨fun j => ?_, hwaiters ▸ h.nodup⟩
  rw [hthreads, hwaiters]
  by_cases hj : j = i
  · subst hj
    rw [Function.update_self]
    exact iff_of_false hth (fun hin => hi ((h.waiting j).mpr hin))
  · rw [Function.update_of_ne hj]
    exact h.waiting j

theorem merging_update {i j : Nat} {th : Thread} {r : MergeRequest} {source : List Slice}
    (hi : ∀ r source, s.threads i ≠ .merging r source) (hth : ∀ r source, th ≠ .merging r source) :
    Function.update s.threads i th j = .merging r source ↔ s.threads j = .merging r source := by
  by_cases hj : j = i
  · subst hj
    rw [Function.update_self]
    exact iff_of_false (hth r source) (hi r source)
  · rw [Function.update_of_ne hj]

theorem mem_dropWhile_or {r : MergeRequest} (h : r ∈ s.mergeRequests) :
    r ∈ s.mergeRequests.dropWhile (· ∈ s.tierLocks) ∨ r ∈ s.tierLocks := by
  rw [← List.takeWhile_append_dropWhile (p := (decide <| · ∈ s.tierLocks)) (l := s.mergeRequests)] at h
  rcases List.mem_append.mp h with htake | hdrop
  · have hlocked := List.mem_takeWhile_imp htake
    exact Or.inr (of_decide_eq_true hlocked)
  · exact Or.inl hdrop

theorem not_locked_of_dropWhile {r : MergeRequest} {rest : List MergeRequest}
    (h : s.mergeRequests.dropWhile (· ∈ s.tierLocks) = r :: rest) : r ∉ s.tierLocks := by
  have hhead := List.head?_dropWhile_not (decide <| · ∈ s.tierLocks) s.mergeRequests
  rw [h] at hhead
  exact of_decide_eq_false hhead

theorem Inv.round (h : Inv s) {i : Nat} {th : Thread} (hi : s.threads i = .ready)
    (hth : ∀ r source, th ≠ .merging r source) (hqueue : Queue s') (hawake : s'.mergeRequests ≠ [] → Awake s')
    (hthreads : s'.threads = Function.update s.threads i th) (hushards : s'.ushards = s.ushards)
    (hlocks : s'.tierLocks = s.tierLocks)
    (hreq : ∀ r, tierOver s r → r ∈ s.mergeRequests → r ∈ s'.mergeRequests ∨ r ∈ s.tierLocks) : Inv s' := by
  have hready : ∀ r source, s.threads i ≠ .merging r source := fun r source heq => by simp [hi] at heq
  have hmerging : ∀ j r source, s'.threads j = .merging r source ↔ s.threads j = .merging r source := fun j r source => by
    rw [hthreads]
    exact merging_update hready hth
  refine ⟨hqueue, hawake, fun r hr => ?_, fun r hr => ?_, fun j r source hj => ?_, fun j k r source source' hj hk => ?_⟩
  · rw [tierOver_of_ushards hushards] at hr
    rw [hlocks]
    exact (h.requested r hr).elim (hreq r hr) Or.inr
  · obtain ⟨j, source, hj⟩ := h.locked r (hlocks ▸ hr)
    exact ⟨j, source, (hmerging j r source).mpr hj⟩
  · rw [hlocks, hushards]
    exact h.merging j r source ((hmerging j r source).mp hj)
  · exact h.exclusive j k r source source' ((hmerging j r source).mp hj) ((hmerging k r source').mp hk)

theorem Queue.wait (h : Queue s) {i : Nat} (hi : s.threads i = .ready)
    (hthreads : s'.threads = Function.update s.threads i .waiting) (hwaiters : s'.waiters = s.waiters ++ [i]) :
    Queue s' := by
  have hnot : i ∉ s.waiters := fun hin => by
    have hwait := (h.waiting i).mpr hin
    simp [hi] at hwait
  refine ⟨fun j => ?_, ?_⟩
  · rw [hthreads, hwaiters]
    by_cases hj : j = i
    · simp [hj]
    · simp [h.waiting j, hj]
  · rw [hwaiters, List.nodup_append]
    refine ⟨h.nodup, List.nodup_singleton i, fun j hj k hk => ?_⟩
    rw [List.mem_singleton.mp hk]
    exact fun heq => hnot (heq ▸ hj)

theorem Thread.merging_inj {r r' : MergeRequest} {source source' : List Slice}
    (h : Thread.merging r source = .merging r' source') : r = r' ∧ source = source' := by
  cases h
  exact ⟨rfl, rfl⟩

theorem Inv.begin (h : Inv s) {i : Nat} {r : MergeRequest} {source : List Slice} (hi : s.threads i = .ready)
    (hfree : r ∉ s.tierLocks) (hsource : source = (s.ushards r.1).tier r.2) (hmany : maxSlicesPerTier < source.length)
    (hthreads : s'.threads = Function.update s.threads i (.merging r source)) (hwaiters : s'.waiters = s.waiters)
    (hushards : s'.ushards = s.ushards) (hlocks : s'.tierLocks = insert r s.tierLocks)
    (hreq : ∀ r', r' ∈ s.mergeRequests → r' ∈ s'.mergeRequests ∨ r' = r ∨ r' ∈ s.tierLocks) : Inv s' := by
  have hself : s'.threads i = .merging r source := by rw [hthreads, Function.update_self]
  have hother : ∀ j, j ≠ i → s'.threads j = s.threads j := fun j hj => by rw [hthreads, Function.update_of_ne hj]
  -- whoever merges another tier, or the same one, is this thread or has merged before
  have hcases : ∀ j r' source', s'.threads j = .merging r' source' →
      j = i ∧ r' = r ∧ source' = source ∨ j ≠ i ∧ r' ≠ r ∧ s.threads j = .merging r' source' := by
    intro j r' source' hj
    by_cases hji : j = i
    · obtain ⟨hr, hs⟩ := Thread.merging_inj (hself.symm.trans (hji ▸ hj))
      exact Or.inl ⟨hji, hr.symm, hs.symm⟩
    · have hold := (hother j hji).symm.trans hj
      exact Or.inr ⟨hji, fun hr => hfree (hr ▸ (h.merging j r' source' hold).1), hold⟩
  refine ⟨h.queue.update (by simp [hi]) (by simp) hthreads hwaiters, fun _ => Or.inl ⟨i, Or.inr ⟨r, source, hself⟩⟩,
    fun r' hover => ?_, fun r' hr' => ?_, fun j r' source' hj => ?_, fun j k r' source₁ source₂ hj hk => ?_⟩
  · rw [tierOver_of_ushards hushards] at hover
    rw [hlocks, Finset.mem_insert]
    rcases h.requested r' hover with hin | hlock
    · exact (hreq r' hin).imp_right id
    · exact Or.inr (Or.inr hlock)
  · rw [hlocks] at hr'
    rcases Finset.mem_insert.mp hr' with rfl | hlock
    · exact ⟨i, source, hself⟩
    · obtain ⟨j, source', hj⟩ := h.locked r' hlock
      have hne : j ≠ i := fun heq => by
        rw [heq, hi] at hj
        cases hj
      exact ⟨j, source', (hother j hne).trans hj⟩
  · rw [hlocks, hushards, Finset.mem_insert]
    rcases hcases j r' source' hj with ⟨-, rfl, rfl⟩ | ⟨-, -, hold⟩
    · exact ⟨Or.inl rfl, hsource ▸ List.prefix_refl _, hmany⟩
    · exact (h.merging j r' source' hold).imp_left Or.inr
  · rcases hcases j r' source₁ hj with ⟨hji, hr, -⟩ | ⟨-, hr, hold⟩
    · rcases hcases k r' source₂ hk with ⟨hki, -, -⟩ | ⟨-, hr', -⟩
      · rw [hji, hki]
      · exact absurd hr hr'
    · rcases hcases k r' source₂ hk with ⟨-, hr', -⟩ | ⟨-, -, hold'⟩
      · exact absurd hr' hr
      · exact h.exclusive j k r' source₁ source₂ hold hold'

theorem Inv.run (h : Inv s) (terminated : Bool) {i : Nat} (hi : s.threads i = .ready) :
    Inv (s.mergeThread terminated i) := by
  have hnotWaiting : s.threads i ≠ .waiting := fun heq => by simp [hi] at heq
  rw [State.mergeThread]
  split
  next hdrop =>
    have hdropped : ∀ r, tierOver s r → r ∈ s.mergeRequests → r ∈ ([] : List MergeRequest) ∨ r ∈ s.tierLocks :=
      fun r _ hr => by
        have hor := mem_dropWhile_or hr
        rwa [hdrop] at hor
    split
    next =>
      have hqueue := @Queue.update s { s with mergeRequests := [], threads := Function.update s.threads i .stopped }
        h.queue i .stopped hnotWaiting (by simp) rfl rfl
      exact h.round hi (fun _ _ heq => by cases heq) hqueue (fun hne => absurd rfl hne) rfl rfl rfl hdropped
    next =>
      have hqueue := @Queue.wait s
        { s with mergeRequests := [], threads := Function.update s.threads i .waiting, waiters := s.waiters ++ [i] }
        h.queue i hi rfl rfl
      exact h.round hi (fun _ _ heq => by cases heq) hqueue (fun hne => absurd rfl hne) rfl rfl rfl hdropped
  next r rest hdrop =>
    have hkept : ∀ r', r' ∈ s.mergeRequests → r' ∈ rest ∨ r' = r ∨ r' ∈ s.tierLocks := fun r' hr' => by
      rcases mem_dropWhile_or hr' with hin | hlock
      · rw [hdrop] at hin
        exact (List.mem_cons.mp hin).elim (fun heq => Or.inr (Or.inl heq)) Or.inl
      · exact Or.inr (Or.inr hlock)
    dsimp only
    split
    next hfew =>
      have hqueue := @Queue.update s { s with mergeRequests := rest, threads := Function.update s.threads i .ready }
        h.queue i .ready hnotWaiting (by simp) rfl rfl
      refine h.round hi (fun _ _ heq => by cases heq) hqueue (fun _ => Or.inl ⟨i, Or.inl ?_⟩) rfl rfl rfl
        (fun r' hover hr' => ?_)
      · exact Function.update_self ..
      · rcases hkept r' hr' with hin | rfl | hlock
        · exact Or.inl hin
        · exact absurd hover (Nat.not_lt.mpr hfew)
        · exact Or.inr hlock
    next hmany => exact h.begin hi (not_locked_of_dropWhile hdrop) rfl (Nat.not_le.mp hmany) rfl rfl rfl rfl hkept

theorem Inv.finish (h : Inv s) {i : Nat} {r : MergeRequest} {source : List Slice} (hi : s.threads i = .merging r source)
    (out : Slice) : ∃ s', s.finish z i out = some s' ∧ Inv s' ∧ s'.threads i = .ready ∧ r ∉ s'.tierLocks ∧
      (tierOver s' r → r ∈ s'.mergeRequests) ∧
      ∀ j r' source', j ≠ i → s.threads j = .merging r' source' → s'.threads j = .merging r' source' := by
  obtain ⟨hlock, hsource, hmany⟩ := h.merging i r source hi
  obtain ⟨hqueue₁, hlocks₁, hmerging₁, htiers, hreq₁, hover₁, -⟩ := @Queue.add z s h.queue r.1 out
  obtain ⟨s₂, hremove, hcalled, hother, hreq₂, hover₂⟩ := hqueue₁.removeFrom (hsource.trans (htiers r))
  have hmerging : ∀ j r' source', s₂.threads j = .merging r' source' ↔ s.threads j = .merging r' source' :=
    fun j r' source' => (hcalled.merging j r' source').trans (hmerging₁ j r' source')
  have hlocks : s₂.tierLocks = s.tierLocks := hcalled.locks.trans hlocks₁
  have hi₂ : s₂.threads i = .merging r source := (hmerging i r source).mpr hi
  set s₃ : State := { s₂ with tierLocks := s₂.tierLocks.erase r, threads := Function.update s₂.threads i .ready }
    with hs₃
  have hself : s₃.threads i = .ready := Function.update_self ..
  -- the merges that go on are those of other tiers
  have hgoes : ∀ j r' source', s₃.threads j = .merging r' source' → r' ≠ r ∧ s.threads j = .merging r' source' := by
    intro j r' source' hj
    by_cases hji : j = i
    · rw [hji, hself] at hj
      cases hj
    · have hold := (hmerging j r' source').mp ((Function.update_of_ne hji ..).symm.trans hj)
      exact ⟨fun hr => hji (h.exclusive j i r source' source (hr ▸ hold) hi), hold⟩
  refine ⟨s₃, ?_, ⟨?_, fun _ => Or.inl ⟨i, Or.inl hself⟩, fun r' hover => ?_, fun r' hr' => ?_,
    fun j r' source' hj => ?_, fun j k r' source₁ source₂ hj hk => ?_⟩, hself, ?_, hover₂, fun j r' source' hji hj => ?_⟩
  · simp only [State.finish, hi, hremove, Option.map_some, hs₃]
  · exact hcalled.queue.update (by simp [hi₂]) (by simp) rfl rfl
  · by_cases hr : r' = r
    · subst hr
      exact Or.inl (hover₂ hover)
    · have hover' : tierOver (s.add z r.1 out) r' := by
        rw [tierOver, ← hother r' hr]
        exact hover
      rcases hover₁ r' hover' with hin | hold
      · exact Or.inl (hreq₂ r' hin)
      · rcases h.requested r' hold with hin | hin
        · exact Or.inl (hreq₂ r' (hreq₁ r' hin))
        · exact Or.inr (Finset.mem_erase.mpr ⟨hr, hlocks.symm ▸ hin⟩)
  · obtain ⟨hr, hin⟩ := Finset.mem_erase.mp hr'
    obtain ⟨j, source', hj⟩ := h.locked r' (hlocks ▸ hin)
    have hji : j ≠ i := fun heq => by
      rw [heq, hi] at hj
      exact hr (Thread.merging_inj hj).1.symm
    exact ⟨j, source', (Function.update_of_ne hji ..).trans ((hmerging j r' source').mpr hj)⟩
  · obtain ⟨hr, hold⟩ := hgoes j r' source' hj
    obtain ⟨hin, hpre, hlen⟩ := h.merging j r' source' hold
    refine ⟨Finset.mem_erase.mpr ⟨hr, hlocks.symm ▸ hin⟩, ?_, hlen⟩
    exact (hother r' hr).symm ▸ hpre.trans (htiers r')
  · exact h.exclusive j k r' source₁ source₂ (hgoes j r' source₁ hj).2 (hgoes k r' source₂ hk).2
  · exact Finset.notMem_erase r s₂.tierLocks
  · exact (Function.update_of_ne hji ..).trans ((hmerging j r' source').mpr hj)

theorem mergeThread_threads {terminated : Bool} {i j : Nat} (hne : j ≠ i) :
    (s.mergeThread terminated i).threads j = s.threads j := by
  rw [State.mergeThread]
  split
  · split
    · exact Function.update_of_ne hne ..
    · exact Function.update_of_ne hne ..
  · dsimp only
    split
    · exact Function.update_of_ne hne ..
    · exact Function.update_of_ne hne ..

/-- A merge goes on until its thread ends it. Then the tier is unlocked, and was
requested again if it is over the limit. -/
def Continues (i : Nat) (r : MergeRequest) (source : List Slice) (a : Action) (s' : State) : Prop :=
  (∀ out, a ≠ .finish i out) ∧ s'.threads i = .merging r source ∨
    (∃ out, a = .finish i out) ∧ s'.threads i = .ready ∧ r ∉ s'.tierLocks ∧ (tierOver s' r → r ∈ s'.mergeRequests)

theorem Inv.step (h : Inv s) {a : Action} (hs : Step z s a s') :
    Inv s' ∧ ∀ i r source, s.threads i = .merging r source → Continues i r source a s' := by
  rw [Step, State.apply.eq_def] at hs
  cases a with
  | add u slice =>
      rw [← Option.some.inj hs]
      obtain ⟨-, -, hmerging, -⟩ := @Queue.add z s h.queue u slice
      exact ⟨h.add u slice, fun i r source hi => Or.inl ⟨fun out => by simp, (hmerging i r source).mpr hi⟩⟩
  | run terminated j =>
      cases hj : s.threads j with
      | ready =>
          simp only [hj, Option.some.injEq] at hs
          rw [← hs]
          refine ⟨h.run terminated hj, fun i r source hi => Or.inl ⟨fun out => by simp, ?_⟩⟩
          have hne : i ≠ j := fun heq => by
            rw [heq, hj] at hi
            cases hi
          rw [mergeThread_threads hne, hi]
      | waiting | merging | stopped => simp [hj] at hs
  | finish j out =>
      cases hj : s.threads j with
      | merging r source =>
          obtain ⟨s₁, hs₁, hinv, hready, hfree, hreq, hothers⟩ := @Inv.finish z s h j r source hj out
          obtain rfl : s₁ = s' := Option.some.inj (hs₁.symm.trans hs)
          refine ⟨hinv, fun i r' source' hi => ?_⟩
          by_cases hij : i = j
          · rw [hij, hj] at hi
            obtain ⟨rfl, -⟩ := Thread.merging_inj hi
            exact Or.inr ⟨⟨out, by rw [hij]⟩, hij ▸ hready, hfree, hreq⟩
          · refine Or.inl ⟨fun out' heq => hij ?_, hothers i r' source' hij hi⟩
            exact (Action.finish.inj heq).1.symm
      | ready | waiting | stopped => simp [State.finish, hj] at hs

theorem inv_start (mergeThreads : Nat) : Inv (start mergeThreads) := by
  have hphase : ∀ i, (start mergeThreads).threads i = .ready ∨ (start mergeThreads).threads i = .stopped := fun i =>
    ite_eq_or_eq ..
  have hnone : ∀ i r source, (start mergeThreads).threads i ≠ .merging r source := fun i r source heq => by
    rcases hphase i with hi | hi
    · simp [hi] at heq
    · simp [hi] at heq
  refine ⟨⟨fun i => ?_, List.nodup_nil⟩, fun hne => absurd rfl hne, fun r hr => ?_, fun r hr => ?_,
    fun i r source hi => absurd hi (hnone i r source), fun i j r source source' hi => absurd hi (hnone i r source)⟩
  · refine iff_of_false (fun heq => ?_) List.not_mem_nil
    rcases hphase i with hi | hi
    · simp [hi] at heq
    · simp [hi] at heq
  · simp [tierOver, start, tier] at hr
  · simp [start] at hr

/-- With any number of merge threads: a tier over the limit is requested, or
locked by a merge that can end and then has requested it again if it must, and no tier
of a ushard is merged twice at once. A request never waits while all the threads do. -/
theorem merges_requested {mergeThreads : Nat} {ts : List (State × Action × State)}
    (h : Run (Step z) (start mergeThreads) ts s) :
    (∀ r, tierOver s r → r ∈ s.mergeRequests ∨ r ∈ s.tierLocks ∧ ∃ i source, s.threads i = .merging r source) ∧
    (∀ i r source, s.threads i = .merging r source →
      (∀ out, ∃ s', Step z s (.finish i out) s') ∧ ∀ a s', Step z s a s' → Continues i r source a s') ∧
    (∀ i j r source source', s.threads i = .merging r source → s.threads j = .merging r source' → i = j) ∧
    (s.mergeRequests ≠ [] → Awake s) := by
  have hinv : Inv s := h.invariant Inv (inv_start mergeThreads) (fun _ _ _ hu hs => (hu.step hs).1)
  refine ⟨fun r hr => ?_, fun i r source hi => ⟨fun out => ?_, fun a s' hs => (hinv.step hs).2 i r source hi⟩,
    hinv.exclusive, hinv.awake⟩
  · exact (hinv.requested r hr).imp_right (fun hlock => ⟨hlock, hinv.locked r hlock⟩)
  · obtain ⟨s', hs', -⟩ := @Inv.finish z s hinv i r source hi out
    exact ⟨s', hs'⟩

/-- The requests for a tier are dropped while it is merged, with more slices added than
the merge takes away. -/
def dropped : List Action :=
  List.replicate 5 (.add 0 one) ++ [.run false 0, .add 0 one, .run false 1] ++ List.replicate 4 (.add 0 one) ++
    [.run false 1]

theorem merges_requested_dropped : ∃ ts s s', Run (Step 0) (start 2) ts s ∧ s.mergeRequests = [] ∧ tierOver s (0, 0) ∧
    (0, 0) ∈ s.tierLocks ∧ (∃ source, s.threads 0 = .merging (0, 0) source) ∧ Step 0 s (.finish 0 one) s' ∧
      tierOver s' (0, 0) ∧ (0, 0) ∉ s'.tierLocks ∧ (0, 0) ∈ s'.mergeRequests := by
  have hends : (follow (State.apply 0) (start 2) dropped).any (fun r => r.2.mergeRequests = [] ∧
      maxSlicesPerTier < ((r.2.ushards 0).tier 0).length ∧ (r.2.threads 0 matches .merging (0, 0) _) ∧
        ((r.2.apply 0 (.finish 0 one)).any (fun s' => maxSlicesPerTier < ((s'.ushards 0).tier 0).length)) = true) =
          true := by decide +kernel
  obtain ⟨⟨ts, s⟩, hfollow, htest⟩ := (Option.any_eq_true _ _).mp hends
  obtain ⟨hreq, hover, hmerging, hfinish⟩ := of_decide_eq_true htest
  obtain ⟨s', hs', hmany⟩ := (Option.any_eq_true _ _).mp hfinish
  have hover' : maxSlicesPerTier < ((s'.ushards 0).tier 0).length := of_decide_eq_true hmany
  have hrun := run_follow (State.apply 0) (fun _ _ _ hs => hs) _ _ hfollow
  have hlocked := ((merges_requested hrun).1 (0, 0) hover).resolve_left (fun hin => by
    rw [hreq] at hin
    exact absurd hin List.not_mem_nil)
  obtain ⟨source, hsource⟩ : ∃ source, s.threads 0 = .merging (0, 0) source := by
    split at hmerging
    next source heq => exact ⟨source, heq⟩
    next => cases hmerging
  rcases ((merges_requested hrun).2.1 0 (0, 0) source hsource).2 _ s' hs' with ⟨hgoes, -⟩ | ⟨-, -, hfree, hagain⟩
  · exact absurd rfl (hgoes one)
  · exact ⟨ts, s, s', hrun, hreq, hover, hlocked.1, ⟨source, hsource⟩, hs', hover', hfree, hagain hover'⟩

end Tyrdbs.Server.Merging
