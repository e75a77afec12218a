import Tyrdbs.Storage.WriterMoves

namespace Tyrdbs.Storage

open Outcome

def Stage.global : Stage → Bool
  | .flushThread => true
  | .flushPages _ wait => !wait
  | .sweep _ => true
  | stage => stage.flush?.any (fun call => !call.wait)

def Stage.asleep : Stage → Bool
  | .outside => true
  | .allocating _ => true
  | .writing _ _ _ => true
  | .ended => true
  | _ => false

/-- The file that a context is in file_writer::flush for. -/
def Stage.flushes : Stage → Option Nat
  | .flush e => some e
  | .flushPages e wait => if wait then some e else none
  | stage => stage.flush?.bind (fun call => if call.wait then some call.state else none)

namespace Stage

variable {stage : Stage} {flush : Flush} {e : Nat}

theorem state_of_flush (h : stage.flush? = some flush) : stage.state = some flush.state := by
  cases stage <;> cases h <;> rfl

theorem operand_of_flush (h : stage.flush? = some flush) (hwait : flush.wait = true) :
    stage.operand = some flush.state := by
  cases stage <;> cases h <;> simp [operand, flush?, hwait]

theorem global_of_flush (h : stage.flush? = some flush) (hwait : flush.wait = false) : stage.global = true := by
  cases stage <;> cases h <;> simp [global, flush?, hwait]

theorem operand_of_flushes (h : stage.flushes = some e) : stage.operand = some e := by
  cases stage <;> first | exact h | cases h

theorem not_fills_of_flushes (h : stage.flushes = some e) : stage.fills = none := by
  cases stage <;> first | rfl | cases h

end Stage

namespace DiskWriter

def cacheId (s : DiskWriter) (e : Nat) : Nat := (s.files e).descriptor.cacheId

/-- The contexts that run, are enqueued or wait on a condition of disk_writer. -/
def places (s : DiskWriter) : Multiset Nat :=
  (s.current.toList : Multiset Nat) + s.runQueue + s.dirtyPagesCond + s.allocationCond +
    (s.latch.values.map Multiset.ofList).sum

structure Placed (s : DiskWriter) : Prop where
  nodup : s.places.Nodup
  awake : ∀ t ∈ s.places, ∃ stage, s.threads[t]? = some stage ∧ stage.asleep = false

variable {s s' : DiskWriter} {t e : Nat} {stage stage' : Stage} {flush : Flush}

theorem Placed.same (h : s.Placed) (hplaces : s'.places = s.places) (hthreads : s'.threads = s.threads) : s'.Placed := by
  refine ⟨hplaces ▸ h.nodup, fun t ht => ?_⟩
  rw [hthreads]
  exact h.awake t (hplaces ▸ ht)

theorem Placed.move (h : s.Placed) (ht : s.threads[t]? = some stage) (hplaces : s'.places = s.places)
    (hthreads : s'.threads = s.threads.set t stage') (hawake : stage'.asleep = false) : s'.Placed := by
  refine ⟨hplaces ▸ h.nodup, fun k hk => ?_⟩
  rw [hthreads]
  by_cases hkt : k = t
  · subst hkt
    exact ⟨stage', List.getElem?_set_self (List.getElem?_eq_some_iff.mp ht).1, hawake⟩
  · rw [List.getElem?_set_ne (Ne.symm hkt)]
    exact h.awake k (hplaces ▸ hk)

theorem Placed.sleep (h : s.Placed) (hplaces : s.places = t ::ₘ s'.places)
    (hthreads : s'.threads = s.threads.set t stage') : s'.Placed := by
  have hnodup := h.nodup
  rw [hplaces, Multiset.nodup_cons] at hnodup
  refine ⟨hnodup.2, fun k hk => ?_⟩
  have hkt : k ≠ t := fun heq => hnodup.1 (heq ▸ hk)
  rw [hthreads, List.getElem?_set_ne (Ne.symm hkt)]
  exact h.awake k (hplaces ▸ Multiset.mem_cons_of_mem hk)

theorem Placed.notMem (h : s.Placed) (ht : s.threads[t]? = some stage) (hasleep : stage.asleep = true) :
    t ∉ s.places := by
  intro hm
  obtain ⟨x, hx, hawake⟩ := h.awake t hm
  rw [ht] at hx
  rw [← Option.some.inj hx, hasleep] at hawake
  cases hawake

theorem Placed.wake (h : s.Placed) (ht : s.threads[t]? = some stage) (hasleep : stage.asleep = true)
    (hplaces : s'.places = t ::ₘ s.places) (hthreads : s'.threads = s.threads.set t stage')
    (hawake : stage'.asleep = false) : s'.Placed := by
  have hnot := h.notMem ht hasleep
  refine ⟨hplaces ▸ Multiset.nodup_cons.mpr ⟨hnot, h.nodup⟩, fun k hk => ?_⟩
  rw [hthreads]
  rcases Multiset.mem_cons.mp (hplaces ▸ hk) with rfl | hk
  · exact ⟨stage', List.getElem?_set_self (List.getElem?_eq_some_iff.mp ht).1, hawake⟩
  · have hkt : k ≠ t := fun heq => hnot (heq ▸ hk)
    rw [List.getElem?_set_ne (Ne.symm hkt)]
    exact h.awake k hk

theorem Placed.lt (h : s.Placed) (ht : t ∈ s.places) : t < s.threads.length := by
  obtain ⟨x, hx, -⟩ := h.awake t ht
  exact (List.getElem?_eq_some_iff.mp hx).1

variable (stage) in
theorem Placed.create (h : s.Placed) (hplaces : s'.places = s.threads.length ::ₘ s.places)
    (hthreads : s'.threads = s.threads ++ [stage]) (hawake : stage.asleep = false) : s'.Placed := by
  refine ⟨hplaces ▸ Multiset.nodup_cons.mpr ⟨fun hm => Nat.lt_irrefl _ (h.lt hm), h.nodup⟩, fun k hk => ?_⟩
  rw [hthreads]
  rcases Multiset.mem_cons.mp (hplaces ▸ hk) with rfl | hk
  · exact ⟨stage, by rw [List.getElem?_append_right le_rfl, Nat.sub_self]; rfl, hawake⟩
  · rw [List.getElem?_append_left (h.lt hk)]
    exact h.awake k hk

theorem mem_places_of_current (h : s.current = some t) : t ∈ s.places := by
  simp [places, h]

theorem mem_places_of_queued (h : t ∈ s.runQueue) : t ∈ s.places := by
  simp [places, h]

theorem mem_latched {id : Nat} {waiting : List Nat} (hw : s.latch.find id = some waiting) (h : t ∈ waiting) :
    t ∈ (s.latch.values.map Multiset.ofList).sum := by
  rw [Table.values_of_find hw, Multiset.map_cons, Multiset.sum_cons]
  exact Multiset.mem_add.mpr (.inl (Multiset.mem_coe.mpr h))

theorem Placed.current_notMem (h : s.Placed) (hc : s.current = some t) : t ∉ s.runQueue := by
  intro hq
  have hnodup := h.nodup
  rw [places, hc, add_assoc, add_assoc, add_assoc, Multiset.nodup_add] at hnodup
  refine Multiset.disjoint_left.mp hnodup.2.2 (Multiset.mem_coe.mpr (List.mem_singleton_self t)) ?_
  exact Multiset.mem_add.mpr (.inl (Multiset.mem_coe.mpr hq))

theorem Placed.notMem_latched (h : s.Placed) (ht : s.current = some t ∨ t ∈ s.runQueue) {id : Nat} {waiting : List Nat}
    (hw : s.latch.find id = some waiting) : t ∉ waiting := by
  intro hm
  have hnodup := h.nodup
  rw [places, Multiset.nodup_add] at hnodup
  refine Multiset.disjoint_left.mp hnodup.2.2 ?_ (mem_latched hw hm)
  rcases ht with hc | hq
  · simp [hc]
  · simp [hq]

theorem Placed.startGlobalFlush (h : s.Placed) : s.startGlobalFlush.Placed := by
  rw [DiskWriter.startGlobalFlush]
  split
  · exact h
  · refine h.create .flushThread ?_ rfl rfl
    simp only [places, createThread, ← Multiset.coe_add, ← Multiset.singleton_add, ← Multiset.coe_singleton]
    ac_rfl

theorem places_park (hcurrent : s.current = some t) (hq : s'.runQueue = s.runQueue) (hlatch : s'.latch = s.latch)
    (hnone : s'.current = none)
    (hcond : s'.dirtyPagesCond = s.dirtyPagesCond ++ [t] ∧ s'.allocationCond = s.allocationCond ∨
      s'.dirtyPagesCond = s.dirtyPagesCond ∧ s'.allocationCond = s.allocationCond ++ [t]) : s'.places = s.places := by
  rcases hcond with ⟨hd, ha⟩ | ⟨hd, ha⟩ <;>
    · simp only [places, hcurrent, hq, hlatch, hnone, hd, ha, Option.toList_some, Option.toList_none, ← Multiset.coe_add,
        Multiset.coe_nil, zero_add]
      ac_rfl

theorem places_yield (hcurrent : s.current = some t) (hq : s'.runQueue = s.runQueue ++ [t]) (hlatch : s'.latch = s.latch)
    (hnone : s'.current = none) (hd : s'.dirtyPagesCond = s.dirtyPagesCond)
    (ha : s'.allocationCond = s.allocationCond) : s'.places = s.places := by
  simp only [places, hcurrent, hq, hlatch, hnone, hd, ha, Option.toList_some, Option.toList_none, ← Multiset.coe_add,
    Multiset.coe_nil, zero_add]
  ac_rfl

theorem places_sleep (hcurrent : s.current = some t) (hq : s'.runQueue = s.runQueue) (hlatch : s'.latch = s.latch)
    (hnone : s'.current = none) (hd : s'.dirtyPagesCond = s.dirtyPagesCond)
    (ha : s'.allocationCond = s.allocationCond) : s.places = t ::ₘ s'.places := by
  simp only [places, hcurrent, hq, hlatch, hnone, hd, ha, Option.toList_some, Option.toList_none, Multiset.coe_singleton,
    Multiset.coe_nil, zero_add, ← Multiset.singleton_add]
  ac_rfl

theorem places_wake (hq : s'.runQueue = s.runQueue ++ [t]) (hlatch : s'.latch = s.latch)
    (hcurrent : s'.current = s.current) (hd : s'.dirtyPagesCond = s.dirtyPagesCond)
    (ha : s'.allocationCond = s.allocationCond) : s'.places = t ::ₘ s.places := by
  simp only [places, hcurrent, hq, hlatch, hd, ha, ← Multiset.coe_add, Multiset.coe_singleton, ← Multiset.singleton_add]
  ac_rfl

/-- The contexts that waited for a flush are enqueued behind those that waited
for pages. -/
theorem places_finish {id : Nat} {waiting : List Nat} (hw : s.latch.find id = some waiting)
    (hq : s'.runQueue = s.runQueue ++ s.dirtyPagesCond ++ waiting)
    (hlatch : s'.latch.values = (s.latch.erase id).values)
    (hcurrent : s'.current = s.current) (hd : s'.dirtyPagesCond = []) (ha : s'.allocationCond = s.allocationCond) :
    s'.places = s.places := by
  simp only [places, hcurrent, hq, hlatch, hd, ha, Table.values_of_find hw, Multiset.map_cons, Multiset.sum_cons,
    ← Multiset.coe_add, Multiset.coe_nil, add_zero]
  ac_rfl

end DiskWriter

end Tyrdbs.Storage
