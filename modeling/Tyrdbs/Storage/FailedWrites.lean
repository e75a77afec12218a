import Tyrdbs.Storage.PageConservation

namespace Tyrdbs.Storage

open Allocator Outcome Runs

/-- A call of flush_pages takes pages along, or it is over at once. -/
def Stage.Loaded (stage : Stage) : Prop := ∀ flush, stage.flush? = some flush → flush.cachedPages ≠ []

theorem Stage.loaded_of_none {stage : Stage} (h : stage.flush? = none) : stage.Loaded := by
  intro flush hflush
  rw [h] at hflush
  cases hflush

theorem Stage.Loaded.of_flush {stage stage' : Stage} (h : stage.Loaded) (hflush : stage'.flush? = stage.flush?) :
    stage'.Loaded := fun flush hf => h flush (hflush ▸ hf)

namespace DiskWriter

def Loaded (s : DiskWriter) : Prop := ∀ stage ∈ s.threads, stage.Loaded

variable {s s' : DiskWriter} {t e : Nat} {stage : Stage} {flush : Flush}

theorem Loaded.same (h : s.Loaded) (hthreads : s'.threads = s.threads) : s'.Loaded := by
  intro stage hstage
  rw [hthreads] at hstage
  exact h stage hstage

theorem Loaded.setStage (h : s.Loaded) (t : Nat) (hstage : stage.Loaded) : (s.setStage t stage).Loaded := by
  intro x hx
  rcases List.mem_or_eq_of_mem_set hx with hx | rfl
  · exact h x hx
  · exact hstage

theorem Loaded.suspend (h : s.Loaded) (t : Nat) (hstage : stage.Loaded) : (s.suspend t stage).Loaded :=
  (h.setStage t hstage).same rfl

theorem Loaded.yield (h : s.Loaded) (t : Nat) (hstage : stage.Loaded) : (s.yield t stage).Loaded :=
  (h.setStage t hstage).same rfl

theorem Loaded.createThread (h : s.Loaded) (hstage : stage.Loaded) : (s.createThread stage).Loaded := by
  intro x hx
  rcases List.mem_append.mp hx with hx | hx
  · exact h x hx
  · exact List.mem_singleton.mp hx ▸ hstage

theorem Loaded.startGlobalFlush (h : s.Loaded) : s.startGlobalFlush.Loaded := by
  rw [DiskWriter.startGlobalFlush]
  split
  · exact h
  · have hactive : Loaded { s with globalFlushActive := true } := h
    exact hactive.createThread (Stage.loaded_of_none rfl)

theorem Loaded.allocatePage (h : s.Loaded) (t e : Nat) (data : List Byte) :
    Yields (fun _ => True) Loaded (s.allocatePage t e data) := by
  rw [DiskWriter.allocatePage]
  split
  · have hflush : Loaded { s.startGlobalFlush with dirtyPagesCond := s.startGlobalFlush.dirtyPagesCond ++ [t] } :=
      h.startGlobalFlush
    exact hflush.suspend t (Stage.loaded_of_none rfl)
  · refine (Outcome.yields_true _).bind (fun r _ => ?_)
    exact (h.same rfl).setStage t (Stage.loaded_of_none rfl)

theorem Loaded.writeRound (h : s.Loaded) (t e : Nat) (data : List Byte) :
    Yields (fun _ => True) Loaded (s.writeRound t e data) := by
  rw [DiskWriter.writeRound]
  split
  · exact h.setStage t (Stage.loaded_of_none rfl)
  split
  · exact h.allocatePage t e data
  · change Yields _ _ (if _ then _ else _)
    split
    · exact Loaded.yield (h.same rfl) t (Stage.loaded_of_none rfl)
    · exact (h.same rfl).setStage t (Stage.loaded_of_none rfl)

theorem Loaded.takePages (h : s.Loaded) (t e : Nat) (wait : Bool) : (s.takePages t e wait).Loaded := by
  rw [DiskWriter.takePages]
  change Loaded (if _ then _ else _)
  split
  · exact h.setStage t (by cases wait <;> exact Stage.loaded_of_none rfl)
  case isFalse hpages =>
    refine (h.same rfl).setStage t (fun call hcall => ?_)
    obtain rfl := Option.some.inj hcall
    exact hpages

theorem Loaded.allocateBlocks (h : s.Loaded) (ht : s.threads[t]? = some (.allocate flush)) :
    (s.allocateBlocks t flush).Loaded := by
  have hflush : Stage.Loaded (.allocate flush) := h _ (List.mem_of_getElem? ht)
  by_cases hpage : (s.blocks.allocate flush.cachedPages.length).1 = invalidHandle
  · rw [allocateBlocks_of_invalid hpage, DiskWriter.allocateSpace]
    split
    · exact Loaded.suspend (h.same rfl) t hflush
    · change Loaded (if _ then _ else _)
      split
      · exact Loaded.suspend (h.same rfl) t (hflush.of_flush rfl)
      · exact (h.same rfl).setStage t (hflush.of_flush rfl)
  · rw [allocateBlocks_of_valid hpage]
    exact (h.same rfl).setStage t (hflush.of_flush rfl)

theorem Loaded.writeBatch (h : s.Loaded) {diskPage : Nat} {rest : List Nat}
    (ht : s.threads[t]? = some (.batch flush diskPage rest)) :
    Yields (fun _ => True) Loaded (s.writeBatch t flush diskPage rest) := by
  have hflush : Stage.Loaded (.batch flush diskPage rest) := h _ (List.mem_of_getElem? ht)
  rw [DiskWriter.writeBatch]
  split
  · rw [DiskWriter.finishFlush]
    refine ((aside_enterPages flush.state flush.cachedPages s flush.filePage)).bind (fun s₁ ha => ?_)
    refine (Outcome.yields_true _).bind (fun _ _ => ?_)
    split
    · trivial
    · exact (h.same ha.threads).setStage t (by cases flush.wait <;> exact Stage.loaded_of_none rfl)
  · exact h.suspend t (hflush.of_flush rfl)

theorem Loaded.ioDone (h : s.Loaded) (t : Nat) : (s.ioDone t).Loaded := by
  rw [DiskWriter.ioDone]
  split
  case h_1 flush diskPage rest ht =>
    have hflush : Stage.Loaded (.writing flush diskPage rest) := h _ (List.mem_of_getElem? ht)
    exact (h.same rfl).setStage t (hflush.of_flush rfl)
  case h_2 flush ht =>
    have hflush : Stage.Loaded (.allocating flush) := h _ (List.mem_of_getElem? ht)
    exact h.setStage t (hflush.of_flush rfl)
  case h_3 => exact h

theorem Loaded.go (h : s.Loaded) (t : Nat) : Yields (fun _ => True) Loaded (s.go t) := by
  rw [DiskWriter.go]
  split
  case h_1 e data ht => exact h.allocatePage t e data
  case h_2 e data ht => exact h.writeRound t e data
  case h_3 e ht =>
    change Loaded (s.testLatch t e)
    rw [testLatch]
    split
    · exact Loaded.suspend (h.same rfl) t (Stage.loaded_of_none rfl)
    · exact h.setStage t (Stage.loaded_of_none rfl)
  case h_4 e wait ht => exact h.takePages t e wait
  case h_5 flush ht => exact h.allocateBlocks ht
  case h_6 flush ht =>
    have hflush : Stage.Loaded (.extend flush) := h _ (List.mem_of_getElem? ht)
    exact (h.same rfl).setStage t (hflush.of_flush rfl)
  case h_7 flush diskPage rest ht => exact h.writeBatch ht
  case h_8 ht => exact h.setStage t (Stage.loaded_of_none rfl)
  case h_9 e ht =>
    change Loaded (s.sweep t e)
    cases e with
    | none => exact Loaded.suspend (h.same rfl) t (Stage.loaded_of_none rfl)
    | some e =>
        rw [sweep]
        split
        · exact h.setStage t (Stage.loaded_of_none rfl)
        · exact h.setStage t (Stage.loaded_of_none rfl)
  case h_10 => exact h

theorem Step.loaded {a : Action} (hs : Step s a s') (h : s.Loaded) : s'.Loaded := by
  obtain ⟨hadmits, happly⟩ := hs
  have hyields : Yields (fun _ => True) Loaded (s.apply a) := by
    cases a with
    | schedule t => exact h
    | start => exact h.createThread (Stage.loaded_of_none rfl)
    | wake t => exact h.setStage t (Stage.loaded_of_none rfl)
    | ioDone t => exact h.ioDone t
    | read a => exact (Outcome.yields_true _).bind (fun reader _ => h.same rfl)
    | go =>
        obtain ⟨t, hcurrent⟩ := Option.ne_none_iff_exists'.mp hadmits
        simp only [apply, hcurrent]
        exact h.go t
    | create =>
        obtain ⟨t, hcurrent, ht⟩ := hadmits
        simp only [apply, hcurrent]
        exact h.same rfl
    | pause =>
        obtain ⟨t, hcurrent, ht⟩ := hadmits
        simp only [apply, hcurrent]
        exact h.suspend t (Stage.loaded_of_none rfl)
    | write e data =>
        obtain ⟨t, hcurrent, ht⟩ := hadmits.user
        simp only [apply, hcurrent, perform, DiskWriter.write]
        split
        · exact h
        · exact (Outcome.yields_true _).bind (fun _ _ => h.setStage t (Stage.loaded_of_none rfl))
    | addPadding e =>
        obtain ⟨t, hcurrent, ht⟩ := hadmits.user
        simp only [apply, hcurrent, perform, DiskWriter.addPadding]
        refine (Outcome.yields_true _).bind (fun _ _ => ?_)
        split
        · exact h
        · exact h.same rfl
    | flush e =>
        obtain ⟨t, hcurrent, ht⟩ := hadmits.user
        simp only [apply, hcurrent, perform, DiskWriter.flush]
        refine (Outcome.yields_true _).bind (fun _ _ => ?_)
        split
        · exact (Outcome.yields_true _).bind (fun _ _ => (h.same rfl).setStage t (Stage.loaded_of_none rfl))
        · have hpushed : ((s.setFile e { s.files e with flushed := true }).pushPage e).Loaded := h.same rfl
          exact hpushed.yield t (Stage.loaded_of_none rfl)
    | commit e =>
        obtain ⟨t, hcurrent, ht⟩ := hadmits.user
        simp only [apply, hcurrent, perform, DiskWriter.commit]
        exact (Outcome.yields_true _).bind (fun _ _ => (Outcome.yields_true _).bind (fun _ _ => h.same rfl))
    | destroy e =>
        obtain ⟨t, hcurrent, ht⟩ := hadmits.user
        simp only [apply, hcurrent, perform, DiskWriter.destroy]
        split
        · exact h.same rfl
        · exact (aside_remove e).bind (fun s₁ ha => h.same ha.threads)
    | unlink extents =>
        obtain ⟨t, hcurrent, ht⟩ := hadmits
        simp only [apply, hcurrent]
        exact (Outcome.yields_true _).bind (fun blocks _ => h.same rfl)
  exact hyields.of_ok happly

/-- A call of flush_pages that has thrown: its file with the extents it had by
then, and the pages that were to be written. -/
structure Failure where
  cacheId : Nat
  extents : List Nat
  pages : List Nat

structure Failing where
  writer : DiskWriter
  failures : List Failure := []

def writePart (s : DiskWriter) (diskPage : Nat) (batch : List Nat) (bytes : Nat) : Nat → Page :=
  let whole := bytes / pageSize
  let disk : Disk := { blocks := s.blocks, image := s.reader.image }
  let image := (disk.write diskPage ((batch.take whole).map s.reader.memory)).image
  match batch[whole]? with
  | none => image
  | some page =>
      let part := (s.reader.memory page).bytes.take (bytes % pageSize)
      Function.update image (diskPage + whole) ((image (diskPage + whole)).copy 0 part)

/-- The program runs, or an exception has left the flush thread. -/
inductive System
  | running (s : Failing)
  | terminated

/-- A write fails or is short. The exception goes through flush_pages, where
nothing is undone, to the caller of file_writer::flush; in the flush thread
nobody catches it. -/
def Failing.writeFails (s : Failing) (t bytes : Nat) : System :=
  match s.writer.threads[t]? with
  | some (.writing flush diskPage rest) =>
      if flush.wait then
        let w := s.writer
        let descriptor := (w.files flush.state).descriptor
        let image := w.writePart diskPage (rest.take iovMax) bytes
        .running {
          writer := ({ w with reader := { w.reader with image := image } }.setStage t .user).enqueue [t]
          failures := ⟨descriptor.cacheId, descriptor.extents, flush.cachedPages⟩ :: s.failures }
      else .terminated
  | _ => .running s

inductive FailingAction
  | act (a : Action)
  | writeFails (t bytes : Nat)

/-- An error may come after any part of a batch was written. -/
inductive FailingStep : System → FailingAction → System → Prop
  | act {s : Failing} {a : Action} {w : DiskWriter} :
      Step s.writer a w → FailingStep (.running s) (.act a) (.running { s with writer := w })
  | writeFails {s : Failing} {t bytes diskPage : Nat} {flush : Flush} {rest : List Nat} :
      s.writer.threads[t]? = some (.writing flush diskPage rest) → bytes ≤ (rest.take iovMax).length * pageSize →
        FailingStep (.running s) (.writeFails t bytes) (s.writeFails t bytes)

def System.Removable : System → FailingAction → Prop
  | .running s, .act a => s.writer.Removable a
  | _, _ => True

/-- The file_writer of a flush that failed was destroyed. -/
def Gone (s : DiskWriter) (x : Failure) : Prop := ∀ e ∈ s.states, (s.files e).descriptor.cacheId ≠ x.cacheId

structure Recovered (s : DiskWriter) (x : Failure) : Prop where
  pages : ∀ free, s.reader.cache.pages.Holds free → ∀ page ∈ x.pages, page ∈ free
  count : s.dirtyPages = s.dirty.card
  extents : ∀ extent ∈ x.extents, Disjoint (Extents.cells (high extent, low extent)) (inUse s.blocks)
  latch : s.latch.find x.cacheId = none

def lostPages (failures : List Failure) : Multiset Nat := (failures.map (fun x => (x.pages : Multiset Nat))).sum

/-- The pages of flushes that failed are counted as dirty and are nowhere, as are
those that files had left when they were destroyed. -/
structure Failing.Inv (s : Failing) (total maxDirty : Nat) : Prop where
  orderly : s.writer.Orderly
  loaded : s.writer.Loaded
  ledger : ∃ left, s.writer.Ledger total maxDirty (left + lostPages s.failures)
  failures : ∀ x ∈ s.failures, x.pages ≠ []

def System.Inv (total maxDirty : Nat) : System → Prop
  | .running s => Failing.Inv s total maxDirty
  | .terminated => True

section Failures

variable {s : Failing} {total maxDirty : Nat} {x : Failure}

theorem mem_lostPages {failures : List Failure} (hx : x ∈ failures) {page : Nat} (hpage : page ∈ x.pages) :
    page ∈ lostPages failures :=
  Multiset.mem_of_le (List.single_le_sum (fun _ _ => Multiset.zero_le _) _ (List.mem_map_of_mem hx)) hpage

theorem Failing.Inv.lost (h : s.Inv total maxDirty) (hx : x ∈ s.failures) {page : Nat} (hpage : page ∈ x.pages) :
    (∀ free, s.writer.reader.cache.pages.Holds free → page ∉ free) ∧ page ∉ s.writer.reader.cache.cached ∧
      page ∉ s.writer.reader.latch.held ∧ page ∉ s.writer.dirty := by
  obtain ⟨left, hledger⟩ := h.ledger
  have howned := hledger.reader.owned
  have hlost : page ∈ left + lostPages s.failures := Multiset.mem_add.mpr (Or.inr (mem_lostPages hx hpage))
  have hheld : page ∈ s.writer.reader.latch.held + (s.writer.dirty + (left + lostPages s.failures)) :=
    Multiset.mem_add.mpr (Or.inr (Multiset.mem_add.mpr (Or.inr hlost)))
  obtain ⟨hlatch, hrest, hdisjoint⟩ := Multiset.nodup_add.mp howned.held_nodup
  refine ⟨fun free hfree => ?_, howned.not_cached hheld, fun hin => ?_, fun hin => ?_⟩
  · obtain ⟨free', hfree', hsplit⟩ := howned.split
    rw [hfree.unique hfree']
    exact howned.not_free hheld hsplit
  · exact Multiset.disjoint_left.mp hdisjoint hin (Multiset.mem_add.mpr (Or.inr hlost))
  · exact Multiset.disjoint_left.mp (Multiset.nodup_add.mp hrest).2.2 hin hlost

theorem Failing.Inv.unrecovered (h : s.Inv total maxDirty) (hx : x ∈ s.failures) : ¬ s.writer.Recovered x := by
  intro hrecovered
  obtain ⟨page, hpage⟩ := List.exists_mem_of_ne_nil _ (h.failures x hx)
  obtain ⟨left, hledger⟩ := h.ledger
  obtain ⟨free, hfree, _⟩ := hledger.reader.owned.split
  exact (h.lost hx hpage).1 free hfree (hrecovered.pages free hfree page hpage)

theorem Failing.Inv.writeFails (h : s.Inv total maxDirty) {t bytes diskPage : Nat} {flush : Flush} {rest : List Nat}
    (ht : s.writer.threads[t]? = some (.writing flush diskPage rest)) :
    (s.writeFails t bytes).Inv total maxDirty := by
  rw [Failing.writeFails, ht]
  change System.Inv _ _ (if _ then _ else _)
  split
  case isFalse => trivial
  case isTrue =>
    have horderly : (s.writer.setStage t .user).Orderly :=
      h.orderly.setStage ht (follows_none rfl) (fun hs => by cases hs)
    have hdirty : (s.writer.setStage t .user).dirty + flush.cachedPages = s.writer.dirty + 0 :=
      dirty_setStage ht .user
    rw [add_zero] at hdirty
    obtain ⟨left, hledger⟩ := h.ledger
    have hlost : s.writer.dirty + (left + lostPages s.failures) =
        (s.writer.setStage t .user).dirty + (left + ((flush.cachedPages : Multiset Nat) + lostPages s.failures)) := by
      rw [← hdirty]
      ac_rfl
    refine ⟨horderly.same rfl rfl rfl rfl rfl rfl, (h.loaded.setStage t (Stage.loaded_of_none rfl)).same rfl,
      ⟨left, ⟨?_, hledger.size, ?_, hledger.bound, hledger.limit⟩⟩, fun x hx => ?_⟩
    · have hreader := hledger.reader
      rw [hlost] at hreader
      exact hreader.same rfl rfl rfl
    · have hcount := hledger.count
      rw [← Multiset.card_add, hlost, Multiset.card_add] at hcount
      exact hcount
    · rcases List.mem_cons.mp hx with rfl | hx
      · exact h.loaded _ (List.mem_of_getElem? ht) flush rfl
      · exact h.failures x hx

theorem FailingStep.inv {u v : System} {a : FailingAction} (hs : FailingStep u a v) (hr : u.Removable a)
    (h : u.Inv total maxDirty) : v.Inv total maxDirty := by
  cases hs with
  | act hstep =>
      obtain ⟨left, hledger⟩ := h.ledger
      have hnext := hstep.ledger h.orderly hledger
      rw [← add_assoc] at hnext
      exact ⟨hstep.orderly hr h.orderly, hstep.loaded h.loaded, ⟨_, hnext⟩, h.failures⟩
  | writeFails ht _ => exact Failing.Inv.writeFails h ht

end Failures

section Initial

variable {clzOfZero : UInt32} {cacheBits writeCacheBits filePages : Nat} {preallocateSpace : Bool}
  {image memory : Nat → Page}

/-- In a run of any number of contexts, in any order, with any writes failing at
any point, what a flush that failed had in hand is never given back, its
file_writer being destroyed or not. -/
theorem failures_unrecovered (h7 : 7 ≤ cacheBits) (h32 : cacheBits < 32)
    {ts : List (System × FailingAction × System)} {u : System}
    (hrun : Run FailingStep
      (.running ⟨initial clzOfZero cacheBits writeCacheBits filePages preallocateSpace image memory, []⟩) ts u)
    (hremovable : ∀ x ∈ ts, x.1.Removable x.2.1) {s : Failing}
    (hs : .running s ∈ visited
      (.running ⟨initial clzOfZero cacheBits writeCacheBits filePages preallocateSpace image memory, []⟩) ts)
    {x : Failure} (hx : x ∈ s.failures) : ¬ s.writer.Recovered x := by
  have hinit : System.Inv (2 ^ cacheBits) (2 ^ writeCacheBits)
      (.running ⟨initial clzOfZero cacheBits writeCacheBits filePages preallocateSpace image memory, []⟩) := by
    refine ⟨initial_orderly, fun stage hstage => ?_, ⟨0, pages_iff.mp (initial_pages h7 h32)⟩, fun x hx => ?_⟩
    · exact absurd hstage List.not_mem_nil
    · exact absurd hx List.not_mem_nil
  have hinv := hrun.visited_guarded System.Removable hremovable (System.Inv (2 ^ cacheBits) (2 ^ writeCacheBits)) hinit
    (fun u a v hu hstep hr => hstep.inv hr hu) _ hs
  exact Failing.Inv.unrecovered hinv hx

end Initial

section Concrete

instance (s : DiskWriter) (x : Failure) : Decidable (s.Gone x) :=
  inferInstanceAs (Decidable (∀ e ∈ s.states, (s.files e).descriptor.cacheId ≠ x.cacheId))

def attemptFailing : System → FailingAction → Option System
  | .running s, .act a => (attempt s.writer a).map (fun w => .running { s with writer := w })
  | .running s, .writeFails t bytes =>
      match s.writer.threads[t]? with
      | some (.writing _ _ rest) =>
          if bytes ≤ (rest.take iovMax).length * pageSize then some (s.writeFails t bytes) else none
      | _ => none
  | .terminated, _ => none

theorem step_attemptFailing {u v : System} {a : FailingAction} (h : attemptFailing u a = some v) :
    FailingStep u a v ∧ u.Removable a := by
  cases u with
  | terminated => cases h
  | running s =>
      cases a with
      | act a =>
          obtain ⟨w, hw, rfl⟩ := Option.map_eq_some_iff.mp h
          exact ⟨.act (step_attempt hw).1, (step_attempt hw).2⟩
      | writeFails t bytes =>
          rw [attemptFailing] at h
          split at h
          case h_1 flush diskPage rest ht =>
            split at h
            case isTrue hbytes => exact ⟨Option.some.inj h ▸ .writeFails ht hbytes, trivial⟩
            case isFalse => cases h
          case h_2 => cases h

/-- The only page of a file is flushed, no byte of it is written, and the file is
rolled back. -/
def rolledBack : List FailingAction :=
  ([.start, .schedule 0, .create, .write 0 [1], .go, .go, .go, .flush 0, .schedule 0, .go, .go, .go, .go] :
    List Action).map .act ++ [.writeFails 0 0] ++ ([.schedule 0, .destroy 0] : List Action).map .act

/-- A flush has failed and its file is gone, but its latch entry is not. -/
def System.leaves : System → Bool
  | .running s => s.writer.dirtyPages == 1 &&
      s.failures.any (fun x => decide (s.writer.Gone x) && (s.writer.latch.find x.cacheId).isSome)
  | .terminated => false

theorem leaves_rolledBack : (follow attemptFailing (.running ⟨single, []⟩) rolledBack).any (fun r => r.2.leaves) = true := by
  decide +kernel

theorem run_rolledBack : ∃ ts s x, Run FailingStep (.running ⟨single, []⟩) ts (.running s) ∧
    (∀ t ∈ ts, t.1.Removable t.2.1) ∧ x ∈ s.failures ∧ s.writer.Gone x ∧ s.writer.latch.find x.cacheId ≠ none := by
  obtain ⟨⟨ts, u⟩, hfollow, hleaves⟩ := (Option.any_eq_true _ _).mp leaves_rolledBack
  have hrun := run_follow attemptFailing (fun _ _ _ h => (step_attemptFailing h).1) rolledBack _ hfollow
  have hguarded : Run (fun u a v => FailingStep u a v ∧ u.Removable a) (.running ⟨single, []⟩) ts u :=
    run_follow attemptFailing (fun _ _ _ h => step_attemptFailing h) rolledBack _ hfollow
  cases u with
  | terminated => cases hleaves
  | running s =>
      obtain ⟨_, hany⟩ := Bool.and_eq_true_iff.mp hleaves
      obtain ⟨x, hx, hboth⟩ := List.any_eq_true.mp hany
      obtain ⟨hgone, hsome⟩ := Bool.and_eq_true_iff.mp hboth
      exact ⟨ts, s, x, hrun, fun t ht => (hguarded.of_mem t ht).2.2, hx, of_decide_eq_true hgone,
        Option.isSome_iff_ne_none.mp hsome⟩

theorem failures_unrecovered_rolledBack : ∃ ts s x, Run FailingStep (.running ⟨single, []⟩) ts (.running s) ∧
    x ∈ s.failures ∧ s.writer.Gone x ∧ ¬ s.writer.Recovered x := by
  obtain ⟨ts, s, x, hrun, hremovable, hx, hgone, _⟩ := run_rolledBack
  exact ⟨ts, s, x, hrun, hx, hgone, failures_unrecovered (by decide) (by decide) hrun hremovable hrun.mem_visited hx⟩

theorem not_recovered_rolledBack : ¬ ∀ (clzOfZero : UInt32) (cacheBits writeCacheBits filePages : Nat)
    (preallocateSpace : Bool) (image memory : Nat → Page) (ts : List (System × FailingAction × System)) (s : Failing)
    (x : Failure), 7 ≤ cacheBits → cacheBits < 32 →
      Run FailingStep
        (.running ⟨initial clzOfZero cacheBits writeCacheBits filePages preallocateSpace image memory, []⟩) ts
        (.running s) →
      (∀ t ∈ ts, t.1.Removable t.2.1) → x ∈ s.failures → s.writer.Gone x → s.writer.Recovered x := by
  intro h
  obtain ⟨ts, s, x, hrun, hremovable, hx, hgone, hlatch⟩ := run_rolledBack
  exact hlatch (h 0 7 0 4 false _ _ ts s x (by decide) (by decide) hrun hremovable hx hgone).latch

end Concrete

end DiskWriter

end Tyrdbs.Storage
