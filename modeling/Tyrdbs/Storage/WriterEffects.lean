import Tyrdbs.Storage.FlushRuns

namespace Tyrdbs.Storage

open Outcome

namespace Stage

def unplaced : Stage → Option Flush
  | .allocate call => some call
  | .allocating call => some call
  | .extend call => some call
  | _ => none

/-- A flush with the disk page to write next and the pages still to write. -/
def arriving : Stage → Option (Flush × Nat × List Nat)
  | .batch call diskPage rest => some (call, diskPage, rest)
  | .writing call diskPage rest => some (call, diskPage, rest)
  | _ => none

def ahead (e : Nat) (stage : Stage) : List Nat :=
  stage.unplaced.elim [] (fun call => if call.state = e then call.cachedPages else [])

variable {stage : Stage} {flush : Flush} {diskPage : Nat} {rest : List Nat}

theorem flush_of_unplaced (h : stage.unplaced = some flush) : stage.flush? = some flush := by
  cases stage <;> first | exact h | cases h

theorem flush_of_arriving (h : stage.arriving = some (flush, diskPage, rest)) : stage.flush? = some flush := by
  cases stage <;> cases h <;> rfl

theorem ahead_of_unplaced (h : stage.unplaced = some flush) : stage.ahead flush.state = flush.cachedPages := by
  rw [ahead, h, Option.elim_some, if_pos rfl]

theorem ahead_of_others {e : Nat} (h : ∀ call, stage.flush? = some call → call.state ≠ e) : stage.ahead e = [] := by
  rw [ahead]
  cases hu : stage.unplaced with
  | none => rfl
  | some call =>
      rw [Option.elim_some, if_neg (h call (flush_of_unplaced hu))]

theorem flightless_of_fills {e : Nat} (h : stage.fills = some e) : stage.unplaced = none ∧ stage.arriving = none := by
  cases stage <;> first | exact ⟨rfl, rfl⟩ | cases h

end Stage

namespace DiskWriter

def unplaced (s : DiskWriter) : List Flush := s.threads.filterMap Stage.unplaced

def arriving (s : DiskWriter) : List (Flush × Nat × List Nat) := s.threads.filterMap Stage.arriving

/-- The pages of a file that are taken and have no place on the disk. -/
def ahead (s : DiskWriter) (e : Nat) : List Nat := s.threads.flatMap (Stage.ahead e)

/-- Nothing was done to files, to their pages or to the disk. -/
structure Quiet (s s' : DiskWriter) : Prop where
  reader : s'.reader = s.reader
  blocks : s'.blocks = s.blocks
  files : s'.files = s.files
  states : s'.states = s.states
  next : s'.nextCacheId = s.nextCacheId
  written : s'.written = s.written
  ahead : ∀ e, s'.ahead e = s.ahead e
  unplaced : ∀ flush ∈ s'.unplaced, flush ∈ s.unplaced
  arriving : ∀ r, r ∈ s'.arriving ↔ r ∈ s.arriving

variable {s s' : DiskWriter} {t e : Nat} {stage stage' : Stage} {flush : Flush}

theorem Quiet.refl (s : DiskWriter) : Quiet s s :=
  ⟨rfl, rfl, rfl, rfl, rfl, rfl, fun _ => rfl, fun _ h => h, fun _ => Iff.rfl⟩

theorem Quiet.trans {s'' : DiskWriter} (h : Quiet s s') (h' : Quiet s' s'') : Quiet s s'' where
  reader := h'.reader.trans h.reader
  blocks := h'.blocks.trans h.blocks
  files := h'.files.trans h.files
  states := h'.states.trans h.states
  next := h'.next.trans h.next
  written := h'.written.trans h.written
  ahead := fun e => (h'.ahead e).trans (h.ahead e)
  unplaced := fun flush hf => h.unplaced flush (h'.unplaced flush hf)
  arriving := fun r => (h'.arriving r).trans (h.arriving r)

theorem filterMap_set {α β : Type} (f : α → Option β) {xs : List α} {i : Nat} {a b : α} (ha : xs[i]? = some a)
    (h : f b = f a) : (xs.set i b).filterMap f = xs.filterMap f := by
  induction xs generalizing i with
  | nil => rfl
  | cons x xs ih =>
      cases i with
      | zero =>
          obtain rfl := Option.some.inj ha
          rw [List.set_cons_zero, List.filterMap_cons, List.filterMap_cons, h]
      | succ i => rw [List.set_cons_succ, List.filterMap_cons, List.filterMap_cons, ih ha]

theorem flatMap_set {α β : Type} (f : α → List β) {xs : List α} {i : Nat} {a b : α} (ha : xs[i]? = some a)
    (h : f b = f a) : (xs.set i b).flatMap f = xs.flatMap f := by
  induction xs generalizing i with
  | nil => rfl
  | cons x xs ih =>
      cases i with
      | zero =>
          obtain rfl := Option.some.inj ha
          rw [List.set_cons_zero, List.flatMap_cons, List.flatMap_cons, h]
      | succ i => rw [List.set_cons_succ, List.flatMap_cons, List.flatMap_cons, ih ha]

theorem flatMap_of_others {α β : Type} (f : α → List β) {xs : List α} {i : Nat} {a : α} (ha : xs[i]? = some a)
    (h : ∀ (j : Nat) (b : α), j ≠ i → xs[j]? = some b → f b = []) : xs.flatMap f = f a := by
  induction xs generalizing i with
  | nil => cases ha
  | cons x xs ih =>
      rw [List.flatMap_cons]
      cases i with
      | zero =>
          obtain rfl := Option.some.inj ha
          have hrest : xs.flatMap f = [] := by
            rw [List.flatMap_eq_nil_iff]
            intro b hb
            obtain ⟨j, hj⟩ := List.getElem?_of_mem hb
            exact h (j + 1) b (Nat.succ_ne_zero j) hj
          rw [hrest, List.append_nil]
      | succ i =>
          rw [h 0 x (Nat.succ_ne_zero i).symm rfl, List.nil_append]
          exact ih ha (fun j b hj hb => h (j + 1) b (fun heq => hj (Nat.succ.inj heq)) hb)

theorem quiet_setStage (ht : s.threads[t]? = some stage) (hreader : s'.reader = s.reader)
    (hblocks : s'.blocks = s.blocks) (hfiles : s'.files = s.files) (hstates : s'.states = s.states)
    (hnext : s'.nextCacheId = s.nextCacheId) (hwritten : s'.written = s.written)
    (hthreads : s'.threads = s.threads.set t stage') (hunplaced : stage'.unplaced = stage.unplaced)
    (harriving : stage'.arriving = stage.arriving) : Quiet s s' := by
  refine ⟨hreader, hblocks, hfiles, hstates, hnext, hwritten, fun e => ?_, fun flush hf => ?_, fun r => ?_⟩
  · rw [ahead, hthreads]
    refine flatMap_set _ ht ?_
    rw [Stage.ahead, hunplaced, Stage.ahead]
  · rw [unplaced, hthreads, filterMap_set _ ht hunplaced] at hf
    exact hf
  · rw [arriving, hthreads, filterMap_set _ ht harriving]
    exact Iff.rfl

theorem quiet_threads (hreader : s'.reader = s.reader) (hblocks : s'.blocks = s.blocks) (hfiles : s'.files = s.files)
    (hstates : s'.states = s.states) (hnext : s'.nextCacheId = s.nextCacheId) (hwritten : s'.written = s.written)
    (hthreads : s'.threads = s.threads ∨ ∃ x : Stage, s'.threads = s.threads ++ [x] ∧ x.flush? = none) :
    Quiet s s' := by
  rcases hthreads with hthreads | ⟨x, hthreads, hx⟩
  · refine ⟨hreader, hblocks, hfiles, hstates, hnext, hwritten, fun e => ?_, fun flush hf => ?_, fun r => ?_⟩
    · rw [ahead, hthreads]
      rfl
    · rw [unplaced, hthreads] at hf
      exact hf
    · rw [arriving, hthreads]
      exact Iff.rfl
  · have hunplaced : x.unplaced = none := by
      cases hu : x.unplaced with
      | none => rfl
      | some flush => exact absurd (Stage.flush_of_unplaced hu) (by rw [hx]; simp)
    have harriving : x.arriving = none := by
      cases ha : x.arriving with
      | none => rfl
      | some r => exact absurd (Stage.flush_of_arriving (show _ = some (r.1, r.2.1, r.2.2) from ha)) (by rw [hx]; simp)
    refine ⟨hreader, hblocks, hfiles, hstates, hnext, hwritten, fun e => ?_, fun flush hf => ?_, fun r => ?_⟩
    · rw [ahead, hthreads, List.flatMap_append, List.flatMap_singleton, Stage.ahead, hunplaced]
      exact List.append_nil _
    · rw [unplaced, hthreads, List.filterMap_append, List.filterMap_cons, hunplaced] at hf
      rwa [List.filterMap_nil, List.append_nil] at hf
    · rw [arriving, hthreads, List.filterMap_append, List.filterMap_cons, harriving]
      rw [List.filterMap_nil, List.append_nil]
      exact Iff.rfl

/-- What a step does to files, to their pages and to the disk, where no file is
commited, unlinked or read. -/
inductive Effect (s : DiskWriter) (a : Action) : DiskWriter → Prop
  | quiet {s' : DiskWriter} : Quiet s s' → Effect s a s'
  | gives {s' : DiskWriter} {e page : Nat} {cache : PageCache} : e ∈ s.states → (s.files e).flushed = false →
      (s.files e).memPage = invalidHandle → s.reader.cache.allocate = .ok (page, cache) →
      Quiet (s.give e page cache) s' → Effect s a s'
  | puts {s' : DiskWriter} {e : Nat} {data : List Byte} : e ∈ s.states → (s.files e).flushed = false →
      (s.files e).memPage ≠ invalidHandle →
      ((s.files e).bufferOffset ≤ pageSize → (s.files e).bufferOffset + data.length ≤ pageSize) →
      Quiet (s.put e data) s' → Effect s a s'
  | completes {s' : DiskWriter} {e : Nat} {data : List Byte} : e ∈ s.states → (s.files e).flushed = false →
      (s.files e).memPage ≠ invalidHandle → (s.files e).bufferOffset + data.length = pageSize →
      Quiet ((s.put e data).pushPage e) s' → Effect s a s'
  | marks {s' : DiskWriter} {e : Nat} : e ∈ s.states → (s.files e).flushed = false →
      (s.files e).memPage = invalidHandle → Quiet (s.mark e) s' → Effect s a s'
  | seals {s' : DiskWriter} {e : Nat} : e ∈ s.states → (s.files e).flushed = false →
      (s.files e).memPage ≠ invalidHandle → Quiet ((s.mark e).pushPage e) s' → Effect s a s'
  | takes {t e : Nat} {wait : Bool} : s.current = some t → s.threads[t]? = some (.flushPages e wait) →
      (s.files e).cachedPages ≠ [] →
      Effect s a ((s.take e).setStage t (.allocate (s.taking e wait)))
  | places {t : Nat} {flush : Flush} : s.threads[t]? = some (.allocate flush) →
      (s.blocks.allocate flush.cachedPages.length).1 ≠ invalidHandle →
      Effect s a ((s.place flush).setStage t
        (.batch flush (s.blocks.allocate flush.cachedPages.length).1 flush.cachedPages))
  | grows {s' : DiskWriter} {t : Nat} {flush : Flush} : a = .go → s.current = some t → s.threads[t]? = some (.extend flush) →
      Quiet { s with blocks := s.blocks.extend growPages } s' → Effect s a s'
  | writes {t diskPage : Nat} {flush : Flush} {rest : List Nat} :
      s.threads[t]? = some (.writing flush diskPage rest) → Effect s a (s.ioDone t)
  | finishes {t diskPage : Nat} {flush : Flush} {waiting : List Nat} {s₁ : DiskWriter} :
      s.threads[t]? = some (.batch flush diskPage []) →
      s.enterPages flush.state flush.filePage flush.cachedPages = .ok s₁ →
      Effect s a ((s₁.cleanPages flush.cachedPages.length).releaseLatch t flush waiting)
  | creates : a = .create → Effect s a s.allocate
  | frees {e : Nat} : e ∈ s.states → (s.files e).commited = true → s.Unflushed e → Effect s a (s.free e)
  | rollsBack {e : Nat} {pool : Slabs} {blocks : Allocator} {n : Nat} : e ∈ s.states → s.Unflushed e →
      removeExtents s.blocks (s.files e).descriptor.extents = .ok blocks →
      Effect s a ((s.cleared pool blocks n).free e)

theorem quiet_startGlobalFlush (s : DiskWriter) : Quiet s s.startGlobalFlush := by
  rw [startGlobalFlush]
  split
  · exact Quiet.refl s
  · exact quiet_threads rfl rfl rfl rfl rfl rfl (.inr ⟨.flushThread, rfl, rfl⟩)

theorem Moved.effect (hm : Moved s t stage s') (ho : s.Orderly) (hs : s.Settled) (hcurrent : s.current = some t)
    (ht : s.threads[t]? = some stage) : Effect s .go s' := by
  have hstage := List.mem_of_getElem? ht
  have hlive : ∀ {e}, stage.fills = some e → e ∈ s.states :=
    fun he => ho.live stage hstage _ (Stage.state_of_operand (Stage.operand_of_fills he))
  have hopen : ∀ {e}, stage.fills = some e → (s.files e).flushed = false := fun he => hs.filling stage hstage _ he
  have hstep : ∀ {s' : DiskWriter} {stage' : Stage}, s'.reader = s.reader → s'.blocks = s.blocks →
      s'.files = s.files → s'.states = s.states → s'.nextCacheId = s.nextCacheId → s'.written = s.written →
      s'.threads = s.threads.set t stage' → stage'.unplaced = stage.unplaced → stage'.arriving = stage.arriving →
      Effect s .go s' :=
    fun h1 h2 h3 h4 h5 h6 h7 h8 h9 => .quiet (quiet_setStage ht h1 h2 h3 h4 h5 h6 h7 h8 h9)
  cases hm with
  | @stalled stage e data hfills =>
      have hplain := Stage.flightless_of_fills hfills
      refine .quiet ((quiet_startGlobalFlush s).trans
        (quiet_setStage (startGlobalFlush_threads ht) rfl rfl rfl rfl rfl rfl rfl hplain.1.symm hplain.2.symm))
  | @given stage e page data cache hfills hpage hroom hallocate =>
      have hplain := Stage.flightless_of_fills hfills
      exact .gives (hlive hfills) (hopen hfills) hpage hallocate
        (quiet_setStage (s := s.give e page cache) ht rfl rfl rfl rfl rfl rfl rfl hplain.1.symm hplain.2.symm)
  | written => exact hstep rfl rfl rfl rfl rfl rfl rfl rfl rfl
  | @completed e data hpage hfull =>
      have hlen : (data.take (s.part e data)).length = s.part e data := by
        rw [List.length_take]
        exact Nat.min_eq_left (Nat.min_le_right _ _)
      have hfills : (s.files e).bufferOffset + (data.take (s.part e data)).length = pageSize := by rw [hlen]; exact hfull
      refine .completes (hlive rfl) (hopen rfl) hpage hfills ?_
      exact quiet_setStage (s := (s.put e (data.take (s.part e data))).pushPage e) ht rfl rfl rfl rfl rfl rfl rfl rfl rfl
  | @begun e data hpage hfull =>
      have hlen : (data.take (s.part e data)).length = s.part e data := by
        rw [List.length_take]
        exact Nat.min_eq_left (Nat.min_le_right _ _)
      have hpart : s.part e data ≤ pageSize - (s.files e).bufferOffset := Nat.min_le_left _ _
      have hfits : (s.files e).bufferOffset ≤ pageSize →
          (s.files e).bufferOffset + (data.take (s.part e data)).length ≤ pageSize := by
        rw [hlen]
        omega
      refine .puts (hlive rfl) (hopen rfl) hpage hfits ?_
      exact quiet_setStage (s := s.put e (data.take (s.part e data))) ht rfl rfl rfl rfl rfl rfl rfl rfl rfl
  | waits => exact hstep rfl rfl rfl rfl rfl rfl rfl rfl rfl
  | enters => exact hstep rfl rfl rfl rfl rfl rfl rfl rfl rfl
  | @none e wait =>
      refine hstep rfl rfl rfl rfl rfl rfl (show _ = s.threads.set t (if wait then .user else .sweep (s.next e)) from rfl)
        ?_ ?_ <;>
        cases wait <;> rfl
  | taken hsome => exact .takes hcurrent ht hsome
  | placed hpage => exact .places ht hpage
  | joined => exact hstep rfl rfl rfl rfl rfl rfl rfl rfl rfl
  | allocating => exact hstep rfl rfl rfl rfl rfl rfl rfl rfl rfl
  | extending => exact hstep rfl rfl rfl rfl rfl rfl rfl rfl rfl
  | @extended flush =>
      exact .grows rfl hcurrent ht (quiet_setStage (s := { s with blocks := s.blocks.extend growPages }) ht rfl rfl rfl rfl rfl
        rfl rfl rfl rfl)
  | writes => exact hstep rfl rfl rfl rfl rfl rfl rfl rfl rfl
  | finished henter => exact .finishes ht henter
  | started => exact hstep rfl rfl rfl rfl rfl rfl rfl rfl rfl
  | swept => exact hstep rfl rfl rfl rfl rfl rfl rfl rfl rfl
  | passed => exact hstep rfl rfl rfl rfl rfl rfl rfl rfl rfl
  | picked => exact hstep rfl rfl rfl rfl rfl rfl rfl rfl rfl

theorem padding_fills (hle : (s.files e).bufferOffset ≤ pageSize) (hne : (s.files e).bufferOffset &&& pageMask ≠ 0) :
    (s.files e).bufferOffset + (s.padding e).length = pageSize := by
  have hmask : (s.files e).bufferOffset &&& pageMask = (s.files e).bufferOffset % 2 ^ 12 := Nat.and_two_pow_sub_one_eq_mod _ 12
  have hsize : pageSize = 2 ^ 12 := rfl
  rw [padding, List.length_replicate]
  rw [hmask] at hne ⊢
  omega

theorem quiet_ioDone (hrest : ∀ flush diskPage rest, s.threads[t]? ≠ some (.writing flush diskPage rest)) :
    Quiet s (s.ioDone t) := by
  rw [ioDone]
  split
  case h_1 flush diskPage rest ht => exact absurd ht (hrest flush diskPage rest)
  case h_2 flush ht => exact quiet_setStage ht rfl rfl rfl rfl rfl rfl rfl rfl rfl
  case h_3 => exact Quiet.refl s

theorem perform_effect (h : s.Regular) (hcurrent : s.current = some t) {a : Action} (hadmits : s.Admits a)
    (hturn : s.InTurn a) (hperform : s.perform t a = .ok s') (hcommit : ∀ e, a ≠ .commit e)
    (hunlink : ∀ extents, a ≠ .unlink extents) : Effect s a s' := by
  have huser : s.IsUser → s.threads[t]? = some .user := by
    rintro ⟨k, hk, hstage⟩
    rw [hcurrent] at hk
    rwa [Option.some.inj hk]
  cases a with
  | create =>
      obtain rfl := Except.ok.inj hperform
      exact .creates rfl
  | write e data =>
      rcases write_cases hperform with rfl | ⟨-, -, rfl⟩
      · exact .quiet (Quiet.refl _)
      · exact .quiet (quiet_setStage (huser hadmits.user) rfl rfl rfl rfl rfl rfl rfl rfl rfl)
  | addPadding e =>
      obtain ⟨-, rfl | ⟨hoffset, rfl⟩⟩ := addPadding_cases hperform
      · exact .quiet (Quiet.refl _)
      · refine .puts hadmits.live hturn (fun hpage => hoffset ?_) (fun hle => (padding_fills hle hoffset).le)
          (Quiet.refl _)
        rw [(h.orderly.files e).buffer hpage]
        rfl
  | flush e =>
      have ht := huser hadmits.user
      obtain ⟨hopen, ⟨-, hpage, rfl⟩ | ⟨hoffset, rfl⟩⟩ := flush_cases hperform
      · exact .marks hadmits.live hopen hpage
          (quiet_setStage (s := s.mark e) ht rfl rfl rfl rfl rfl rfl rfl rfl rfl)
      · refine .seals hadmits.live hopen (fun hpage => hoffset ((h.orderly.files e).buffer hpage)) ?_
        exact quiet_setStage (s := (s.mark e).pushPage e) ht rfl rfl rfl rfl rfl rfl rfl rfl rfl
  | commit e => exact absurd rfl (hcommit e)
  | destroy e =>
      rcases destroy_cases hperform with ⟨hcommited, rfl⟩ | ⟨hopen, pool, blocks, n, hblocks, rfl⟩
      · exact .frees hadmits.live hcommited (h.unflushed hadmits hcommited)
      · exact .rollsBack hadmits.live (hturn hopen) hblocks
  | unlink extents => exact absurd rfl (hunlink extents)
  | go =>
      have hgo : s.go t = .ok s' := hperform
      cases ht : s.threads[t]? with
      | none =>
          rw [DiskWriter.go, ht] at hgo
          obtain rfl := Except.ok.inj hgo
          exact .quiet (Quiet.refl _)
      | some stage =>
          have hpageless : ∀ e data, stage = .allocatePage e data → (s.files e).memPage = invalidHandle :=
            fun e data heq => h.orderly.pageless e data (heq ▸ List.mem_of_getElem? ht)
          rcases go_moved hpageless ht hgo with hm | rfl
          · exact hm.effect h.orderly h.settled hcurrent ht
          · exact .quiet (Quiet.refl _)
  | pause =>
      obtain rfl := Except.ok.inj hperform
      exact .quiet (quiet_setStage (huser hadmits) rfl rfl rfl rfl rfl rfl rfl rfl rfl)
  | _ =>
      obtain rfl := Except.ok.inj hperform
      exact .quiet (Quiet.refl _)

theorem Step.effect {a : Action} (hs : Step s a s') (hturn : s.InTurn a) (h : s.Regular) (hcommit : ∀ e, a ≠ .commit e)
    (hunlink : ∀ extents, a ≠ .unlink extents) (hread : ∀ r, a ≠ .read r) : Effect s a s' := by
  obtain ⟨hadmits, happly⟩ := hs
  cases a with
  | schedule t =>
      obtain rfl := Except.ok.inj happly
      exact .quiet (quiet_threads rfl rfl rfl rfl rfl rfl (.inl rfl))
  | start =>
      obtain rfl := Except.ok.inj happly
      exact .quiet (quiet_threads rfl rfl rfl rfl rfl rfl (.inr ⟨.user, rfl, rfl⟩))
  | wake t =>
      obtain rfl := Except.ok.inj happly
      have ht : s.threads[t]? = some .outside := hadmits
      exact .quiet (quiet_setStage ht rfl rfl rfl rfl rfl rfl rfl rfl rfl)
  | ioDone t =>
      obtain rfl := Except.ok.inj happly
      by_cases hrest : ∃ flush diskPage rest, s.threads[t]? = some (.writing flush diskPage rest)
      · obtain ⟨flush, diskPage, rest, ht⟩ := hrest
        exact .writes ht
      · exact .quiet (quiet_ioDone (fun flush diskPage rest ht => hrest ⟨flush, diskPage, rest, ht⟩))
  | read r => exact absurd rfl (hread r)
  | _ =>
      cases hcurrent : s.current with
      | none =>
          simp only [apply, hcurrent] at happly
          obtain rfl := Except.ok.inj happly
          exact .quiet (Quiet.refl _)
      | some t =>
          simp only [apply, hcurrent] at happly
          exact perform_effect h hcurrent hadmits hturn happly hcommit hunlink

end DiskWriter

end Tyrdbs.Storage
