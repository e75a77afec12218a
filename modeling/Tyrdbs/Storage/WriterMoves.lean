import Tyrdbs.Storage.PageConservation

namespace Tyrdbs.Storage.DiskWriter

open Outcome

/-- The state behind startGlobalFlush, for a context that waits for pages. -/
def stall (s : DiskWriter) (t : Nat) (stage : Stage) : DiskWriter :=
  { s.startGlobalFlush with dirtyPagesCond := s.startGlobalFlush.dirtyPagesCond ++ [t] }.suspend t stage

def give (s : DiskWriter) (e page : Nat) (cache : PageCache) : DiskWriter :=
  { s.withCache cache with dirtyPages := s.dirtyPages + 1 }.setFile e { s.files e with memPage := page }

def part (s : DiskWriter) (e : Nat) (data : List Byte) : Nat := min (pageSize - (s.files e).bufferOffset) data.length

/-- The pages that flush_pages takes from a file. -/
def taking (s : DiskWriter) (e : Nat) (wait : Bool) : Flush where
  state := e
  wait := wait
  cond := (s.files e).descriptor.cacheId
  cachedPages := (s.files e).cachedPages
  filePage := filePageAfter (s.files e).descriptor.extents

def take (s : DiskWriter) (e : Nat) : DiskWriter :=
  let id := (s.files e).descriptor.cacheId
  { s.setFile e { s.files e with cachedPages := [] } with latch := s.latch.put id ((s.latch.find id).getD []) }

def place (s : DiskWriter) (flush : Flush) : DiskWriter :=
  { s with blocks := (s.blocks.allocate flush.cachedPages.length).2 }.setFile flush.state (s.extended flush)

/-- What the code of disk_writer does from a stage on, one constructor for each
of its branches. -/
inductive Moved (s : DiskWriter) (t : Nat) : Stage → DiskWriter → Prop
  | stalled {stage : Stage} {e : Nat} {data : List Byte} : stage.fills = some e →
      (s.files e).memPage = invalidHandle → s.maxDirtyPages ≤ s.dirtyPages → Moved s t stage (s.stall t (.allocatePage e data))
  | given {stage : Stage} {e page : Nat} {data : List Byte} {cache : PageCache} : stage.fills = some e →
      (s.files e).memPage = invalidHandle → s.dirtyPages < s.maxDirtyPages →
      s.reader.cache.allocate = .ok (page, cache) → Moved s t stage ((s.give e page cache).setStage t (.write e data))
  | written {e : Nat} : Moved s t (.write e []) (s.setStage t .user)
  | completed {e : Nat} {data : List Byte} : (s.files e).memPage ≠ invalidHandle →
      (s.files e).bufferOffset + s.part e data = pageSize → Moved s t (.write e data)
        (((s.put e (data.take (s.part e data))).pushPage e).yield t (.write e (data.drop (s.part e data))))
  | begun {e : Nat} {data : List Byte} : (s.files e).memPage ≠ invalidHandle →
      (s.files e).bufferOffset + s.part e data ≠ pageSize →
      Moved s t (.write e data) ((s.put e (data.take (s.part e data))).setStage t (.write e (data.drop (s.part e data))))
  | waits {e : Nat} {waiting : List Nat} : s.latch.find (s.files e).descriptor.cacheId = some waiting →
      Moved s t (.flush e)
        ({ s with latch := s.latch.put (s.files e).descriptor.cacheId (waiting ++ [t]) }.suspend t (.flushPages e true))
  | enters {e : Nat} : s.latch.find (s.files e).descriptor.cacheId = none →
      Moved s t (.flush e) (s.setStage t (.flushPages e true))
  | none {e : Nat} {wait : Bool} : (s.files e).cachedPages = [] → Moved s t (.flushPages e wait) (s.returned t e wait)
  | taken {e : Nat} {wait : Bool} : (s.files e).cachedPages ≠ [] →
      Moved s t (.flushPages e wait) ((s.take e).setStage t (.allocate (s.taking e wait)))
  | placed {flush : Flush} : (s.blocks.allocate flush.cachedPages.length).1 ≠ invalidHandle →
      Moved s t (.allocate flush) ((s.place flush).setStage t
        (.batch flush (s.blocks.allocate flush.cachedPages.length).1 flush.cachedPages))
  | joined {flush : Flush} : (s.blocks.allocate flush.cachedPages.length).1 = invalidHandle →
      s.allocationInProgress = true →
      Moved s t (.allocate flush) ({ s with allocationCond := s.allocationCond ++ [t] }.suspend t (.allocate flush))
  | allocating {flush : Flush} : (s.blocks.allocate flush.cachedPages.length).1 = invalidHandle →
      s.allocationInProgress = false → s.preallocateSpace = true →
      Moved s t (.allocate flush) ({ s with allocationInProgress := true }.suspend t (.allocating flush))
  | extending {flush : Flush} : (s.blocks.allocate flush.cachedPages.length).1 = invalidHandle →
      s.allocationInProgress = false → s.preallocateSpace = false →
      Moved s t (.allocate flush) ({ s with allocationInProgress := true }.setStage t (.extend flush))
  | extended {flush : Flush} : Moved s t (.extend flush) (s.extendBlocks t flush)
  | writes {flush : Flush} {diskPage : Nat} {rest : List Nat} : rest ≠ [] →
      Moved s t (.batch flush diskPage rest) (s.suspend t (.writing flush diskPage rest))
  | finished {flush : Flush} {diskPage : Nat} {waiting : List Nat} {s₁ : DiskWriter} :
      s.enterPages flush.state flush.filePage flush.cachedPages = .ok s₁ →
      flush.cachedPages.length ≤ s₁.dirtyPages → s₁.latch.find flush.cond = some waiting →
      Moved s t (.batch flush diskPage []) ((s₁.cleanPages flush.cachedPages.length).releaseLatch t flush waiting)
  | started : Moved s t .flushThread (s.setStage t (.sweep s.states.head?))
  | swept : Moved s t (.sweep none) ({ s with globalFlushActive := false }.suspend t .ended)
  | passed {e : Nat} {waiting : List Nat} : s.latch.find (s.files e).descriptor.cacheId = some waiting →
      Moved s t (.sweep (some e)) (s.setStage t (.sweep (s.next e)))
  | picked {e : Nat} : s.latch.find (s.files e).descriptor.cacheId = none →
      Moved s t (.sweep (some e)) (s.setStage t (.flushPages e false))

variable {s s' : DiskWriter} {t e : Nat} {stage : Stage} {flush : Flush}

theorem allocatePage_moved {data : List Byte} (hfills : stage.fills = some e)
    (hpage : (s.files e).memPage = invalidHandle) (h : s.allocatePage t e data = .ok s') : Moved s t stage s' := by
  rw [DiskWriter.allocatePage] at h
  split at h
  case isTrue hfull =>
    obtain rfl := Except.ok.inj h
    exact .stalled hfills hpage hfull
  case isFalse hroom =>
    cases hallocate : s.reader.cache.allocate with
    | error stop =>
        rw [hallocate] at h
        cases h
    | ok r =>
        rw [hallocate] at h
        obtain rfl := Except.ok.inj h
        exact .given hfills hpage (Nat.lt_of_not_le hroom) hallocate

theorem writeRound_moved {data : List Byte} (h : s.writeRound t e data = .ok s') : Moved s t (.write e data) s' := by
  rw [DiskWriter.writeRound] at h
  split at h
  case isTrue hdata =>
    obtain rfl := Except.ok.inj h
    exact hdata ▸ .written
  split at h
  case isTrue hpage => exact allocatePage_moved rfl hpage h
  case isFalse hpage =>
    change (if _ then _ else _) = _ at h
    split at h
    case isTrue hfull =>
      obtain rfl := Except.ok.inj h
      exact .completed hpage hfull
    case isFalse hfull =>
      obtain rfl := Except.ok.inj h
      exact .begun hpage hfull

theorem testLatch_moved (s : DiskWriter) (t e : Nat) : Moved s t (.flush e) (s.testLatch t e) := by
  rw [DiskWriter.testLatch]
  split
  case h_1 waiting hlatch => exact .waits hlatch
  case h_2 hlatch => exact .enters hlatch

theorem takePages_moved (s : DiskWriter) (t e : Nat) (wait : Bool) :
    Moved s t (.flushPages e wait) (s.takePages t e wait) := by
  rw [DiskWriter.takePages]
  change Moved s t _ (if _ then _ else _)
  split
  case isTrue hnone => exact .none hnone
  case isFalse hsome => exact .taken hsome

theorem allocateBlocks_moved (s : DiskWriter) (t : Nat) (flush : Flush) :
    Moved s t (.allocate flush) (s.allocateBlocks t flush) := by
  by_cases hpage : (s.blocks.allocate flush.cachedPages.length).1 = invalidHandle
  · rw [allocateBlocks_of_invalid hpage, DiskWriter.allocateSpace]
    split
    case isTrue hprogress => exact .joined hpage hprogress
    case isFalse hprogress =>
      change Moved s t _ (if _ then _ else _)
      split
      case isTrue hspace => exact .allocating hpage (by simpa using hprogress) hspace
      case isFalse hspace => exact .extending hpage (by simpa using hprogress) (by simpa using hspace)
  · rw [allocateBlocks_of_valid hpage]
    exact .placed hpage

theorem writeBatch_moved {diskPage : Nat} {rest : List Nat} (h : s.writeBatch t flush diskPage rest = .ok s') :
    Moved s t (.batch flush diskPage rest) s' := by
  rw [DiskWriter.writeBatch] at h
  split at h
  case isFalse hrest =>
    obtain rfl := Except.ok.inj h
    exact .writes hrest
  case isTrue hrest =>
    subst hrest
    rw [DiskWriter.finishFlush] at h
    cases henter : s.enterPages flush.state flush.filePage flush.cachedPages with
    | error stop =>
        rw [henter] at h
        cases h
    | ok s₁ =>
        rw [henter, ok_bind] at h
        by_cases hdirty : flush.cachedPages.length ≤ s₁.dirtyPages
        case neg =>
          rw [check_of_not hdirty] at h
          cases h
        case pos =>
          rw [check_of hdirty, ok_bind] at h
          split at h
          case h_1 => cases h
          case h_2 waiting hlatch =>
            obtain rfl := Except.ok.inj h
            exact .finished henter hdirty hlatch

theorem sweep_moved (s : DiskWriter) (t : Nat) (e : Option Nat) : Moved s t (.sweep e) (s.sweep t e) := by
  cases e with
  | none => exact .swept
  | some e =>
      rw [DiskWriter.sweep]
      split
      case h_1 waiting hlatch => exact .passed hlatch
      case h_2 hlatch => exact .picked hlatch

theorem go_moved (hpageless : ∀ e data, stage = .allocatePage e data → (s.files e).memPage = invalidHandle)
    (ht : s.threads[t]? = some stage) (h : s.go t = .ok s') : Moved s t stage s' ∨ s' = s := by
  rw [DiskWriter.go, ht] at h
  cases stage with
  | allocatePage e data => exact .inl (allocatePage_moved rfl (hpageless e data rfl) h)
  | write e data => exact .inl (writeRound_moved h)
  | flush e => exact .inl (Except.ok.inj h ▸ testLatch_moved s t e)
  | flushPages e wait => exact .inl (Except.ok.inj h ▸ takePages_moved s t e wait)
  | allocate call => exact .inl (Except.ok.inj h ▸ allocateBlocks_moved s t call)
  | extend call => exact .inl (Except.ok.inj h ▸ .extended)
  | batch call diskPage rest => exact .inl (writeBatch_moved h)
  | flushThread => exact .inl (Except.ok.inj h ▸ .started)
  | sweep e => exact .inl (Except.ok.inj h ▸ sweep_moved s t e)
  | user | outside | allocating | writing | ended => exact .inr (Except.ok.inj h).symm

theorem enterPages_eq : ∀ (pages : List Nat) (s : DiskWriter) (filePage : Nat) {s' : DiskWriter},
    s.enterPages e filePage pages = .ok s' →
      ∃ cache entered, s' = { s.withCache cache with entered := entered } := by
  intro pages
  induction pages with
  | nil =>
      intro s filePage s' h
      obtain rfl := Except.ok.inj h
      exact ⟨s.reader.cache, s.entered, rfl⟩
  | cons page pages ih =>
      intro s filePage s' h
      rw [DiskWriter.enterPages] at h
      dsimp only at h
      by_cases hfile : filePage < 1 <<< filePagesBits
      case neg =>
        rw [check_of_not hfile] at h
        cases h
      case pos =>
        rw [check_of hfile, ok_bind] at h
        cases hadd : s.reader.cache.add (DiskReader.keyOf (UInt64.ofNat (s.files e).descriptor.cacheId)
          (UInt32.ofNat filePage)) page with
        | error stop =>
            rw [hadd] at h
            cases h
        | ok cache =>
            rw [hadd, ok_bind] at h
            obtain ⟨cache', entered, rfl⟩ := ih _ _ h
            exact ⟨cache', entered, rfl⟩

theorem write_cases {data : List Byte} (h : s.write t e data = .ok s') :
    s' = s ∨ (s.files e).commited = false ∧ (s.files e).descriptor.size + data.length < maxFileSize ∧
      s' = s.setStage t (.write e data) := by
  rw [DiskWriter.write] at h
  split at h
  case isTrue => exact .inl (Except.ok.inj h).symm
  case isFalse hsize =>
    by_cases hopen : (s.files e).commited = false
    · rw [check_of hopen] at h
      exact .inr ⟨hopen, Nat.lt_of_not_le hsize, (Except.ok.inj h).symm⟩
    · rw [check_of_not hopen] at h
      cases h

def padding (s : DiskWriter) (e : Nat) : List Byte :=
  List.replicate (pageSize - ((s.files e).bufferOffset &&& pageMask)) 0

theorem addPadding_cases (h : s.addPadding e = .ok s') :
    (s.files e).commited = false ∧
      (s' = s ∨ (s.files e).bufferOffset &&& pageMask ≠ 0 ∧ s' = s.put e (s.padding e)) := by
  rw [DiskWriter.addPadding] at h
  by_cases hopen : (s.files e).commited = false
  case neg =>
    rw [check_of_not hopen] at h
    cases h
  case pos =>
    refine ⟨hopen, ?_⟩
    rw [check_of hopen, ok_bind] at h
    split at h
    case isTrue => exact .inl (Except.ok.inj h).symm
    case isFalse hoffset => exact .inr ⟨hoffset, (Except.ok.inj h).symm⟩

def mark (s : DiskWriter) (e : Nat) : DiskWriter := s.setFile e { s.files e with flushed := true }

theorem flush_cases (h : s.flush t e = .ok s') :
    (s.files e).flushed = false ∧
      ((s.files e).bufferOffset = 0 ∧ (s.files e).memPage = invalidHandle ∧ s' = (s.mark e).setStage t (.flush e) ∨
        (s.files e).bufferOffset ≠ 0 ∧ s' = ((s.mark e).pushPage e).yield t (.flush e)) := by
  rw [DiskWriter.flush] at h
  by_cases hflushed : (s.files e).flushed = false
  case neg =>
    rw [check_of_not hflushed] at h
    cases h
  case pos =>
    refine ⟨hflushed, ?_⟩
    rw [check_of hflushed, ok_bind] at h
    change (if _ then _ else _) = _ at h
    split at h
    case isTrue hoffset =>
      rw [setFile_self] at hoffset
      by_cases hpage : ((s.mark e).files e).memPage = invalidHandle
      · rw [show (s.setFile e { s.files e with flushed := true }) = s.mark e from rfl, check_of hpage] at h
        rw [mark, setFile_self] at hpage
        exact .inl ⟨hoffset, hpage, (Except.ok.inj h).symm⟩
      · rw [show (s.setFile e { s.files e with flushed := true }) = s.mark e from rfl, check_of_not hpage] at h
        cases h
    case isFalse hoffset =>
      rw [setFile_self] at hoffset
      exact .inr ⟨hoffset, (Except.ok.inj h).symm⟩

def released (f : FileWriter) : FileWriter :=
  { f with commited := true, descriptor := { f.descriptor with extents := [] } }

theorem commit_cases (h : s.commit e = .ok s') :
    (s.files e).flushed = true ∧ (s.files e).commited = false ∧ s' = s.setFile e (released (s.files e)) := by
  rw [DiskWriter.commit] at h
  by_cases hflushed : (s.files e).flushed = true
  case neg =>
    rw [check_of_not hflushed] at h
    cases h
  case pos =>
    rw [check_of hflushed, ok_bind] at h
    by_cases hopen : (s.files e).commited = false
    case neg =>
      rw [check_of_not hopen] at h
      cases h
    case pos =>
      rw [check_of hopen] at h
      exact ⟨hflushed, hopen, (Except.ok.inj h).symm⟩

theorem freePages_pool : ∀ (pages : List Nat) (s : DiskWriter), Yields (fun _ => True)
    (fun s' => ∃ pool, s' = s.withCache { s.reader.cache with pages := pool }) (s.freePages pages) := by
  intro pages
  induction pages with
  | nil => exact fun s => ⟨s.reader.cache.pages, rfl⟩
  | cons page pages ih =>
      intro s
      have hpool : Yields (fun _ => True) (fun c => ∃ pool, c = { s.reader.cache with pages := pool })
          (s.reader.cache.free page) := (yields_true _).bind (fun pool _ => ⟨pool, rfl⟩)
      refine hpool.bind (fun cache hcache => ?_)
      obtain ⟨pool, rfl⟩ := hcache
      refine (ih _).mono (fun s' hs' => ?_)
      obtain ⟨pool', rfl⟩ := hs'
      exact ⟨pool', rfl⟩

theorem removePage_pool (s : DiskWriter) (page : Nat) : Yields (fun _ => True)
    (fun s' => ∃ pool n, s' = { s.withCache { s.reader.cache with pages := pool } with dirtyPages := n })
    (s.removePage page) := by
  rw [DiskWriter.removePage]
  split
  case isTrue => exact ⟨s.reader.cache.pages, s.dirtyPages, rfl⟩
  case isFalse =>
    refine (freePages_pool [page] s).bind (fun u hu => ?_)
    obtain ⟨pool, rfl⟩ := hu
    exact ⟨pool, s.dirtyPages - 1, rfl⟩

/-- The engine without the pages of a file that was not commited. -/
def cleared (s : DiskWriter) (pool : Slabs) (blocks : Allocator) (dirtyPages : Nat) : DiskWriter :=
  DiskWriter.signalDirtyPages { s with
    reader := { s.reader with cache := { s.reader.cache with pages := pool } }
    blocks := blocks
    dirtyPages := dirtyPages }

theorem remove_pool (s : DiskWriter) (e : Nat) : Yields (fun _ => True) (fun s' => ∃ pool blocks n,
    removeExtents s.blocks (s.files e).descriptor.extents = .ok blocks ∧ s' = s.cleared pool blocks n)
    (s.remove e) := by
  refine (removePage_pool s (s.files e).memPage).bind (fun u hu => ?_)
  obtain ⟨pool, n, rfl⟩ := hu
  refine (yields_self _).bind (fun blocks hblocks => (freePages_pool _ _).bind (fun u hu => ?_))
  obtain ⟨pool', rfl⟩ := hu
  exact (yields_true _).bind (fun _ _ => ⟨pool', blocks, _, hblocks, rfl⟩)

theorem destroy_cases (h : s.destroy e = .ok s') : (s.files e).commited = true ∧ s' = s.free e ∨
    (s.files e).commited = false ∧ ∃ pool blocks n, removeExtents s.blocks (s.files e).descriptor.extents = .ok blocks ∧
      s' = (s.cleared pool blocks n).free e := by
  rw [DiskWriter.destroy] at h
  split at h
  case isTrue hcommited => exact .inl ⟨hcommited, (Except.ok.inj h).symm⟩
  case isFalse hopen =>
    cases hremove : s.remove e with
    | error stop =>
        rw [hremove] at h
        cases h
    | ok u =>
        rw [hremove] at h
        obtain ⟨pool, blocks, n, hblocks, rfl⟩ := (remove_pool s e).of_ok hremove
        exact .inr ⟨Bool.not_eq_true _ ▸ hopen, pool, blocks, n, hblocks, (Except.ok.inj h).symm⟩

end Tyrdbs.Storage.DiskWriter
