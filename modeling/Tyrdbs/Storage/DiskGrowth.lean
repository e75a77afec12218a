import Tyrdbs.Storage.Disk

namespace Tyrdbs.Storage

open Allocator Extents OrderedSet Runs

/-- What a disk asks of its allocator: space is added in steps, and only pages
in use are given back. -/
def OnDisk (s : State) : Op → Prop
  | .extend n => n = growPages ∧ s.blocks.capacity + n < 2 ^ 32
  | .allocate n => 0 < n
  | .free idx n => 0 < n ∧ cells (idx, n) ⊆ s.live

instance (s : State) (op : Op) : Decidable (OnDisk s op) :=
  match op with
  | .extend n => (inferInstance : Decidable (n = growPages ∧ s.blocks.capacity + n < 2 ^ 32))
  | .allocate n => (inferInstance : Decidable (0 < n))
  | .free idx n => (inferInstance : Decidable (0 < n ∧ cells (idx, n) ⊆ s.live))

def DiskStep (s : State) (op : Op) (s' : State) : Prop := OnDisk s op ∧ s' = s.apply op

/-- The allocator of a disk whose file has some pages already, or none. -/
def opened (pages : Nat) : State := State.apply {} (.extend pages)

/-- An empty extent is recorded at the first page only, by the disk of a new
file. -/
def EmptyFirst (a : Allocator) : Prop := ∀ e ∈ a.extents, e.2 = 0 → e.1 = 0

structure Rooted (s : State) : Prop where
  inv : Inv s
  empty_first : EmptyFirst s.blocks

def extensions (n : Nat) : Nat := (n + growPages - 1) / growPages

theorem lt_extensions {n rounds : Nat} (h : growPages * rounds < n) : rounds < extensions n := by
  have hgrow : growPages = 32768 := rfl
  rw [extensions, hgrow]
  rw [hgrow] at h
  omega

/-- What make up the pages of a file of the greatest size has no more pages. -/
theorem extensions_le {n : Nat} (h : n ≤ 1 <<< filePagesBits) : growPages * extensions n ≤ 1 <<< filePagesBits := by
  have hgrow : growPages = 32768 := rfl
  have hpages : 1 <<< filePagesBits = 33554432 := by decide
  rw [extensions, hgrow, hpages]
  rw [hpages] at h
  omega

variable {a : Allocator} {s : State}

section joins

variable {idx size bound sum : Nat} {cover : Finset Nat}

theorem joinPrev_grows (h : Pending a idx size bound cover sum) :
    let p := a.joinPrev (predecessor a.idxSet (lowerBound a.idxSet (pack idx 0))) idx size
    p.1.extents ⊆ a.extents ∧ p.2.1 + p.2.2 = idx + size ∧ size ≤ p.2.2 := by
  intro p
  rcases joinPrev_cases h (prev_mem a idx) with ⟨it, -, htouch, hj⟩ | ⟨-, hj⟩
  · simp only [p, hj, extents_eraseExtent]
    exact ⟨Finset.erase_subset _ _, by omega, Nat.le_add_right _ _⟩
  · simp only [p, hj]
    exact ⟨subset_rfl, trivial, le_rfl⟩

theorem joinBoth_grows (h : Pending a idx size bound cover sum) :
    (a.joinBoth idx size).1.extents ⊆ a.extents ∧ size ≤ (a.joinBoth idx size).2.2 := by
  obtain ⟨hsub, -, hsize⟩ := joinPrev_grows h
  rcases joinNext_cases (h.joinPrev (prev_mem a idx)) (next_mem_joinPrev a idx size) with
    ⟨it, -, -, hj⟩ | ⟨-, hj⟩
  · simp only [joinBoth, hj, extents_eraseExtent]
    exact ⟨(Finset.erase_subset _ _).trans hsub, hsize.trans (Nat.le_add_right _ _)⟩
  · simp only [joinBoth, hj]
    exact ⟨hsub, hsize⟩

theorem joinBoth_last (h : Pending a idx size bound cover sum) (hlast : ∀ e ∈ a.extents, e.1 + e.2 ≤ idx)
    (hpos : 0 < size) :
    a.joinBoth idx size = a.joinPrev (predecessor a.idxSet (lowerBound a.idxSet (pack idx 0))) idx size := by
  obtain ⟨-, hend, -⟩ := joinPrev_grows h
  rcases joinNext_cases (h.joinPrev (prev_mem a idx)) (next_mem_joinPrev a idx size) with
    ⟨it, hit, htouch, -⟩ | ⟨-, hj⟩
  · have hbelow := hlast _ (mem_extents (lowerBound_some hit).1)
    simp only at hbelow
    omega
  · simp only [joinBoth, hj]

theorem free_empty (hsame : a.freeExtents = a.extents) (hsep : Separated a.extents)
    (hbelow : ∀ e ∈ a.extents, e.1 + e.2 ≤ bound) (hbound : bound < 2 ^ 32) (hin : idx + size ≤ bound)
    (hapart : Disjoint (cells (idx, size)) (covered a.extents)) (hpos : 0 < size) :
    ∀ e ∈ (a.free idx size).extents, e.2 = 0 → e ∈ a.extents := by
  have h0 : Pending { a with size := a.size - size } idx size bound
      (cells (idx, size) ∪ covered a.extents) (size + total a.extents) :=
    ⟨hsame, hsep, hbelow, hbound, hin, hapart, rfl, rfl⟩
  obtain ⟨hsub, hsize⟩ := joinBoth_grows h0
  have hpin := h0.joinBoth.inside
  intro e he hempty
  rw [free_eq, extents_insertExtent _ (by omega)] at he
  rcases Finset.mem_insert.mp he with rfl | he
  · simp only at hempty
    omega
  · exact hsub he

end joins

section extension

variable {n : Nat}

theorem pending_extend (hc : Consistent a) (hn : a.maxIdx + n < 2 ^ 32) :
    Pending { a with size := u32 (a.size + n) - n } a.maxIdx n (a.maxIdx + n)
      (cells (a.maxIdx, n) ∪ covered a.extents) (n + total a.extents) := by
  refine ⟨hc.same, hc.separated, fun e he => (hc.below e he).trans (Nat.le_add_right _ _), hn, le_rfl, ?_, rfl, rfl⟩
  refine Finset.disjoint_left.mpr (fun p hp hcov => ?_)
  have hlt := Finset.mem_range.mp (covered_subset_range hc hcov)
  have := (mem_cells.mp hp).1
  simp only at this
  omega

/-- Nothing follows the capacity, so that extend only joins what ends there. -/
theorem extents_extend (hc : Consistent a) (hn : a.maxIdx + n < 2 ^ 32) (hpos : 0 < n) :
    let p := Allocator.joinPrev { a with size := u32 (a.size + n) - n }
      (predecessor a.idxSet (lowerBound a.idxSet (pack a.maxIdx 0))) a.maxIdx n
    (a.extend n).extents = insert p.2 p.1.extents := by
  intro p
  have hpend := pending_extend hc hn
  have hin : p.2.1 + p.2.2 ≤ a.maxIdx + n := (hpend.joinPrev (prev_mem _ a.maxIdx)).inside
  change (Allocator.free { a with size := u32 (a.size + n) } a.maxIdx n).extents = _
  rw [free_eq]
  simp only [joinBoth_last hpend hc.below hpos]
  have hlow : p.2.2 < 2 ^ 32 := by omega
  exact extents_insertExtent p.1 hlow

theorem extend_last (hc : Consistent a) (hn : a.maxIdx + n < 2 ^ 32) (hpos : 0 < n) :
    ∃ f ∈ (a.extend n).extents, f.1 + f.2 = a.maxIdx + n ∧ n ≤ f.2 := by
  obtain ⟨-, hend, hsize⟩ := joinPrev_grows (pending_extend hc hn)
  refine ⟨_, ?_, hend, hsize⟩
  rw [extents_extend hc hn hpos]
  exact Finset.mem_insert_self _ _

end extension

theorem Rooted.predecessor (h : Rooted s) {e : Extent} (he : e ∈ s.blocks.extents) (hpos : 0 < e.2)
    (hend : e.1 + e.2 = s.blocks.maxIdx) :
    predecessor s.blocks.idxSet (lowerBound s.blocks.idxSet (pack s.blocks.maxIdx 0)) = some (pack e.1 e.2) := by
  have hc := h.inv.consistent
  have hbound := hc.bounded
  have hlt : pack e.1 e.2 < pack s.blocks.maxIdx 0 := by
    rw [pack_eq (by omega), pack_eq (by omega)]
    omega
  cases hp : OrderedSet.predecessor s.blocks.idxSet (lowerBound s.blocks.idxSet (pack s.blocks.maxIdx 0)) with
  | none => exact absurd hlt (not_lt.mpr (predecessor_lowerBound_none hp _ (pack_mem_idxSet he)))
  | some it =>
      obtain ⟨hmem, hit, hmax⟩ := predecessor_lowerBound_some hp
      have hf := mem_extents hmem
      have hfb := hc.below _ hf
      have hle := hmax _ (pack_mem_idxSet he) hlt
      have hfirst := h.empty_first _ hf
      simp only at hfb hfirst
      rw [← pack_high_low it, pack_eq (by omega), pack_eq (low_lt it)] at hle
      have hshared : high it ∈ cells e := mem_cells.mpr (by omega)
      have heq := hc.separated.eq_of_mem he hf hshared (mem_cells.mpr (by simp only; omega))
      rw [heq, pack_high_low]

theorem Rooted.extend_joins (h : Rooted s) {n : Nat} (hn : s.blocks.maxIdx + n < 2 ^ 32) (hpos : 0 < n)
    {e : Extent} (he : e ∈ s.blocks.extents) (hne : 0 < e.2) (hend : e.1 + e.2 = s.blocks.maxIdx) :
    (e.1, e.2 + n) ∈ (s.blocks.extend n).extents := by
  have hlow : e.2 < 2 ^ 32 := by omega
  have hjoin : (Allocator.joinPrev { s.blocks with size := u32 (s.blocks.size + n) - n }
      (some (pack e.1 e.2)) s.blocks.maxIdx n).2 = (e.1, e.2 + n) := by
    rw [joinPrev]
    simp only [high_pack hlow, low_pack hlow]
    rw [u32_of_lt (show e.1 + e.2 < 2 ^ 32 by omega), if_pos hend, u32_of_lt (show n + e.2 < 2 ^ 32 by omega),
      Nat.add_comm n]
  rw [extents_extend h.inv.consistent hn hpos, h.predecessor he hne hend, hjoin]
  exact Finset.mem_insert_self _ _

theorem Rooted.extend (h : Rooted s) {n : Nat} (hn : s.blocks.maxIdx + n < 2 ^ 32) (hpos : 0 < n) :
    Rooted (s.apply (.extend n)) := by
  have hc := h.inv.consistent
  refine ⟨inv_extend h.inv hn, fun e he hempty => h.empty_first e ?_ hempty⟩
  change e ∈ (Allocator.free { s.blocks with size := u32 (s.blocks.size + n) } s.blocks.maxIdx n).extents at he
  have hpend := pending_extend hc hn
  exact @free_empty { s.blocks with size := u32 (s.blocks.size + n) } s.blocks.maxIdx n (s.blocks.maxIdx + n)
    hpend.same hpend.separated hpend.below hn le_rfl hpend.apart hpos e he hempty

theorem Rooted.allocate (h : Rooted s) {n : Nat} (hpos : 0 < n) : Rooted (s.apply (.allocate n)) := by
  rcases allocate_cases h.inv n hpos with ⟨-, hv⟩ | ⟨e, -, -, -, -, -, -, hinv, -, -, hext⟩
  · have hs : s.apply (.allocate n) = s := by simp [State.apply, hv]
    rw [hs]
    exact h
  · refine ⟨hinv, fun f hf hempty => ?_⟩
    change f ∈ (s.blocks.allocate n).2.extents at hf
    rw [hext] at hf
    split at hf
    case isTrue hlt =>
      rcases Finset.mem_insert.mp hf with rfl | hf
      · simp only at hempty
        omega
      · exact h.empty_first f (Finset.mem_of_mem_erase hf) hempty
    case isFalse => exact h.empty_first f (Finset.mem_of_mem_erase hf) hempty

theorem Rooted.free (h : Rooted s) {idx n : Nat} (hpos : 0 < n) (hsub : cells (idx, n) ⊆ s.live) :
    Rooted (s.apply (.free idx n)) := by
  have hc := h.inv.consistent
  obtain ⟨hin, hapart, -⟩ := live_range h.inv hpos hsub
  refine ⟨inv_free h.inv hpos hsub, fun e he hempty => h.empty_first e ?_ hempty⟩
  exact free_empty hc.same hc.separated hc.below hc.bounded hin hapart hpos e he hempty

theorem rooted_opened {pages : Nat} (hpages : pages < 2 ^ 32) : Rooted (opened pages) := by
  refine ⟨inv_extend inv_empty (by rwa [Nat.zero_add]), fun e he _ => ?_⟩
  have hext : (opened pages).blocks.extents = {(0, pages)} := by
    change ((Allocator.insertExtent _ 0 pages)).extents = _
    rw [extents_insertExtent _ hpages]
    rfl
  rw [hext, Finset.mem_singleton] at he
  rw [he]

theorem rooted_step (s : State) (op : Op) (s' : State) (h : Rooted s) (hs : DiskStep s op s') : Rooted s' := by
  obtain ⟨hop, rfl⟩ := hs
  cases op with
  | extend n =>
      obtain ⟨rfl, hn⟩ := hop
      exact h.extend hn (by decide)
  | allocate n => exact h.allocate hop
  | free idx n => exact h.free hop.1 hop.2

/-- Of the extensions made so far, what is not in use by now is one free extent at
the end. -/
def Grown (a : Allocator) (made used : Nat) : Prop :=
  growPages * made ≤ used ∨ ∃ f ∈ a.extents, f.1 + f.2 = a.maxIdx ∧ growPages * made ≤ f.2 + used

/-- An extension of a disk, after which the extensions are still one extent. -/
theorem Rooted.grows (h : Rooted s) (hn : s.blocks.maxIdx + growPages < 2 ^ 32) {made used : Nat}
    (hmade : Grown s.blocks made used) : Grown (s.blocks.extend growPages) (made + 1) used := by
  have hmax := (extend_spec h.inv.consistent hn).2.1
  obtain ⟨g, hg, hlast, hnew⟩ := extend_last h.inv.consistent hn (by decide)
  have hfresh : growPages * made ≤ used → Grown (s.blocks.extend growPages) (made + 1) used := fun hused =>
    .inr ⟨g, hg, hlast.trans hmax.symm, by rw [Nat.mul_succ]; omega⟩
  rcases hmade with hused | ⟨f, hf, hend, hsize⟩
  · exact hfresh hused
  · by_cases hpos : 0 < f.2
    · refine .inr ⟨_, h.extend_joins hn (by decide) hf hpos hend, ?_, ?_⟩
      · simp only
        omega
      · simp only [Nat.mul_succ]
        omega
    · exact hfresh (by omega)

/-- A request that fails is larger than what the extensions have left for it. -/
theorem small_of_fails (h : Rooted s) {n made used : Nat} (hn : 0 < n) (hmade : Grown s.blocks made used)
    (hs : (s.blocks.allocate n).1 = invalidHandle) : growPages * made < n + used := by
  rcases hmade with hused | ⟨f, hf, -, hsize⟩
  · omega
  · rcases allocate_cases h.inv n hn with ⟨hall, -⟩ | ⟨e, -, -, -, hidx, hvalid, -⟩
    · have := hall f hf
      omega
    · exact absurd (hidx.symm.trans hs) hvalid

/-- Wherever an allocation takes its pages from, they are in use from then on. -/
theorem Grown.allocate (h : Rooted s) {n made used : Nat} (hn : 0 < n) (hmade : Grown s.blocks made used)
    (hs : (s.blocks.allocate n).1 ≠ invalidHandle) : Grown (s.blocks.allocate n).2 made (n + used) := by
  rcases allocate_cases h.inv n hn with ⟨-, hv⟩ | ⟨e, he, -, -, -, -, -, -, -, hmax, hext⟩
  · exact absurd (congrArg Prod.fst hv) hs
  · rcases hmade with hused | ⟨f, hf, hend, hsize⟩
    · exact .inl (by omega)
    · by_cases hfe : f = e
      · subst hfe
        by_cases hlt : n < f.2
        · refine .inr ⟨(f.1 + n, f.2 - n), ?_, ?_, ?_⟩
          · rw [hext, if_pos hlt]
            exact Finset.mem_insert_self _ _
          · rw [hmax, ← hend]
            simp only
            omega
          · simp only
            omega
        · exact .inl (by omega)
      · refine .inr ⟨f, ?_, hend.trans hmax.symm, by omega⟩
        have hkept := Finset.mem_erase.mpr ⟨hfe, hf⟩
        rw [hext]
        split
        · exact Finset.mem_insert_of_mem hkept
        · exact hkept

theorem allocate_maxIdx (h : Rooted s) {n : Nat} (hn : 0 < n) : (s.blocks.allocate n).2.maxIdx = s.blocks.maxIdx := by
  rcases allocate_cases h.inv n hn with ⟨-, hv⟩ | ⟨e, -, -, -, -, -, -, -, -, hmax, -⟩
  · rw [hv]
  · exact hmax

/-- A disk that had so many pages, has made so many extensions since and given
away so many pages. -/
def Backed (capacity made used : Nat) (a : Allocator) : Prop :=
  a.maxIdx = capacity + growPages * made ∧ Grown a made used ∧ ∃ live, Rooted ⟨a, live⟩

theorem Backed.allocated {capacity made used n : Nat} {a : Allocator} (h : Backed capacity made used a) (hn : 0 < n)
    (hs : (a.allocate n).1 ≠ invalidHandle) : Backed capacity made (n + used) (a.allocate n).2 := by
  obtain ⟨hcap, hmade, live, hrooted⟩ := h
  exact ⟨(allocate_maxIdx hrooted hn).trans hcap, hmade.allocate hrooted hn hs, _, hrooted.allocate hn⟩

/-- The loop ends, with no more extensions than make up the request and what was
asked for before. -/
theorem allocateLoop_grows (rounds : Nat) {d : Disk} {capacity made used n : Nat} (h : Backed capacity made used d.blocks)
    (hr : capacity + growPages * (made + rounds) < 2 ^ 32) (hn : 0 < n) :
    (∃ page d' more, d.allocateLoop rounds n = .ok (page, d') ∧ Backed capacity (made + more) (n + used) d'.blocks ∧
      (more = 0 ∨ growPages * (made + more - 1) < n + used)) ∨
    (d.allocateLoop rounds n = .error .pagesExhausted ∧ growPages * (made + rounds) < n + used) := by
  obtain ⟨hcap, hmade, live, hrooted⟩ := h
  induction rounds generalizing d live made with
  | zero =>
      by_cases hs : (d.blocks.allocate n).1 = invalidHandle
      · exact .inr ⟨by simp only [Disk.allocateLoop, if_pos hs], small_of_fails hrooted hn hmade hs⟩
      · exact .inl ⟨_, _, 0, allocateLoop_of_fit 0 d hs, Backed.allocated ⟨hcap, hmade, live, hrooted⟩ hn hs, .inl rfl⟩
  | succ rounds ih =>
      by_cases hs : (d.blocks.allocate n).1 = invalidHandle
      · have hmore : made + 1 + rounds = made + (rounds + 1) := by omega
        have hgrow : d.blocks.maxIdx + growPages < 2 ^ 32 := by
          rw [← hmore, Nat.mul_add, Nat.mul_succ] at hr
          omega
        have hmax := (extend_spec hrooted.inv.consistent hgrow).2.1
        have hsmall := small_of_fails hrooted hn hmade hs
        have hstep : d.allocateLoop (rounds + 1) n =
            Disk.allocateLoop rounds { d with blocks := d.blocks.extend growPages } n := by
          rw [Disk.allocateLoop]
          simp only [hs, if_true, allocate_fails_same hrooted.inv.consistent hn hs]
        rw [hstep]
        rcases @ih { d with blocks := d.blocks.extend growPages } (made + 1) (by rw [hmore]; exact hr)
          (hmax.trans (by rw [hcap, Nat.mul_succ, Nat.add_assoc])) (hrooted.grows hgrow hmade) _
          (hrooted.extend hgrow (by decide)) with
          ⟨page, d', more, hok, hbacked, hless⟩ | ⟨herror, hless⟩
        · refine .inl ⟨page, d', more + 1, hok, ?_, .inr ?_⟩
          · rwa [show made + (more + 1) = made + 1 + more by omega]
          · rcases hless with rfl | hless
            · exact hsmall
            · rwa [show made + (more + 1) - 1 = made + 1 + more - 1 by omega]
        · exact .inr ⟨herror, hmore ▸ hless⟩
      · exact .inl ⟨_, _, 0, allocateLoop_of_fit _ d hs, Backed.allocated ⟨hcap, hmade, live, hrooted⟩ hn hs, .inl rfl⟩

/-- A disk fails a request only where the page index has no room for the extensions
that make up all requests so far. -/
theorem Backed.allocate {d : Disk} {capacity made used n : Nat} (h : Backed capacity made used d.blocks)
    (hn : 0 < n) :
    (∃ page d' more, d.allocate n = .ok (page, d') ∧ Backed capacity (made + more) (n + used) d'.blocks ∧
      made + more ≤ max made (extensions (n + used))) ∨
    (d.allocate n = .error .pagesExhausted ∧ 2 ^ 32 ≤ capacity + growPages * extensions (n + used)) := by
  have hbefore := h
  obtain ⟨hcap, -, live, hrooted⟩ := h
  have hbound : d.blocks.maxIdx < 2 ^ 32 := hrooted.inv.consistent.bounded
  have hrounds := Nat.mul_div_le (2 ^ 32 - 1 - d.blocks.maxIdx) growPages
  have hroom : capacity + growPages * (made + (2 ^ 32 - 1 - d.blocks.maxIdx) / growPages) < 2 ^ 32 := by
    rw [Nat.mul_add]
    omega
  rcases allocateLoop_grows _ hbefore hroom hn with ⟨page, d', more, hok, hbacked, hless⟩ | ⟨herror, hless⟩
  · refine .inl ⟨page, d', more, hok, hbacked, ?_⟩
    rcases hless with rfl | hless
    · exact Nat.le_max_left _ _
    · have := lt_extensions hless
      omega
  · refine .inr ⟨herror, ?_⟩
    have hmore := Nat.mul_le_mul_left growPages (lt_extensions hless)
    have hnext := Nat.lt_mul_div_succ (2 ^ 32 - 1 - d.blocks.maxIdx) (show 0 < growPages by decide)
    rw [Nat.succ_eq_add_one, Nat.mul_add, Nat.mul_add] at hmore
    rw [Nat.mul_add] at hnext
    omega

/-- On every disk, a request for pages is met after at most so many extensions as
make it up, unless the page index runs out before; and each extension is joined
to the free pages that end at the old capacity. -/
theorem allocate_terminates {pages : Nat} (hpages : pages < 2 ^ 32) {ts : List (State × Op × State)} {s : State}
    (h : Run DiskStep (opened pages) ts s) (d : Disk) {n : Nat} (hn : 0 < n) :
    ((∃ page d' more, { d with blocks := s.blocks }.allocate n = .ok (page, d') ∧ more ≤ extensions n ∧
        d'.blocks.capacity = s.blocks.capacity + growPages * more ∧ page + n ≤ d'.blocks.capacity ∧
        Disjoint (cells (page, n)) s.live) ∨
      ({ d with blocks := s.blocks }.allocate n = .error .pagesExhausted ∧
        2 ^ 32 ≤ s.blocks.capacity + growPages * extensions n)) ∧
    (s.blocks.capacity + growPages < 2 ^ 32 → ∀ e ∈ s.blocks.extents, 0 < e.2 → e.1 + e.2 = s.blocks.capacity →
      (e.1, e.2 + growPages) ∈ (s.blocks.extend growPages).extents) := by
  have hrooted := h.invariant Rooted (rooted_opened hpages) rooted_step
  refine ⟨?_, fun hroom e he hpos hend => hrooted.extend_joins hroom (by decide) he hpos hend⟩
  have hbacked : Backed s.blocks.capacity 0 0 s.blocks := ⟨rfl, .inl (Nat.le_refl _), s.live, hrooted⟩
  rcases hbacked.allocate (d := { d with blocks := s.blocks }) hn with
    ⟨page, d', more, hok, ⟨hcap, -⟩, hmore⟩ | ⟨herror, hfull⟩
  · rw [Nat.zero_add] at hcap hmore
    rw [Nat.zero_max] at hmore
    refine .inl ⟨page, d', more, hok, hmore, hcap, ?_⟩
    rcases allocate_spec { d with blocks := s.blocks } hrooted.inv.consistent n hn with
      herror | ⟨page', d'', hok', -, -, -, hfit, -, hapart⟩
    · exact absurd (hok.symm.trans herror) (by simp)
    · rw [hok, Except.ok.injEq, Prod.mk.injEq] at hok'
      obtain ⟨rfl, rfl⟩ := hok'
      refine ⟨hfit, ?_⟩
      rw [hrooted.inv.live_eq]
      exact hapart
  · exact .inr ⟨herror, hfull⟩

/-- A new file gets its first pages by one extension, behind the empty extent that
opening it has recorded. -/
theorem allocate_terminates_new : let s := State.apply (opened 0) (.allocate 40000)
    ∃ page d', ({ blocks := s.blocks, image := fun _ => ⟨List.replicate pageSize 0, List.length_replicate⟩ } :
      Disk).allocate 40000 = .ok (page, d') ∧ page + 40000 ≤ d'.blocks.capacity := by
  intro s
  have hrun : Run DiskStep (opened 0) [(opened 0, .allocate 40000, s)] s :=
    Run.tail Run.refl ⟨by decide, rfl⟩
  rcases (allocate_terminates (by decide) hrun
      { image := fun _ => ⟨List.replicate pageSize 0, List.length_replicate⟩ } (n := 40000) (by decide)).1 with
    ⟨page, d', more, hok, -, -, hfit, -⟩ | ⟨-, hbig⟩
  · exact ⟨page, d', hok, hfit⟩
  · exact absurd hbig (by decide)

end Tyrdbs.Storage
