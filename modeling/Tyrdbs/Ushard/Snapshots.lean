import Tyrdbs.Ushard.Readers

namespace Tyrdbs.Ushard.Sharing

open Outcome NewestWins

/-- What is there to read in slices, within bounds: of each key the newest record. -/
def shown (bounds : Option (Key × Key)) (slices : List Slice) : List Part :=
  match bounds with
  | none => (newestRecords (slices.flatMap Slice.records)).flatMap Record.parts
  | some b =>
      (newestRecords ((slices.flatMap Slice.records).filter
        (fun r => b.1 ≤ r.key ∧ r.key ≤ b.2))).flatMap Record.parts

/-- What opening a slice brings, to begin with it or to range over it. -/
def Shows (bounds : Option (Key × Key)) (slice : Slice) (o : Option (List Part)) : Prop :=
  match bounds with
  | none => o = slice.begin
  | some b => slice.Opened b.1 b.2 o

instance (minKey maxKey : Key) (slice : Slice) : (o : Option (List Part)) → Decidable (slice.Opened minKey maxKey o)
  | none => inferInstanceAs (Decidable (∀ r ∈ slice.records, minKey ≤ r.key → maxKey < r.key))
  | some ps => inferInstanceAs (Decidable (ps = _))

instance : (bounds : Option (Key × Key)) → (slice : Slice) → (o : Option (List Part)) → Decidable (Shows bounds slice o)
  | none, slice, o => inferInstanceAs (Decidable (o = slice.begin))
  | some b, slice, o => inferInstanceAs (Decidable (slice.Opened b.1 b.2 o))

def Reader.start (r : Reader) : Except Fault UshardIterator :=
  match r.bounds with
  | none => .ok (UshardIterator.begin (r.looked.map Prod.snd))
  | some b => UshardIterator.range (r.looked.map Prod.snd) b.2

/-- An iterator has the slices that it was given, wherever it has got to in them. -/
structure Reading (slice : Nat → Slice) (r : Reader) : Prop where
  distinct : Slice.Distinct (r.snapshot.map slice)
  looked : (r.looked.map Prod.fst ++ r.waiting).Perm r.snapshot
  shows : ∀ e ∈ r.looked, Shows r.bounds (slice e.1) e.2
  fits : ∀ b, r.bounds = some b → b.2.length ≤ maxKeySize
  begun : r.phase = .opening → r.elements.map Element.cursor = r.looked.filterMap (fun e => r.arrived e.2) ∧
    r.maxKey = [] ∧ r.lastKey = [] ∧ r.found = []
  goesOn : r.phase ≠ .opening → r.waiting = [] ∧ ∃ it, r.start = .ok it ∧ Meets it r

variable {slice slice' : Nat → Slice} {r r' : Reader} {gone : List Nat} {bounds : Option (Key × Key)}

theorem shown_perm {slices slices' : List Slice} (hd : Slice.Distinct slices) (h : slices.Perm slices') :
    shown bounds slices = shown bounds slices' := by
  have hrecords : ∀ r, r ∈ slices.flatMap Slice.records ↔ r ∈ slices'.flatMap Slice.records :=
    fun r => (h.flatMap_right Slice.records).mem_iff
  have hall : Unambiguous Record.key Record.idx {r | r ∈ slices.flatMap Slice.records} := by
    rw [List.flatMap_def]
    refine unambiguous_flatten (fun rs hrs => ?_) (List.pairwise_map.mpr hd)
    obtain ⟨s, -, rfl⟩ := List.mem_map.mp hrs
    exact s.sorted
  cases bounds with
  | none => exact congrArg (List.flatMap Record.parts) (newestRecords_congr hall hrecords)
  | some b =>
      refine congrArg (List.flatMap Record.parts) (newestRecords_congr ?_ fun r => ?_)
      · exact hall.mono fun r hr => List.mem_of_mem_filter hr
      · rw [List.mem_filter, List.mem_filter, hrecords]

theorem Reading.mono (h : Reading slice r) (hsame : ∀ i ∈ r.snapshot, slice' i = slice i) : Reading slice' r where
  distinct := by
    rw [List.map_congr_left hsame]
    exact h.distinct
  looked := h.looked
  shows e he := by
    have hin : e.1 ∈ r.snapshot := h.looked.mem_iff.mp (List.mem_append_left _ (List.mem_map_of_mem he))
    rw [hsame e.1 hin]
    exact h.shows e he
  fits := h.fits
  begun := h.begun
  goesOn := h.goesOn

/-- When all slices have been opened, the iterator that comes of them finds what
is there to read. -/
theorem Reading.starts (h : Reading slice r) (hall : r.waiting = []) :
    ∃ it, r.start = .ok it ∧
      ∀ n, UshardIterator.calls n it = .ok (pad n (shown r.bounds (r.snapshot.map slice))) := by
  have hperm : ((r.looked.map Prod.fst).map slice).Perm (r.snapshot.map slice) := by
    have hlooked := h.looked
    rw [hall, List.append_nil] at hlooked
    exact hlooked.map slice
  have hd : Slice.Distinct ((r.looked.map Prod.fst).map slice) := (distinct_perm hperm).mpr h.distinct
  rw [← shown_perm hd hperm, Reader.start]
  have hshows := h.shows
  have hfits := h.fits
  cases hbounds : r.bounds with
  | none =>
      rw [hbounds] at hshows
      have hbegin : r.looked.map Prod.snd = ((r.looked.map Prod.fst).map slice).map Slice.begin := by
        rw [List.map_map, List.map_map]
        exact List.map_congr_left hshows
      refine ⟨_, rfl, fun n => ?_⟩
      rw [hbegin]
      exact calls_begin hd n
  | some b =>
      rw [hbounds] at hshows
      refine calls_range hd (hfits b hbounds) ?_
      rw [List.map_map, List.forall₂_map_left_iff, List.forall₂_map_right_iff, List.forall₂_same]
      exact hshows

theorem pad_length (n : Nat) (ps : List Part) : (pad n ps).length = n := by
  rw [pad, List.length_append, List.length_map, List.length_take, List.length_replicate]
  omega

/-- Whatever an iterator has found is what was there to read, and nothing behind it. -/
theorem Reading.found (h : Reading slice r) (hphase : r.phase ≠ .opening) :
    r.found = pad r.found.length (shown r.bounds (r.snapshot.map slice)) := by
  obtain ⟨hall, it, hit, hmeets⟩ := h.goesOn hphase
  obtain ⟨it', hit', hcalls⟩ := h.starts hall
  rw [hit, Except.ok.injEq] at hit'
  subst hit'
  have hsofar := hmeets.sofar
  rw [hcalls, Except.ok.injEq] at hsofar
  exact hsofar.symm

theorem pad_end {ps qs : List Part} {n : Nat} (h : pad n ps = qs.map some ++ [none]) : ps = qs := by
  have hn : n = qs.length + 1 := by
    have hlength := congrArg List.length h
    rwa [pad_length, List.length_append, List.length_map, List.length_singleton] at hlength
  have hfew : ps.length ≤ qs.length := by
    by_contra hmany
    have hall : pad n ps = (ps.take n).map some := by
      rw [pad, hn, Nat.sub_eq_zero_of_le (Nat.lt_of_not_le hmany), List.replicate_zero, List.append_nil]
    rw [hall] at h
    have hin : (none : Option Part) ∈ (ps.take n).map some := h ▸ List.mem_append_right _ (List.mem_singleton_self _)
    obtain ⟨p, -, hp⟩ := List.mem_map.mp hin
    exact absurd hp (Option.some_ne_none p)
  have hsome := congrArg (List.filterMap id) h
  rw [pad, List.take_of_length_le (hfew.trans (by omega))] at hsome
  simpa [List.filterMap_append, List.filterMap_replicate] using hsome

theorem reading_new {snapshot : List Nat} (hd : Slice.Distinct (snapshot.map slice))
    (hfits : ∀ b, bounds = some b → b.2.length ≤ maxKeySize) :
    Reading slice { bounds := bounds, snapshot := snapshot, waiting := snapshot } where
  distinct := hd
  looked := List.Perm.refl _
  shows _ he := absurd he List.not_mem_nil
  fits := hfits
  begun _ := ⟨rfl, rfl, rfl, rfl⟩
  goesOn h := absurd rfl h

/-- A slice that is opened stops waiting; its pointer goes, or is kept elsewhere. -/
theorem look_eq (r : Reader) (i : Nat) (o : Option (List Part)) :
    ∃ es ps, (r.look i o).1 = { r with
        waiting := r.waiting.erase i, looked := r.looked ++ [(i, o)], elements := r.elements ++ es
        passed := r.passed ++ ps } ∧
      es.map Element.cursor = (r.arrived o).toList ∧ ps ++ es.map Element.object ++ (r.look i o).2 = [i] := by
  rw [Reader.look]
  simp only
  have harrived : Reader.arrived { r with waiting := r.waiting.erase i, looked := r.looked ++ [(i, o)] } o =
      r.arrived o := rfl
  rw [harrived]
  cases r.arrived o with
  | some c =>
      refine ⟨[⟨i, c⟩], [], ?_, rfl, rfl⟩
      simp only [List.append_nil]
  | none =>
      cases r.bounds.isSome with
      | true =>
          refine ⟨[], [], ?_, rfl, rfl⟩
          simp only [List.append_nil, if_true]
      | false =>
          refine ⟨[], [i], ?_, rfl, rfl⟩
          simp only [List.append_nil, Bool.false_eq_true, if_false]

theorem look_pointers {i : Nat} (hi : i ∈ r.waiting) (o : Option (List Part)) :
    r.pointers.Perm ((r.look i o).2 ++ (r.look i o).1.pointers) := by
  obtain ⟨es, ps, hlook, -, hplace⟩ := look_eq r i o
  have hi' := List.perm_cons_erase hi
  rw [hlook, Reader.pointers, Reader.pointers]
  simp only
  refine (hi'.append_right _).trans ?_
  rw [List.cons_append, ← List.singleton_append, ← hplace]
  refine List.perm_iff_count.mpr fun k => ?_
  simp only [List.map_append, List.count_append]
  omega

theorem reading_look (h : Reading slice r) (hphase : r.phase = .opening) {i : Nat} (hi : i ∈ r.waiting)
    {o : Option (List Part)} (ho : Shows r.bounds (slice i) o) : Reading slice (r.look i o).1 := by
  obtain ⟨es, ps, hlook, hes, -⟩ := look_eq r i o
  rw [hlook]
  refine ⟨h.distinct, ?_, fun e he => ?_, h.fits, fun _ => ?_, fun hno => absurd hphase hno⟩
  · rw [List.map_append, List.append_assoc]
    exact ((List.perm_cons_erase hi).symm.append_left _).trans h.looked
  · rcases List.mem_append.mp he with he | he
    · exact h.shows e he
    · rw [List.mem_singleton.mp he]
      exact ho
  · obtain ⟨helements, hrest⟩ := h.begun hphase
    refine ⟨?_, hrest⟩
    have harrived : (r.looked ++ [(i, o)]).filterMap (fun e => r.arrived e.2) =
        r.looked.filterMap (fun e => r.arrived e.2) ++ (r.arrived o).toList := by
      rw [List.filterMap_append]
      cases ho : r.arrived o <;> simp [ho]
    rw [List.map_append, helements, hes, ← harrived]
    rfl

theorem opened_same (h : r.opened = .ok r') : r' = { r with maxKey := r'.maxKey, phase := .resting } := by
  rw [Reader.opened] at h
  split at h
  · rw [← Except.ok.inj h]
  · split at h
    · rw [← Except.ok.inj h]
    · cases hkey : UshardIterator.assignKey _ with
      | error e => rw [hkey] at h; exact absurd h (by intro hno; cases hno)
      | ok maxKey =>
          rw [hkey] at h
          rw [← Except.ok.inj h]

theorem start_opened (helements : r.elements.map Element.cursor = r.looked.filterMap (fun e => r.arrived e.2))
    (hmax : r.maxKey = []) (hlast : r.lastKey = []) : r.start = r.opened.map Reader.iterator := by
  have hempty : r.elements.isEmpty = (r.elements.map Element.cursor).isEmpty := by rw [List.isEmpty_map]
  rw [Reader.opened, Reader.start, hempty]
  cases hbounds : r.bounds with
  | none =>
      have hbegin : (r.looked.map Prod.snd).filterMap (fun ps => ps.bind Cursor.ofParts) =
          r.elements.map Element.cursor := by
        rw [helements, List.filterMap_map]
        refine List.filterMap_congr fun e _ => ?_
        rw [Reader.arrived, hbounds]
        rfl
      simp only [Except.map, Reader.iterator, hmax, hlast, UshardIterator.begin, hbegin]
  | some b =>
      have hrange : ((r.looked.map Prod.snd).filterMap (fun ps => ps.bind Cursor.ofParts)).filter
          (fun c => c.part.key ≤ b.2) = r.elements.map Element.cursor := by
        rw [helements, List.filterMap_map, List.filter_filterMap]
        refine List.filterMap_congr fun e _ => ?_
        rw [Reader.arrived, hbounds]
        rfl
      simp only [UshardIterator.range, hrange]
      split
      · simp only [Except.map, Reader.iterator, hmax, hlast]
        rfl
      · cases UshardIterator.assignKey b.2 with
        | error e => rfl
        | ok maxKey =>
            simp only [ok_bind, Except.map, Reader.iterator, hlast]
            rfl

/-- With all slices opened, the iterator is the one that comes of what they brought. -/
theorem reading_opened (h : Reading slice r) (hphase : r.phase = .opening) (hall : r.waiting = []) :
    ∃ r', r.opened = .ok r' ∧ Reading slice r' ∧ r' = { r with maxKey := r'.maxKey, phase := .resting } := by
  obtain ⟨helements, hmax, hlast, hfound⟩ := h.begun hphase
  obtain ⟨it, hit, -⟩ := h.starts hall
  have hstart := start_opened helements hmax hlast
  cases hopened : r.opened with
  | error e =>
      rw [hit, hopened] at hstart
      exact absurd hstart (by intro hno; cases hno)
  | ok r' =>
      have hsame := opened_same hopened
      have hresting : r'.phase = .resting := by rw [hsame]
      have hmeets : Meets r'.iterator r' := meets_start hresting (by rw [hsame]; exact hfound)
      have hstart' : r'.start = .ok r'.iterator := by
        rw [hopened] at hstart
        rw [show r'.start = r.start by rw [hsame]; rfl]
        exact hstart
      refine ⟨r', rfl, ⟨?_, ?_, ?_, ?_, fun hno => ?_, fun _ => ⟨?_, r'.iterator, hstart', hmeets⟩⟩, hsame⟩
      · rw [hsame]; exact h.distinct
      · rw [hsame]; exact h.looked
      · rw [hsame]; exact h.shows
      · rw [hsame]; exact h.fits
      · rw [hresting] at hno
        exact Phase.noConfusion hno
      · rw [hsame]; exact hall

theorem reading_step (h : Reading slice r) (hphase : r.phase ≠ .opening) :
    ∃ r' gone, r.step = .ok (r', gone) ∧ Reading slice r' ∧ r'.phase ≠ .opening ∧
      ∃ u, Moves r u gone ∧ r' = { u with phase := r'.phase, found := r'.found } := by
  obtain ⟨hall, it, hit, hmeets⟩ := h.goesOn hphase
  obtain ⟨it', hit', hcalls⟩ := h.starts hall
  rw [hit, Except.ok.injEq] at hit'
  subst hit'
  obtain ⟨r', gone, hstep, hmeets', hphase', u, hmoves, hu⟩ := step_meets hmeets hphase fun n => ⟨_, hcalls n⟩
  have hsame : r' = { r with
      elements := r'.elements, lastKey := r'.lastKey, phase := r'.phase, found := r'.found } := by
    rw [hu, hmoves.same]
  refine ⟨r', gone, hstep, ?_, hphase', u, hmoves, hu⟩
  refine ⟨?_, ?_, ?_, ?_, fun hno => absurd hno hphase', fun _ => ⟨?_, it, ?_, hmeets'⟩⟩
  · rw [hsame]; exact h.distinct
  · rw [hsame]; exact h.looked
  · rw [hsame]; exact h.shows
  · rw [hsame]; exact h.fits
  · rw [hsame]; exact hall
  · rw [← hit, hsame]
    rfl

end Tyrdbs.Ushard.Sharing
