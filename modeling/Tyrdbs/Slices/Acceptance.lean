import Tyrdbs.Slices.Progress

namespace Tyrdbs.Slices

open Bytes Outcome SpanTree

/-- Undeleted parts of one key, of which the last one, and no other, ends a record. -/
structure LiveParts (key : Key) (ps : List Part) : Prop where
  key_eq : ∀ p ∈ ps, p.key = key
  live : ∀ p ∈ ps, p.deleted = false
  ends : ∃ opening last, ps = opening ++ [last] ∧ last.eor = true ∧ ∀ p ∈ opening, p.eor = false

/-- The parts of a record: undeleted ones, or one deleted part without a value that ends it. -/
structure RecordParts (key : Key) (ps : List Part) : Prop where
  key_ne : key ≠ []
  key_fits : key.length < maxKeySize
  parts : LiveParts key ps ∨
    ∃ p, ps = [p] ∧ p.key = key ∧ p.deleted = true ∧ p.eor = true ∧ p.value = []

/-- Records one behind the other, their keys strictly increasing. -/
def WellFormed (ps : List Part) : Prop :=
  ∃ rs : List (Key × List Part), ps = rs.flatMap Prod.snd ∧ (∀ r ∈ rs, RecordParts r.1 r.2) ∧
    rs.Pairwise (fun r r' => r.1 < r'.1)

namespace SliceWriter

def writeAll (z : Codec) (rounds : Nat) (ps : List Part) : Except Fault SliceWriter := do
  let w ← ps.foldlM (fun (w : SliceWriter) p => w.add z rounds p) {}
  w.flush z rounds

/-- No add fails in another way than by one of its checks. -/
def AddsReturn (z : Codec) (rounds : Nat) : SliceWriter → List Part → Prop
  | _, [] => True
  | w, p :: ps => p.idx < maxIdx ∧ ∀ newKey, w.check p = .ok newKey →
      ∃ w', w.add z rounds p = .ok w' ∧ AddsReturn z rounds w' ps

/-- What is left behind by an add: a writer, and what the add threw. Where its loop
throws, it is left open what the writer has become. -/
inductive Left
  | writer (w : SliceWriter) (thrown : Option Fault)
  | unknown (thrown : Fault)

def Left.result : Left → Except Fault SliceWriter
  | .writer w none => .ok w
  | .writer _ (some fault) => .error fault
  | .unknown fault => .error fault

/-- The add once more, with what it leaves. Before its checks are over, nothing has
been assigned. -/
def addLeaves (z : Codec) (rounds : Nat) (w : SliceWriter) (p : Part) : Left :=
  if ¬ p.idx < maxIdx then .writer w (some .assertion)
  else match w.check p with
    | .error fault => .writer w (some fault)
    | .ok newKey =>
        let w := if newKey = true ∧ w.firstKey = [] then { w with firstKey := p.key } else w
        match addLoop z p newKey rounds w p.value with
        | .error fault => .unknown fault
        | .ok w' => .writer { w' with lastKey := p.key, lastEor := p.eor, keyCount := w'.keyCount + 1 } none

end SliceWriter

def Fault.Late (fault : Fault) : Prop := ∀ what, fault ≠ .invalidData what

section Grammar

variable {last last' last'' : Key × Bool} {key : Key} {ps qs : List Part} {p : Part}

theorem Accepted.append (h : Accepted last ps last') (h' : Accepted last' qs last'') :
    Accepted last (ps ++ qs) last'' := by
  induction h with
  | nil last => exact h'
  | cons hp _ ih => exact .cons hp (ih h')

theorem Accepted.unique (h : Accepted last ps last') (h' : Accepted last ps last'') : last' = last'' := by
  induction h with
  | nil last =>
      cases h'
      rfl
  | cons _ _ ih =>
      cases h' with
      | cons _ hrest => exact ih hrest

theorem accepts_first (hne : p.key ≠ []) (hfits : p.key.length < maxKeySize) (hlast : last.2 = true)
    (hbelow : last.1 < p.key) (hmark : p.deleted = false ∨ p.eor = true ∧ p.value = []) : Accepts last p :=
  ⟨hne, hfits, .inr (lt_asymm hbelow), .inr (.inl hbelow.ne'), .inr (.inr hlast), hmark⟩

theorem accepts_further (hne : p.key ≠ []) (hfits : p.key.length < maxKeySize) (hlast : last.2 = false)
    (hkey : p.key = last.1) (hlive : p.deleted = false) : Accepts last p := by
  have hirrefl : ¬ last.1 < p.key := by
    rw [hkey]
    exact lt_irrefl _
  have hsorted : ¬ p.key < last.1 := by
    rw [hkey]
    exact lt_irrefl _
  exact ⟨hne, hfits, .inr hsorted, .inr (.inr ⟨hlast, hlive⟩), .inr (.inl hirrefl), .inl hlive⟩

theorem LiveParts.one (hkey : p.key = key) (hlive : p.deleted = false) (hend : p.eor = true) : LiveParts key [p] :=
  ⟨by simpa using hkey, by simpa using hlive, [], p, rfl, hend, by simp⟩

theorem LiveParts.cons (h : LiveParts key ps) (hkey : p.key = key) (hlive : p.deleted = false)
    (hopen : p.eor = false) : LiveParts key (p :: ps) := by
  obtain ⟨opening, last, rfl, hend, hall⟩ := h.ends
  exact ⟨List.forall_mem_cons.mpr ⟨hkey, h.key_eq⟩, List.forall_mem_cons.mpr ⟨hlive, h.live⟩, p :: opening, last,
    rfl, hend, List.forall_mem_cons.mpr ⟨hopen, hall⟩⟩

/-- Its parts from the first one on: it ends the record, or the rest does. -/
theorem LiveParts.cases (h : LiveParts key (p :: ps)) : p.key = key ∧ p.deleted = false ∧
    (p.eor = true ∧ ps = [] ∨ p.eor = false ∧ LiveParts key ps) := by
  have hkeys := List.forall_mem_cons.mp h.key_eq
  have hlives := List.forall_mem_cons.mp h.live
  refine ⟨hkeys.1, hlives.1, ?_⟩
  obtain ⟨opening, last, heq, hend, hall⟩ := h.ends
  cases opening with
  | nil =>
      obtain ⟨rfl, rfl⟩ := List.cons.inj heq
      exact .inl ⟨hend, rfl⟩
  | cons q opening =>
      obtain ⟨rfl, rfl⟩ := List.cons.inj heq
      have hopens := List.forall_mem_cons.mp hall
      exact .inr ⟨hopens.1, hkeys.2, hlives.2, opening, last, rfl, hend, hopens.2⟩

theorem LiveParts.ne_nil (h : LiveParts key ps) : ps ≠ [] := by
  obtain ⟨opening, last, rfl, -⟩ := h.ends
  simp

theorem LiveParts.accepted (h : LiveParts key ps) (hne : key ≠ []) (hfits : key.length < maxKeySize) :
    Accepted (key, false) ps (key, true) := by
  induction ps with
  | nil => exact absurd rfl h.ne_nil
  | cons p ps ih =>
      obtain ⟨rfl, hlive, ⟨hend, rfl⟩ | ⟨hopen, hrest⟩⟩ := h.cases
      · have hp : Accepts (p.key, false) p := accepts_further hne hfits rfl rfl hlive
        have hone := Accepted.cons hp (.nil (p.key, p.eor))
        rwa [hend] at hone
      · have hp : Accepts (p.key, false) p := accepts_further hne hfits rfl rfl hlive
        refine .cons hp ?_
        rw [hopen]
        exact ih hrest

theorem RecordParts.accepted (h : RecordParts key ps) (hlast : last.2 = true) (hbelow : last.1 < key) :
    Accepted last ps (key, true) := by
  rcases h.parts with hlive | ⟨p, rfl, rfl, hdel, hend, hvalue⟩
  · cases ps with
    | nil => exact absurd rfl hlive.ne_nil
    | cons p ps =>
        obtain ⟨rfl, hdel, hrest⟩ := hlive.cases
        refine .cons (accepts_first h.key_ne h.key_fits hlast hbelow (.inl hdel)) ?_
        rcases hrest with ⟨hend, rfl⟩ | ⟨hopen, hrest⟩
        · rw [hend]
          exact .nil _
        · rw [hopen]
          exact hrest.accepted h.key_ne h.key_fits
  · have hone := Accepted.cons (accepts_first h.key_ne h.key_fits hlast hbelow (.inr ⟨hend, hvalue⟩))
      (.nil (p.key, p.eor))
    rwa [hend] at hone

/-- Records one behind the other, all of them above a key. -/
def RecordsAbove (below : Key) (ps : List Part) : Prop :=
  ∃ rs : List (Key × List Part), ps = rs.flatMap Prod.snd ∧ (∀ r ∈ rs, RecordParts r.1 r.2) ∧
    rs.Pairwise (fun r r' => r.1 < r'.1) ∧ ∀ r ∈ rs, below < r.1

theorem recordsAbove_nil (below : Key) : RecordsAbove below [] := ⟨[], rfl, by simp, .nil, by simp⟩

theorem RecordsAbove.cons (h : RecordsAbove key qs) (hparts : RecordParts key ps) {below : Key} (hbelow : below < key) :
    RecordsAbove below (ps ++ qs) := by
  obtain ⟨rs, rfl, hrecords, hsorted, habove⟩ := h
  refine ⟨(key, ps) :: rs, rfl, List.forall_mem_cons.mpr ⟨hparts, hrecords⟩, .cons habove hsorted, ?_⟩
  exact List.forall_mem_cons.mpr ⟨hbelow, fun r hr => hbelow.trans (habove r hr)⟩

theorem nil_lt_key (h : key ≠ []) : [] < key := by
  obtain ⟨b, rest, rfl⟩ := List.exists_cons_of_ne_nil h
  exact List.nil_lt_cons b rest

theorem wellFormed_iff_recordsAbove : WellFormed ps ↔ RecordsAbove [] ps := by
  refine ⟨fun ⟨rs, heq, hrecords, hsorted⟩ => ⟨rs, heq, hrecords, hsorted, fun r hr => ?_⟩,
    fun ⟨rs, heq, hrecords, hsorted, _⟩ => ⟨rs, heq, hrecords, hsorted⟩⟩
  exact nil_lt_key (hrecords r hr).key_ne

/-- The induction is on the parts: behind the end of a record the rest is records,
inside a record its first parts are the record's. -/
theorem Accepted.recordsAbove (h : Accepted last ps last') (hend : last'.2 = true) :
    (last.2 = true → RecordsAbove last.1 ps) ∧
      (last.2 = false → last.1 ≠ [] → ∃ rest qs, ps = rest ++ qs ∧ LiveParts last.1 rest ∧ RecordsAbove last.1 qs) := by
  induction h with
  | nil last =>
      refine ⟨fun _ => recordsAbove_nil _, fun hopen => ?_⟩
      rw [hend] at hopen
      exact absurd hopen (by decide)
  | @cons last last' p ps hp _ ih =>
      obtain ⟨hclosed, hopen⟩ := ih hend
      constructor
      · intro hlast
        have hbelow : last.1 < p.key := by
          by_cases hnone : last.1 = []
          · rw [hnone]
            exact nil_lt_key hp.key_ne
          · exact hp.below hlast hnone
        cases heor : p.eor with
        | true =>
            change RecordsAbove last.1 ([p] ++ ps)
            refine (hclosed heor).cons ⟨hp.key_ne, hp.key_fits, ?_⟩ hbelow
            cases hdel : p.deleted with
            | false => exact .inl (.one rfl hdel heor)
            | true =>
                have hmark := hp.tombstone.resolve_left (by rw [hdel]; decide)
                exact .inr ⟨p, rfl, rfl, hdel, heor, hmark.2⟩
        | false =>
            obtain ⟨rest, qs, rfl, hlive, hrest⟩ := hopen heor hp.key_ne
            change RecordsAbove last.1 ((p :: rest) ++ qs)
            exact hrest.cons ⟨hp.key_ne, hp.key_fits, .inl (hlive.cons rfl (hp.not_deleted heor) heor)⟩ hbelow
      · intro hlast hne
        obtain ⟨hkey, hdel⟩ := hp.key_eq hlast hne
        cases heor : p.eor with
        | true =>
            have hclosed := hclosed heor
            rw [hkey] at hclosed
            exact ⟨[p], ps, rfl, .one hkey hdel heor, hclosed⟩
        | false =>
            obtain ⟨rest, qs, rfl, hlive, hrest⟩ := hopen heor hp.key_ne
            rw [hkey] at hlive hrest
            exact ⟨p :: rest, qs, rfl, hlive.cons hkey hdel heor, hrest⟩

theorem RecordsAbove.accepted {below : Key} (h : RecordsAbove below ps) : ∃ key, Accepted (below, true) ps (key, true) := by
  obtain ⟨rs, rfl, hrecords, hsorted, habove⟩ := h
  induction rs generalizing below with
  | nil => exact ⟨below, .nil _⟩
  | cons r rs ih =>
      obtain ⟨hr, hrs⟩ := List.forall_mem_cons.mp hrecords
      obtain ⟨hsmaller, hsorted⟩ := List.pairwise_cons.mp hsorted
      obtain ⟨key, hrest⟩ := ih hrs hsorted hsmaller
      exact ⟨key, (hr.accepted rfl (habove r (List.mem_cons_self ..))).append hrest⟩

theorem wellFormed_iff_accepted : WellFormed ps ↔ ∃ key, Accepted ([], true) ps (key, true) := by
  rw [wellFormed_iff_recordsAbove]
  exact ⟨fun h => h.accepted, fun ⟨key, h⟩ => (h.recordsAbove rfl).1 rfl⟩

end Grammar

section Late

variable {z : Codec}

theorem Fault.Plain.late {fault : Fault} (h : fault.Plain) : fault.Late := by
  rintro what rfl
  exact h

theorem late_of_plain {α : Type} {P : α → Prop} {x : Except Fault α} (h : Yields Fault.Plain P x) :
    Yields Fault.Late P x :=
  h.weaken (fun _ h => h.late)

theorem unfinished_late : Fault.unfinished.Late := fun _ h => Fault.noConfusion h

theorem indexAdd_late (rounds : Nat) (s : Sink) (levels : List IndexLevel) (minKey maxKey : Key) (location : Nat) :
    Yields Fault.Late (fun _ => True) (indexAdd z rounds s levels minKey maxKey location) := by
  induction rounds generalizing s levels minKey maxKey location with
  | zero => exact unfinished_late
  | succ rounds ih =>
      have hnode : ∀ w : NodeWriter, Yields Fault.Late (fun _ => True) (w.add minKey maxKey true false location true) :=
        fun w => late_of_plain (node_add_plain w ..)
      rw [indexAdd]
      refine (hnode _).bind ?_
      rintro ⟨node, res⟩ -
      cases res with
      | some size => exact (late_of_plain (require_plain _ (by trivial))).bind (fun _ _ => trivial)
      | none =>
          refine (late_of_plain (store_plain z s node false)).bind ?_
          rintro ⟨s₁, node₁, stored⟩ -
          refine (hnode _).bind (fun _ _ => ?_)
          exact (ih ..).bind (fun _ _ => trivial)

theorem nextLeaf_late (rounds : Nat) (w : SliceWriter) (key : Key) (newKey : Bool) :
    Yields Fault.Late (fun _ => True) (w.nextLeaf z rounds key newKey) := by
  rw [SliceWriter.nextLeaf]
  refine (late_of_plain (store_plain z w.sink w.node true)).bind ?_
  rintro ⟨sink, node, location⟩ -
  dsimp only
  split
  · trivial
  · refine Yields.bind (P := fun _ => True) ?_ (fun _ _ => trivial)
    rw [SliceWriter.handToIndex]
    exact (indexAdd_late ..).bind (fun _ _ => trivial)

theorem addLoop_late (p : Part) (newKey : Bool) (rounds : Nat) (w : SliceWriter) (value : List Byte) :
    Yields Fault.Late (fun _ => True) (SliceWriter.addLoop z p newKey rounds w value) := by
  induction rounds generalizing w value with
  | zero => exact unfinished_late
  | succ rounds ih =>
      rw [SliceWriter.addLoop]
      refine (late_of_plain (node_add_plain w.node ..)).bind ?_
      rintro ⟨node, res⟩ -
      dsimp only
      split
      · trivial
      · exact (nextLeaf_late ..).bind (fun w' _ => ih w' _)

theorem indexFlush_late (rounds : Nat) (s : Sink) (levels : List IndexLevel) :
    Yields Fault.Late (fun _ => True) (indexFlush z rounds s levels) := by
  induction rounds generalizing s levels with
  | zero => exact unfinished_late
  | succ rounds ih =>
      rw [indexFlush]
      refine (late_of_plain (store_plain z s _ false)).bind ?_
      rintro ⟨s₁, node, location⟩ -
      dsimp only
      split
      · trivial
      · exact (indexAdd_late ..).bind (fun r _ => ih r.1 r.2)

theorem endChains_late (s : Sink) (lastDataNode : Nat) :
    Yields Fault.Late (fun _ => True) (s.endChains lastDataNode) := by
  have hlinks : ∀ i nodes, Yields Fault.Late (fun _ => True) (setNextAt invalidSize i nodes) :=
    fun i nodes => late_of_plain (setNextAt_plain invalidSize i nodes)
  rw [Sink.endChains]
  refine (hlinks _ _).bind (fun _ _ => (hlinks _ _).bind (fun _ _ => ?_))
  exact late_of_plain (write_plain _ _)

/-- A flush asks for the end of the last record first; whatever it throws later is
no complaint about the data. -/
theorem flush_invalid_iff (w : SliceWriter) (rounds : Nat) :
    (∃ what, w.flush z rounds = .error (.invalidData what)) ↔ w.lastEor = false := by
  cases heor : w.lastEor with
  | false =>
      refine ⟨fun _ => rfl, fun _ => ⟨"data not complete", ?_⟩⟩
      rw [SliceWriter.flush, heor]
      rfl
  | true =>
      have hlate : Yields Fault.Late (fun _ => True) (w.flush z rounds) := by
        rw [SliceWriter.flush, require_of heor, ok_bind]
        refine (late_of_plain (store_plain z w.sink w.node true)).bind ?_
        rintro ⟨sink, node, location⟩ -
        refine (late_of_plain (write_plain _ _)).bind (fun sink₁ _ => ?_)
        dsimp only
        refine Yields.bind (P := fun _ => True) ?_ (fun w₁ _ => ?_)
        · split
          · trivial
          · rw [SliceWriter.handToIndex]
            exact (indexAdd_late ..).bind (fun _ _ => trivial)
        · refine (indexFlush_late ..).bind (fun r _ => ?_)
          refine (endChains_late ..).bind (fun sink₂ _ => ?_)
          exact (late_of_plain (write_plain _ _)).bind (fun _ _ => trivial)
      refine ⟨?_, fun h => absurd h (by decide)⟩
      rintro ⟨what, h⟩
      rw [h] at hlate
      exact absurd rfl (hlate what)

end Late

section Main

variable {z : Codec} {rounds : Nat} {w : SliceWriter} {p : Part} {ps : List Part}

theorem check_cases (w : SliceWriter) (p : Part) :
    (∃ newKey, w.check p = .ok newKey ∧ Accepts (w.lastKey, w.lastEor) p) ∨
      (∃ what, w.check p = .error (.invalidData what)) ∧ ¬ Accepts (w.lastKey, w.lastEor) p := by
  have hthrows : Yields (fun fault => (∃ what, fault = .invalidData what) ∧ ¬ Accepts (w.lastKey, w.lastEor) p)
      (fun _ => True) (w.check p) := by
    have hrequire : ∀ (P : Prop) [Decidable P] (what : String), (Accepts (w.lastKey, w.lastEor) p → P) →
        Yields (fun fault => (∃ what, fault = .invalidData what) ∧ ¬ Accepts (w.lastKey, w.lastEor) p)
          (fun _ => True) (require P (.invalidData what)) := by
      intro P _ what h
      by_cases hP : P
      · rw [require_of hP]
        trivial
      · rw [require, if_neg hP]
        exact ⟨⟨what, rfl⟩, fun ha => hP (h ha)⟩
    rw [SliceWriter.check]
    refine (hrequire _ _ (fun h => ?_)).bind (fun _ _ => ?_)
    · exact fun hzero => h.key_ne (List.eq_nil_of_length_eq_zero hzero)
    refine (hrequire _ _ (fun h => h.key_fits)).bind (fun _ _ => ?_)
    refine (hrequire _ _ (fun h => h.sorted)).bind (fun _ _ => ?_)
    refine (hrequire _ _ (fun h => h.duplicate)).bind (fun _ _ => ?_)
    refine (hrequire _ _ (fun h => h.complete)).bind (fun _ _ => ?_)
    exact (hrequire _ _ (fun h => h.tombstone)).bind (fun _ _ => trivial)
  cases hcheck : w.check p with
  | ok newKey => exact .inl ⟨newKey, rfl, ((check_yields w p).of_ok hcheck).2⟩
  | error fault =>
      rw [hcheck] at hthrows
      obtain ⟨⟨what, rfl⟩, hnot⟩ := hthrows
      exact .inr ⟨⟨what, rfl⟩, hnot⟩

theorem lastKey_of_add {w' : SliceWriter} (h : w.add z rounds p = .ok w') :
    (w'.lastKey, w'.lastEor) = (p.key, p.eor) := by
  have hadd : Yields (fun _ => True) (fun w' : SliceWriter => (w'.lastKey, w'.lastEor) = (p.key, p.eor))
      (w.add z rounds p) := by
    rw [SliceWriter.add]
    refine (yields_true _).bind (fun _ _ => (yields_true _).bind (fun _ _ => ?_))
    exact (yields_true _).bind (fun _ _ => rfl)
  exact hadd.of_ok h

theorem adds_cases (h : SliceWriter.AddsReturn z rounds w ps) :
    (∃ w', ps.foldlM (fun (w : SliceWriter) p => w.add z rounds p) w = .ok w' ∧
      Accepted (w.lastKey, w.lastEor) ps (w'.lastKey, w'.lastEor)) ∨
    (∃ what, ps.foldlM (fun (w : SliceWriter) p => w.add z rounds p) w = .error (.invalidData what)) ∧
      ∀ last, ¬ Accepted (w.lastKey, w.lastEor) ps last := by
  induction ps generalizing w with
  | nil => exact .inl ⟨w, rfl, .nil _⟩
  | cons p ps ih =>
      obtain ⟨hidx, hreturns⟩ := h
      simp only [List.foldlM_cons]
      rcases check_cases w p with ⟨newKey, hcheck, haccepts⟩ | ⟨⟨what, hcheck⟩, hnot⟩
      · obtain ⟨w₁, hadd, hrest⟩ := hreturns newKey hcheck
        have hlast := lastKey_of_add hadd
        rw [hadd, ok_bind]
        rcases ih hrest with ⟨w', hfold, haccepted⟩ | ⟨hthrows, hnone⟩
        · rw [hlast] at haccepted
          exact .inl ⟨w', hfold, .cons haccepts haccepted⟩
        · rw [hlast] at hnone
          refine .inr ⟨hthrows, fun last haccepted => ?_⟩
          cases haccepted with
          | cons _ haccepted => exact hnone last haccepted
      · refine .inr ⟨⟨what, ?_⟩, fun last haccepted => ?_⟩
        · rw [SliceWriter.add, require_of hidx, ok_bind, hcheck]
          rfl
        · cases haccepted with
          | cons haccepts _ => exact hnot haccepts

theorem writeAll_invalid_iff (h : SliceWriter.AddsReturn z rounds {} ps) :
    (¬ ∃ what, SliceWriter.writeAll z rounds ps = .error (.invalidData what)) ↔ WellFormed ps := by
  rw [wellFormed_iff_accepted]
  rcases adds_cases h with ⟨w, hfold, haccepted⟩ | ⟨⟨what, hfold⟩, hnone⟩
  · have haccepted : Accepted ([], true) ps (w.lastKey, w.lastEor) := haccepted
    have hwrite : SliceWriter.writeAll z rounds ps = w.flush z rounds := by
      rw [SliceWriter.writeAll, hfold, ok_bind]
    rw [hwrite, flush_invalid_iff, Bool.not_eq_false]
    constructor
    · intro heor
      rw [heor] at haccepted
      exact ⟨w.lastKey, haccepted⟩
    · rintro ⟨key, hkey⟩
      exact congrArg Prod.snd (haccepted.unique hkey)
  · have hwrite : SliceWriter.writeAll z rounds ps = .error (.invalidData what) := by
      rw [SliceWriter.writeAll, hfold]
      rfl
    refine ⟨fun hno => absurd ⟨what, hwrite⟩ hno, fun ⟨key, hkey⟩ => absurd hkey (hnone _)⟩

theorem addLeaves_result (z : Codec) (rounds : Nat) (w : SliceWriter) (p : Part) :
    (w.addLeaves z rounds p).result = w.add z rounds p := by
  by_cases hidx : p.idx < maxIdx
  · rw [SliceWriter.addLeaves, if_neg (not_not.mpr hidx)]
    cases hcheck : w.check p with
    | error fault =>
        rw [SliceWriter.add, require_of hidx, ok_bind, hcheck]
        rfl
    | ok newKey =>
        rw [SliceWriter.add_eq hidx hcheck]
        dsimp only
        split <;> next hloop => rw [hloop]; rfl
  · rw [SliceWriter.addLeaves, if_pos hidx, SliceWriter.add, require, if_neg hidx]
    rfl

theorem addLeaves_of_invalid {what : String} (h : w.add z rounds p = .error (.invalidData what)) :
    w.addLeaves z rounds p = .writer w (some (.invalidData what)) := by
  have hresult := addLeaves_result z rounds w p
  rw [h] at hresult
  rw [SliceWriter.addLeaves] at hresult ⊢
  split at hresult
  · exact Fault.noConfusion (Except.error.inj hresult)
  next hidx =>
    rw [if_neg hidx]
    cases hcheck : w.check p with
    | error fault =>
        rw [hcheck] at hresult
        exact congrArg (fun fault => SliceWriter.Left.writer w (some fault)) (Except.error.inj hresult)
    | ok newKey =>
        rw [hcheck] at hresult
        have hlate := addLoop_late (z := z) p newKey rounds
          (if newKey = true ∧ w.firstKey = [] then { w with firstKey := p.key } else w) p.value
        dsimp only at hresult
        split at hresult
        next hloop =>
          rw [hloop, Except.error.inj hresult] at hlate
          exact absurd rfl (hlate what)
        · exact absurd hresult (by simp [SliceWriter.Left.result])

/-- The streams that adds and a flush accept, and what an add leaves that does not. -/
theorem accepts_iff (h : SliceWriter.AddsReturn z rounds {} ps) :
    ((¬ ∃ what, SliceWriter.writeAll z rounds ps = .error (.invalidData what)) ↔ WellFormed ps) ∧
      ∀ w p what, SliceWriter.add z rounds w p = .error (.invalidData what) →
        w.addLeaves z rounds p = .writer w (some (.invalidData what)) :=
  ⟨writeAll_invalid_iff h, fun _ _ _ => addLeaves_of_invalid⟩

def partRoom (p : Part) : Nat := entrySize + p.key.length + attributesSize + 16 + p.value.length

theorem add_room {w : NodeWriter} (hne : p.key ≠ []) (hfits : p.key.length < maxKeySize)
    (hle : w.opened.dataOffset ≤ nodeSize) (hroom : w.opened.entryOffset + partRoom p ≤ w.opened.dataOffset) :
    ∃ b, w.add p.key p.value p.eor p.deleted p.idx false = .ok ({ node := some b }, some p.value.length) ∧
      b.dataOffset ≤ w.opened.dataOffset ∧ b.entryOffset + w.opened.dataOffset ≤
        w.opened.entryOffset + partRoom p + b.dataOffset := by
  rw [partRoom] at hroom ⊢
  have hshift := Nat.shiftRight_le p.value.length 3
  have hspace : w.opened.hasEnoughSpace p.key p.value false = true := by
    simp only [OpenNode.hasEnoughSpace, Bool.false_eq_true, if_false, decide_eq_true_eq]
    have hmod := Nat.mod_le (entrySize + p.key.length + attributesSize + max 16 (p.value.length >>> 3)) (2 ^ 16)
    omega
  obtain ⟨b, hadd, hentry, hdata⟩ := @NodeWriter.add_whole p.key p.value p.eor p.deleted false p.idx w hne hfits hspace
    hle (by omega)
  exact ⟨b, hadd, by omega, by omega⟩

/-- Parts that the open leaf has room for are added whole, but for those that the checks
refuse. -/
theorem addsReturn_of_room (z : Codec) (hidx : ∀ p ∈ ps, p.idx < maxIdx) (hle : w.node.opened.dataOffset ≤ nodeSize)
    (hroom : w.node.opened.entryOffset + (ps.map partRoom).sum ≤ w.node.opened.dataOffset) :
    SliceWriter.AddsReturn z 1 w ps := by
  induction ps generalizing w with
  | nil => trivial
  | cons p ps ih =>
      obtain ⟨hp, hps⟩ := List.forall_mem_cons.mp hidx
      rw [List.map_cons, List.sum_cons] at hroom
      refine ⟨hp, fun newKey hcheck => ?_⟩
      obtain ⟨-, haccepts⟩ := (check_yields w p).of_ok hcheck
      obtain ⟨b, hadd, hless, hspent⟩ := add_room haccepts.key_ne haccepts.key_fits hle (by omega)
      have hsame : (if newKey = true ∧ w.firstKey = [] then { w with firstKey := p.key } else w).node = w.node := by
        split <;> rfl
      rw [← hsame] at hadd
      refine ⟨_, SliceWriter.add_of hp hcheck (SliceWriter.addLoop_whole hadd), ih hps (hless.trans hle) ?_⟩
      change b.entryOffset + _ ≤ b.dataOffset
      omega

/-- A record in two parts, a tombstone, and a record of one part. -/
def threeRecords : List Part :=
  [⟨[97], [1, 2], false, false, 1⟩, ⟨[97], [3], true, false, 1⟩, ⟨[98], [], true, true, 1⟩, ⟨[99], [], true, false, 2⟩]

theorem wellFormed_threeRecords : WellFormed threeRecords := by
  rw [wellFormed_iff_accepted]
  refine ⟨[99], .cons ⟨?_, ?_, ?_, ?_, ?_, ?_⟩ (.cons ⟨?_, ?_, ?_, ?_, ?_, ?_⟩ (.cons ⟨?_, ?_, ?_, ?_, ?_, ?_⟩
    (.cons ⟨?_, ?_, ?_, ?_, ?_, ?_⟩ (.nil _))))⟩ <;> decide

/-- The first part of a record, and then a tombstone for its key. -/
def brokenOff : List Part := [⟨[97], [1, 2], false, false, 1⟩, ⟨[97], [], true, true, 1⟩]

theorem not_wellFormed_brokenOff : ¬ WellFormed brokenOff := by
  rw [wellFormed_iff_accepted]
  rintro ⟨key, _ | ⟨-, _ | ⟨haccepts, -⟩⟩⟩
  exact absurd haccepts.duplicate (by decide)

theorem accepts_iff_records : (∀ z, SliceWriter.AddsReturn z 1 {} threeRecords ∧ SliceWriter.AddsReturn z 1 {} brokenOff) ∧
    ∀ z, (¬ ∃ what, SliceWriter.writeAll z 1 threeRecords = .error (.invalidData what)) ∧
      ∃ what, SliceWriter.writeAll z 1 brokenOff = .error (.invalidData what) := by
  have hthree : ∀ z, SliceWriter.AddsReturn z 1 {} threeRecords :=
    fun z => addsReturn_of_room z (by decide) (by decide) (by decide)
  have hbroken : ∀ z, SliceWriter.AddsReturn z 1 {} brokenOff :=
    fun z => addsReturn_of_room z (by decide) (by decide) (by decide)
  refine ⟨fun z => ⟨hthree z, hbroken z⟩, fun z => ⟨(accepts_iff (hthree z)).1.mpr wellFormed_threeRecords, ?_⟩⟩
  exact not_not.mp (mt (accepts_iff (hbroken z)).1.mp not_wellFormed_brokenOff)

end Main

end Tyrdbs.Slices
