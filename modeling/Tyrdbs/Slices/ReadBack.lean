import Tyrdbs.Slices.Addresses

namespace Tyrdbs.Slices

open Bytes Outcome Runs

/-- The same nodes, perhaps with other links. -/
def Relinks (nodes nodes' : List (Nat × Node)) : Prop := List.Forall₂ Relinked nodes nodes'

theorem Relinks.refl (nodes : List (Nat × Node)) : Relinks nodes nodes := by
  induction nodes with
  | nil => exact .nil
  | cons p nodes ih => exact .cons ⟨p.2.next, rfl⟩ ih

theorem Relinked.trans {p q r : Nat × Node} (h : Relinked p q) (h' : Relinked q r) : Relinked p r := by
  obtain ⟨next, rfl⟩ := h
  obtain ⟨next', rfl⟩ := h'
  exact ⟨next', rfl⟩

theorem Relinks.trans {a b c : List (Nat × Node)} (h : Relinks a b) (h' : Relinks b c) : Relinks a c := by
  induction h generalizing c with
  | nil =>
      cases h'
      exact .nil
  | cons hpq _ ih =>
      cases h' with
      | cons hqr h' => exact .cons (hpq.trans hqr) (ih h')

theorem setNextAt_relinks (next i : Nat) (nodes : List (Nat × Node)) :
    Yields (fun _ => True) (Relinks nodes) (setNextAt next i nodes) := by
  induction nodes generalizing i with
  | nil => cases i <;> exact Relinks.refl []
  | cons p nodes ih =>
      cases i with
      | zero =>
          simp only [setNextAt, Node.setNext]
          split
          · trivial
          · exact List.Forall₂.cons ⟨next, rfl⟩ (Relinks.refl nodes)
      | succ i =>
          simp only [setNextAt]
          cases h : setNextAt next i nodes with
          | error e => trivial
          | ok nodes' => exact List.Forall₂.cons ⟨p.2.next, rfl⟩ ((ih i).of_ok h)

theorem Stores.relinks {z : Codec} {s s' : Sink} {w : NodeWriter} {isLeaf : Bool} {location : Nat}
    (h : Stores z s w isLeaf s' location) :
    ∃ front, Relinks s.nodes front ∧ s'.nodes = front ++ [(location, storedNode w)] := by
  rcases List.eq_nil_or_concat' s.nodes with hnil | ⟨a, p, hsnoc⟩
  · exact ⟨[], hnil ▸ Relinks.refl [], h.nodes_nil hnil⟩
  · refine ⟨a ++ [(p.1, { p.2 with next := location })], ?_, ?_⟩
    · rw [hsnoc]
      exact List.rel_append (Relinks.refl a) (.cons ⟨location, rfl⟩ .nil)
    · rw [h.nodes_snoc a p hsnoc, List.append_assoc]
      rfl

/-- A node of a file, with the byte at which it was written; its location has
32 bits for that. -/
structure Recorded (z : Codec) (file : List Byte) (p : Nat × Node) (start : Nat) : Prop where
  location_eq : ∃ isLeaf, p.1 = (start % 2 ^ 32) <<< 16 ||| sizeField (packed z p.2).length isLeaf
  size_lt : (packed z p.2).length < maxSize
  keyCount_eq : p.2.data.u16At 0 = p.2.keyCount
  bytes_eq : slice file start (image z p.2).length = image z p.2
  end_le : start + (image z p.2).length ≤ file.length

section Recorded

variable {z : Codec} {file : List Byte} {p p' : Nat × Node} {start : Nat}

theorem Recorded.append (h : Recorded z file p start) (more : List Byte) : Recorded z (file ++ more) p start := by
  refine ⟨h.location_eq, h.size_lt, h.keyCount_eq, ?_, ?_⟩
  · rw [slice_append_left h.end_le]
    exact h.bytes_eq
  · rw [List.length_append]
    exact Nat.le_add_right_of_le h.end_le

theorem Recorded.relinked (h : Recorded z file p start) (hp : Relinked p p') : Recorded z file p' start := by
  obtain ⟨next, rfl⟩ := hp
  exact ⟨h.location_eq, h.size_lt, h.keyCount_eq, h.bytes_eq, h.end_le⟩

def AllRecorded (z : Codec) (s : Sink) : Prop := List.Forall₂ (Recorded z s.file) s.nodes s.begins

theorem recorded_relinks {nodes nodes' : List (Nat × Node)} {begins : List Nat}
    (h : List.Forall₂ (Recorded z file) nodes begins) (hr : Relinks nodes nodes') :
    List.Forall₂ (Recorded z file) nodes' begins := by
  induction hr generalizing begins with
  | nil => exact h
  | cons hp _ ih =>
      cases h with
      | cons hrecorded h => exact .cons (hrecorded.relinked hp) (ih h)

theorem AllRecorded.append {s : Sink} (h : AllRecorded z s) (more : List Byte) :
    AllRecorded z { s with file := s.file ++ more } :=
  List.Forall₂.imp (fun _ _ hr => hr.append more) h

theorem AllRecorded.store {s s' : Sink} {w : NodeWriter} {isLeaf : Bool} {location : Nat} (h : AllRecorded z s)
    (hst : Stores z s w isLeaf s' location) : AllRecorded z s' := by
  obtain ⟨front, hfront, hnodes⟩ := hst.relinks
  have hold : List.Forall₂ (Recorded z s'.file) front s.begins := by
    rw [hst.file_eq, List.append_assoc]
    exact recorded_relinks (h.append _) hfront
  have hnew : Recorded z s'.file (location, storedNode w) (s.file ++ sizePart z s w isLeaf).length := by
    refine ⟨⟨isLeaf, hst.location_eq⟩, hst.size_lt, flush_keyCount w, ?_, ?_⟩
    · rw [hst.file_eq, slice_append_right le_rfl, Nat.sub_self]
      exact slice_zero_length _
    · rw [hst.file_eq]
      exact (List.length_append ..).ge
  rw [AllRecorded, hnodes, hst.begins_eq]
  exact List.rel_append hold (.cons hnew .nil)

end Recorded

theorem write_room (s : Sink) (bytes : List Byte) :
    Yields (fun _ => True) (fun s' => s'.file.length < Storage.maxFileSize) (s.write bytes) := by
  rw [Sink.write]
  refine (require_yields _ _).bind (fun _ hroom => ?_)
  rw [← List.length_append] at hroom
  exact hroom

theorem length_padding_lt (file : List Byte) : (Storage.padding file).length < Storage.pageSize := by
  have hpage : Storage.pageSize = 4096 := rfl
  rw [Storage.padding, List.length_replicate, hpage]
  omega

section Keeps

variable {z : Codec} {P : Sink → Prop}
  (hP : ∀ s s' w isLeaf location, P s → Stores z s w isLeaf s' location → P s')

include hP

theorem nextLeaf_keeps (rounds : Nat) {w : SliceWriter} (h : P w.sink) (key : Key) (newKey : Bool) :
    Yields (fun _ => True) (fun w' => P w'.sink) (w.nextLeaf z rounds key newKey) := by
  rw [SliceWriter.nextLeaf]
  refine (store_yields z w.sink w.node true).bind ?_
  rintro ⟨sink, node, location⟩ ⟨hst, -⟩
  have hsink := hP _ _ _ _ _ h hst
  by_cases hkey : w.firstKey = []
  · simp only [if_pos hkey]
    exact hsink
  · simp only [if_neg hkey, SliceWriter.handToIndex]
    refine Yields.bind (P := fun w' => P w'.sink) ?_ (fun w' hw' => ?_)
    · refine (indexAdd_keeps (fun s s' w l => hP s s' w false l) rounds hsink _ _ _ _).bind ?_
      rintro ⟨sink', index⟩ hsink'
      exact hsink'
    · exact hw'

theorem addLoop_keeps (p : Part) (newKey : Bool) (rounds : Nat) {w : SliceWriter} (h : P w.sink)
    (value : List Byte) :
    Yields (fun _ => True) (fun w' => P w'.sink) (SliceWriter.addLoop z p newKey rounds w value) := by
  induction rounds generalizing w value with
  | zero => trivial
  | succ rounds ih =>
      rw [SliceWriter.addLoop]
      refine (yields_true _).bind ?_
      rintro ⟨node, res⟩ -
      by_cases hdone : res.isSome ∧ value.drop (res.getD 0) = []
      · simp only [if_pos hdone]
        exact h
      · simp only [if_neg hdone]
        exact (nextLeaf_keeps hP rounds (w := { w with node := node }) h _ _).bind (fun w' hw' => ih hw' _)

theorem add_keeps (rounds : Nat) {w : SliceWriter} (h : P w.sink) (p : Part) :
    Yields (fun _ => True) (fun w' => P w'.sink) (w.add z rounds p) := by
  rw [SliceWriter.add]
  refine (require_yields _ _).bind (fun _ _ => ?_)
  refine (yields_true _).bind (fun newKey _ => ?_)
  refine (addLoop_keeps hP p newKey rounds ?_ p.value).bind (fun w' hw' => hw')
  split
  · exact h
  · exact h

theorem run_keeps (hempty : P {}) {ts : List (SliceWriter × Part × SliceWriter)} {w : SliceWriter}
    (hrun : Run (SliceWriter.Adds z) {} ts w) : P w.sink := by
  refine hrun.invariant (fun w => P w.sink) hempty ?_
  rintro w p w' h ⟨rounds, hadd⟩
  exact (add_keeps hP rounds h p).of_ok hadd

/-- A flush stores nodes, ends the chains and adds a page to the file, which
stays below the limit. -/
theorem flush_keeps (hmark : ∀ s more, P s → P { s with file := s.file ++ more }) (rounds : Nat) {w : SliceWriter}
    (h : P w.sink) :
    Yields (fun _ => True)
      (fun w' => w'.sink.file.length < Storage.maxFileSize + Storage.pageSize ∧
        ∃ s more, P s ∧ 2 ≤ more.length ∧ w'.sink.file = s.file ++ more ∧ Relinks s.nodes w'.sink.nodes ∧
          w'.sink.begins = s.begins)
      (w.flush z rounds) := by
  rw [SliceWriter.flush]
  refine (require_yields _ _).bind (fun _ _ => ?_)
  refine (store_yields z w.sink w.node true).bind ?_
  rintro ⟨s₁, node, location⟩ ⟨hst, -⟩
  have hs₁ := hP _ _ _ _ _ h hst
  refine (write_yields _ _).bind ?_
  rintro _ rfl
  have hs₂ := hmark s₁ (littleEndian 2 invalidSize) hs₁
  have hhand : Yields (fun _ => True) (fun w₁ => P w₁.sink)
      (if w.firstKey = [] then
        .ok { w with sink := { s₁ with file := s₁.file ++ littleEndian 2 invalidSize }, node := node }
      else { w with
        sink := { s₁ with file := s₁.file ++ littleEndian 2 invalidSize }
        node := node }.handToIndex z rounds location) := by
    by_cases hkey : w.firstKey = []
    · rw [if_pos hkey]
      exact hs₂
    · rw [if_neg hkey, SliceWriter.handToIndex]
      refine (indexAdd_keeps (fun s s' w l => hP s s' w false l) rounds hs₂ _ _ _ _).bind ?_
      rintro ⟨sink', index⟩ hsink'
      exact hsink'
  refine hhand.bind (fun w₁ hw₁ => ?_)
  refine (indexFlush_keeps (fun s s' w l => hP s s' w false l) (fun s s' w l => hP s s' w false l) rounds hw₁
    w₁.index).bind ?_
  rintro ⟨s₃, root⟩ hs₃
  have hs₃ : P s₃ := hs₃
  have hends : Yields (fun _ => True) (fun s₄ => Relinks s₃.nodes s₄.nodes ∧ s₄.begins = s₃.begins ∧
      s₄.file = s₃.file ++ littleEndian 2 invalidSize)
      (s₃.endChains (({ s₁ with file := s₁.file ++ littleEndian 2 invalidSize } : Sink).nodes.length - 1)) := by
    rw [Sink.endChains]
    refine (setNextAt_relinks _ _ _).bind (fun nodes₁ h₁ => ?_)
    refine (setNextAt_relinks _ _ _).bind (fun nodes₂ h₂ => ?_)
    refine (write_yields _ _).mono ?_
    rintro _ rfl
    exact ⟨h₁.trans h₂, rfl, rfl⟩
  refine hends.bind ?_
  rintro s₄ ⟨hlinks, hbegins, hfile⟩
  refine ((write_yields _ _).and (write_room _ _)).bind ?_
  rintro _ ⟨rfl, hroom⟩
  have hpadding := length_padding_lt (s₄.addPadding.file ++
    ({ w₁ with sink := s₄.addPadding, root := root } : SliceWriter).header)
  refine ⟨?_, s₃, littleEndian 2 invalidSize ++ (Storage.padding s₄.file ++
    (({ w₁ with sink := s₄.addPadding, root := root } : SliceWriter).header ++
      Storage.padding (s₄.addPadding.file ++
        ({ w₁ with sink := s₄.addPadding, root := root } : SliceWriter).header))), hs₃, ?_, ?_, hlinks, hbegins⟩
  · simp only [Sink.addPadding, List.length_append] at hroom hpadding ⊢
    omega
  · rw [List.length_append, length_littleEndian]
    exact Nat.le_add_right _ _
  · simp only [Sink.addPadding, hfile, List.append_assoc]

end Keeps

section ReadsBack

variable {z : Codec} {file : List Byte} {p : Nat × Node} {start : Nat}

/-- The sizes on the read path of a stored node are right, and the node is
loaded wherever its location leads to it. -/
structure ReadsBack (z : Codec) (file : List Byte) (p : Nat × Node) (start : Nat) : Prop where
  fits : sizeFrom p.1 = (packed z p.2).length
  checked : sizeFrom p.1 ≤ nodeSize
  loads : offsetFrom p.1 = start → ∀ stale, ∃ n, loadNode z file stale p.1 = .ok n ∧ n.data = p.2.data ∧
    n.keyCount = p.2.keyCount

theorem Recorded.reads_iff (hz : z.Lossless) (h : Recorded z file p start)
    (hend : start + (image z p.2).length + 2 ≤ file.length) (hsmall : file.length < maxOffset) :
    ReadsBack z file p start ↔ (packed z p.2).length ≤ nodeSize := by
  have hmax : maxSize = 2 ^ 15 - 1 := rfl
  have hlt := h.size_lt
  obtain ⟨isLeaf, hloc⟩ := h.location_eq
  have hsize : sizeFrom p.1 = (packed z p.2).length := by
    rw [hloc]
    exact sizeFrom_or _ (by omega) isLeaf
  constructor
  · intro hback
    rw [← hsize]
    exact hback.checked
  · intro hfit
    refine ⟨hsize, hsize ▸ hfit, fun hoffset stale => ?_⟩
    have hmod : offsetFrom p.1 = start % 2 ^ 32 := by
      rw [hloc]
      exact offsetFrom_or _ (sizeField_lt (by omega) isLeaf)
    have himaged : Imaged z file p := by
      refine ⟨⟨isLeaf, ?_⟩, hlt, h.keyCount_eq, ?_, ?_⟩
      · rw [hmod]
        exact hloc
      · rw [hoffset]
        exact h.bytes_eq
      · rw [endOf, hoffset]
        exact h.end_le
    exact ⟨_, loadNode_imaged hz himaged hfit (by rw [endOf, hoffset]; exact hend) hsmall, rfl, rfl⟩

variable {w w' : SliceWriter} {ts : List (SliceWriter × Part × SliceWriter)}

/-- What a writer stored is read back exactly if it packs into the size of an
open node. -/
theorem readsBack_iff (hz : z.Lossless) (hrun : Run (SliceWriter.Adds z) {} ts w)
    (hflush : SliceWriter.Flushes z w w') :
    w'.sink.nodes.length = w'.sink.begins.length ∧ ∀ q ∈ w'.sink.nodes.zip w'.sink.begins,
      (ReadsBack z w'.sink.file q.1 q.2 ↔ (packed z q.1.2).length ≤ nodeSize) := by
  have hpage : Storage.pageSize = 4096 := rfl
  have hlimit : Storage.maxFileSize = 2 ^ 37 := rfl
  have hoffset : maxOffset = 2 ^ 48 := rfl
  have hkeeps : ∀ s s' w isLeaf location, AllRecorded z s → Stores z s w isLeaf s' location → AllRecorded z s' :=
    fun s s' w isLeaf location h hst => h.store hst
  have hw : AllRecorded z w.sink := run_keeps hkeeps .nil hrun
  obtain ⟨rounds, hok⟩ := hflush
  obtain ⟨hlen, s, more, hs, hmore, hfile, hlinks, hbegins⟩ :=
    (flush_keeps hkeeps (fun s more hs => hs.append more) rounds hw).of_ok hok
  have hall : List.Forall₂ (Recorded z s.file) w'.sink.nodes w'.sink.begins := by
    rw [hbegins]
    exact recorded_relinks hs hlinks
  refine ⟨hall.length_eq, fun q hq => ?_⟩
  have hrecorded : Recorded z s.file q.1 q.2 := (List.forall₂_iff_zip.mp hall).2 hq
  have hend := hrecorded.end_le
  have hafter := hrecorded.append more
  rw [← hfile] at hafter
  refine hafter.reads_iff hz ?_ (by omega)
  rw [hfile, List.length_append]
  omega

theorem readsBack_iff_twoLeaves : ∃ ts w w', Run (SliceWriter.Adds lz4) {} ts w ∧ calls ts = twoLeaves ∧
    SliceWriter.Flushes lz4 w w' ∧
    w'.sink.nodes.length = w'.sink.begins.length ∧ ∀ q ∈ w'.sink.nodes.zip w'.sink.begins,
      (ReadsBack lz4 w'.sink.file q.1 q.2 ↔ (packed lz4 q.1.2).length ≤ nodeSize) := by
  obtain ⟨ts, w, w', hrun, hcalls, hflush, -⟩ := written_twoLeaves
  exact ⟨ts, w, w', hrun, hcalls, hflush, readsBack_iff lz4_lossless hrun hflush⟩

theorem not_readsBack_framed : ¬ ∀ (z : Codec) (ts : List (SliceWriter × Part × SliceWriter)) (w w' : SliceWriter),
    z.Lossless → z.Bounded → Run (SliceWriter.Adds z) {} ts w → SliceWriter.Flushes z w w' →
      ∀ q ∈ w'.sink.nodes.zip w'.sink.begins, ReadsBack z w'.sink.file q.1 q.2 := by
  intro h
  obtain ⟨ts, w, w', hrun, hflush, -⟩ := @SliceWriter.exists_written framed framed_bounded nodePageSize le_rfl
    (by decide)
  obtain ⟨hlen, hiff⟩ := readsBack_iff framed_lossless hrun hflush
  obtain ⟨leaves, cur, hold⟩ := run_holding hrun
  obtain ⟨rounds, hok⟩ := id hflush
  obtain ⟨-, -, es, hroot⟩ := ((hold.flush rounds).of_ok hok).root
  cases hnodes : w'.sink.nodes with
  | nil =>
      rw [hnodes] at hroot
      cases hroot
  | cons p nodes =>
      cases hbegins : w'.sink.begins with
      | nil =>
          rw [hnodes, hbegins] at hlen
          cases hlen
      | cons start begins =>
          have hq : (p, start) ∈ w'.sink.nodes.zip w'.sink.begins := by
            rw [hnodes, hbegins]
            exact List.mem_cons_self ..
          have hpacked : (packed framed p.2).length = nodeSize + 1 := congrArg (· + 1) p.2.data.size_eq
          have hfit := (hiff _ hq).mp (h framed ts w w' framed_lossless framed_bounded hrun hflush _ hq)
          simp only [hpacked] at hfit
          omega

end ReadsBack

end Tyrdbs.Slices
