import Tyrdbs.Slices.WriterRuns
import Tyrdbs.Slices.Pages

namespace Tyrdbs.Slices

open Bytes Outcome SpanTree Runs

/-- The rounds of the loop in add as long as its leaves can be stored: the node
writer, and what is left of the value. A node writer that was stored is empty. -/
inductive Offers (p : Part) (n₀ : NodeWriter) : NodeWriter → List Byte → Prop
  | first : Offers p n₀ n₀ p.value
  | next {n n' : NodeWriter} {value : List Byte} {res : Option Nat} (h : Offers p n₀ n value)
      (hadd : n.add p.key value p.eor p.deleted p.idx false = .ok (n', res))
      (hmore : ¬ (res.isSome ∧ value.drop (res.getD 0) = [])) : Offers p n₀ {} (value.drop (res.getD 0))

/-- What is asked of add: no round fails in the node writer, an emptied one takes
at least a byte of what is left of a value, no leaf without entries is stored,
and the loop ends, whatever happens to the file. -/
structure Progresses (z : Codec) (w : SliceWriter) (p : Part) : Prop where
  returns : ∀ n value, Offers p w.node n value →
    ∃ r, n.add p.key value p.eor p.deleted p.idx false = .ok r
  accepts : ∀ value, Offers p w.node {} value → ∃ n' size,
    NodeWriter.add {} p.key value p.eor p.deleted p.idx false = .ok (n', some size) ∧ (value ≠ [] → 1 ≤ size)
  stores : ∀ n value n' res, Offers p w.node n value →
    n.add p.key value p.eor p.deleted p.idx false = .ok (n', res) →
    ¬ (res.isSome ∧ value.drop (res.getD 0) = []) → n'.opened.keyCount ≠ 0
  ends : ∃ bound, ∀ rounds, bound ≤ rounds → w.add z rounds p ≠ .error .unfinished

/-- An emptied node has room for an eighth of the value beside the key, the
attributes and the entry's header. -/
def RoomForEighth (key : Key) (value : List Byte) : Prop := key.length + value.length / 8 ≤ 8112

section Demand

variable {b : OpenNode} {es : List Entry} {key value : List Byte}

theorem hasEnoughSpace_iff : b.hasEnoughSpace key value false = true ↔
    b.entryOffset + (14 + key.length + max 16 (value.length / 8)) % 2 ^ 16 ≤ b.dataOffset := by
  have hentry : entrySize = 6 := rfl
  have hattr : attributesSize = 8 := rfl
  have hsum : entrySize + key.length + attributesSize = 14 + key.length := by omega
  rw [OpenNode.hasEnoughSpace, decide_eq_true_eq, hsum]
  simp only [Bool.false_eq_true, if_false, Nat.shiftRight_eq_div_pow]

/-- With room for an eighth of the value the demand does not wrap around. -/
theorem RoomForEighth.demand (h : RoomForEighth key value) (hk : key.length < maxKeySize) :
    (14 + key.length + max 16 (value.length / 8)) % 2 ^ 16 = 14 + key.length + max 16 (value.length / 8) ∧
      14 + key.length + max 16 (value.length / 8) ≤ 8126 := by
  have hmax : maxKeySize = 1024 := rfl
  have h : key.length + value.length / 8 ≤ 8112 := h
  omega

theorem RoomForEighth.drop (h : RoomForEighth key value) (n : Nat) : RoomForEighth key (value.drop n) := by
  have h : key.length + value.length / 8 ≤ 8112 := h
  rw [RoomForEighth, List.length_drop]
  omega

theorem emptied_filled : Filled (NodeWriter.opened {}) [] := internalReset_filled

theorem Filled.emptied (h : Filled b []) : b.entryOffset = 2 ∧ b.dataOffset = 8128 :=
  ⟨h.entryOffset_eq, h.empty rfl⟩

theorem RoomForEighth.space (h : RoomForEighth key value) (hk : key.length < maxKeySize) (hb : Filled b []) :
    b.hasEnoughSpace key value false = true := by
  obtain ⟨hmod, hle⟩ := h.demand hk
  rw [hasEnoughSpace_iff, hmod, hb.emptied.1, hb.emptied.2]
  omega

/-- Without it the demand is too large for any node, or it has wrapped around. -/
theorem wrapped_of_space (h : ¬ RoomForEighth key value) (hk : key.length < maxKeySize) (hb : Filled b es)
    (hspace : b.hasEnoughSpace key value false = true) : 2 ^ 16 ≤ 14 + key.length + value.length / 8 := by
  have h : ¬ key.length + value.length / 8 ≤ 8112 := h
  have hmax : maxKeySize = 1024 := rfl
  have hend := hb.dataOffset_le
  have hsize : nodeSize = 8128 := rfl
  have hentry := hb.entryOffset_eq
  rw [hasEnoughSpace_iff] at hspace
  omega

theorem not_room_drop (h : 2 ^ 16 ≤ 14 + key.length + value.length / 8) (hk : key.length < maxKeySize) {size : Nat}
    (hsize : size ≤ nodeSize) : ¬ RoomForEighth key (value.drop size) ∧ value.drop size ≠ [] := by
  have hmax : maxKeySize = 1024 := rfl
  have hnode : nodeSize = 8128 := rfl
  have hlen : (value.drop size).length = value.length - size := List.length_drop ..
  refine ⟨fun hroom => ?_, fun hnil => ?_⟩
  · have hroom : key.length + (value.drop size).length / 8 ≤ 8112 := hroom
    omega
  · rw [hnil, List.length_nil] at hlen
    omega

end Demand

section Adding

variable {w : NodeWriter} {es : List Entry} {key value : List Byte} {eor deleted noSplit : Bool} {attributes : Nat}

/-- Where there is room beside the value, add does what has_enough_space has promised. -/
theorem add_part (hk : key ≠ []) (hlt : key.length < maxKeySize) (hw : Filled w.opened es)
    (hspace : w.opened.hasEnoughSpace key value noSplit = true)
    (hroom : w.opened.entryOffset + (14 + key.length) ≤ w.opened.dataOffset) :
    ∃ n', w.add key value eor deleted attributes noSplit =
      .ok (n', some (NodeWriter.partOf w.opened key value)) := by
  have hsize : nodeSize = 8128 := rfl
  have hsix : entrySize = 6 := rfl
  have hattr : attributesSize = 8 := rfl
  have hle := hw.dataOffset_le
  have hne : key.length ≠ 0 := fun h => hk (List.eq_nil_of_length_eq_zero h)
  have hpart : min ((w.opened.dataOffset - key.length + 2 ^ 32 -
      (w.opened.entryOffset + entrySize + attributesSize)) % 2 ^ 32) value.length % 2 ^ 16 =
      NodeWriter.partOf w.opened key value := by
    rw [NodeWriter.partOf]
    omega
  have hfits : NodeWriter.partOf w.opened key value + (14 + key.length) ≤
      w.opened.dataOffset - w.opened.entryOffset := by
    rw [NodeWriter.partOf]
    omega
  have htake : (value.take (NodeWriter.partOf w.opened key value)).length = NodeWriter.partOf w.opened key value := by
    rw [List.length_take]
    exact Nat.min_eq_left (Nat.min_le_right ..)
  rw [NodeWriter.add, require_of hne, ok_bind, require_of hlt, ok_bind, if_neg (not_not.mpr hspace),
    NodeWriter.copy_returns (by simp only [OpenNode.nextEntry]; omega), ok_bind]
  simp only [OpenNode.copyValue, OpenNode.nextEntry, hpart]
  rw [require_of (by omega), ok_bind, NodeWriter.copy_returns (by simp only [htake]; omega), ok_bind]
  simp only [pure, Except.pure, ok_bind, htake]
  rw [NodeWriter.copy_returns (by simp only [length_littleEndian]; omega), ok_bind]
  exact ⟨_, rfl⟩

theorem Filled.keyCount_ne {b : OpenNode} {e : Entry} (h : Filled b (es ++ [e])) : b.keyCount ≠ 0 := by
  intro hzero
  have hcount := h.keyCount_eq
  rw [hzero, List.length_append, List.length_singleton] at hcount
  exact absurd hcount.symm (Nat.succ_ne_zero _)

end Adding

section Rounds

variable {z : Codec} {w : SliceWriter} {p : Part} {cur : List Entry} {n₀ n n' : NodeWriter} {value : List Byte}
  {res : Option Nat}

theorem Offers.cases (h : Offers p n₀ n value) : n = n₀ ∧ value = p.value ∨ n = {} := by
  cases h with
  | first => exact Or.inl ⟨rfl, rfl⟩
  | next => exact Or.inr rfl

theorem Offers.filled (h : Offers p n₀ n value) (hn₀ : Filled n₀.opened cur) : ∃ es, Filled n.opened es := by
  rcases h.cases with ⟨rfl, -⟩ | rfl
  · exact ⟨cur, hn₀⟩
  · exact ⟨[], emptied_filled⟩

theorem Offers.room (h : Offers p n₀ n value) (hroom : RoomForEighth p.key p.value) : RoomForEighth p.key value := by
  induction h with
  | first => exact hroom
  | next _ _ _ ih => exact ih.drop _

theorem round_returns (hkey : p.key ≠ []) (hfits : p.key.length < maxKeySize) (h : Offers p n₀ n value)
    (hn₀ : Filled n₀.opened cur) (hroom : RoomForEighth p.key p.value) :
    ∃ r, n.add p.key value p.eor p.deleted p.idx false = .ok r := by
  obtain ⟨es, hn⟩ := h.filled hn₀
  by_cases hspace : n.opened.hasEnoughSpace p.key value false = true
  · have hdemand := ((h.room hroom).demand hfits).1
    have hfree := hasEnoughSpace_iff.mp hspace
    rw [hdemand] at hfree
    obtain ⟨n', hadd⟩ := @add_part n es p.key value p.eor p.deleted false p.idx hkey hfits hn hspace (by omega)
    exact ⟨_, hadd⟩
  · exact ⟨_, NodeWriter.add_none hkey hfits (Bool.eq_false_iff.mpr hspace)⟩

theorem emptied_accepts (hkey : p.key ≠ []) (hfits : p.key.length < maxKeySize)
    (hroom : RoomForEighth p.key value) : ∃ n' size,
    NodeWriter.add {} p.key value p.eor p.deleted p.idx false = .ok (n', some size) ∧ (value ≠ [] → 1 ≤ size) := by
  have hmax : maxKeySize = 1024 := rfl
  have hsix : entrySize = 6 := rfl
  have hattr : attributesSize = 8 := rfl
  obtain ⟨hentry, hdata⟩ := emptied_filled.emptied
  obtain ⟨n', hadd⟩ := @add_part {} [] p.key value p.eor p.deleted false p.idx hkey hfits emptied_filled
    (hroom.space hfits emptied_filled) (by omega)
  refine ⟨_, _, hadd, fun hne => ?_⟩
  have hpos : 0 < value.length := List.length_pos_of_ne_nil hne
  rw [NodeWriter.partOf]
  omega

theorem stored_ne (hfits : p.key.length < maxKeySize) (hidx : p.idx < 2 ^ 64) (h : Offers p n₀ n value)
    (hn₀ : Filled n₀.opened cur) (hroom : RoomForEighth p.key p.value)
    (hadd : n.add p.key value p.eor p.deleted p.idx false = .ok (n', res)) : n'.opened.keyCount ≠ 0 := by
  obtain ⟨es, hn⟩ := h.filled hn₀
  rcases (NodeWriter.add_filled hn p.key value p.eor p.deleted hidx false).of_ok hadd with
    ⟨-, hspace, hnode⟩ | ⟨size, -, -, -, hfilled⟩
  · have hnode : n'.node = some n.opened := hnode
    have hopened : n'.opened = n.opened := by rw [NodeWriter.opened, hnode, Option.getD_some]
    rw [hopened]
    cases es with
    | nil =>
        rw [(h.room hroom).space hfits hn] at hspace
        exact absurd hspace (by decide)
    | cons e rest =>
        intro hzero
        have hcount := hn.keyCount_eq
        rw [hzero, List.length_cons] at hcount
        exact absurd hcount.symm (Nat.succ_ne_zero _)
  · exact hfilled.keyCount_ne

/-- A value without room for an eighth of it is never offered to the end: a node
that accepts a part of it leaves another such value for the next one. -/
theorem next_not_room (hfits : p.key.length < maxKeySize) (hidx : p.idx < 2 ^ 64) {es : List Entry}
    (hn : Filled n.opened es) (hroom : ¬ RoomForEighth p.key value)
    (hadd : n.add p.key value p.eor p.deleted p.idx false = .ok (n', res)) :
    ¬ (res.isSome ∧ value.drop (res.getD 0) = []) ∧ ¬ RoomForEighth p.key (value.drop (res.getD 0)) := by
  rcases (NodeWriter.add_filled hn p.key value p.eor p.deleted hidx false).of_ok hadd with
    ⟨hres, -, -⟩ | ⟨size, hres, hspace, hsize, -⟩
  · have hres : res = none := hres
    subst hres
    exact ⟨fun h => Bool.false_ne_true h.1, hroom⟩
  · have hres : res = some size := hres
    subst hres
    have hle : size ≤ nodeSize := by
      have hend := hn.dataOffset_le
      rw [hsize, NodeWriter.partOf]
      omega
    obtain ⟨hnot, hne⟩ := not_room_drop (wrapped_of_space hroom hfits hn hspace) hfits hle
    exact ⟨fun h => hne h.2, hnot⟩

theorem not_accepted (hfits : p.key.length < maxKeySize) (hidx : p.idx < 2 ^ 64)
    (haccepts : ∀ value, Offers p n₀ {} value → ∃ n' size,
      NodeWriter.add {} p.key value p.eor p.deleted p.idx false = .ok (n', some size) ∧ (value ≠ [] → 1 ≤ size))
    (hroom : ¬ RoomForEighth p.key value) : ¬ Offers p n₀ {} value := by
  induction hlen : value.length using Nat.strong_induction_on generalizing value with
  | _ len ih =>
      intro h
      obtain ⟨n', size, hadd, hpos⟩ := haccepts value h
      obtain ⟨hmore, hnot⟩ := next_not_room hfits hidx emptied_filled hroom hadd
      have hne : value ≠ [] := fun hnil => hmore ⟨rfl, by rw [hnil, List.drop_nil]⟩
      have hless : (value.drop size).length < len := by
        have hvalue : 0 < value.length := List.length_pos_of_ne_nil hne
        have hsize := hpos hne
        rw [List.length_drop]
        omega
      exact ih _ hless hnot rfl (h.next hadd hmore)

end Rounds

/-- The faults of the file and of the assertions. -/
def Fault.Plain : Fault → Prop
  | .runtime _ => True
  | .assertion => True
  | .invalidData _ => False
  | .unfinished => False

section Plain

theorem require_plain (P : Prop) [Decidable P] {fault : Fault} (h : fault.Plain) :
    Yields Fault.Plain (fun _ => True) (require P fault) := by
  rw [require]
  split
  · trivial
  · exact h

theorem node_add_plain (w : NodeWriter) (key value : List Byte) (eor deleted : Bool) (attributes : Nat)
    (noSplit : Bool) :
    Yields Fault.Plain (fun _ => True) (w.add key value eor deleted attributes noSplit) := by
  have hcopy : ∀ (b : OpenNode) bytes, Yields Fault.Plain (fun _ => True) (b.copy bytes) := by
    intro b bytes
    rw [OpenNode.copy, OpenNode.allocate]
    refine Yields.bind (P := fun _ => True) ?_ (fun _ _ => trivial)
    exact (require_plain _ (by trivial)).bind (fun _ _ => trivial)
  rw [NodeWriter.add]
  refine (require_plain _ (by trivial)).bind (fun _ _ => ?_)
  refine (require_plain _ (by trivial)).bind (fun _ _ => ?_)
  dsimp only
  split
  · trivial
  · refine (hcopy _ _).bind (fun b₁ _ => ?_)
    refine Yields.bind (P := fun _ => True) ?_ (fun _ _ => (hcopy _ _).bind (fun _ _ => trivial))
    rw [OpenNode.copyValue]
    exact (require_plain _ (by trivial)).bind (fun _ _ => (hcopy _ _).bind (fun _ _ => trivial))

theorem write_plain (s : Sink) (bytes : List Byte) : Yields Fault.Plain (fun _ => True) (s.write bytes) := by
  rw [Sink.write]
  exact (require_plain _ (by trivial)).bind (fun _ _ => trivial)

theorem setNextAt_plain (next i : Nat) (nodes : List (Nat × Node)) :
    Yields Fault.Plain (fun _ => True) (setNextAt next i nodes) := by
  induction nodes generalizing i with
  | nil => cases i <;> trivial
  | cons p nodes ih =>
      cases i with
      | zero =>
          rw [setNextAt, Node.setNext]
          split
          · exact Yields.bind (P := fun _ => True) trivial (fun _ _ => trivial)
          · exact Yields.bind (P := fun _ => True) trivial (fun _ _ => trivial)
      | succ i =>
          rw [setNextAt]
          exact (ih i).bind (fun _ _ => trivial)

theorem store_plain (z : Codec) (s : Sink) (w : NodeWriter) (isLeaf : Bool) :
    Yields Fault.Plain (fun _ => True) (s.store z w isLeaf) := by
  have hsize : ∀ size, Yields Fault.Plain (fun _ => True) (s.writeSize size isLeaf) := by
    intro size
    rw [Sink.writeSize]
    split
    · exact write_plain _ _
    · exact (require_plain _ (by trivial)).bind (fun _ _ => trivial)
  rw [Sink.store]
  refine (require_plain _ (by trivial)).bind (fun _ _ => ?_)
  refine (require_plain _ (by trivial)).bind (fun _ _ => ?_)
  refine (hsize _).bind (fun s₁ _ => ?_)
  refine Yields.bind (P := fun _ => True) ?_ (fun l _ => ?_)
  · rw [location]
    split
    · trivial
    · trivial
  · refine (write_plain _ _).bind (fun s₂ _ => ?_)
    refine (write_plain _ _).bind (fun s₃ _ => ?_)
    exact (setNextAt_plain _ _ _).bind (fun _ _ => trivial)

end Plain

section Ends

variable {z : Codec} {s : Sink} {fault : Fault}

theorem Fault.Plain.ends (h : fault.Plain) : fault ≠ .unfinished := by
  rintro rfl
  exact h

theorem node_add_ends (w : NodeWriter) (key value : List Byte) (eor deleted : Bool) (attributes : Nat)
    (noSplit : Bool) : Yields (· ≠ .unfinished) (fun _ => True) (w.add key value eor deleted attributes noSplit) :=
  (node_add_plain w key value eor deleted attributes noSplit).weaken (fun _ h => h.ends)

theorem store_ends (z : Codec) (s : Sink) (w : NodeWriter) (isLeaf : Bool) :
    Yields (· ≠ .unfinished) (fun _ => True) (s.store z w isLeaf) :=
  (store_plain z s w isLeaf).weaken (fun _ h => h.ends)

theorem indexAdd_ends (z : Codec) {rounds : Nat} {s : Sink} {height : Nat} {levels : List IndexLevel}
    {spans g : List (Span Key Nat)} {e : Span Key Nat} (h : Levels s height levels spans)
    (hb : Below s.Holds Leaf height e g) (hf : Fits e) (hrounds : levels.length + 1 ≤ rounds) :
    Yields (· ≠ .unfinished) (fun r => r.2.length ≤ levels.length + 1)
      (indexAdd z rounds s levels e.first e.last e.target) := by
  induction rounds generalizing s height levels spans e g with
  | zero => omega
  | succ rounds ih =>
      obtain ⟨parts, upper, hlevel, rfl, hupper, -⟩ := h.head
      rw [indexAdd]
      refine ((node_add_ends ..).merge (add_span hlevel.filled hf g)).bind ?_
      rintro ⟨node, res⟩ ⟨-, ⟨rfl, hne, hnode⟩ | ⟨size, rfl, -⟩⟩
      · -- a level that is not there yet would not be full
        have hlevels : levels ≠ [] := by
          rintro rfl
          have hcount := hlevel.filled.keyCount_eq
          rw [List.length_map] at hcount
          exact hne (List.length_eq_zero_iff.mp hcount.symm)
        have hpos : 0 < levels.length := List.length_pos_of_ne_nil hlevels
        have htail : levels.tail.length = levels.length - 1 := List.length_tail
        refine ((store_ends ..).merge (store_yields z s node false)).bind ?_
        rintro ⟨s₁, node₁, stored⟩ ⟨-, hst, -⟩
        obtain ⟨hbelow, hfits, hgrow⟩ := hlevel.store hne hnode hst
        refine (node_add_ends ..).bind ?_
        rintro ⟨node₂, res₂⟩ -
        have hkey : (if (levels.headD {}).firstKey = [] then e.first else (levels.headD {}).firstKey) =
            (levels.headD {}).firstKey := if_neg hfits.first_ne
        simp only [hkey]
        refine (ih (hupper.mono hgrow) hbelow hfits (by omega)).bind ?_
        rintro ⟨s₂, higher⟩ hlen
        have hlen : higher.length ≤ levels.tail.length + 1 := hlen
        simp only [yields_pure, List.length_cons]
        omega
      · refine ((require_plain _ (by trivial)).weaken (fun _ h => h.ends)).bind (fun _ _ => ?_)
        simp only [yields_pure, List.length_cons, List.length_tail]
        omega

theorem nextLeaf_ends {w : SliceWriter} {leaves : List (Nat × List Entry)} {cur : List Entry}
    (h : Writing z w leaves cur) {rounds : Nat} (hrounds : w.index.length + 1 ≤ rounds) (key : Key) (newKey : Bool) :
    Yields (· ≠ .unfinished) (fun w' => w'.node = {} ∧ w'.index.length ≤ w.index.length + 1)
      (w.nextLeaf z rounds key newKey) := by
  rw [SliceWriter.nextLeaf]
  refine ((store_ends ..).merge (store_yields z w.sink w.node true)).bind ?_
  rintro ⟨sink, node, location⟩ ⟨-, hst, rfl⟩
  have hgrow : contents w.sink.nodes <+: contents sink.nodes := ⟨_, hst.contents_eq.symm⟩
  by_cases hkey : w.firstKey = []
  · simp only [if_pos hkey]
    exact ⟨rfl, Nat.le_add_right ..⟩
  · simp only [if_neg hkey, SliceWriter.handToIndex]
    have hleaf : Below sink.Holds Leaf 0 ⟨w.firstKey, w.lastKey, location⟩ [_] := Or.inl ⟨hst.isLeafFrom_eq, rfl⟩
    have hindex := indexAdd_ends z (h.tree.mono hgrow) hleaf
      ⟨hkey, h.firstKey_fits, h.lastKey_fits, hst.location_lt⟩ hrounds
    refine Yields.bind (P := fun w' => w'.node = {} ∧ w'.index.length ≤ w.index.length + 1) ?_ (fun w' h' => ?_)
    · refine hindex.bind ?_
      rintro ⟨sink', index⟩ hlen
      exact ⟨rfl, hlen⟩
    · exact h'

variable {p : Part} {n₀ : NodeWriter} {cur : List Entry}

theorem add_filled (hidx : p.idx < 2 ^ 64) {n n' : NodeWriter} {value : List Byte} {res : Option Nat}
    (hn : Filled n.opened cur) (hadd : n.add p.key value p.eor p.deleted p.idx false = .ok (n', res)) :
    ∃ es, Filled n'.opened es := by
  rcases (NodeWriter.add_filled hn p.key value p.eor p.deleted hidx false).of_ok hadd with
    ⟨-, -, hnode⟩ | ⟨size, -, -, -, hfilled⟩
  · have hnode : n'.node = some n.opened := hnode
    refine ⟨cur, ?_⟩
    rwa [NodeWriter.opened, hnode, Option.getD_some]
  · exact ⟨_, hfilled⟩

theorem addLoop_emptied (hfits : p.key.length < maxKeySize) (hidx : p.idx < 2 ^ 64)
    (haccepts : ∀ value, Offers p n₀ {} value → ∃ n' size,
      NodeWriter.add {} p.key value p.eor p.deleted p.idx false = .ok (n', some size) ∧ (value ≠ [] → 1 ≤ size))
    (newKey : Bool) {rounds : Nat} {w : SliceWriter} {leaves : List (Nat × List Entry)} {value : List Byte}
    (h : Writing z w leaves []) (hnode : w.node = {}) (hoffers : Offers p n₀ {} value)
    (hrounds : 2 * value.length + w.index.length + 2 ≤ rounds) :
    Yields (· ≠ .unfinished) (fun _ => True) (SliceWriter.addLoop z p newKey rounds w value) := by
  induction rounds generalizing w leaves value with
  | zero => omega
  | succ rounds ih =>
      obtain ⟨n', size, hadd, hpos⟩ := haccepts value hoffers
      rw [SliceWriter.addLoop, hnode, hadd, ok_bind]
      dsimp only
      split
      · trivial
      next hmore =>
        have hne : value ≠ [] := fun hnil => hmore ⟨rfl, by rw [hnil, List.drop_nil]⟩
        have hlen : (value.drop size).length + 1 ≤ value.length := by
          have hvalue : 0 < value.length := List.length_pos_of_ne_nil hne
          have hsize := hpos hne
          rw [List.length_drop]
          omega
        obtain ⟨es, hfilled⟩ := add_filled hidx emptied_filled hadd
        have hw : Writing z { w with node := n' } leaves es :=
          ⟨h.collects, hfilled, h.tree, h.firstKey_fits, h.lastKey_fits⟩
        have hends := nextLeaf_ends hw (show w.index.length + 1 ≤ rounds by omega) p.key newKey
        refine (hends.merge (hw.nextLeaf rounds hfits newKey)).bind ?_
        rintro w' ⟨⟨hnode', hindex⟩, location, hw', -⟩
        have hindex : w'.index.length ≤ w.index.length + 1 := hindex
        exact ih hw' hnode' (hoffers.next hadd hmore) (by simp only [Option.getD_some]; omega)

theorem addLoop_ends (hfits : p.key.length < maxKeySize) (hidx : p.idx < 2 ^ 64) {w : SliceWriter}
    (haccepts : ∀ value, Offers p w.node {} value → ∃ n' size,
      NodeWriter.add {} p.key value p.eor p.deleted p.idx false = .ok (n', some size) ∧ (value ≠ [] → 1 ≤ size))
    (newKey : Bool) {rounds : Nat} {leaves : List (Nat × List Entry)} (h : Writing z w leaves cur)
    (hrounds : 2 * p.value.length + w.index.length + 4 ≤ rounds) :
    Yields (· ≠ .unfinished) (fun _ => True) (SliceWriter.addLoop z p newKey rounds w p.value) := by
  obtain ⟨rounds, rfl⟩ : ∃ r, rounds = r + 1 := ⟨rounds - 1, by omega⟩
  cases hadd : w.node.add p.key p.value p.eor p.deleted p.idx false with
  | error fault =>
      have hends := node_add_ends w.node p.key p.value p.eor p.deleted p.idx false
      rw [hadd] at hends
      rw [SliceWriter.addLoop, hadd]
      exact hends
  | ok r =>
      obtain ⟨n', res⟩ := r
      rw [SliceWriter.addLoop, hadd, ok_bind]
      dsimp only
      split
      · trivial
      next hmore =>
        obtain ⟨es, hfilled⟩ := add_filled hidx h.filled hadd
        have hw : Writing z { w with node := n' } leaves es :=
          ⟨h.collects, hfilled, h.tree, h.firstKey_fits, h.lastKey_fits⟩
        have hlen : (p.value.drop (res.getD 0)).length ≤ p.value.length := by
          rw [List.length_drop]
          exact Nat.sub_le ..
        have hends := nextLeaf_ends hw (show w.index.length + 1 ≤ rounds by omega) p.key newKey
        refine (hends.merge (hw.nextLeaf rounds hfits newKey)).bind ?_
        rintro w' ⟨⟨hnode', hindex⟩, location, hw', -⟩
        have hindex : w'.index.length ≤ w.index.length + 1 := hindex
        exact addLoop_emptied hfits hidx haccepts newKey hw' hnode' (Offers.first.next hadd hmore) (by omega)

end Ends

section Main

variable {z : Codec} {w : SliceWriter} {p : Part} {newKey : Bool}
  {ts : List (SliceWriter × Part × SliceWriter)}

theorem progresses_of_room (hrun : Run (SliceWriter.Adds z) {} ts w) (hidx : p.idx < maxIdx)
    (hcheck : w.check p = .ok newKey) (hroom : RoomForEighth p.key p.value) : Progresses z w p := by
  obtain ⟨leaves, cur, hold⟩ := run_holding hrun
  obtain ⟨-, haccepts⟩ := (check_yields w p).of_ok hcheck
  have hbyte := maxIdx_lt hidx
  have hemptied : ∀ value, Offers p w.node {} value → ∃ n' size,
      NodeWriter.add {} p.key value p.eor p.deleted p.idx false = .ok (n', some size) ∧ (value ≠ [] → 1 ≤ size) :=
    fun value h => emptied_accepts haccepts.key_ne haccepts.key_fits (h.room hroom)
  refine ⟨fun n value h => round_returns haccepts.key_ne haccepts.key_fits h hold.writing.filled hroom, hemptied,
    fun n value n' res h hadd _ => stored_ne haccepts.key_fits hbyte h hold.writing.filled hroom hadd,
    2 * p.value.length + w.index.length + 4, fun rounds hrounds => ?_⟩
  rw [SliceWriter.add_eq hidx hcheck]
  have hstart := hold.writing.started haccepts.key_fits (newKey = true ∧ w.firstKey = [])
  set w₀ := if newKey = true ∧ w.firstKey = [] then { w with firstKey := p.key } else w with hw₀
  have hsame : w₀.node = w.node ∧ w₀.index = w.index := by
    rw [hw₀]
    split <;> exact ⟨rfl, rfl⟩
  have hends := addLoop_ends haccepts.key_fits hbyte (hsame.1.symm ▸ hemptied) newKey hstart
    (hsame.2.symm ▸ hrounds)
  have hadd : Yields (· ≠ Fault.unfinished) (fun _ => True)
      (SliceWriter.addLoop z p newKey rounds w₀ p.value >>=
        fun w' => .ok { w' with lastKey := p.key, lastEor := p.eor, keyCount := w'.keyCount + 1 }) :=
    hends.bind (fun _ _ => trivial)
  intro heq
  rw [heq] at hadd
  exact hadd rfl

theorem not_progresses (hrun : Run (SliceWriter.Adds z) {} ts w) (hidx : p.idx < maxIdx)
    (hcheck : w.check p = .ok newKey) (hroom : ¬ RoomForEighth p.key p.value) : ¬ Progresses z w p := by
  intro h
  obtain ⟨leaves, cur, hold⟩ := run_holding hrun
  obtain ⟨-, haccepts⟩ := (check_yields w p).of_ok hcheck
  have hbyte := maxIdx_lt hidx
  obtain ⟨⟨n', res⟩, hadd⟩ := h.returns _ _ Offers.first
  obtain ⟨hmore, hnot⟩ := next_not_room haccepts.key_fits hbyte hold.writing.filled hroom hadd
  exact not_accepted haccepts.key_fits hbyte h.accepts hnot (Offers.first.next hadd hmore)

/-- In every state of a writer and for every part that it accepts: add makes
progress if and only if there is room for an eighth of the value. -/
theorem progresses_iff (hrun : Run (SliceWriter.Adds z) {} ts w) (hidx : p.idx < maxIdx)
    (hcheck : w.check p = .ok newKey) :
    Progresses z w p ↔ p.key.length + p.value.length / 8 ≤ 8112 :=
  ⟨fun h => not_imp_not.mp (not_progresses hrun hidx hcheck) h, progresses_of_room hrun hidx hcheck⟩

end Main

def partOf98s (size : Nat) : Part := ⟨[97], List.replicate size 98, true, false, 1⟩

theorem check_partOf98s (size : Nat) : ({} : SliceWriter).check (partOf98s size) = .ok true := by
  simp [SliceWriter.check, partOf98s, require, maxKeySize, ok_bind]

/-- The longest value that can follow a key of one byte. -/
theorem progresses_iff_longest : ({} : SliceWriter).check (partOf98s 64895) = .ok true ∧
    ∀ z, Progresses z {} (partOf98s 64895) := by
  refine ⟨check_partOf98s 64895, fun z => ?_⟩
  refine (progresses_iff .refl (show 1 < maxIdx by decide) (check_partOf98s 64895)).mpr ?_
  have hlen : (partOf98s 64895).value.length = 64895 := List.length_replicate
  have hkey : (partOf98s 64895).key.length = 1 := rfl
  omega

/-- With one byte more, leaves without entries are stored for ever. -/
theorem partOf98s_stuck : ({} : SliceWriter).check (partOf98s 64896) = .ok true ∧
    NodeWriter.add {} (partOf98s 64896).key (partOf98s 64896).value true false 1 false =
      .ok ({ node := some OpenNode.internalReset }, none) ∧ ∀ z, ¬ Progresses z {} (partOf98s 64896) := by
  have hlen : (partOf98s 64896).value.length = 64896 := List.length_replicate
  have hkey : (partOf98s 64896).key.length = 1 := rfl
  have hmax : maxKeySize = 1024 := rfl
  refine ⟨check_partOf98s _, NodeWriter.add_none (List.cons_ne_nil _ _) (by omega) ?_, fun z => ?_⟩
  · refine Bool.eq_false_iff.mpr (fun hspace => ?_)
    have hwrapped := wrapped_of_space (fun hroom : _ + _ ≤ _ => by omega) (by omega) emptied_filled hspace
    omega
  · exact not_progresses .refl (show 1 < maxIdx by decide) (check_partOf98s _) (fun hroom : _ + _ ≤ _ => by omega)

end Tyrdbs.Slices
