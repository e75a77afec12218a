import Tyrdbs.Slices.Progress

namespace Tyrdbs.Slices

open Bytes Outcome

/-- The arguments of node_writer::add; both kinds of attributes have eight bytes. -/
structure AddCall where
  key : Key
  value : List Byte
  eor : Bool
  deleted : Bool
  attributes : Fin (2 ^ 64)
  noSplit : Bool
  key_ne : key ≠ []
  key_fits : key.length < maxKeySize

namespace AddCall

def addTo (c : AddCall) (w : NodeWriter) : Except Fault (NodeWriter × Option Nat) :=
  w.add c.key c.value c.eor c.deleted c.attributes.val c.noSplit

/-- What has_enough_space demands, before it is cut to 16 bits. -/
def demand (c : AddCall) : Nat :=
  14 + c.key.length + if c.noSplit then c.value.length else max 16 (c.value.length / 8)

/-- What the entry takes up beside the value, with the least of a value that may be
split. -/
def least (c : AddCall) : Nat := 14 + c.key.length + if c.noSplit then 0 else 16

end AddCall

/-- Every call returns, whether it has added something or not. -/
def NodeWriter.Reached (w : NodeWriter) : Prop :=
  ∃ calls : List AddCall, calls.foldlM (fun w c => Prod.fst <$> c.addTo w) {} = .ok w

namespace OpenNode

def free (b : OpenNode) : Nat := b.dataOffset - b.entryOffset

def node (b : OpenNode) : Node := { data := b.data, keyCount := b.keyCount.val }

/-- The entry table ends before the data area begins, and each entry's key, value and
attributes lie in the data area. -/
structure Apart (b : OpenNode) : Prop where
  table : b.entryOffset = 2 + 6 * b.node.keyCount
  before : b.entryOffset ≤ b.dataOffset
  inside : ∀ i < b.node.keyCount, b.dataOffset + attributesSize + b.node.valueSizeAt i ≤ b.node.keyOffsetAt i ∧
    b.node.keyOffsetAt i + b.node.keySizeAt i ≤ nodeSize

end OpenNode

/-- What is asked of an add: it leaves the node alone, or appends one entry, with the
first bytes of the value, as many as it returns. -/
def AddsFaithfully (w : NodeWriter) (c : AddCall) : Prop :=
  ∃ w' res, c.addTo w = .ok (w', res) ∧
    (res = none ∧ w'.opened = w.opened ∨ ∃ r, res = some r ∧ r ≤ c.value.length ∧
      w'.opened.node.entries = w.opened.node.entries ++
        [⟨c.key, c.value.take r, c.eor && r = c.value.length, c.deleted, c.attributes.val⟩] ∧
      w'.opened.Apart ∧ (c.noSplit = false → min 16 c.value.length ≤ r))

variable {w : NodeWriter} {es : List Entry} {c : AddCall}

theorem Filled.apart {b : OpenNode} (h : Filled b es) : b.Apart where
  table := by rw [h.entryOffset_eq, OpenNode.node, h.keyCount_eq]
  before := h.room
  inside i hi := by
    have hlt : i < es.length := h.keyCount_eq ▸ hi
    have hplaced := h.placed i es[i] (List.getElem?_eq_getElem hlt)
    have hread : Placed b.node.data b.dataOffset i es[i] := hplaced
    exact hread.read.2

theorem Filled.node_entries {b : OpenNode} (h : Filled b es) : b.node.entries = es := h.entries rfl rfl

theorem filled_addTo (h : Filled w.opened es) (c : AddCall) :
    Yields (fun _ => True) (fun r => ∃ es', Filled r.1.opened es') (c.addTo w) := by
  refine (NodeWriter.add_filled h c.key c.value c.eor c.deleted c.attributes.isLt c.noSplit).mono ?_
  rintro ⟨w', res⟩ (⟨-, -, hnode⟩ | ⟨size, -, -, -, hfilled⟩)
  · have hopened : w'.opened = w.opened := by
      have hnode : w'.node = some w.opened := hnode
      rw [NodeWriter.opened, hnode, Option.getD_some]
    exact ⟨es, hopened ▸ h⟩
  · exact ⟨_, hfilled⟩

theorem filled_of_calls : ∀ (calls : List AddCall) {w w' : NodeWriter} {es : List Entry}, Filled w.opened es →
    calls.foldlM (fun w c => Prod.fst <$> c.addTo w) w = .ok w' → ∃ es', Filled w'.opened es' := by
  intro calls
  induction calls with
  | nil =>
      intro w w' es h hrun
      rw [← Except.ok.inj hrun]
      exact ⟨es, h⟩
  | cons c calls ih =>
      intro w w' es h hrun
      rw [List.foldlM_cons] at hrun
      cases hadd : c.addTo w with
      | error e =>
          rw [hadd] at hrun
          exact absurd hrun (by simp [Functor.map, Except.map, bind, Except.bind])
      | ok r =>
          rw [hadd] at hrun
          obtain ⟨es', h'⟩ := (filled_addTo h c).of_ok hadd
          exact ih h' hrun

theorem NodeWriter.Reached.filled (h : w.Reached) : ∃ es, Filled w.opened es := by
  obtain ⟨calls, hcalls⟩ := h
  exact filled_of_calls calls emptied_filled hcalls

theorem hasEnoughSpace_demand (b : OpenNode) (c : AddCall) :
    b.hasEnoughSpace c.key c.value c.noSplit = true ↔ b.entryOffset + c.demand % 2 ^ 16 ≤ b.dataOffset := by
  have hentry : entrySize = 6 := rfl
  have hattr : attributesSize = 8 := rfl
  have hsum : entrySize + c.key.length + attributesSize = 14 + c.key.length := by omega
  rw [OpenNode.hasEnoughSpace, decide_eq_true_eq, AddCall.demand, hsum]
  simp only [Nat.shiftRight_eq_div_pow]

theorem room_of_returns (h : Filled w.opened es) {w' : NodeWriter} {r : Nat} (hadd : c.addTo w = .ok (w', some r)) :
    r = min (w.opened.free - (14 + c.key.length)) c.value.length ∧ 14 + c.key.length ≤ w.opened.free ∧
      w'.opened.free = w.opened.free - (14 + c.key.length) - r := by
  have hentry : entrySize = 6 := rfl
  have hattr : attributesSize = 8 := rfl
  rcases (NodeWriter.add_yields h.dataOffset_le c.key c.value c.eor c.deleted c.attributes.val c.noSplit).of_ok hadd
    with ⟨hnone, -, -⟩ | ⟨size, hsome, -, -, hsize, hfit, hpush⟩
  · exact absurd hnone (by simp)
  · have hr : r = size := Option.some.inj hsome
    subst hr
    have hle : r ≤ c.value.length := hsize ▸ Nat.min_le_right _ _
    have htake : (c.value.take r).length = r := by
      rw [List.length_take]
      exact Nat.min_eq_left hle
    rw [NodeWriter.partOf] at hsize
    rw [OpenNode.free, OpenNode.free, show w'.opened = _ from hpush]
    simp only [OpenNode.push, NodeWriter.entryFor, htake]
    omega

theorem none_iff (h : Filled w.opened es) {w' : NodeWriter} {res : Option Nat} (hadd : c.addTo w = .ok (w', res)) :
    res = none ↔ w.opened.free < c.demand % 2 ^ 16 := by
  have hle := h.room
  have hspace := hasEnoughSpace_demand w.opened c
  rw [OpenNode.free]
  rcases (NodeWriter.add_filled h c.key c.value c.eor c.deleted c.attributes.isLt c.noSplit).of_ok hadd with
    ⟨hnone, hfull, -⟩ | ⟨size, hsome, henough, -⟩
  · have hno := (not_congr hspace).mp (Bool.eq_false_iff.mp hfull)
    exact iff_of_true hnone (by omega)
  · have hyes := hspace.mp henough
    exact iff_of_false (by rw [show res = some size from hsome]; simp) (by omega)

/-- Where there is room for what comes beside the value, or no space at all, add returns. -/
theorem addTo_returns (h : Filled w.opened es) (c : AddCall)
    (hroom : c.demand % 2 ^ 16 ≤ w.opened.free → 14 + c.key.length ≤ w.opened.free) :
    ∃ w' res, c.addTo w = .ok (w', res) := by
  have hle := h.room
  by_cases hspace : w.opened.hasEnoughSpace c.key c.value c.noSplit = true
  · have hdemand := (hasEnoughSpace_demand w.opened c).mp hspace
    rw [OpenNode.free] at hroom
    have hbeside := hroom (by omega)
    obtain ⟨w', hadd⟩ := @add_part w es c.key c.value c.eor c.deleted c.noSplit c.attributes.val c.key_ne c.key_fits h
      hspace (by omega)
    exact ⟨w', _, hadd⟩
  · exact ⟨_, _, NodeWriter.add_none c.key_ne c.key_fits (Bool.eq_false_iff.mpr hspace)⟩

/-- An add that returns has done what is asked of it, but for the least of the value. -/
theorem faithful_of_returns (h : Filled w.opened es) {w' : NodeWriter} {res : Option Nat}
    (hadd : c.addTo w = .ok (w', res)) :
    res = none ∧ w'.opened = w.opened ∨ ∃ r, res = some r ∧ r ≤ c.value.length ∧
      w'.opened.node.entries = w.opened.node.entries ++
        [⟨c.key, c.value.take r, c.eor && r = c.value.length, c.deleted, c.attributes.val⟩] ∧ w'.opened.Apart := by
  rcases (NodeWriter.add_filled h c.key c.value c.eor c.deleted c.attributes.isLt c.noSplit).of_ok hadd with
    ⟨hnone, -, hnode⟩ | ⟨size, hsome, -, hsize, hfilled⟩
  · have hnode : w'.node = some w.opened := hnode
    exact .inl ⟨hnone, by rw [NodeWriter.opened, hnode, Option.getD_some]⟩
  · refine .inr ⟨size, hsome, hsize ▸ Nat.min_le_right _ _, ?_, hfilled.apart⟩
    rw [hfilled.node_entries, h.node_entries]
    rfl

/-- A node does what is asked of it if and only if the demand fits in 16 bits, or is
refused after it has wrapped around, or there is room for what it stands for. -/
theorem add_faithful_iff (h : w.Reached) (c : AddCall) : AddsFaithfully w c ↔
    c.demand < 2 ^ 16 ∨ w.opened.free < c.demand % 2 ^ 16 ∨ c.least ≤ w.opened.free := by
  obtain ⟨es, hfilled⟩ := h.filled
  have hdemand : c.demand < 2 ^ 16 ∨ 16 ≤ c.value.length := by
    have hmax : maxKeySize = 1024 := rfl
    have hfits := c.key_fits
    rw [AddCall.demand]
    split <;> omega
  have hleast : 14 + c.key.length ≤ c.least := Nat.le_add_right ..
  constructor
  · rintro ⟨w', res, hadd, hfaithful⟩
    by_cases hwhole : c.demand < 2 ^ 16
    · exact .inl hwhole
    refine .inr ?_
    by_cases hrefused : w.opened.free < c.demand % 2 ^ 16
    · exact .inl hrefused
    refine .inr ?_
    rcases hfaithful with ⟨hnone, -⟩ | ⟨r, rfl, -, -, -, hsplit⟩
    · exact absurd ((none_iff hfilled hadd).mp hnone) hrefused
    obtain ⟨hr, hbeside, -⟩ := room_of_returns hfilled hadd
    rw [AddCall.least]
    by_cases hno : c.noSplit = true
    · rw [if_pos hno]
      exact hbeside
    · have hmin := hsplit (Bool.eq_false_iff.mpr hno)
      rw [if_neg hno]
      omega
  · intro hcond
    have hroom : c.demand % 2 ^ 16 ≤ w.opened.free → 14 + c.key.length ≤ w.opened.free := by
      intro hfree
      rcases hcond with hwhole | hrefused | henough
      · rw [Nat.mod_eq_of_lt hwhole] at hfree
        exact Nat.le_trans (Nat.le_add_right ..) hfree
      · omega
      · exact Nat.le_trans hleast henough
    obtain ⟨w', res, hadd⟩ := addTo_returns hfilled c hroom
    refine ⟨w', res, hadd, (faithful_of_returns hfilled hadd).imp_right ?_⟩
    rintro ⟨r, rfl, hle, hentries, hapart⟩
    refine ⟨r, rfl, hle, hentries, hapart, fun hsplit => ?_⟩
    obtain ⟨hr, -, -⟩ := room_of_returns hfilled hadd
    have hspace : ¬ w.opened.free < c.demand % 2 ^ 16 := fun hrefused =>
      Option.some_ne_none r ((none_iff hfilled hadd).mpr hrefused)
    have hno : ¬ c.noSplit = true := Bool.eq_false_iff.mp hsplit
    rw [AddCall.least, AddCall.demand, if_neg hno, if_neg hno] at hcond
    rw [AddCall.demand, if_neg hno] at hspace
    omega

def shortKey (value : List Byte) (noSplit : Bool) : AddCall where
  key := [1]
  value := value
  eor := true
  deleted := false
  attributes := 0
  noSplit := noSplit
  key_ne := by simp
  key_fits := by simp [maxKeySize]

theorem demand_shortKey (value : List Byte) (noSplit : Bool) : (shortKey value noSplit).demand =
    15 + if noSplit then value.length else max 16 (value.length / 8) := rfl

theorem exists_holding (n : Nat) (hn : n ≤ 8110) : ∃ w : NodeWriter, w.Reached ∧ w.opened.free = 8111 - n := by
  let first := shortKey (List.replicate n 0) true
  have hfree : (NodeWriter.opened {}).free = 8126 := rfl
  have hkey : first.key.length = 1 := rfl
  have hlength : first.value.length = n := List.length_replicate
  have hdemand : first.demand = 15 + n := by rw [demand_shortKey, if_pos rfl, List.length_replicate]
  obtain ⟨w, res, hadd⟩ := addTo_returns emptied_filled first (fun _ => by rw [hfree, hkey]; decide)
  have hsome : res ≠ none := by
    rw [Ne, none_iff emptied_filled hadd, hfree, hdemand]
    omega
  obtain ⟨r, rfl⟩ := Option.ne_none_iff_exists'.mp hsome
  obtain ⟨hr, -, hleft⟩ := room_of_returns emptied_filled hadd
  rw [hfree, hkey, hlength] at hr
  rw [hfree, hkey] at hleft
  exact ⟨w, ⟨[first], by rw [List.foldlM_cons, hadd]; rfl⟩, by omega⟩

/-- A value that has to be split is added behind another entry. -/
theorem add_faithful_iff_behind : ∃ w : NodeWriter, w.Reached ∧ w.opened.free = 111 ∧
    AddsFaithfully w (shortKey (List.replicate 200 0) false) := by
  obtain ⟨w, hreached, hfree⟩ := exists_holding 8000 (by decide)
  refine ⟨w, hreached, hfree, (add_faithful_iff hreached (shortKey (List.replicate 200 0) false)).mpr (.inl ?_)⟩
  rw [demand_shortKey, if_neg Bool.false_ne_true, List.length_replicate]
  decide

/-- A node in which ten bytes are free, and a value whose demand is 2 ^ 16: the node
is said to have space for it, and the first assertion of copy, partial_size < 16384, fails. -/
theorem not_add_faithful : ∃ w : NodeWriter, w.Reached ∧ w.opened.free = 10 ∧
    (shortKey (List.replicate 524168 0) false).demand = 2 ^ 16 ∧
    ¬ AddsFaithfully w (shortKey (List.replicate 524168 0) false) := by
  have hdemand : (shortKey (List.replicate 524168 0) false).demand = 2 ^ 16 := by
    rw [demand_shortKey, if_neg Bool.false_ne_true, List.length_replicate]
    rfl
  obtain ⟨w, hreached, hten⟩ := exists_holding 8101 (by decide)
  refine ⟨w, hreached, hten, hdemand, ?_⟩
  obtain ⟨es, hfilled⟩ := hreached.filled
  rintro ⟨w', res, hadd', -⟩
  cases res with
  | none =>
      have hfew := (none_iff hfilled hadd').mp rfl
      rw [hten, hdemand] at hfew
      exact absurd hfew (by decide)
  | some r' =>
      obtain ⟨-, hbeside, -⟩ := room_of_returns hfilled hadd'
      rw [hten] at hbeside
      exact absurd hbeside (by decide)

end Tyrdbs.Slices
