import Tyrdbs.Slices.LongValues
import Mathlib.Tactic.Ring

namespace Tyrdbs.Slices

open Outcome SpanTree

/-- A level whose node has space for a span, whichever it is. -/
def Roomy (level : IndexLevel) : Prop :=
  ∀ e, Fits e → level.node.opened.hasEnoughSpace e.first e.last true = true

def spanSize (e : Span Key Nat) : Nat := e.first.length + e.last.length + attributesSize

section Spans

variable {w : NodeWriter} {parts : List (Span Key Nat × List (Span Key Nat))} {e : Span Key Nat}

theorem hasEnoughSpace_span {b : OpenNode} (hf : Fits e) : b.hasEnoughSpace e.first e.last true = true ↔
    b.entryOffset + entrySize + e.first.length + e.last.length + attributesSize ≤ b.dataOffset := by
  have hfirst := hf.first_fits
  have hlast := hf.last_fits
  have hkey : maxKeySize = 1024 := rfl
  have hentry : entrySize = 6 := rfl
  have hattr : attributesSize = 8 := rfl
  simp only [OpenNode.hasEnoughSpace, if_true, decide_eq_true_eq]
  omega

theorem add_span_returns (hf : Fits e) (h : Filled w.opened (parts.map (fun p => entryOf p.1)))
    (hspace : w.opened.hasEnoughSpace e.first e.last true = true) :
    ∃ node, w.add e.first e.last true false e.target true = .ok (node, some e.last.length) ∧
      node.opened.dataOffset + spanSize e = w.opened.dataOffset ∧
      (parts = [] → ∀ firstKey lastKey, Roomy ⟨node, firstKey, lastKey⟩) := by
  have hfit := (hasEnoughSpace_span hf).mp hspace
  obtain ⟨b, hadd, hentry, hdata⟩ := @NodeWriter.add_whole e.first e.last true false true e.target w hf.first_ne
    hf.first_fits hspace h.dataOffset_le hfit
  have hspent : b.dataOffset + spanSize e = w.opened.dataOffset := by
    rw [spanSize, hdata]
    omega
  refine ⟨{ node := some b }, hadd, hspent, fun hnil firstKey lastKey e' hf' => (hasEnoughSpace_span hf').mpr ?_⟩
  have hnone : parts.map (fun p => entryOf p.1) = [] := List.map_eq_nil_iff.mpr hnil
  have hstart := h.entryOffset_eq
  rw [hnone, List.length_nil] at hstart
  have hend := h.empty hnone
  have hkey : maxKeySize = 1024 := rfl
  have hsize : nodeSize = 8128 := rfl
  have hsix : entrySize = 6 := rfl
  have hattr : attributesSize = 8 := rfl
  have h₁ := hf.first_fits
  have h₂ := hf.last_fits
  have h₃ := hf'.first_fits
  have h₄ := hf'.last_fits
  change b.entryOffset + _ + _ + _ + _ ≤ b.dataOffset
  omega

end Spans

section Index

variable {z : Codec} (hz : z.Bounded)

/-- The level at the front has space: nothing is stored. -/
theorem indexAdd_front {rounds : Nat} {s : Sink} {height : Nat} {levels : List IndexLevel}
    {spans : List (Span Key Nat)} {e : Span Key Nat} (h : Levels s height levels spans) (hf : Fits e)
    (hspace : (levels.headD {}).node.opened.hasEnoughSpace e.first e.last true = true) :
    ∃ level, indexAdd z (rounds + 1) s levels e.first e.last e.target = .ok (s, level :: levels.tail) ∧
      level.node.opened.dataOffset + spanSize e = (levels.headD {}).node.opened.dataOffset ∧
      (levels = [] → Roomy level) := by
  obtain ⟨parts, upper, hlevel, -, -, -⟩ := h.head
  obtain ⟨node, hadd, hspent, hroomy⟩ := add_span_returns hf hlevel.filled hspace
  refine ⟨⟨node, if (levels.headD {}).firstKey = [] then e.first else (levels.headD {}).firstKey, e.last⟩, ?_, hspent,
    ?_⟩
  · rw [indexAdd]
    simp only [hadd, ok_bind]
    rfl
  · rintro rfl
    have hnil : parts = [] := by
      have hcount := hlevel.filled.keyCount_eq
      rw [List.length_map] at hcount
      exact List.length_eq_zero_iff.mp hcount.symm
    exact hroomy hnil _ _

/-- What an add leaves: as many levels as there were, or one more and each of them
with hardly a span. Where there is but one level, its node has taken the span. -/
structure Added (s : Sink) (levels : List IndexLevel) (e : Span Key Nat) (r : Sink × List IndexLevel) : Prop where
  first_ne : r.1.firstNodeSize ≠ invalidSize
  size_le : r.1.file.length ≤ s.file.length + levels.length * nodePageSize
  count : r.2.length = levels.length ∨ r.2.length = levels.length + 1 ∧ ∀ level ∈ r.2, Roomy level
  levels_ne : r.2 ≠ []
  spent : r.2.length = 1 →
    (r.2.headD {}).node.opened.dataOffset + spanSize e = (levels.headD {}).node.opened.dataOffset

include hz

/-- An add returns as long as the file has room for a node of each level, however many
of them are full. The induction goes up the levels. -/
theorem indexAdd_returns {rounds : Nat} {s : Sink} {height : Nat} {levels : List IndexLevel}
    {spans g : List (Span Key Nat)} {e : Span Key Nat} (h : Levels s height levels spans)
    (hb : Below s.Holds Leaf height e g) (hf : Fits e) (hfirst : s.firstNodeSize ≠ invalidSize)
    (hrounds : levels.length + 1 ≤ rounds)
    (hroom : s.file.length + levels.length * nodePageSize < Storage.maxFileSize) :
    ∃ r, indexAdd z rounds s levels e.first e.last e.target = .ok r ∧ Added s levels e r := by
  induction rounds generalizing s height levels spans g e with
  | zero => omega
  | succ rounds ih =>
      cases hspace : (levels.headD {}).node.opened.hasEnoughSpace e.first e.last true with
      | true =>
          obtain ⟨level, hadd, hspent, hroomy⟩ := @indexAdd_front z rounds s height levels spans e h hf hspace
          refine ⟨_, hadd, hfirst, Nat.le_add_right _ _, ?_, List.cons_ne_nil _ _, fun _ => hspent⟩
          cases levels with
          | nil => exact .inr ⟨rfl, fun l hl => List.mem_singleton.mp hl ▸ hroomy rfl⟩
          | cons l rest => exact .inl rfl
      | false =>
          obtain ⟨parts, upper, hlevel, rfl, hupper, -⟩ := h.head
          -- a level that is not there yet is not full
          have hne : parts ≠ [] := by
            rintro rfl
            rw [(hasEnoughSpace_internalReset hf hlevel.filled).1] at hspace
            cases hspace
          obtain ⟨level, rest, rfl⟩ : ∃ level rest, levels = level :: rest := by
            refine List.exists_cons_of_ne_nil ?_
            rintro rfl
            have hcount := hlevel.filled.keyCount_eq
            rw [List.length_map] at hcount
            exact hne (List.length_eq_zero_iff.mp hcount.symm)
          rw [List.length_cons] at hrounds hroom
          have hadd : ((level :: rest).headD {}).node.add e.first e.last true false e.target true =
              .ok ({ node := some level.node.opened }, none) := NodeWriter.add_none hf.first_ne hf.first_fits hspace
          obtain ⟨s₁, stored, hs₁, hst⟩ := @store_returns z s { node := some level.node.opened } false hz
            (.inl hfirst) (by rw [Nat.succ_mul] at hroom; omega)
          have hlen := (hst.length_lt hz).2
          have hnode : NodeWriter.opened { node := some level.node.opened } =
              ((level :: rest).headD {}).node.opened := rfl
          obtain ⟨hbelow, hfits, hgrow⟩ := hlevel.store hne hnode hst
          obtain ⟨node₂, hadd₂, -, hroomy⟩ := @add_span_returns {} [] e hf (levelHolds_idle s₁ height).filled
            (hasEnoughSpace_internalReset hf (levelHolds_idle s₁ height).filled).1
          obtain ⟨⟨s₂, higher⟩, hindex, hadded⟩ := ih (hupper.mono hgrow) hbelow hfits hst.first_ne
            (by rw [List.tail_cons]; omega) (by rw [List.tail_cons]; rw [Nat.succ_mul] at hroom; omega)
          refine ⟨(s₂, ⟨node₂, e.first, e.last⟩ :: higher), ?_, hadded.first_ne, ?_, ?_, List.cons_ne_nil _ _,
            fun hone => absurd (List.eq_nil_of_length_eq_zero (Nat.succ.inj hone)) hadded.levels_ne⟩
          · have hkey : ((level :: rest).headD {}).firstKey ≠ [] := hfits.first_ne
            rw [indexAdd]
            simp only [hadd, ok_bind, hs₁, hadd₂, if_neg hkey, hindex]
            rfl
          · have hsize := hadded.size_le
            rw [List.tail_cons] at hsize
            rw [List.length_cons, Nat.succ_mul]
            change s₂.file.length ≤ _ at hsize ⊢
            omega
          · rcases hadded.count with hsame | ⟨hmore, hall⟩
            · exact .inl (congrArg (· + 1) hsame)
            · refine .inr ⟨congrArg (· + 1) hmore, fun l hl => ?_⟩
              rcases List.mem_cons.mp hl with rfl | hl
              · exact hroomy rfl _ _
              · exact hall l hl

theorem indexFlush_roomy {rounds : Nat} {s : Sink} {height : Nat} {levels : List IndexLevel}
    {spans : List (Span Key Nat)} (h : Levels s height levels spans) (hne : spans ≠ [])
    (hroomy : ∀ level ∈ levels.tail, Roomy level) (hfirst : s.firstNodeSize ≠ invalidSize)
    (hrounds : levels.length + 1 ≤ rounds)
    (hroom : s.file.length + levels.length * nodePageSize < Storage.maxFileSize) :
    ∃ r, indexFlush z rounds s levels = .ok r := by
  induction rounds generalizing s height levels spans with
  | zero => omega
  | succ rounds ih =>
      obtain ⟨level, rest, rfl⟩ : ∃ level rest, levels = level :: rest := by
        refine List.exists_cons_of_ne_nil ?_
        rintro rfl
        exact hne h
      obtain ⟨parts, upper, hlevel, rfl, hupper, hparts⟩ := h
      rw [List.length_cons] at hrounds hroom
      obtain ⟨s₁, location, hs₁, hst⟩ := @store_returns z s level.node false hz (.inl hfirst)
        (by rw [Nat.succ_mul] at hroom; omega)
      have hlen := (hst.length_lt hz).2
      obtain ⟨hbelow, hfits, hgrow⟩ := hlevel.store (hparts hne) rfl hst
      have hs₁ : s.store z ((level :: rest).headD {}).node false = .ok (s₁, {}, location) := hs₁
      rw [indexFlush]
      simp only [hs₁, ok_bind]
      cases rest with
      | nil => exact ⟨_, rfl⟩
      | cons above rest =>
          rw [if_neg (show (level :: above :: rest).tail ≠ [] from List.cons_ne_nil _ _)]
          obtain ⟨rounds, rfl⟩ : ∃ more, rounds = more + 1 := Nat.exists_eq_add_of_le' (by simp at hrounds; omega)
          have hspace := hroomy above (List.mem_cons_self ..) _ hfits
          obtain ⟨level', hadd, -, -⟩ := @indexAdd_front z rounds s₁ (height + 1) (above :: rest) upper _
            (hupper.mono hgrow) hfits hspace
          have hadd : indexAdd z (rounds + 1) s₁ (level :: above :: rest).tail
              ((level :: above :: rest).headD {}).firstKey ((level :: above :: rest).headD {}).lastKey location =
                .ok (s₁, level' :: rest) := hadd
          have hlevels := (indexAdd_levels z (rounds + 1) (hupper.mono hgrow) hbelow hfits).of_ok hadd
          simp only [hadd, ok_bind]
          refine ih hlevels.2 hne (fun l hl => hroomy l (List.mem_cons_of_mem _ hl)) hst.first_ne ?_ ?_
          · exact Nat.le_of_succ_le_succ hrounds
          · rw [Nat.succ_mul] at hroom
            change s₁.file.length + (rest.length + 1) * nodePageSize < _
            change _ + ((rest.length + 1) * nodePageSize + _) < _ at hroom
            omega

/-- Flush returns as long as the file has room for a node of each level at each level.
The levels become fewer, but for the one time that all of them are full. -/
theorem indexFlush_returns {rounds : Nat} {s : Sink} {height : Nat} {levels : List IndexLevel}
    {spans : List (Span Key Nat)} (h : Levels s height levels spans) (hne : spans ≠ [])
    (hfirst : s.firstNodeSize ≠ invalidSize) (hrounds : 2 * levels.length + 2 ≤ rounds)
    (hroom : s.file.length + levels.length * (levels.length + 1) * nodePageSize < Storage.maxFileSize) :
    ∃ r, indexFlush z rounds s levels = .ok r := by
  induction rounds generalizing s height levels spans with
  | zero => omega
  | succ rounds ih =>
      obtain ⟨level, rest, rfl⟩ : ∃ level rest, levels = level :: rest := by
        refine List.exists_cons_of_ne_nil ?_
        rintro rfl
        exact hne h
      obtain ⟨parts, upper, hlevel, rfl, hupper, hparts⟩ := h
      rw [List.length_cons] at hrounds hroom
      have hpages : (rest.length + 1) * (rest.length + 1 + 1) * nodePageSize =
          rest.length * (rest.length + 1) * nodePageSize + rest.length * nodePageSize +
            (rest.length + 1) * nodePageSize + nodePageSize := by ring
      rw [hpages] at hroom
      obtain ⟨s₁, location, hs₁, hst⟩ := @store_returns z s level.node false hz (.inl hfirst) (by omega)
      have hlen := (hst.length_lt hz).2
      obtain ⟨hbelow, hfits, hgrow⟩ := hlevel.store (hparts hne) rfl hst
      have hs₁ : s.store z ((level :: rest).headD {}).node false = .ok (s₁, {}, location) := hs₁
      rw [indexFlush]
      simp only [hs₁, ok_bind]
      by_cases hrest : (level :: rest).tail = []
      · rw [if_pos hrest]
        exact ⟨_, rfl⟩
      rw [if_neg hrest]
      obtain ⟨⟨s₂, higher⟩, hadd, hadded⟩ := indexAdd_returns hz (hupper.mono hgrow) hbelow hfits hst.first_ne
        (by omega : rest.length + 1 ≤ rounds) (by omega)
      have hadd : indexAdd z rounds s₁ (level :: rest).tail ((level :: rest).headD {}).firstKey
          ((level :: rest).headD {}).lastKey location = .ok (s₂, higher) := hadd
      have hlevels := ((indexAdd_levels z rounds (hupper.mono hgrow) hbelow hfits).of_ok hadd).2
      have hsize : s₂.file.length ≤ s₁.file.length + rest.length * nodePageSize := hadded.size_le
      simp only [hadd, ok_bind]
      rcases hadded.count with hsame | ⟨hmore, hall⟩
      · have hsame : higher.length = rest.length := hsame
        exact ih hlevels hne hadded.first_ne (by omega) (by rw [hsame]; omega)
      · have hmore : higher.length = rest.length + 1 := hmore
        refine indexFlush_roomy hz hlevels hne (fun l hl => hall l (List.mem_of_mem_tail hl)) hadded.first_ne
          (by omega) ?_
        rw [hmore]
        omega

end Index

end Tyrdbs.Slices
