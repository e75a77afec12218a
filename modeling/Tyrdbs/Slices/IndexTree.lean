import Tyrdbs.Slices.Store

namespace Tyrdbs.Slices

open Outcome SpanTree

def Entry.span (e : Entry) : Span Key Nat := ⟨e.key, e.value, e.attributes⟩

def entryOf (s : Span Key Nat) : Entry := ⟨s.first, s.last, true, false, s.target⟩

/-- The spans that the node stored at a location holds. -/
def Sink.Holds (s : Sink) (location : Nat) (spans : List (Span Key Nat)) : Prop :=
  ∃ es, (location, es) ∈ contents s.nodes ∧ es.map Entry.span = spans

abbrev Leaf (location : Nat) : Prop := isLeafFrom location = true

structure Fits (s : Span Key Nat) : Prop where
  first_ne : s.first ≠ []
  first_fits : s.first.length < maxKeySize
  last_fits : s.last.length < maxKeySize
  target_fits : s.target < 2 ^ 64

/-- A level's node with the leaves below each of its entries. -/
structure LevelHolds (s : Sink) (height : Nat) (level : IndexLevel)
    (parts : List (Span Key Nat × List (Span Key Nat))) : Prop where
  filled : Filled level.node.opened (parts.map (fun p => entryOf p.1))
  below : ∀ p ∈ parts, Below s.Holds Leaf height p.1 p.2
  idle : parts = [] → level.firstKey = []
  covers : parts ≠ [] → ∀ location, Hull ⟨level.firstKey, level.lastKey, location⟩ (parts.flatMap Prod.snd) ∧
    (location < 2 ^ 64 → Fits ⟨level.firstKey, level.lastKey, location⟩)

/-- The levels from one height on, and all the leaves they were given: what a
higher level holds lies before what stands in this one. -/
def Levels (s : Sink) : Nat → List IndexLevel → List (Span Key Nat) → Prop
  | _, [], spans => spans = []
  | height, level :: higher, spans =>
      ∃ parts upper, LevelHolds s height level parts ∧ spans = upper ++ parts.flatMap Prod.snd ∧
        Levels s (height + 1) higher upper ∧ (spans ≠ [] → parts ≠ [])

section Growth

variable {s s' : Sink} (hs : contents s.nodes <+: contents s'.nodes)

include hs

theorem Sink.Holds.mono {location : Nat} {spans : List (Span Key Nat)} (h : s.Holds location spans) :
    s'.Holds location spans := by
  obtain ⟨es, hmem, heq⟩ := h
  exact ⟨es, hs.mem hmem, heq⟩

theorem below_mono {height : Nat} {e : Span Key Nat} {g : List (Span Key Nat)}
    (h : Below s.Holds Leaf height e g) : Below s'.Holds Leaf height e g :=
  h.imp_right (fun hsub => ⟨hsub.1, hsub.2.1, hsub.2.2.mono (fun _ _ hh => hh.mono hs)⟩)

theorem LevelHolds.mono {height : Nat} {level : IndexLevel}
    {parts : List (Span Key Nat × List (Span Key Nat))} (h : LevelHolds s height level parts) :
    LevelHolds s' height level parts :=
  ⟨h.filled, fun p hp => below_mono hs (h.below p hp), h.idle, h.covers⟩

theorem Levels.mono {height : Nat} {levels : List IndexLevel} {spans : List (Span Key Nat)}
    (h : Levels s height levels spans) : Levels s' height levels spans := by
  induction levels generalizing height spans with
  | nil => exact h
  | cons level higher ih =>
      obtain ⟨parts, upper, hlevel, rfl, hupper, hne⟩ := h
      exact ⟨parts, upper, hlevel.mono hs, rfl, ih hupper, hne⟩

end Growth

theorem levelHolds_idle (s : Sink) (height : Nat) : LevelHolds s height {} [] where
  filled := internalReset_filled
  below p hp := absurd hp (by simp)
  idle _ := rfl
  covers h := absurd rfl h

theorem Levels.head {s : Sink} {height : Nat} {levels : List IndexLevel} {spans : List (Span Key Nat)}
    (h : Levels s height levels spans) :
    ∃ parts upper, LevelHolds s height (levels.headD {}) parts ∧
      spans = upper ++ parts.flatMap Prod.snd ∧ Levels s (height + 1) levels.tail upper ∧
      (spans ≠ [] → parts ≠ []) := by
  cases levels with
  | nil =>
      exact ⟨[], [], levelHolds_idle s height, h, rfl, fun hne => absurd h hne⟩
  | cons level higher => exact h

theorem hasEnoughSpace_internalReset {e : Span Key Nat} (h : Fits e) {b : OpenNode} (hb : Filled b []) :
    b.hasEnoughSpace e.first e.last true = true ∧ NodeWriter.partOf b e.first e.last = e.last.length := by
  have hfirst := h.first_fits
  have hlast := h.last_fits
  have hentry : entrySize = 6 := rfl
  have hattr : attributesSize = 8 := rfl
  have hkey : maxKeySize = 1024 := rfl
  have hsize : nodeSize = 8128 := rfl
  have hdata := hb.empty rfl
  have hoff := hb.entryOffset_eq
  simp only [List.length_nil] at hoff
  constructor
  · simp only [OpenNode.hasEnoughSpace, if_true, decide_eq_true_eq]
    omega
  · rw [NodeWriter.partOf]
    omega

theorem add_span {w : NodeWriter} {parts : List (Span Key Nat × List (Span Key Nat))} {e : Span Key Nat}
    (h : Filled w.opened (parts.map (fun p => entryOf p.1))) (hf : Fits e) (g : List (Span Key Nat)) :
    Yields (fun _ => True)
      (fun r => (r.2 = none ∧ parts ≠ [] ∧ r.1.opened = w.opened) ∨
        ∃ size, r.2 = some size ∧ ((size = e.last.length ∨ parts = []) →
          Filled r.1.opened ((parts ++ [(e, g)]).map (fun p => entryOf p.1))))
      (w.add e.first e.last true false e.target true) := by
  refine (NodeWriter.add_filled h e.first e.last true false hf.target_fits true).mono ?_
  rintro ⟨w', res⟩ (⟨rfl, hspace, hw'⟩ | ⟨size, rfl, hspace, hsize, hfilled⟩)
  · left
    have hw' : w'.node = some w.opened := hw'
    refine ⟨rfl, fun hnil => ?_, by rw [NodeWriter.opened, hw', Option.getD_some]⟩
    subst hnil
    rw [(hasEnoughSpace_internalReset hf h).1] at hspace
    exact absurd hspace (by decide)
  · right
    refine ⟨size, rfl, fun hwhole => ?_⟩
    have hwhole : size = e.last.length := by
      rcases hwhole with hwhole | rfl
      · exact hwhole
      · rw [hsize]
        exact (hasEnoughSpace_internalReset hf h).2
    have hentry : NodeWriter.entryFor e.first e.last true false e.target size = entryOf e := by
      rw [NodeWriter.entryFor, entryOf, hwhole, List.take_length]
      simp
    rw [List.map_append, List.map_singleton, ← hentry]
    exact hfilled

theorem LevelHolds.push {s : Sink} {height : Nat} {level : IndexLevel} {node : NodeWriter}
    {parts : List (Span Key Nat × List (Span Key Nat))} {e : Span Key Nat} {g : List (Span Key Nat)}
    (h : LevelHolds s height level parts) (hb : Below s.Holds Leaf height e g) (hf : Fits e)
    (hfilled : Filled node.opened ((parts ++ [(e, g)]).map (fun p => entryOf p.1))) :
    LevelHolds s height ⟨node, if level.firstKey = [] then e.first else level.firstKey, e.last⟩
      (parts ++ [(e, g)]) where
  filled := hfilled
  below p hp := by
    rcases List.mem_append.mp hp with hp | hp
    · exact h.below p hp
    · rw [List.mem_singleton.mp hp]
      exact hb
  idle hnil := absurd hnil (by simp)
  covers _ location := by
    obtain ⟨⟨t, ht, htfirst⟩, u, hu, hulast⟩ := hb.hull
    have hlast : ((parts ++ [(e, g)]).flatMap Prod.snd).getLast? = some u := by
      rw [List.flatMap_append, List.flatMap_singleton, List.getLast?_append, hu]
      rfl
    by_cases hparts : parts = []
    · rw [if_pos (h.idle hparts), hparts]
      refine ⟨⟨⟨t, by simpa using ht, htfirst⟩, u, by simpa using hu, hulast⟩, fun hl => ?_⟩
      exact ⟨hf.first_ne, hf.first_fits, hf.last_fits, hl⟩
    · obtain ⟨⟨⟨v, hv, hvfirst⟩, -⟩, -⟩ := h.covers hparts location
      have hfits := (h.covers hparts 0).2 (by decide)
      rw [if_neg hfits.first_ne]
      refine ⟨⟨⟨v, ?_, hvfirst⟩, u, hlast, hulast⟩, fun hl => ?_⟩
      · rw [List.flatMap_append, List.head?_append, hv]
        rfl
      · exact ⟨hfits.first_ne, hfits.first_fits, hf.last_fits, hl⟩

theorem LevelHolds.store {z : Codec} {s s' : Sink} {height location : Nat} {level : IndexLevel}
    {node : NodeWriter} {parts : List (Span Key Nat × List (Span Key Nat))}
    (h : LevelHolds s height level parts) (hne : parts ≠ []) (hnode : node.opened = level.node.opened)
    (hst : Stores z s node false s' location) :
    Below s'.Holds Leaf (height + 1) ⟨level.firstKey, level.lastKey, location⟩ (parts.flatMap Prod.snd) ∧
      Fits ⟨level.firstKey, level.lastKey, location⟩ ∧ contents s.nodes <+: contents s'.nodes := by
  have hgrow : contents s.nodes <+: contents s'.nodes := ⟨_, hst.contents_eq.symm⟩
  obtain ⟨hhull, hfits⟩ := h.covers hne location
  refine ⟨Or.inr ⟨?_, hhull, parts, hne, ?_, rfl, fun p hp => below_mono hgrow (h.below p hp)⟩,
    hfits hst.location_lt, hgrow⟩
  · rw [Leaf, hst.isLeafFrom_eq]
    decide
  · refine ⟨parts.map (fun p => entryOf p.1), ?_, ?_⟩
    · rw [hst.contents_eq, contents_stored (hnode ▸ h.filled)]
      simp
    · rw [List.map_map]
      rfl

section Index

variable {z : Codec} {P : Sink → Prop}
  (hP : ∀ s s' w location es, P s → Filled w.opened es → es ≠ [] → Stores z s w false s' location → P s')

include hP

theorem indexAdd_grows (rounds : Nat) {s : Sink} {height : Nat} {levels : List IndexLevel}
    {spans : List (Span Key Nat)} {e : Span Key Nat} {g : List (Span Key Nat)} (hs : P s)
    (h : Levels s height levels spans) (hb : Below s.Holds Leaf height e g) (hf : Fits e) :
    Yields (fun _ => True)
      (fun r => P r.1 ∧ contents s.nodes <+: contents r.1.nodes ∧ Levels r.1 height r.2 (spans ++ g))
      (indexAdd z rounds s levels e.first e.last e.target) := by
  induction rounds generalizing s height levels spans e g with
  | zero => trivial
  | succ rounds ih =>
      obtain ⟨parts, upper, hlevel, rfl, hupper, -⟩ := h.head
      rw [indexAdd]
      refine (add_span hlevel.filled hf g).bind ?_
      rintro ⟨node, res⟩ (⟨rfl, hne, hnode⟩ | ⟨size, rfl, hfilled⟩)
      · -- the node is full: store it, begin another one, pass its hull upwards
        refine (store_yields z s node false).bind ?_
        rintro ⟨s₁, node₁, stored⟩ ⟨hst, rfl⟩
        have hs₁ := hP _ _ _ _ _ hs (hnode ▸ hlevel.filled) (List.map_eq_nil_iff.not.mpr hne) hst
        obtain ⟨hbelow, hfits, hgrow⟩ := hlevel.store hne hnode hst
        refine (add_span (levelHolds_idle s₁ height).filled hf g).bind ?_
        rintro ⟨node₂, res₂⟩ (⟨-, habs, -⟩ | ⟨size, -, hfilled⟩)
        · exact absurd rfl habs
        have hkey : (if (levels.headD {}).firstKey = [] then e.first else (levels.headD {}).firstKey) =
            (levels.headD {}).firstKey := if_neg hfits.first_ne
        simp only [hkey]
        refine (ih hs₁ (hupper.mono hgrow) hbelow hfits).bind ?_
        rintro ⟨s₂, higher⟩ ⟨hs₂, hgrow₂, hhigher⟩
        have hall := hgrow.trans hgrow₂
        refine ⟨hs₂, hall, [(e, g)], _, ?_, ?_, hhigher, fun _ => by simp⟩
        · exact (levelHolds_idle s₂ height).push (below_mono hall hb) hf (hfilled (Or.inr rfl))
        · simp only [List.flatMap_singleton, List.append_assoc]
      · refine (require_yields _ _).bind (fun _ hsize => ?_)
        refine ⟨hs, List.prefix_rfl, parts ++ [(e, g)], upper, ?_, ?_, hupper, fun _ => by simp⟩
        · exact hlevel.push hb hf (hfilled (Or.inl hsize))
        · simp only [List.flatMap_append, List.flatMap_singleton, List.append_assoc]

theorem indexFlush_grows (rounds : Nat) {s : Sink} {height : Nat} {levels : List IndexLevel}
    {spans : List (Span Key Nat)} (hs : P s) (h : Levels s height levels spans) (hne : spans ≠ []) :
    Yields (fun _ => True)
      (fun r => P r.1 ∧ contents s.nodes <+: contents r.1.nodes ∧ ∃ top, Spans r.1.Holds Leaf top r.2 spans)
      (indexFlush z rounds s levels) := by
  induction rounds generalizing s height levels spans with
  | zero => trivial
  | succ rounds ih =>
      obtain ⟨parts, upper, hlevel, rfl, hupper, hparts⟩ := h.head
      have hparts := hparts hne
      rw [indexFlush]
      refine (store_yields z s _ false).bind ?_
      rintro ⟨s₁, node₁, location⟩ ⟨hst, -⟩
      have hs₁ := hP _ _ _ _ _ hs hlevel.filled (List.map_eq_nil_iff.not.mpr hparts) hst
      obtain ⟨hbelow, hfits, hgrow⟩ := hlevel.store hparts rfl hst
      by_cases htop : levels.tail = []
      · simp only [if_pos htop]
        rw [htop] at hupper
        have hnil : upper = [] := hupper
        rw [hnil, List.nil_append]
        have hleaf : ¬ Leaf location := by
          rw [Leaf, hst.isLeafFrom_eq]
          decide
        exact ⟨hs₁, hgrow, height + 1, (hbelow.resolve_left (fun hl => hleaf hl.1)).2.2⟩
      · simp only [if_neg htop]
        refine (indexAdd_grows hP rounds hs₁ (hupper.mono hgrow) hbelow hfits).bind ?_
        rintro ⟨s₂, higher⟩ ⟨hs₂, hgrow₂, hhigher⟩
        refine (ih hs₂ hhigher hne).mono ?_
        rintro r ⟨hs₃, hgrow₃, hspans⟩
        exact ⟨hs₃, (hgrow.trans hgrow₂).trans hgrow₃, hspans⟩

end Index

theorem indexAdd_levels (z : Codec) (rounds : Nat) {s : Sink} {height : Nat} {levels : List IndexLevel}
    {spans : List (Span Key Nat)} {e : Span Key Nat} {g : List (Span Key Nat)}
    (h : Levels s height levels spans) (hb : Below s.Holds Leaf height e g) (hf : Fits e) :
    Yields (fun _ => True)
      (fun r => contents s.nodes <+: contents r.1.nodes ∧ Levels r.1 height r.2 (spans ++ g))
      (indexAdd z rounds s levels e.first e.last e.target) :=
  (indexAdd_grows (P := fun _ => True) (fun _ _ _ _ _ _ _ _ _ => trivial) rounds trivial h hb hf).mono
    (fun _ hr => hr.2)

theorem indexFlush_spans (z : Codec) (rounds : Nat) {s : Sink} {height : Nat} {levels : List IndexLevel}
    {spans : List (Span Key Nat)} (h : Levels s height levels spans) (hne : spans ≠ []) :
    Yields (fun _ => True)
      (fun r => contents s.nodes <+: contents r.1.nodes ∧ ∃ top, Spans r.1.Holds Leaf top r.2 spans)
      (indexFlush z rounds s levels) :=
  (indexFlush_grows (P := fun _ => True) (fun _ _ _ _ _ _ _ _ _ => trivial) rounds trivial h hne).mono
    (fun _ hr => hr.2)

end Tyrdbs.Slices
