import Tyrdbs.Slices.WriterSteps

namespace Tyrdbs.Slices

/-- What check demands of a part behind the last one. -/
structure Accepts (last : Key × Bool) (p : Part) : Prop where
  key_ne : p.key ≠ []
  key_fits : p.key.length < maxKeySize
  sorted : last.1 = [] ∨ ¬ p.key < last.1
  duplicate : last.1 = [] ∨ p.key ≠ last.1 ∨ last.2 = false ∧ p.deleted = false
  complete : last.1 = [] ∨ ¬ last.1 < p.key ∨ last.2 = true
  tombstone : p.deleted = false ∨ p.eor = true ∧ p.value = []

/-- Parts that are accepted one after the other, from one last part to another. -/
inductive Accepted : Key × Bool → List Part → Key × Bool → Prop
  | nil (last : Key × Bool) : Accepted last [] last
  | cons {last last' : Key × Bool} {p : Part} {ps : List Part} :
      Accepts last p → Accepted (p.key, p.eor) ps last' → Accepted last (p :: ps) last'

theorem Accepted.snoc {last last' : Key × Bool} {ps : List Part} {p : Part} (h : Accepted last ps last')
    (hp : Accepts last' p) : Accepted last (ps ++ [p]) (p.key, p.eor) := by
  induction h with
  | nil last => exact .cons hp (.nil _)
  | cons hq _ ih => exact .cons hq (ih hp)

/-- Parts and what became of them, each cut into pieces. -/
def Cut (calls out : List Part) : Prop :=
  ∃ cs : List (Part × List (List Byte)), cs.map Prod.fst = calls ∧
    (∀ c ∈ cs, c.2 ≠ [] ∧ c.2.flatten = c.1.value) ∧ out = cs.flatMap (fun c => pieces c.1 c.2)

theorem cut_nil : Cut [] [] := ⟨[], rfl, by simp, rfl⟩

theorem Cut.snoc {calls out : List Part} {p : Part} {vs : List (List Byte)} (h : Cut calls out)
    (hne : vs ≠ []) (hvs : vs.flatten = p.value) : Cut (calls ++ [p]) (out ++ pieces p vs) := by
  obtain ⟨cs, rfl, hcs, rfl⟩ := h
  refine ⟨cs ++ [(p, vs)], by simp, ?_, by simp⟩
  exact List.forall_mem_append.mpr ⟨hcs, List.forall_mem_singleton.mpr ⟨hne, hvs⟩⟩

section Grouping

theorem partsOf_append (r : Record) (us : List (List Byte)) {vs : List (List Byte)} (h : vs ≠ []) :
    r.partsOf (us ++ vs) = us.map (fun v => r.part v false) ++ r.partsOf vs := by
  induction us with
  | nil => rfl
  | cons u us ih =>
      have hempty : (us ++ vs).isEmpty = false := by simp [h]
      rw [List.cons_append, Record.partsOf, hempty, ih, List.map_cons, List.cons_append]

structure Of (p : Part) (r : Record) : Prop where
  key_eq : p.key = r.key
  idx_eq : p.idx = r.idx
  deleted_eq : p.deleted = r.deleted

theorem Of.part_eq {p : Part} {r : Record} (h : Of p r) : r.part p.value p.eor = p := by
  rw [Record.part, ← h.key_eq, ← h.idx_eq, ← h.deleted_eq]

theorem pieces_open {p : Part} {r : Record} (h : Of p r) (he : p.eor = false) (vs : List (List Byte)) :
    pieces p vs = vs.map (fun v => r.part v false) := by
  induction vs with
  | nil => rfl
  | cons v vs ih =>
      rw [pieces, ih, List.map_cons, Record.part, he, h.key_eq, h.idx_eq, h.deleted_eq]
      rfl

theorem pieces_last {p : Part} {r : Record} (h : Of p r) (he : p.eor = true) (vs : List (List Byte)) :
    pieces p vs = r.partsOf vs := by
  induction vs with
  | nil => rfl
  | cons v vs ih =>
      rw [pieces, ih, Record.partsOf, Record.part, he, h.key_eq, h.idx_eq, h.deleted_eq]
      rfl

/-- The records that whole parts and what was cut of them both stand for. -/
def Grouped (below : Key) (calls out : List Part) : Prop :=
  ∃ ws rs : List Record, calls = ws.flatMap Record.parts ∧ out = rs.flatMap Record.parts ∧
    rs.map Record.version = ws.map Record.version ∧ ws.Pairwise (fun w w' => w.key < w'.key) ∧
    ∀ w ∈ ws, below ≠ [] → below < w.key

theorem Grouped.cons {below : Key} {calls out : List Part} {w r : Record} (h : Grouped w.key calls out)
    (hv : r.version = w.version) (hb : below ≠ [] → below < w.key) :
    Grouped below (w.parts ++ calls) (r.parts ++ out) := by
  obtain ⟨ws, rs, rfl, rfl, hvs, hs, hw⟩ := h
  refine ⟨w :: ws, r :: rs, by simp, by simp, by simp [hv, hvs], ?_, ?_⟩
  · exact List.pairwise_cons.mpr ⟨fun w' hw' => hw w' hw' w.key_ne, hs⟩
  · rintro w' (_ | ⟨_, hw'⟩) hne
    · exact hb hne
    · exact (hb hne).trans (hw w' hw' w.key_ne)

/-- Behind the parts of an open record come its further parts, then whole
records. -/
def Continued (r : Record) (calls out : List Part) : Prop :=
  ∃ vs us calls' out', vs ≠ [] ∧ us ≠ [] ∧ us.flatten = vs.flatten ∧ calls = r.partsOf vs ++ calls' ∧
    out = r.partsOf us ++ out' ∧ Grouped r.key calls' out'

section Part

variable {p : Part} {r : Record} {v : List Byte} {us : List (List Byte)} {below : Key}
  {calls out : List Part}

theorem continued_last (hr : Of p r) (he : p.eor = true) (hv : (v :: us).flatten = p.value)
    (h : Grouped r.key calls out) : Continued r (p :: calls) (pieces p (v :: us) ++ out) := by
  refine ⟨[p.value], v :: us, calls, out, by simp, by simp, by simpa using hv, ?_, ?_, h⟩
  · rw [Record.partsOf, Record.partsOf, List.isEmpty_nil, ← he, hr.part_eq]
    rfl
  · rw [pieces_last hr he]

theorem continued_open (hr : Of p r) (he : p.eor = false) (hv : (v :: us).flatten = p.value)
    (h : Continued r calls out) : Continued r (p :: calls) (pieces p (v :: us) ++ out) := by
  obtain ⟨vs', us', calls', out', hvs', hus', heq, rfl, rfl, hgroup⟩ := h
  refine ⟨p.value :: vs', (v :: us) ++ us', calls', out', by simp, by simp, ?_, ?_, ?_, hgroup⟩
  · rw [List.flatten_append, hv, heq, List.flatten_cons]
  · have hempty : vs'.isEmpty = false := by simpa using hvs'
    rw [Record.partsOf, hempty, ← he, hr.part_eq]
    rfl
  · rw [pieces_open hr he, partsOf_append r (v :: us) hus', List.append_assoc]

theorem grouped_last (hr : Of p r) (he : p.eor = true) (hv : (v :: us).flatten = p.value)
    (hb : below ≠ [] → below < r.key) (h : Grouped r.key calls out) :
    Grouped below (p :: calls) (pieces p (v :: us) ++ out) := by
  have hgroup := h.cons (w := { r with value := p.value, continuation := [] })
    (r := { r with value := v, continuation := us }) ?_ hb
  · have hwhole : r.partsOf [p.value] = [p] := by
      rw [Record.partsOf, Record.partsOf, List.isEmpty_nil, ← he, hr.part_eq]
    rw [parts_with, parts_with, hwhole, ← pieces_last hr he] at hgroup
    exact hgroup
  · simp only [Record.version, List.flatten_nil, List.append_nil, ← hv, List.flatten_cons]

theorem grouped_open (hr : Of p r) (he : p.eor = false) (hv : (v :: us).flatten = p.value)
    (hb : below ≠ [] → below < r.key) (h : Continued r calls out) :
    Grouped below (p :: calls) (pieces p (v :: us) ++ out) := by
  obtain ⟨vs', us', calls', out', hvs', hus', heq, rfl, rfl, hgroup⟩ := h
  have hgroup := hgroup.cons (w := { r with value := p.value, continuation := vs' })
    (r := { r with value := v, continuation := us ++ us' }) ?_ hb
  · have hempty : vs'.isEmpty = false := by simpa using hvs'
    have hcut : r.partsOf (v :: (us ++ us')) = pieces p (v :: us) ++ r.partsOf us' := by
      rw [pieces_open hr he]
      exact partsOf_append r (v :: us) hus'
    rw [parts_with, parts_with, hcut, Record.partsOf, hempty, ← he, hr.part_eq, List.append_assoc] at hgroup
    exact hgroup
  · simp only [Record.version, List.flatten_append, heq, ← hv, List.flatten_cons, List.append_assoc]

end Part

theorem Accepts.below {last : Key × Bool} {p : Part} (h : Accepts last p) (hl : last.2 = true)
    (hne : last.1 ≠ []) : last.1 < p.key := by
  have hle := not_lt.mp (h.sorted.resolve_left hne)
  rcases h.duplicate.resolve_left hne with hd | ⟨hd, -⟩
  · exact lt_of_le_of_ne hle hd.symm
  · rw [hl] at hd
    exact absurd hd (by decide)

theorem Accepts.key_eq {last : Key × Bool} {p : Part} (h : Accepts last p) (hl : last.2 = false)
    (hne : last.1 ≠ []) : p.key = last.1 ∧ p.deleted = false := by
  have hle := not_lt.mp (h.sorted.resolve_left hne)
  have heq : p.key = last.1 := by
    rcases h.complete.resolve_left hne with hc | hc
    · exact le_antisymm (not_lt.mp hc) hle
    · rw [hl] at hc
      exact absurd hc (by decide)
  exact ⟨heq, ((h.duplicate.resolve_left hne).resolve_left (fun hk => hk heq)).2⟩

theorem Accepts.not_deleted {last : Key × Bool} {p : Part} (h : Accepts last p) (he : p.eor = false) :
    p.deleted = false := by
  rcases h.tombstone with hd | ⟨hd, -⟩
  · exact hd
  · rw [he] at hd
    exact absurd hd (by decide)

/-- The induction is on the parts: at the end of a record the rest is grouped,
inside a record it continues that record. -/
theorem grouped_of_accepted {cs : List (Part × List (List Byte))} {last last' : Key × Bool}
    (ha : Accepted last (cs.map Prod.fst) last') (hend : last'.2 = true)
    (hcs : ∀ c ∈ cs, c.2 ≠ [] ∧ c.2.flatten = c.1.value)
    (hi : ∀ c ∈ cs, ∀ c' ∈ cs, c.1.key = c'.1.key → c.1.idx = c'.1.idx) :
    (last.2 = true → Grouped last.1 (cs.map Prod.fst) (cs.flatMap (fun c => pieces c.1 c.2))) ∧
      ∀ r : Record, last.2 = false → r.key = last.1 → r.deleted = false →
        (∀ c ∈ cs, c.1.key = r.key → c.1.idx = r.idx) →
        Continued r (cs.map Prod.fst) (cs.flatMap (fun c => pieces c.1 c.2)) := by
  induction cs generalizing last with
  | nil =>
      cases ha
      refine ⟨fun _ => ⟨[], [], rfl, rfl, rfl, List.Pairwise.nil, by simp⟩, fun r hr => ?_⟩
      rw [hend] at hr
      exact absurd hr (by decide)
  | cons c cs ih =>
      obtain ⟨p, vs⟩ := c
      obtain ⟨hne, hflat⟩ := hcs _ (List.mem_cons_self ..)
      obtain ⟨hp, hrest⟩ : Accepts last p ∧ Accepted (p.key, p.eor) (cs.map Prod.fst) last' := by
        cases ha with
        | cons hp hrest => exact ⟨hp, hrest⟩
      obtain ⟨hwhole, hopen⟩ := ih hrest (fun c hc => hcs c (List.mem_cons_of_mem _ hc))
        (fun c hc c' hc' => hi c (List.mem_cons_of_mem _ hc) c' (List.mem_cons_of_mem _ hc'))
      have hidx : ∀ c ∈ cs, c.1.key = p.key → c.1.idx = p.idx := fun c hc =>
        hi c (List.mem_cons_of_mem _ hc) (p, vs) (List.mem_cons_self ..)
      obtain ⟨v, us, rfl⟩ := List.exists_cons_of_ne_nil hne
      rw [List.map_cons, List.flatMap_cons]
      constructor
      · intro hlast
        let r : Record := ⟨p.key, p.idx, p.deleted, [], [], hp.key_ne, hp.key_fits⟩
        have hr : Of p r := ⟨rfl, rfl, rfl⟩
        cases heor : p.eor with
        | true => exact grouped_last hr heor hflat (hp.below hlast) (hwhole heor)
        | false =>
            exact grouped_open hr heor hflat (hp.below hlast)
              (hopen r heor rfl (hp.not_deleted heor) hidx)
      · intro r hlast hrk hrd hri
        obtain ⟨hk, hd⟩ := hp.key_eq hlast (hrk ▸ r.key_ne)
        have hr : Of p r :=
          ⟨hk.trans hrk.symm, hri _ (List.mem_cons_self ..) (hk.trans hrk.symm), hd.trans hrd.symm⟩
        cases heor : p.eor with
        | true => exact continued_last hr heor hflat (hr.key_eq ▸ hwhole heor)
        | false =>
            exact continued_open hr heor hflat (hopen r heor hr.key_eq.symm hrd
              (fun c hc => hri c (List.mem_cons_of_mem _ hc)))

end Grouping

end Tyrdbs.Slices
