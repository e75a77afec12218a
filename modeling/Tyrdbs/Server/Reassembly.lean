import Tyrdbs.Server.Fetch

namespace Tyrdbs.Server.Fetch

open Bytes Message Outcome Ushard

def Entry.ofPart (p : Part) : Entry := ⟨entryFlags p.eor p.deleted, p.key, p.value⟩

/-- The parts that the calls of next find, up to the call that returns false. -/
inductive Leads : UshardIterator → List Part → Prop
  | ends {it it' : UshardIterator} (hnext : it.next = .ok (false, it')) : Leads it []
  | more {it it' : UshardIterator} {p : Part} {ps : List Part} (hnext : it.next = .ok (true, it'))
      (hcurrent : it'.current = .ok p) (h : Leads it' ps) : Leads it (p :: ps)

theorem leads_of_drain {rounds : Nat} {it : UshardIterator} {ps : List Part} (h : it.drain rounds = .ok ps) :
    Leads it ps := by
  induction rounds generalizing it ps with
  | zero => exact absurd h (by simp [UshardIterator.drain])
  | succ rounds ih =>
      rw [UshardIterator.drain] at h
      cases hnext : it.next with
      | error e =>
          rw [hnext] at h
          cases h
      | ok r =>
          obtain ⟨hasNext, it'⟩ := r
          rw [hnext, ok_bind] at h
          cases hasNext with
          | false =>
              obtain rfl : [] = ps := Except.ok.inj h
              exact .ends hnext
          | true =>
              cases hcurrent : it'.current with
              | error e =>
                  simp only [hcurrent] at h
                  cases h
              | ok p =>
                  simp only [hcurrent, ok_bind] at h
                  cases hrest : it'.drain rounds with
                  | error e =>
                      simp only [hrest] at h
                      cases h
                  | ok rest =>
                      simp only [hrest] at h
                      obtain rfl : p :: rest = ps := Except.ok.inj h
                      exact .more hnext hcurrent (ih hrest)

/-- Parts that are sent as entries, up to those that are left: a part is sent as a
whole, or its value is cut and only the rest of the part carries its mark. -/
inductive Sends : List Part → List Entry → List Part → Prop
  | stops (ps : List Part) : Sends ps [] ps
  | cut {p : Part} {ps rest : List Part} {es : List Entry} {size : Nat} (hpos : 0 < size) (hlt : size < p.value.length)
      (h : Sends ({ p with value := p.value.drop size } :: ps) es rest) :
      Sends (p :: ps) (.ofPart { p with value := p.value.take size, eor := false } :: es) rest
  | whole {p : Part} {ps rest : List Part} {es : List Entry} (h : Sends ps es rest) :
      Sends (p :: ps) (.ofPart p :: es) rest

theorem Sends.trans {ps rest rest' : List Part} {es es' : List Entry} (h : Sends ps es rest)
    (h' : Sends rest es' rest') : Sends ps (es ++ es') rest' := by
  induction h with
  | stops ps => exact h'
  | cut hpos hlt _ ih => exact .cut hpos hlt (ih h')
  | whole _ ih => exact .whole (ih h')

/-- What is left to be sent, an entry for each byte and each part at most. -/
def weight (ps : List Part) : Nat := (ps.map (fun p => p.value.length + 1)).sum

theorem weight_cons (p : Part) (ps : List Part) : weight (p :: ps) = p.value.length + 1 + weight ps := by
  rw [weight, List.map_cons, List.sum_cons, weight]

theorem Sends.weight_le {ps rest : List Part} {es : List Entry} (h : Sends ps es rest) :
    es.length + weight rest ≤ weight ps := by
  induction h with
  | stops ps => exact Nat.le_of_eq (Nat.zero_add _)
  | cut hpos hlt _ ih =>
      rw [weight_cons, List.length_drop] at ih
      rw [weight_cons, List.length_cons]
      omega
  | whole _ ih =>
      rw [weight_cons, List.length_cons]
      omega

theorem Sends.values {ps rest : List Part} {es : List Entry} (h : Sends ps es rest) :
    es.flatMap Entry.value ++ rest.flatMap Part.value = ps.flatMap Part.value := by
  induction h with
  | stops ps => rfl
  | @cut p ps rest es size _ _ _ ih =>
      rw [List.flatMap_cons, List.append_assoc, ih, List.flatMap_cons, List.flatMap_cons, ← List.append_assoc]
      exact congrArg (· ++ ps.flatMap Part.value) (List.take_append_drop size p.value)
  | whole _ ih =>
      rw [List.flatMap_cons, List.append_assoc, ih, List.flatMap_cons]
      rfl

theorem Sends.rest_of {ps rest : List Part} {es : List Entry} (h : Sends ps es rest) {P : Part → Prop}
    (hdrop : ∀ (p : Part) n, P p → P { p with value := p.value.drop n }) (hps : ∀ p ∈ ps, P p) :
    (∀ p ∈ rest, P p) ∧ rest.length ≤ ps.length := by
  induction h with
  | stops ps => exact ⟨hps, Nat.le_refl _⟩
  | cut _ _ _ ih =>
      obtain ⟨hp, hps⟩ := List.forall_mem_cons.mp hps
      exact ih (List.forall_mem_cons.mpr ⟨hdrop _ _ hp, hps⟩)
  | whole _ ih =>
      obtain ⟨hrest, hlen⟩ := ih (List.forall_mem_cons.mp hps).2
      exact ⟨hrest, Nat.le_succ_of_le hlen⟩

theorem Sends.nil {rest : List Part} {es : List Entry} (h : Sends [] es rest) : es = [] ∧ rest = [] := by
  cases h
  exact ⟨rfl, rfl⟩

section Records

variable {r : Record} {v : List Byte} {vs : List (List Byte)} {rs : List Record} {es : List Entry}

def entriesOf (rs : List Record) : List Entry := (rs.flatMap Record.parts).map Entry.ofPart

theorem entriesOf_cons (r : Record) (rs : List Record) :
    entriesOf (r :: rs) = r.parts.map Entry.ofPart ++ entriesOf rs := by
  rw [entriesOf, List.flatMap_cons, List.map_append, entriesOf]

/-- Records with another way to cut their values into parts. -/
def Recut (rs : List Record) (es : List Entry) : Prop :=
  ∃ rs', es = entriesOf rs' ∧ rs'.map Record.version = rs.map Record.version

/-- The rest of a record, and records behind it. -/
def RecutFrom (r : Record) (vs : List (List Byte)) (rs : List Record) (es : List Entry) : Prop :=
  ∃ u us es', es = (r.partsOf (u :: us)).map Entry.ofPart ++ es' ∧ (u :: us).flatten = vs.flatten ∧ Recut rs es'

theorem RecutFrom.recut (h : RecutFrom r (r.value :: r.continuation) rs es) : Recut (r :: rs) es := by
  obtain ⟨u, us, es', rfl, hflat, rs', rfl, hversions⟩ := h
  refine ⟨{ r with value := u, continuation := us } :: rs', ?_, ?_⟩
  · rw [entriesOf_cons, parts_with]
  · rw [List.map_cons, List.map_cons, hversions]
    refine congrArg (· :: rs.map Record.version) ?_
    rw [Record.version, Record.version]
    exact congrArg (Version.mk r.key r.idx r.deleted) hflat

/-- The induction is on the entries; a part that is sent as a whole is followed by
another part of its record, by the next record or by nothing. -/
theorem Sends.recutFrom {ps rest : List Part} (h : Sends ps es rest) (hrest : rest = [])
    (hps : ps = r.partsOf (v :: vs) ++ rs.flatMap Record.parts) : RecutFrom r (v :: vs) rs es := by
  induction h generalizing r v vs rs with
  | stops ps =>
      rw [hrest] at hps
      exact absurd hps (by simp [Record.partsOf])
  | @cut p ps rest es size hpos hlt _ ih =>
      obtain ⟨rfl, rfl⟩ := List.cons.inj hps
      have hleft : { r.part v vs.isEmpty with value := v.drop size } :: (r.partsOf vs ++ rs.flatMap Record.parts) =
          r.partsOf (v.drop size :: vs) ++ rs.flatMap Record.parts := rfl
      obtain ⟨u, us, es', rfl, hflat, hrecut⟩ := ih hrest hleft
      refine ⟨v.take size, u :: us, es', rfl, ?_, hrecut⟩
      have hvalue : (r.part v vs.isEmpty).value = v := rfl
      rw [List.flatten_cons, hflat, List.flatten_cons, List.flatten_cons, ← List.append_assoc, List.take_append_drop]
  | @whole p ps rest es hsends ih =>
      obtain ⟨rfl, rfl⟩ := List.cons.inj hps
      cases vs with
      | cons w vs =>
          have hleft : r.partsOf (w :: vs) ++ rs.flatMap Record.parts = r.partsOf (w :: vs) ++ rs.flatMap Record.parts :=
            rfl
          obtain ⟨u, us, es', rfl, hflat, hrecut⟩ := ih hrest hleft
          refine ⟨v, u :: us, es', rfl, ?_, hrecut⟩
          rw [List.flatten_cons, hflat]
          rfl
      | nil =>
          cases rs with
          | nil =>
              obtain ⟨rfl, -⟩ := hsends.nil
              exact ⟨v, [], [], rfl, rfl, [], rfl, rfl⟩
          | cons r' rs =>
              have hleft : (r' :: rs).flatMap Record.parts =
                  r'.partsOf (r'.value :: r'.continuation) ++ rs.flatMap Record.parts := List.flatMap_cons
              exact ⟨v, [], es, rfl, rfl, (ih hrest hleft).recut⟩

theorem Sends.recut (h : Sends (rs.flatMap Record.parts) es []) : Recut rs es := by
  cases rs with
  | nil =>
      obtain ⟨rfl, -⟩ := h.nil
      exact ⟨[], rfl, rfl⟩
  | cons r rs => exact (h.recutFrom rfl (by rw [List.flatMap_cons]; rfl)).recut

end Records

end Tyrdbs.Server.Fetch
