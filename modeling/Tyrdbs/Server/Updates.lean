import Tyrdbs.Library.Runs
import Tyrdbs.Ushard.Records
import Mathlib.Data.List.AList

namespace Tyrdbs.Server.Updates

open Runs

structure Entry where
  ushard : Nat
  key : Key
  value : List Byte
  eor : Bool
  deleted : Bool
  deriving DecidableEq

def Entry.part (idx : Nat) (e : Entry) : Part := ⟨e.key, e.value, e.eor, e.deleted, idx⟩

/-- A slice_writer stands for the parts that it has been given. -/
abbrev Slices := AList (fun _ : Nat => List Part)

/-- A writer, and the ushards whose slices have been flushed. -/
structure Writer where
  slices : Slices := ∅
  idx : Nat := 0
  flushed : List Nat := []

namespace Writer

def slice (w : Writer) (u : Nat) : List Part := (w.slices.lookup u).getD []

/-- One turn of update_entries; an entry that slice_writer::add rejects may
leave a new slice behind that is empty. -/
def addEntry (ushards : Nat) (w : Writer) (e : Entry) (accepted : Bool) : Writer :=
  let u := e.ushard % ushards
  { w with slices := w.slices.insert u (if accepted then w.slice u ++ [e.part w.idx] else w.slice u) }

/-- To flush a slice twice is an assertion. -/
def flush (w : Writer) : Option Writer :=
  if w.flushed = [] then some { w with flushed := w.slices.keys } else none

end Writer

/-- Where the latest call of a client is, or was when it returned: the entries
that are left, and whether they are the last of the update. -/
inductive Call
  | idle
  | creating (w : Writer) (rest : List Entry) (last : Bool)
  | opened (handle : Nat) (complete : Bool)
  | updating (handle : Nat) (rest : List Entry) (last : Bool)

/-- A client with the entries that the server has accepted, and the value of idx
when its update began. -/
structure Client where
  call : Call := .idle
  began : Nat := 0
  sent : List Entry := []

def Client.handle (cl : Client) : Option Nat :=
  match cl.call with
  | .opened h _ => some h
  | .updating h _ _ => some h
  | _ => none

structure State where
  idx : Nat := 0
  writers : Nat → Option Writer := fun _ => none
  ushards : Nat → List (List Part) := fun _ => []
  clients : Nat → Client := fun _ => {}

inductive Action
  | begin (c : Nat) (entries : List Entry) (last : Bool)
  | entry (c : Nat) (accepted : Bool)
  | finish (c : Nat)
  | update (c : Nat) (entries : List Entry) (last : Bool)
  | commit (c : Nat)
  | rollback (c : Nat)

namespace State

def put (s : State) (c : Nat) (cl : Client) : State := { s with clients := Function.update s.clients c cl }

def store (s : State) (h : Nat) (w : Option Writer) : State := { s with writers := Function.update s.writers h w }

/-- A client has one call on its way at a time. It sends no entries after the
last ones, and then it commits; a slice that was not flushed is an assertion. -/
def apply (ushards : Nat) (s : State) : Action → Option State
  | .begin c entries last =>
      match (s.clients c).call with
      | .idle =>
          let s' := { s with idx := (s.idx + 1) % 2 ^ 64 }
          some (s'.put c ⟨.creating { idx := s.idx } entries last, s.idx, []⟩)
      | _ => none
  | .entry c accepted =>
      let cl := s.clients c
      match cl.call with
      | .creating w (e :: rest) last =>
          if accepted then some (s.put c ⟨.creating (w.addEntry ushards e true) rest last, cl.began, cl.sent ++ [e]⟩)
          else some (s.put c {})
      | .updating h (e :: rest) last =>
          (s.writers h).map (fun w =>
            let s' := s.store h (some (w.addEntry ushards e accepted))
            if accepted then s'.put c ⟨.updating h rest last, cl.began, cl.sent ++ [e]⟩
            else s'.put c { cl with call := .opened h false })
      | _ => none
  | .finish c =>
      let cl := s.clients c
      match cl.call with
      | .creating w [] last =>
          (if last then w.flush else some w).map (fun w =>
            (s.store s.idx (some w)).put c { cl with call := .opened s.idx last })
      | .updating h [] last =>
          (s.writers h).bind (fun w =>
            (if last then w.flush else some w).map (fun w =>
              (s.store h (some w)).put c { cl with call := .opened h last }))
      | _ => none
  | .update c entries last =>
      let cl := s.clients c
      match cl.call with
      | .opened h false =>
          some ((s.store h (some ((s.writers h).getD {}))).put c { cl with call := .updating h entries last })
      | _ => none
  | .commit c =>
      match (s.clients c).call with
      | .opened h true =>
          let w := (s.writers h).getD {}
          if ∀ u ∈ w.slices.keys, u ∈ w.flushed then
            let s' := { s with ushards := fun u => s.ushards u ++ (w.slices.lookup u).toList }
            some ((s'.store h none).put c {})
          else none
      | _ => none
  | .rollback c =>
      match (s.clients c).call with
      | .opened h _ => some ((s.store h none).put c {})
      | _ => none

end State

def Step (ushards : Nat) (s : State) (a : Action) (s' : State) : Prop := s.apply ushards a = some s'

def rows (ushards idx : Nat) (entries : List Entry) (u : Nat) : List Part :=
  (entries.filter (fun e => e.ushard % ushards = u)).map (Entry.part idx)

def Writer.Holds (ushards : Nat) (cl : Client) (w : Writer) : Prop :=
  w.idx = cl.began ∧ ∀ u, w.slice u = rows ushards cl.began cl.sent u

/-- What is asked of a handle: no other client has it, it names a writer of just
what the client has sent, and a commit adds just that. -/
structure Upheld (ushards : Nat) (s : State) (c h : Nat) : Prop where
  distinct : ∀ c', (s.clients c').handle = some h → c' = c
  holds : ∃ w, s.writers h = some w ∧ w.Holds ushards (s.clients c)
  commits : (s.clients c).call = .opened h true → ∃ s', Step ushards s (.commit c) s' ∧
    ∀ u, (s'.ushards u).flatten = (s.ushards u).flatten ++ rows ushards (s.clients c).began (s.clients c).sent u

def AllUpheld (ushards : Nat) (s : State) : Prop :=
  ∀ c h, (s.clients c).handle = some h → Upheld ushards s c h

/-- No writer stands in the place that update_data is about to give to a new
one: the counter may have moved since the update began. -/
def Free (s : State) : Action → Prop
  | .finish c =>
      match (s.clients c).call with
      | .creating .. => s.writers s.idx = none
      | _ => True
  | _ => True

def Client.Good (ushards : Nat) (writers : Nat → Option Writer) (cl : Client) : Prop :=
  match cl.call with
  | .idle => True
  | .creating w _ _ => w.Holds ushards cl ∧ w.flushed = []
  | .opened h complete =>
      ∃ w, writers h = some w ∧ w.Holds ushards cl ∧ w.flushed = if complete then w.slices.keys else []
  | .updating h _ _ => ∃ w, writers h = some w ∧ w.Holds ushards cl ∧ w.flushed = []

structure Inv (ushards : Nat) (s : State) : Prop where
  good : ∀ c, (s.clients c).Good ushards s.writers
  distinct : ∀ c c' h, (s.clients c).handle = some h → (s.clients c').handle = some h → c = c'
  stored : ∀ h w, s.writers h = some w → ∃ c, (s.clients c).handle = some h

variable {ushards : Nat} {s s' : State} {c h : Nat} {cl : Client} {w : Writer}

theorem rows_append (idx : Nat) (entries : List Entry) (e : Entry) (u : Nat) :
    rows ushards idx (entries ++ [e]) u =
      if e.ushard % ushards = u then rows ushards idx entries u ++ [e.part idx] else rows ushards idx entries u := by
  rw [rows, List.filter_append, List.map_append]
  by_cases he : e.ushard % ushards = u
  · simp [he, rows]
  · simp [he, rows]

theorem Writer.slice_addEntry (e : Entry) (accepted : Bool) (u : Nat) :
    (w.addEntry ushards e accepted).slice u =
      if e.ushard % ushards = u ∧ accepted then w.slice u ++ [e.part w.idx] else w.slice u := by
  rw [Writer.addEntry, Writer.slice]
  by_cases he : u = e.ushard % ushards
  · subst he
    cases accepted with
    | true => simp [AList.lookup_insert]
    | false => simp [AList.lookup_insert]
  · rw [AList.lookup_insert_ne he, if_neg (fun h => he h.1.symm), Writer.slice]

/-- An entry that is accepted is added to what is held, and one that is rejected is not. -/
theorem Writer.Holds.addEntry (h : w.Holds ushards cl) (e : Entry) (accepted : Bool) (call : Call) :
    (w.addEntry ushards e accepted).Holds ushards
      ⟨call, cl.began, if accepted then cl.sent ++ [e] else cl.sent⟩ := by
  refine ⟨h.1, fun u => ?_⟩
  rw [Writer.slice_addEntry, h.2 u, h.1]
  cases accepted with
  | true => simp [rows_append]
  | false => simp

theorem Writer.Holds.of_sent {cl' : Client} (h : w.Holds ushards cl) (hbegan : cl'.began = cl.began)
    (hsent : cl'.sent = cl.sent) : w.Holds ushards cl' := by
  rw [Writer.Holds, hbegan, hsent]
  exact h

theorem Client.Good.of_writers {writers writers' : Nat → Option Writer} (hgood : cl.Good ushards writers)
    (h : ∀ k, cl.handle = some k → writers' k = writers k) : cl.Good ushards writers' := by
  rw [Client.Good] at hgood ⊢
  rw [Client.handle] at h
  cases hcall : cl.call with
  | idle => trivial
  | creating w rest last => simpa only [hcall] using hgood
  | opened k complete =>
      simp only [hcall, Option.some.injEq, forall_eq'] at h hgood ⊢
      rwa [h]
  | updating k rest last =>
      simp only [hcall, Option.some.injEq, forall_eq'] at h hgood ⊢
      rwa [h]

theorem Client.Good.writer {writers : Nat → Option Writer} (hgood : cl.Good ushards writers)
    (hk : cl.handle = some h) : ∃ w, writers h = some w ∧ w.Holds ushards cl := by
  rw [Client.Good] at hgood
  rw [Client.handle] at hk
  cases hcall : cl.call with
  | idle | creating => simp [hcall] at hk
  | opened k complete =>
      simp only [hcall, Option.some.injEq] at hk hgood
      obtain ⟨w, hw, hholds, -⟩ := hgood
      exact ⟨w, hk ▸ hw, hholds⟩
  | updating k rest last =>
      simp only [hcall, Option.some.injEq] at hk hgood
      obtain ⟨w, hw, hholds, -⟩ := hgood
      exact ⟨w, hk ▸ hw, hholds⟩

theorem Inv.move (h : Inv ushards s) (hclients : s'.clients = Function.update s.clients c cl)
    (hothers : ∀ c' k, c' ≠ c → (s.clients c').handle = some k → s'.writers k = s.writers k ∧ cl.handle ≠ some k)
    (hgood : cl.Good ushards s'.writers)
    (hstored : ∀ k w, s'.writers k = some w → cl.handle = some k ∨ ∃ c', c' ≠ c ∧ (s.clients c').handle = some k) :
    Inv ushards s' := by
  have hself : s'.clients c = cl := by rw [hclients, Function.update_self]
  have hother : ∀ c', c' ≠ c → s'.clients c' = s.clients c' := fun c' hc => by rw [hclients, Function.update_of_ne hc]
  refine ⟨fun c' => ?_, fun c₁ c₂ k h₁ h₂ => ?_, fun k w hk => ?_⟩
  · by_cases hc : c' = c
    · rw [hc, hself]
      exact hgood
    · rw [hother c' hc]
      exact (h.good c').of_writers (fun k hk => (hothers c' k hc hk).1)
  · by_cases hc₁ : c₁ = c
    · by_cases hc₂ : c₂ = c
      · rw [hc₁, hc₂]
      · rw [hc₁, hself] at h₁
        rw [hother c₂ hc₂] at h₂
        exact absurd h₁ (hothers c₂ k hc₂ h₂).2
    · rw [hother c₁ hc₁] at h₁
      by_cases hc₂ : c₂ = c
      · rw [hc₂, hself] at h₂
        exact absurd h₂ (hothers c₁ k hc₁ h₁).2
      · rw [hother c₂ hc₂] at h₂
        exact h.distinct c₁ c₂ k h₁ h₂
  · rcases hstored k w hk with hcl | ⟨c', hc, hk'⟩
    · exact ⟨c, hself ▸ hcl⟩
    · exact ⟨c', (hother c' hc) ▸ hk'⟩

theorem Inv.local (h : Inv ushards s) (hclients : s'.clients = Function.update s.clients c cl)
    (hwriters : s'.writers = s.writers) (hold : (s.clients c).handle = none) (hnew : cl.handle = none)
    (hgood : cl.Good ushards s.writers) : Inv ushards s' := by
  refine h.move hclients (fun c' k _ _ => ⟨by rw [hwriters], by rw [hnew]; exact (Option.some_ne_none k).symm⟩)
    (hwriters ▸ hgood) (fun k w hk => ?_)
  rw [hwriters] at hk
  obtain ⟨c', hc'⟩ := h.stored k w hk
  refine Or.inr ⟨c', fun heq => ?_, hc'⟩
  rw [heq, hold] at hc'
  exact Option.some_ne_none k hc'.symm

theorem Inv.rewrite (hinv : Inv ushards s) (hclients : s'.clients = Function.update s.clients c cl)
    {o : Option Writer} (hwriters : s'.writers = Function.update s.writers h o)
    (hold : (s.clients c).handle = some h) (hnew : cl.handle = if o.isSome then some h else none)
    (hgood : cl.Good ushards s'.writers) : Inv ushards s' := by
  refine hinv.move hclients (fun c' k hc hk => ?_) hgood (fun k w hk => ?_)
  · have hne : k ≠ h := fun heq => hc (hinv.distinct c' c h (heq ▸ hk) hold)
    refine ⟨by rw [hwriters, Function.update_of_ne hne], fun heq => ?_⟩
    rw [hnew, Option.ite_none_right_eq_some] at heq
    exact hne (Option.some.inj heq.2).symm
  · rw [hwriters] at hk
    by_cases heq : k = h
    · subst heq
      rw [Function.update_self] at hk
      exact Or.inl (by rw [hnew, hk, Option.isSome_some, if_pos rfl])
    · rw [Function.update_of_ne heq] at hk
      obtain ⟨c', hc'⟩ := hinv.stored k w hk
      refine Or.inr ⟨c', fun hcc => heq ?_, hc'⟩
      rw [hcc, hold, Option.some.injEq] at hc'
      exact hc'.symm

theorem Inv.create (hinv : Inv ushards s) (hclients : s'.clients = Function.update s.clients c cl)
    (hwriters : s'.writers = Function.update s.writers h (some w)) (hfree : s.writers h = none)
    (hold : (s.clients c).handle = none) (hnew : cl.handle = some h)
    (hgood : cl.Good ushards s'.writers) : Inv ushards s' := by
  refine hinv.move hclients (fun c' k _ hk => ?_) hgood (fun k w' hk => ?_)
  · obtain ⟨w', hw', -⟩ := (hinv.good c').writer hk
    have hne : k ≠ h := fun heq => by
      rw [heq, hfree] at hw'
      exact Option.some_ne_none w' hw'.symm
    refine ⟨by rw [hwriters, Function.update_of_ne hne], fun heq => hne ?_⟩
    exact (Option.some.inj (hnew.symm.trans heq)).symm
  · rw [hwriters] at hk
    by_cases heq : k = h
    · exact Or.inl (heq ▸ hnew)
    · rw [Function.update_of_ne heq] at hk
      obtain ⟨c', hc'⟩ := hinv.stored k w' hk
      refine Or.inr ⟨c', fun hcc => ?_, hc'⟩
      rw [hcc, hold] at hc'
      exact Option.some_ne_none k hc'.symm

theorem Writer.flush_last (hf : w.flushed = []) (last : Bool) :
    ∃ w', (if last then w.flush else some w) = some w' ∧ w'.idx = w.idx ∧ (∀ u, w'.slice u = w.slice u) ∧
      w'.flushed = if last then w'.slices.keys else [] := by
  cases last with
  | true => exact ⟨{ w with flushed := w.slices.keys }, by rw [if_pos rfl, Writer.flush, if_pos hf], rfl, fun _ => rfl, rfl⟩
  | false => exact ⟨w, rfl, rfl, fun _ => rfl, hf⟩

theorem Writer.holds_congr {w' : Writer} (hidx : w'.idx = w.idx) (hslice : ∀ u, w'.slice u = w.slice u)
    (h : w.Holds ushards cl) : w'.Holds ushards cl :=
  ⟨hidx.trans h.1, fun u => (hslice u).trans (h.2 u)⟩

theorem Inv.entry (hinv : Inv ushards s) {accepted : Bool} (hs : s.apply ushards (.entry c accepted) = some s') :
    Inv ushards s' := by
  have hgood := hinv.good c
  rw [Client.Good] at hgood
  rw [State.apply.eq_def] at hs
  cases hcall : (s.clients c).call with
  | idle => simp [hcall] at hs
  | opened h complete => simp [hcall] at hs
  | creating w rest last =>
      have hold : (s.clients c).handle = none := by rw [Client.handle, hcall]
      simp only [hcall] at hgood hs
      cases rest with
      | nil => simp at hs
      | cons e rest =>
          cases accepted with
          | true =>
              rw [← Option.some.inj hs]
              exact hinv.local rfl rfl hold rfl ⟨hgood.1.addEntry e true _, hgood.2⟩
          | false =>
              rw [← Option.some.inj hs]
              exact hinv.local rfl rfl hold rfl trivial
  | updating h rest last =>
      have hold : (s.clients c).handle = some h := by rw [Client.handle, hcall]
      simp only [hcall] at hgood hs
      obtain ⟨w, hw, hholds, hflushed⟩ := hgood
      cases rest with
      | nil => simp at hs
      | cons e rest =>
          simp only [hw, Option.map_some] at hs
          rw [← Option.some.inj hs]
          cases accepted with
          | true =>
              exact hinv.rewrite (o := some _) rfl rfl hold rfl
                ⟨_, Function.update_self .., hholds.addEntry e true _, hflushed⟩
          | false =>
              exact hinv.rewrite (o := some _) rfl rfl hold rfl
                ⟨_, Function.update_self .., hholds.addEntry e false _, hflushed⟩

theorem Inv.finish (hinv : Inv ushards s) (hfree : Free s (.finish c))
    (hs : s.apply ushards (.finish c) = some s') : Inv ushards s' := by
  have hgood := hinv.good c
  rw [Client.Good] at hgood
  rw [Free] at hfree
  rw [State.apply.eq_def] at hs
  cases hcall : (s.clients c).call with
  | idle => simp [hcall] at hs
  | opened h complete => simp [hcall] at hs
  | creating w rest last =>
      have hold : (s.clients c).handle = none := by rw [Client.handle, hcall]
      simp only [hcall] at hgood hs hfree
      cases rest with
      | cons e rest => simp at hs
      | nil =>
          obtain ⟨w', hflush, hidx, hslice, hflushed⟩ := Writer.flush_last hgood.2 last
          simp only [hflush, Option.map_some] at hs
          rw [← Option.some.inj hs]
          refine hinv.create rfl rfl hfree hold rfl ⟨w', Function.update_self .., ?_, hflushed⟩
          exact (Writer.holds_congr hidx hslice hgood.1).of_sent rfl rfl
  | updating h rest last =>
      have hold : (s.clients c).handle = some h := by rw [Client.handle, hcall]
      simp only [hcall] at hgood hs
      obtain ⟨w, hw, hholds, hflushed⟩ := hgood
      cases rest with
      | cons e rest => simp at hs
      | nil =>
          obtain ⟨w', hflush, hidx, hslice, hflushed'⟩ := Writer.flush_last hflushed last
          simp only [hw, Option.bind_some, hflush, Option.map_some] at hs
          rw [← Option.some.inj hs]
          refine hinv.rewrite (o := some w') rfl rfl hold rfl ⟨w', Function.update_self .., ?_, hflushed'⟩
          exact (Writer.holds_congr hidx hslice hholds).of_sent rfl rfl

theorem Inv.update (hinv : Inv ushards s) {entries : List Entry} {last : Bool}
    (hs : s.apply ushards (.update c entries last) = some s') : Inv ushards s' := by
  have hgood := hinv.good c
  rw [Client.Good] at hgood
  rw [State.apply.eq_def] at hs
  cases hcall : (s.clients c).call with
  | idle | creating | updating => simp [hcall] at hs
  | opened h complete =>
      have hold : (s.clients c).handle = some h := by rw [Client.handle, hcall]
      cases complete with
      | true => simp [hcall] at hs
      | false =>
          simp only [hcall] at hgood hs
          obtain ⟨w, hw, hholds, hflushed⟩ := hgood
          rw [hw, Option.getD_some] at hs
          rw [← Option.some.inj hs]
          exact hinv.rewrite (o := some w) rfl rfl hold rfl ⟨w, Function.update_self .., hholds.of_sent rfl rfl, hflushed⟩

theorem Writer.flatten_slice (w : Writer) (u : Nat) : (w.slices.lookup u).toList.flatten = w.slice u := by
  rw [Writer.slice]
  cases w.slices.lookup u with
  | none => rfl
  | some parts => exact List.append_nil parts

theorem Inv.commit (hinv : Inv ushards s) (hcall : (s.clients c).call = .opened h true) :
    ∃ s', Step ushards s (.commit c) s' ∧ Inv ushards s' ∧
      ∀ u, (s'.ushards u).flatten = (s.ushards u).flatten ++ rows ushards (s.clients c).began (s.clients c).sent u := by
  have hgood := hinv.good c
  have hold : (s.clients c).handle = some h := by rw [Client.handle, hcall]
  simp only [Client.Good, hcall] at hgood
  obtain ⟨w, hw, hholds, hflushed⟩ := hgood
  rw [if_pos trivial] at hflushed
  set s₁ : State := { s with ushards := fun u => s.ushards u ++ (w.slices.lookup u).toList } with hs₁
  refine ⟨(s₁.store h none).put c {}, ?_, hinv.rewrite (o := none) rfl rfl hold rfl trivial, fun u => ?_⟩
  · rw [Step, State.apply.eq_def]
    simp only [hcall, hw, Option.getD_some, hflushed, imp_self, implies_true, if_true, hs₁]
  · change (s.ushards u ++ (w.slices.lookup u).toList).flatten = _
    rw [List.flatten_append, w.flatten_slice, hholds.2 u]

theorem Inv.rollback (hinv : Inv ushards s) (hs : s.apply ushards (.rollback c) = some s') : Inv ushards s' := by
  rw [State.apply.eq_def] at hs
  cases hcall : (s.clients c).call with
  | idle | creating | updating => simp [hcall] at hs
  | opened h complete =>
      have hold : (s.clients c).handle = some h := by rw [Client.handle, hcall]
      simp only [hcall] at hs
      rw [← Option.some.inj hs]
      exact hinv.rewrite (o := none) rfl rfl hold rfl trivial

theorem Inv.step (hinv : Inv ushards s) {a : Action} (hs : Step ushards s a s') (hfree : Free s a) :
    Inv ushards s' := by
  cases a with
  | begin c entries last =>
      rw [Step, State.apply.eq_def] at hs
      cases hcall : (s.clients c).call with
      | opened | creating | updating => simp [hcall] at hs
      | idle =>
          have hold : (s.clients c).handle = none := by rw [Client.handle, hcall]
          simp only [hcall] at hs
          rw [← Option.some.inj hs]
          exact hinv.local rfl rfl hold rfl ⟨⟨rfl, fun u => rfl⟩, rfl⟩
  | entry c accepted => exact hinv.entry hs
  | finish c => exact hinv.finish hfree hs
  | update c entries last => exact hinv.update hs
  | commit c =>
      have hcall : ∃ h, (s.clients c).call = .opened h true := by
        rw [Step, State.apply.eq_def] at hs
        cases hcall : (s.clients c).call with
        | idle | creating | updating => simp [hcall] at hs
        | opened h complete =>
            cases complete with
            | true => exact ⟨h, rfl⟩
            | false => simp [hcall] at hs
      obtain ⟨h, hcall⟩ := hcall
      obtain ⟨s₁, hs₁, hinv₁, -⟩ := hinv.commit hcall
      obtain rfl : s₁ = s' := Option.some.inj (hs₁.symm.trans hs)
      exact hinv₁
  | rollback c => exact hinv.rollback hs

theorem inv_init : Inv ushards {} where
  good := fun _ => trivial
  distinct := fun _ _ _ h => absurd h.symm (Option.some_ne_none _)
  stored := fun _ _ h => absurd h.symm (Option.some_ne_none _)

theorem Inv.upheld (hinv : Inv ushards s) : AllUpheld ushards s := by
  intro c h hc
  refine ⟨fun c' hc' => hinv.distinct c' c h hc' hc, (hinv.good c).writer hc, fun hcall => ?_⟩
  obtain ⟨s', hs', -, hadds⟩ := hinv.commit hcall
  exact ⟨s', hs', hadds⟩

theorem Inv.breaks (hinv : Inv ushards s) {a : Action} (hs : Step ushards s a s') (hfree : ¬ Free s a) :
    ¬ AllUpheld ushards s' := by
  intro hall
  cases a with
  | begin | entry | update | commit | rollback => exact hfree trivial
  | finish c =>
      rw [Free] at hfree
      cases hcall : (s.clients c).call with
      | idle | opened | updating => simp [hcall] at hfree
      | creating w rest last =>
          simp only [hcall] at hfree
          obtain ⟨w', hw'⟩ := Option.ne_none_iff_exists'.mp hfree
          obtain ⟨c', hc'⟩ := hinv.stored s.idx w' hw'
          have hne : c' ≠ c := fun heq => by
            rw [heq, Client.handle, hcall] at hc'
            exact Option.some_ne_none _ hc'.symm
          rw [Step, State.apply.eq_def] at hs
          simp only [hcall] at hs
          cases rest with
          | cons e rest => simp at hs
          | nil =>
              obtain ⟨w₁, -, hs⟩ := Option.map_eq_some_iff.mp hs
              have hself : (s'.clients c).handle = some s.idx := by
                rw [← hs]
                simp [State.put, State.store, Client.handle]
              have hother : (s'.clients c').handle = some s.idx := by
                rw [← hs]
                exact (congrArg Client.handle (Function.update_of_ne hne ..)).trans hc'
              exact hne ((hall c s.idx hself).distinct c' hother)

/-- With any number of clients: no update is lost in any state of a run, if and
only if no update_data without handle gives out a handle that is still open. -/
theorem updates_upheld_iff {ts : List (State × Action × State)} (h : Run (Step ushards) {} ts s) :
    (∀ v ∈ visited {} ts, AllUpheld ushards v) ↔ ∀ t ∈ ts, Free t.1 t.2.1 :=
  h.exact Free (Inv ushards) (AllUpheld ushards) inv_init (fun _ hinv => hinv.upheld)
    (fun _ _ _ hinv hs hfree => hinv.step hs hfree) (fun _ _ _ hinv hs hfree => hinv.breaks hs hfree)

instance (s : State) (a : Action) : Decidable (Free s a) :=
  match a with
  | .finish c =>
      match hcall : (s.clients c).call with
      | .creating .. =>
          decidable_of_iff ((s.writers s.idx).isNone = true) (by simp only [Free, hcall, Option.isNone_iff_eq_none])
      | .idle => isTrue (by simp only [Free, hcall])
      | .opened .. => isTrue (by simp only [Free, hcall])
      | .updating .. => isTrue (by simp only [Free, hcall])
  | .begin .. => isTrue trivial
  | .entry .. => isTrue trivial
  | .update .. => isTrue trivial
  | .commit .. => isTrue trivial
  | .rollback .. => isTrue trivial

def entryOf (k : Byte) : Entry := ⟨0, [k], [], true, false⟩

/-- Two updates, the second of them begun after the first has its handle. -/
def apart : List Action :=
  [.begin 0 [entryOf 1] false, .entry 0 true, .finish 0, .begin 1 [entryOf 2] true, .update 0 [entryOf 3] true,
   .entry 1 true, .entry 0 true, .finish 0, .finish 1, .commit 0, .commit 1]

theorem updates_upheld_iff_apart : ∃ ts s, Run (Step 1) {} ts s ∧ (∀ v ∈ visited {} ts, AllUpheld 1 v) ∧
    s.ushards 0 = [[(entryOf 1).part 0, (entryOf 3).part 0], [(entryOf 2).part 1]] := by
  have hends : (follow (State.apply 1) {} apart).any (fun r => (∀ t ∈ r.1, Free t.1 t.2.1) ∧
      r.2.ushards 0 = [[(entryOf 1).part 0, (entryOf 3).part 0], [(entryOf 2).part 1]]) = true := by decide
  obtain ⟨⟨ts, s⟩, hfollow, htest⟩ := (Option.any_eq_true _ _).mp hends
  obtain ⟨hfree, hushards⟩ := of_decide_eq_true htest
  have hrun := run_follow (State.apply 1) (fun _ _ _ hs => hs) _ _ hfollow
  exact ⟨ts, s, hrun, (updates_upheld_iff hrun).mpr hfree, hushards⟩

/-- Both updates take their handle from the counter after both have begun. -/
def overlapping : List Action :=
  [.begin 0 [entryOf 1] true, .begin 1 [entryOf 2] true, .entry 0 true, .entry 1 true, .finish 0, .finish 1]

theorem overlapping_lost : ∃ ts s, Run (Step 1) {} ts s ∧ (s.clients 0).handle = some 2 ∧
    (s.clients 1).handle = some 2 ∧ (s.writers 2).map (fun w => w.slice 0) = some [(entryOf 2).part 1] ∧
    ¬ AllUpheld 1 s := by
  have hends : (follow (State.apply 1) {} overlapping).any (fun r => (r.2.clients 0).handle = some 2 ∧
      (r.2.clients 1).handle = some 2 ∧
      (r.2.writers 2).map (fun w => w.slice 0) = some [(entryOf 2).part 1]) = true := by decide
  obtain ⟨⟨ts, s⟩, hfollow, htest⟩ := (Option.any_eq_true _ _).mp hends
  obtain ⟨hfirst, hsecond, hkept⟩ := of_decide_eq_true htest
  have hrun := run_follow (State.apply 1) (fun _ _ _ hs => hs) _ _ hfollow
  exact ⟨ts, s, hrun, hfirst, hsecond, hkept, fun hall => absurd ((hall 0 2 hfirst).distinct 1 hsecond) (by decide)⟩

end Tyrdbs.Server.Updates
