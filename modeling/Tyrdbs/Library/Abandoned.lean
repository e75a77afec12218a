import Tyrdbs.Library.Runs

namespace Tyrdbs.Abandoned

open Runs

variable {σ α : Type}

structure Course (σ : Type) where
  inner : σ
  gone : List Nat := []

inductive Act (α : Type)
  | act (a : α)
  | abandon (id : Nat)

def Act.abandons : Act α → Bool
  | .act _ => false
  | .abandon _ => true

/-- How many entries of a list pass a test, but for those that are gone. -/
def present {β : Type} (p : β → Bool) (gone : List Nat) (xs : List β) : Nat :=
  xs.zipIdx.countP (fun x => p x.1 && !gone.contains x.2)

/-- A task that is under way is given up, and nothing ends it after that. -/
inductive Step (step : σ → α → σ → Prop) (abandon : σ → Nat → σ → Prop) (ends : α → Option Nat) :
    Course σ → Act α → Course σ → Prop
  | act {s s' : σ} {a : α} {gone : List Nat} : step s a s' → (∀ id ∈ gone, ends a ≠ some id) →
      Step step abandon ends ⟨s, gone⟩ (.act a) ⟨s', gone⟩
  | abandon {s s' : σ} {id : Nat} {gone : List Nat} : abandon s id s' → id ∉ gone →
      Step step abandon ends ⟨s, gone⟩ (.abandon id) ⟨s', id :: gone⟩

variable {step : σ → α → σ → Prop} {abandon : σ → Nat → σ → Prop} {ends : α → Option Nat} {s : σ}
  {ts : List (Course σ × Act α × Course σ)} {u : Course σ}

section Present

variable {β : Type} {p : β → Bool}

theorem countP_zipIdx {gone : List Nat} (xs : List β) {k : Nat} (h : ∀ i, k ≤ i → i ∉ gone) :
    (xs.zipIdx k).countP (fun x => p x.1 && !gone.contains x.2) = xs.countP p := by
  induction xs generalizing k with
  | nil => rfl
  | cons x xs ih =>
      have hk : gone.contains k = false := by simpa using h k (Nat.le_refl k)
      have hrest := ih (fun i hi => h i (Nat.le_of_succ_le hi))
      rw [List.zipIdx_cons, List.countP_cons, List.countP_cons, hrest, hk, Bool.not_false, Bool.and_true]

theorem present_nil (xs : List β) : present p [] xs = xs.countP p :=
  countP_zipIdx xs (fun _ _ => List.not_mem_nil)

theorem countP_zipIdx_singleton {x : β} (hp : p x = true) (xs : List β) {i k : Nat} (hx : xs[i]? = some x) :
    (xs.zipIdx k).countP (fun y => p y.1 && !([k + i].contains y.2)) + 1 = xs.countP p := by
  induction xs generalizing i k with
  | nil => cases hx
  | cons y ys ih =>
      rw [List.zipIdx_cons, List.countP_cons, List.countP_cons]
      cases i with
      | zero =>
          obtain rfl := Option.some.inj hx
          have hself : [k + 0].contains k = true := by simp
          have hrest : ∀ j, k + 1 ≤ j → j ∉ [k + 0] := by
            intro j hj hmem
            rw [List.mem_singleton] at hmem
            omega
          rw [countP_zipIdx ys hrest, hself, Bool.not_true, Bool.and_false, hp, if_neg (by decide), if_pos rfl]
      | succ i =>
          have hne : [k + (i + 1)].contains k = false := by simp
          have hrest := @ih i (k + 1) hx
          rw [Nat.add_assoc, Nat.add_comm 1 i] at hrest
          rw [hne, Bool.not_false, Bool.and_true, ← hrest]
          exact Nat.add_right_comm ..

theorem present_singleton {x : β} (hp : p x = true) {xs : List β} {id : Nat} (hx : xs[id]? = some x) :
    present p [id] xs + 1 = xs.countP p := by
  have hcount := @countP_zipIdx_singleton _ _ _ hp xs id 0 hx
  rwa [Nat.zero_add] at hcount

end Present

theorem visited_invariant (h : Run (Step step abandon ends) ⟨s, []⟩ ts u) (I : Course σ → Prop) (hinit : I ⟨s, []⟩)
    (hact : ∀ s a s' gone, I ⟨s, gone⟩ → step s a s' → (∀ id ∈ gone, ends a ≠ some id) → I ⟨s', gone⟩)
    (habandon : ∀ s id s' gone, I ⟨s, gone⟩ → abandon s id s' → id ∉ gone → I ⟨s', id :: gone⟩) :
    ∀ v ∈ visited ⟨s, []⟩ ts, I v := by
  refine h.visited_guarded (fun _ _ => True) (fun _ _ => trivial) I hinit (fun v a w hv hs _ => ?_)
  cases hs with
  | act hs hends => exact hact _ _ _ _ hv hs hends
  | abandon hs hid => exact habandon _ _ _ _ hv hs hid

/-- Where the first task that is given up breaks a property, the property holds
in all of a run exactly when no task is given up. -/
theorem unabandoned_iff (h : Run (Step step abandon ends) ⟨s, []⟩ ts u) (I : σ → Prop) (P : Course σ → Prop)
    (hinit : I s) (hact : ∀ s a s', I s → step s a s' → I s') (hP : ∀ s, I s → P ⟨s, []⟩)
    (hbreak : ∀ s id s', I s → abandon s id s' → ¬ P ⟨s', [id]⟩) :
    (∀ v ∈ visited ⟨s, []⟩ ts, P v) ↔ ∀ t ∈ ts, t.2.1.abandons = false := by
  refine h.exact (fun _ a => a.abandons = false) (fun v => I v.inner ∧ v.gone = []) P ⟨hinit, rfl⟩ (fun v hv => ?_)
    (fun v a w hv hs ha => ?_) (fun v a w hv hs ha => ?_)
  · obtain ⟨inner, gone⟩ := v
    obtain ⟨hI, rfl⟩ : I inner ∧ gone = [] := hv
    exact hP inner hI
  · cases hs with
    | act hs _ => exact ⟨hact _ _ _ hv.1 hs, hv.2⟩
    | abandon => cases ha
  · cases hs with
    | act => exact absurd rfl ha
    | @abandon s₁ s₂ id gone hs _ =>
        obtain ⟨hI, rfl⟩ : I s₁ ∧ gone = [] := hv
        exact hbreak _ _ _ hI hs

theorem run_act {ts : List (σ × α × σ)} {u : σ} (h : Run step s ts u) :
    Run (Step step abandon ends) ⟨s, []⟩ (ts.map (fun t => (⟨t.1, []⟩, .act t.2.1, ⟨t.2.2, []⟩))) ⟨u, []⟩ := by
  induction h with
  | refl => exact Run.refl
  | tail _ hs ih =>
      rw [List.map_append]
      exact Run.tail ih (.act hs (fun _ hid => absurd hid List.not_mem_nil))

theorem run_abandon {ts : List (σ × α × σ)} {u v : σ} {id : Nat} (h : Run step s ts u) (hv : abandon u id v) :
    ∃ ts', Run (Step step abandon ends) ⟨s, []⟩ ts' ⟨v, [id]⟩ ∧ ∃ t ∈ ts', t.2.1.abandons = true :=
  ⟨_, Run.tail (run_act h) (.abandon hv List.not_mem_nil), _, List.mem_append_right _ (List.mem_singleton_self _), rfl⟩

end Tyrdbs.Abandoned
