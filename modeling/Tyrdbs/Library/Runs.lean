import Mathlib.Data.List.Basic

namespace Tyrdbs.Runs

variable {σ α : Type}

/-- A finite execution from s, with the transitions it took, oldest first. -/
inductive Run (step : σ → α → σ → Prop) (s : σ) : List (σ × α × σ) → σ → Prop
  | refl : Run step s [] s
  | tail {ts : List (σ × α × σ)} {u v : σ} {a : α} :
      Run step s ts u → step u a v → Run step s (ts ++ [(u, a, v)]) v

variable {step : σ → α → σ → Prop} {s : σ}

theorem Run.invariant {ts : List (σ × α × σ)} {u : σ} (h : Run step s ts u)
    (I : σ → Prop) (hinit : I s) (hstep : ∀ u a v, I u → step u a v → I v) : I u := by
  induction h with
  | refl => exact hinit
  | tail _ hs ih => exact hstep _ _ _ ih hs

theorem Run.head {ts : List (σ × α × σ)} {u v : σ} {a : α} (hs : step s a u) (h : Run step u ts v) :
    Run step s ((s, a, u) :: ts) v := by
  induction h with
  | refl => exact Run.tail Run.refl hs
  | tail _ hlast ih => exact Run.tail ih hlast

/-- The transitions of a deterministic system on a list of operations. -/
def trace (apply : σ → α → σ) (s : σ) : List α → List (σ × α × σ)
  | [] => []
  | a :: as => (s, a, apply s a) :: trace apply (apply s a) as

theorem run_trace (apply : σ → α → σ) (as : List α) (s : σ)
    (h : ∀ t ∈ trace apply s as, step t.1 t.2.1 t.2.2) :
    Run step s (trace apply s as) (as.foldl apply s) := by
  induction as generalizing s with
  | nil => exact Run.refl
  | cons a as ih =>
      have hfirst : step s a (apply s a) := h _ (List.mem_cons_self ..)
      exact Run.head hfirst (ih (apply s a) (fun t ht => h t (List.mem_cons_of_mem _ ht)))

theorem apply_of_mem_trace {apply : σ → α → σ} {as : List α} {t : σ × α × σ} (ht : t ∈ trace apply s as) :
    t.2.2 = apply t.1 t.2.1 := by
  induction as generalizing s with
  | nil => exact absurd ht List.not_mem_nil
  | cons a as ih =>
      rcases List.mem_cons.mp ht with rfl | ht
      · rfl
      · exact ih ht

theorem op_mem_of_mem_trace {apply : σ → α → σ} {as : List α} {t : σ × α × σ} (ht : t ∈ trace apply s as) :
    t.2.1 ∈ as := by
  induction as generalizing s with
  | nil => exact absurd ht List.not_mem_nil
  | cons a as ih =>
      rcases List.mem_cons.mp ht with rfl | ht
      · exact List.mem_cons_self ..
      · exact List.mem_cons_of_mem _ (ih ht)

theorem trace_append (apply : σ → α → σ) (as bs : List α) (s : σ) :
    trace apply s (as ++ bs) = trace apply s as ++ trace apply (as.foldl apply s) bs := by
  induction as generalizing s with
  | nil => rfl
  | cons a as ih => exact congrArg ((s, a, apply s a) :: ·) (ih (apply s a))

theorem run_of_allowed (apply : σ → α → σ) (allowed : σ → α → Prop) (as : List α) (s : σ)
    (h : ∀ t ∈ trace apply s as, allowed t.1 t.2.1) :
    Run (fun s a s' => allowed s a ∧ s' = apply s a) s (trace apply s as) (as.foldl apply s) :=
  run_trace apply as s (fun t ht => ⟨h t ht, apply_of_mem_trace ht⟩)

/-- The same for operations that may be impossible in a state. -/
def follow (apply : σ → α → Option σ) (s : σ) : List α → Option (List (σ × α × σ) × σ)
  | [] => some ([], s)
  | a :: as =>
      match apply s a with
      | none => none
      | some u => (follow apply u as).map (fun r => ((s, a, u) :: r.1, r.2))

theorem run_follow (apply : σ → α → Option σ) (hstep : ∀ s a u, apply s a = some u → step s a u)
    (as : List α) (s : σ) {r : List (σ × α × σ) × σ} (h : follow apply s as = some r) :
    Run step s r.1 r.2 := by
  induction as generalizing s r with
  | nil =>
      rw [follow, Option.some.injEq] at h
      subst h
      exact Run.refl
  | cons a as ih =>
      rw [follow] at h
      cases hu : apply s a with
      | none => simp [hu] at h
      | some u =>
          simp only [hu, Option.map_eq_some_iff] at h
          obtain ⟨r', hr', rfl⟩ := h
          exact Run.head (hstep s a u hu) (ih u hr')

theorem Run.guarded {ts : List (σ × α × σ)} {u : σ} (h : Run step s ts u)
    (G : σ → α → Prop) (hG : ∀ t ∈ ts, G t.1 t.2.1)
    (I : σ → Prop) (hinit : I s) (hstep : ∀ u a v, I u → step u a v → G u a → I v) : I u := by
  induction h with
  | refl => exact hinit
  | tail _ hs ih =>
      have hprev := ih (fun t ht => hG t (by simp [ht]))
      exact hstep _ _ _ hprev hs (hG _ (List.mem_append_right _ (List.mem_singleton_self _)))

def visited (s : σ) (ts : List (σ × α × σ)) : List σ := s :: ts.map (fun t => t.2.2)

theorem Run.mem_visited {ts : List (σ × α × σ)} {u : σ} (h : Run step s ts u) : u ∈ visited s ts := by
  cases h <;> simp [visited]

theorem Run.of_mem {ts : List (σ × α × σ)} {u : σ} (h : Run step s ts u) :
    ∀ t ∈ ts, t.1 ∈ visited s ts ∧ step t.1 t.2.1 t.2.2 := by
  induction h with
  | refl => simp
  | @tail ts u v a hr hs ih =>
      have hmono : ∀ w ∈ visited s ts, w ∈ visited s (ts ++ [(u, a, v)]) := by
        intro w hw
        simp only [visited, List.map_append, List.mem_cons, List.mem_append] at hw ⊢
        tauto
      intro t ht
      rcases List.mem_append.mp ht with ht | ht
      · exact ⟨hmono _ (ih t ht).1, (ih t ht).2⟩
      · rw [List.mem_singleton.mp ht]
        exact ⟨hmono _ hr.mem_visited, hs⟩

theorem Run.visited_guarded {ts : List (σ × α × σ)} {u : σ} (h : Run step s ts u)
    (G : σ → α → Prop) (hG : ∀ t ∈ ts, G t.1 t.2.1)
    (I : σ → Prop) (hinit : I s) (hstep : ∀ u a v, I u → step u a v → G u a → I v) :
    ∀ v ∈ visited s ts, I v := by
  induction h with
  | refl => simpa [visited] using hinit
  | @tail ts u v a hr hs ih =>
      have hG' : ∀ t ∈ ts, G t.1 t.2.1 := fun t ht => hG t (by simp [ht])
      have hlast := hstep _ _ _ (hr.guarded G hG' I hinit hstep) hs
        (hG _ (List.mem_append_right _ (List.mem_singleton_self _)))
      intro w hw
      simp only [visited, List.map_append, List.map_cons, List.map_nil, List.mem_cons,
        List.mem_append, List.not_mem_nil, or_false] at hw
      rcases hw with rfl | hw | rfl
      · exact hinit
      · exact ih hG' w (by simp [visited, hw])
      · exact hlast

theorem Run.meeting {ts : List (σ × α × σ)} {u : σ} (h : Run step s ts u) {G : σ → α → Prop}
    (hG : ∀ t ∈ ts, G t.1 t.2.1) : Run (fun s a s' => step s a s' ∧ G s a) s ts u := by
  induction h with
  | refl => exact Run.refl
  | tail _ hs ih =>
      refine Run.tail (ih (fun t ht => hG t (List.mem_append_left _ ht))) ⟨hs, ?_⟩
      exact hG _ (List.mem_append_right _ (List.mem_singleton_self _))

/-- When the guard is exactly what keeps the property, a run shows the
property in every state it visits if and only if each of its steps met the
guard. -/
theorem Run.exact {ts : List (σ × α × σ)} {u : σ} (h : Run step s ts u)
    (G : σ → α → Prop) (I P : σ → Prop) (hinit : I s) (hP : ∀ u, I u → P u)
    (hstep : ∀ u a v, I u → step u a v → G u a → I v)
    (hbreak : ∀ u a v, I u → step u a v → ¬ G u a → ¬ P v) :
    (∀ v ∈ visited s ts, P v) ↔ ∀ t ∈ ts, G t.1 t.2.1 := by
  refine ⟨fun hv => ?_, fun hG v hv => hP v (h.visited_guarded G hG I hinit hstep v hv)⟩
  induction h with
  | refl => simp
  | @tail ts u v a hr hs ih =>
      have hprev : ∀ t ∈ ts, G t.1 t.2.1 := ih (fun w hw => hv w (by
        simp only [visited, List.map_append, List.mem_cons, List.mem_append] at hw ⊢
        tauto))
      have hlast : G u a := by
        by_contra hg
        exact hbreak u a v (hr.guarded G hprev I hinit hstep) hs hg (hv v (by simp [visited]))
      intro t ht
      rcases List.mem_append.mp ht with ht | ht
      · exact hprev t ht
      · rw [List.mem_singleton.mp ht]; exact hlast

end Tyrdbs.Runs
