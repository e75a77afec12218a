import Mathlib.Order.Basic

namespace Tyrdbs.Outcome

variable {ε α β : Type}

/-- A computation ends with a value of P, or with an error that F admits. -/
def Yields (F : ε → Prop) (P : α → Prop) : Except ε α → Prop
  | .ok a => P a
  | .error e => F e

variable {F : ε → Prop} {P Q : α → Prop}

@[simp] theorem yields_ok (a : α) : Yields F P (.ok a) ↔ P a := Iff.rfl

@[simp] theorem yields_pure (a : α) : Yields F P (pure a) ↔ P a := Iff.rfl

@[simp] theorem yields_error (e : ε) : Yields F P (.error e) ↔ F e := Iff.rfl

theorem yields_true (x : Except ε α) : Yields (fun _ => True) (fun _ => True) x := by
  cases x <;> trivial

theorem yields_self (x : Except ε α) : Yields (fun _ => True) (fun a => x = .ok a) x := by
  cases x with
  | error e => trivial
  | ok a => rfl

theorem Yields.bind {R : β → Prop} {x : Except ε α} {f : α → Except ε β} (hx : Yields F P x)
    (hf : ∀ a, P a → Yields F R (f a)) : Yields F R (x >>= f) := by
  cases x with
  | error e => exact hx
  | ok a => exact hf a hx

theorem Yields.mono {x : Except ε α} (hx : Yields F P x) (h : ∀ a, P a → Q a) : Yields F Q x := by
  cases x with
  | error e => exact hx
  | ok a => exact h a hx

theorem Yields.and {x : Except ε α} (hp : Yields F P x) (hq : Yields F Q x) :
    Yields F (fun a => P a ∧ Q a) x := by
  cases x with
  | error e => exact hp
  | ok a => exact ⟨hp, hq⟩

theorem Yields.merge {x : Except ε α} (hx : Yields F P x) (hq : Yields (fun _ => True) Q x) :
    Yields F (fun a => P a ∧ Q a) x := by
  cases x with
  | error e => exact hx
  | ok a => exact ⟨hx, hq⟩

theorem Yields.weaken {G : ε → Prop} {x : Except ε α} (hx : Yields F P x) (h : ∀ e, F e → G e) :
    Yields G P x := by
  cases x with
  | error e => exact h e hx
  | ok a => exact hx

theorem Yields.of_ok {x : Except ε α} {a : α} (hx : Yields F P x) (h : x = .ok a) : P a := by
  rw [h] at hx
  exact hx

theorem Yields.exists_ok {x : Except ε α} (hx : Yields (fun _ => False) P x) :
    ∃ a, x = .ok a ∧ P a := by
  cases x with
  | error e => exact hx.elim
  | ok a => exact ⟨a, rfl, hx⟩

/-- Two computations end alike: with related values or with the same error. -/
def Alike (R : α → β → Prop) : Except ε α → Except ε β → Prop
  | .ok a, .ok b => R a b
  | .error e, .error e' => e = e'
  | _, _ => False

theorem alike_refl {R : α → α → Prop} (h : ∀ a, R a a) (x : Except ε α) : Alike R x x := by
  cases x with
  | error e => rfl
  | ok a => exact h a

theorem Alike.bind {γ δ : Type} {R : α → β → Prop} {S : γ → δ → Prop} {x : Except ε α} {y : Except ε β}
    {f : α → Except ε γ} {g : β → Except ε δ} (h : Alike R x y) (hf : ∀ a b, R a b → Alike S (f a) (g b)) :
    Alike S (x >>= f) (y >>= g) := by
  match x, y with
  | .ok a, .ok b => exact hf a b h
  | .error e, .error e' => exact h

theorem Alike.eq {x y : Except ε α} (h : Alike (· = ·) x y) : x = y := by
  match x, y with
  | .ok a, .ok b => exact congrArg Except.ok h
  | .error e, .error e' => exact congrArg Except.error h

def returns (test : α → Bool) : Except ε α → Bool
  | .ok a => test a
  | .error _ => false

theorem exists_of_returns {test : α → Bool} {x : Except ε α} (h : returns test x = true) :
    ∃ a, x = .ok a ∧ test a = true := by
  cases x with
  | error e => exact absurd h (by simp [returns])
  | ok a => exact ⟨a, rfl, h⟩

theorem ok_bind (a : α) (f : α → Except ε β) : (Except.ok a >>= f) = f a := rfl

/-- An assertion of the program. -/
def check (p : Prop) [Decidable p] (e : ε) : Except ε Unit := if p then .ok () else .error e

@[simp] theorem check_of {p : Prop} [Decidable p] (h : p) (e : ε) : check p e = .ok () := if_pos h

@[simp] theorem check_of_not {p : Prop} [Decidable p] (h : ¬ p) (e : ε) : check p e = .error e := if_neg h

theorem ok_of_toOption {p : Prop} [Decidable p] {x : Except ε α} {a : α}
    (h : (if p then x.toOption else none) = some a) : p ∧ x = .ok a := by
  split at h
  case isTrue hp =>
    cases x with
    | error e => exact absurd h (by simp [Except.toOption])
    | ok b => exact ⟨hp, congrArg Except.ok (Option.some.inj h)⟩
  case isFalse => exact absurd h (by simp)

end Tyrdbs.Outcome
