import Mathlib.Data.List.Basic

namespace Tyrdbs

/-- Expressions over classes of characters, without alternatives and without a
repetition of anything else than a class. -/
inductive Regex (α : Type)
  | empty
  | one (p : α → Bool)
  | many (p : α → Bool)
  | seq (r s : Regex α)
  | group (r : Regex α)

namespace Regex

variable {α β : Type}

/-- Where the groups begin and end, in the order in which they are closed. -/
abbrev Groups := List (Nat × Nat)

/-- A repetition takes as much as it can first, and gives back as long as what
comes after it does not match. -/
def greedy (p : α → Bool) : List α → Nat → (List α → Nat → Option β) → Option β
  | [], pos, k => k [] pos
  | c :: rest, pos, k => if p c then (greedy p rest (pos + 1) k).or (k (c :: rest) pos) else k (c :: rest) pos

/-- A backtracking matcher, whose last argument is what comes after. -/
def run : Regex α → List α → Nat → Groups → (List α → Nat → Groups → Option β) → Option β
  | .empty, rest, pos, groups, k => k rest pos groups
  | .one _, [], _, _, _ => none
  | .one p, c :: rest, pos, groups, k => if p c then k rest (pos + 1) groups else none
  | .many p, rest, pos, groups, k => greedy p rest pos (fun rest pos => k rest pos groups)
  | .seq r s, rest, pos, groups, k => r.run rest pos groups (fun rest pos groups => s.run rest pos groups k)
  | .group r, rest, pos, groups, k =>
      r.run rest pos groups (fun rest last groups => k rest last (groups ++ [(pos, last)]))

def fullMatch (r : Regex α) (input : List α) : Option Groups :=
  r.run input 0 [] (fun rest _ groups => if rest.isEmpty then some groups else none)

def plus (p : α → Bool) : Regex α := .seq (.one p) (.many p)

def literal [DecidableEq α] (cs : List α) : Regex α := cs.foldr (fun c r => .seq (.one (fun x => x = c)) r) .empty

/-- Where this is what comes after, the expression matches these characters
first, wherever they begin, and closes these groups. -/
def Takes (r : Regex α) (cs rest : List α) (spans : Nat → Groups) : Prop :=
  ∀ (β : Type) (pos : Nat) (groups : Groups) (k : List α → Nat → Groups → Option β) (out : β),
    k rest (pos + cs.length) (groups ++ spans pos) = some out → r.run (cs ++ rest) pos groups k = some out

variable {p : α → Bool} {r s : Regex α} {cs ds rest : List α} {f g : Nat → Groups}

theorem takes_empty (rest : List α) : Takes .empty [] rest (fun _ => []) := by
  intro β pos groups k out h
  rwa [List.append_nil] at h

theorem takes_one {c : α} (hc : p c) (rest : List α) : Takes (.one p) [c] rest (fun _ => []) := by
  intro β pos groups k out h
  rw [List.append_nil] at h
  rw [List.singleton_append, run, if_pos hc]
  exact h

theorem takes_many (hall : ∀ c ∈ cs, p c) (hrest : ∀ c ∈ rest.head?, ¬ p c) :
    Takes (.many p) cs rest (fun _ => []) := by
  intro β pos groups k out h
  rw [List.append_nil] at h
  rw [run]
  induction cs generalizing pos with
  | nil =>
      cases rest with
      | nil => exact h
      | cons c rest =>
          rw [List.nil_append, greedy, if_neg (hrest c rfl)]
          exact h
  | cons c cs ih =>
      rw [List.length_cons, ← Nat.add_assoc, Nat.add_right_comm] at h
      rw [List.cons_append, greedy, if_pos (hall c (List.mem_cons_self ..)),
        ih (fun d hd => hall d (List.mem_cons_of_mem _ hd)) _ h]
      rfl

theorem Takes.seq (hr : Takes r cs (ds ++ rest) f) (hs : Takes s ds rest g) :
    Takes (.seq r s) (cs ++ ds) rest (fun pos => f pos ++ g (pos + cs.length)) := by
  intro β pos groups k out h
  rw [run, List.append_assoc]
  apply hr
  apply hs
  rwa [List.append_assoc, Nat.add_assoc, ← List.length_append]

theorem Takes.group (hr : Takes r cs rest f) :
    Takes (.group r) cs rest (fun pos => f pos ++ [(pos, pos + cs.length)]) := by
  intro β pos groups k out h
  rw [run]
  apply hr
  rwa [List.append_assoc]

theorem takes_plus (hne : cs ≠ []) (hall : ∀ c ∈ cs, p c) (hrest : ∀ c ∈ rest.head?, ¬ p c) :
    Takes (plus p) cs rest (fun _ => []) := by
  obtain ⟨c, cs, rfl⟩ := List.exists_cons_of_ne_nil hne
  exact (takes_one (hall c (List.mem_cons_self ..)) (cs ++ rest)).seq
    (takes_many (fun d hd => hall d (List.mem_cons_of_mem _ hd)) hrest)

theorem takes_literal [DecidableEq α] (cs rest : List α) : Takes (literal cs) cs rest (fun _ => []) := by
  induction cs with
  | nil => exact takes_empty rest
  | cons c cs ih => exact (takes_one (p := fun x => x = c) (by simp) (cs ++ rest)).seq ih

theorem Takes.fullMatch (h : Takes r cs [] f) : r.fullMatch cs = some (f 0) := by
  have hrun := h Groups 0 [] (fun rest _ groups => if rest.isEmpty then some groups else none) (f 0) rfl
  rwa [List.append_nil] at hrun

end Regex

end Tyrdbs
