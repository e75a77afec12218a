import Tyrdbs.Library.Outcome
import Tyrdbs.Library.RingCells
import Tyrdbs.Library.Runs

namespace Tyrdbs

open Outcome RingCells Runs

/-- Head, tail and mask are 32 bits wide. -/
structure RingQueue (T : Type) where
  queue : List T
  head : Nat := 0
  tail : Nat := 0
  mask : Nat

namespace RingQueue

inductive Fault
  | assertion
  | outOfBounds
  deriving DecidableEq

section Model

variable {T : Type} [Inhabited T] (moved : T → T)

def empty (r : RingQueue T) : Bool := r.head = r.tail

def resize (queue : List T) (size : Nat) : List T :=
  queue.take size ++ List.replicate (size - queue.length) default

def new : RingQueue T where
  queue := resize [] 4
  mask := 3

/-- The last n elements before a place are moved, the last one first, to end
at another place; moved is what that leaves in their cells. -/
def moveBackward : List T → Nat → Nat → Nat → Except Fault (List T)
  | queue, _, _, 0 => .ok queue
  | queue, last, target, n + 1 =>
      match queue[last - 1]? with
      | none => .error .outOfBounds
      | some x => do
          check (target - 1 < queue.length) .outOfBounds
          moveBackward ((queue.set (last - 1) (moved x)).set (target - 1) x) (last - 1) (target - 1) n

def reallocate (r : RingQueue T) : Except Fault (RingQueue T) := do
  let oldSize := r.queue.length % 2 ^ 32
  let size := oldSize * 2 % 2 ^ 32
  let r := { r with queue := resize r.queue size, mask := (size + 2 ^ 32 - 1) % 2 ^ 32 }
  if r.tail = (r.head + 1) % 2 ^ 32 then do
    let queue ← moveBackward moved r.queue oldSize r.queue.length (oldSize - r.tail)
    return { r with queue := queue, tail := (r.tail + oldSize) % 2 ^ 32 }
  else return r

def push (r : RingQueue T) (item : T) : Except Fault (RingQueue T) := do
  check (r.head < r.queue.length) .outOfBounds
  let r := { r with queue := r.queue.set r.head item }
  let r ← if (r.head + 1) % 2 ^ 32 &&& r.mask = r.tail then r.reallocate moved else .ok r
  return { r with head := (r.head + 1) % 2 ^ 32 &&& r.mask }

def peek (r : RingQueue T) : Except Fault T := do
  check (r.head ≠ r.tail) .assertion
  match r.queue[r.tail]? with
  | none => .error .outOfBounds
  | some item => return item

def pop (r : RingQueue T) : Except Fault (T × RingQueue T) := do
  let item ← r.peek
  return (item, { r with
    queue := r.queue.set r.tail (moved item)
    tail := (r.tail + 1) % 2 ^ 32 &&& r.mask })

end Model

section Cells

variable {T : Type} {moved : T → T}

theorem moveBackward_spec (queue : List T) (last target n : Nat) (hn : n ≤ last) (htarget : last + n ≤ target)
    (hle : target ≤ queue.length) :
    ∃ queue', moveBackward moved queue last target n = .ok queue' ∧ queue'.length = queue.length ∧
      (∀ i, last - n ≤ i → i < last → queue'[i + (target - last)]? = queue[i]?) ∧
      ∀ i, i < last - n ∨ target ≤ i → queue'[i]? = queue[i]? := by
  induction n generalizing queue last target with
  | zero => exact ⟨queue, rfl, rfl, fun i hi hlt => absurd hlt (by omega), fun _ _ => rfl⟩
  | succ n ih =>
      have hlast : last - 1 < queue.length := by omega
      have hget : queue[last - 1]? = some queue[last - 1] := List.getElem?_eq_getElem hlast
      let next := (queue.set (last - 1) (moved queue[last - 1])).set (target - 1) queue[last - 1]
      have hlength : next.length = queue.length := by simp [next]
      have hother : ∀ i, i ≠ last - 1 → i ≠ target - 1 → next[i]? = queue[i]? := by
        intro i hil hit
        rw [List.getElem?_set_ne (Ne.symm hit), List.getElem?_set_ne (Ne.symm hil)]
      have htop : next[target - 1]? = queue[last - 1]? := by
        rw [hget]
        refine List.getElem?_set_self ?_
        rw [List.length_set]
        omega
      obtain ⟨queue', hmove, hlength', hmoved, hsame⟩ :=
        ih next (last - 1) (target - 1) (by omega) (by omega) (by omega)
      refine ⟨queue', ?_, hlength'.trans hlength, fun i hi hlt => ?_, fun i hi => ?_⟩
      · rw [moveBackward, hget]
        simp only
        rw [check_of (by omega), ok_bind]
        exact hmove
      · have hshift : target - 1 - (last - 1) = target - last := by omega
        rw [hshift] at hmoved
        by_cases hil : i = last - 1
        · have hplace : i + (target - last) = target - 1 := by omega
          rw [hplace, hsame _ (by omega), htop, hil]
        · rw [hmoved i (by omega) (by omega), hother i hil (by omega)]
      · rw [hsame i (by omega), hother i (by omega) (by omega)]

theorem resize_double [Inhabited T] (queue : List T) : (resize queue (queue.length * 2)).length = 2 * queue.length ∧
    ∀ i, i < queue.length → (resize queue (queue.length * 2))[i]? = queue[i]? := by
  have htake : queue.take (queue.length * 2) = queue := List.take_of_length_le (by omega)
  rw [resize, htake]
  constructor
  · rw [List.length_append, List.length_replicate]
    omega
  · intro i hi
    rw [List.getElem?_append_left hi]

theorem moveBackward_double [Inhabited T] (queue : List T) {tail : Nat} (htail : tail < queue.length) :
    ∃ queue', moveBackward moved (resize queue (queue.length * 2)) queue.length
        (resize queue (queue.length * 2)).length (queue.length - tail) = .ok queue' ∧
      queue'.length = 2 * queue.length ∧
      (∀ i, tail ≤ i → i < queue.length → queue'[i + queue.length]? = queue[i]?) ∧
      ∀ i, i < tail → queue'[i]? = queue[i]? := by
  obtain ⟨hlength, hsame⟩ := resize_double queue
  have hshift : (resize queue (queue.length * 2)).length - queue.length = queue.length := by omega
  obtain ⟨queue', hmove, hlength', hmoved, hkept⟩ := moveBackward_spec (resize queue (queue.length * 2)) queue.length
    (resize queue (queue.length * 2)).length (queue.length - tail) (by omega) (by omega) (le_refl _)
  rw [hshift] at hmoved
  refine ⟨queue', hmove, hlength'.trans hlength, fun i hi hlt => ?_, fun i hi => ?_⟩
  · rw [hmoved i (by omega) hlt, hsame i hlt]
  · rw [hkept i (by omega), hsame i (by omega)]

end Cells

section Specs

variable {T : Type} {moved : T → T} {r : RingQueue T} {k : Nat} {xs : List T}

/-- A queue of items in a ring of a power of two of cells, at least one of them left. -/
structure Holds (r : RingQueue T) (k : Nat) (xs : List T) : Prop where
  two_le : 2 ≤ k
  le : k ≤ 31
  length_eq : r.queue.length = 2 ^ k
  mask_eq : r.mask = 2 ^ k - 1
  tail_lt : r.tail < 2 ^ k
  head_eq : r.head = (r.tail + xs.length) % 2 ^ k
  length_lt : xs.length < 2 ^ k
  lies : Lies r.queue r.tail xs

theorem new_holds [Inhabited T] : (new : RingQueue T).Holds 2 [] where
  two_le := le_refl 2
  le := by decide
  length_eq := rfl
  mask_eq := rfl
  tail_lt := Nat.two_pow_pos 2
  head_eq := rfl
  length_lt := Nat.two_pow_pos 2
  lies := lies_nil

theorem Holds.pow_le (h : r.Holds k xs) : 2 ^ k ≤ 2 ^ 31 := Nat.pow_le_pow_right (by decide) h.le

theorem Holds.head_lt (h : r.Holds k xs) : r.head < 2 ^ k :=
  h.head_eq ▸ Nat.mod_lt _ (Nat.two_pow_pos k)

theorem Holds.next (h : r.Holds k xs) {i : Nat} (hi : i < 2 ^ k) : (i + 1) % 2 ^ 32 &&& r.mask = (i + 1) % 2 ^ k := by
  have hpow := h.pow_le
  rw [h.mask_eq, Nat.and_two_pow_sub_one_eq_mod, Nat.mod_eq_of_lt (show i + 1 < 2 ^ 32 by omega)]

theorem Holds.empty_iff (h : r.Holds k xs) : r.empty = true ↔ xs = [] := by
  have hlt := h.length_lt
  have htail := h.tail_lt
  rw [empty, decide_eq_true_iff, h.head_eq, wrap_eq htail hlt.le, ← List.length_eq_zero_iff]
  split_ifs <;> omega

theorem Holds.peek {x : T} (h : r.Holds k (x :: xs)) : r.peek = .ok x := by
  have hne : r.head ≠ r.tail := by
    intro heq
    have hempty : r.empty = true := decide_eq_true heq
    exact List.cons_ne_nil x xs (h.empty_iff.mp hempty)
  have hfirst := h.lies.first (h.length_eq ▸ h.tail_lt)
  rw [RingQueue.peek, check_of hne, ok_bind]
  simp only [hfirst]
  rfl

theorem Holds.pop {x : T} (h : r.Holds k (x :: xs)) (moved : T → T) :
    ∃ r', r.pop moved = .ok (x, r') ∧ r'.Holds k xs := by
  have hlength := h.length_eq
  have hlt := h.length_lt
  have htail := h.next h.tail_lt
  rw [List.length_cons] at hlt
  have hpop : r.pop moved = .ok (x, { r with
      queue := r.queue.set r.tail (moved x), tail := (r.tail + 1) % 2 ^ k }) := by
    rw [RingQueue.pop, h.peek, ← htail]
    rfl
  refine ⟨_, hpop, h.two_le, h.le, ?_, h.mask_eq, Nat.mod_lt _ (Nat.two_pow_pos k), ?_, by omega, ?_⟩
  · rw [List.length_set, hlength]
  · rw [h.head_eq, List.length_cons, Nat.mod_add_mod, Nat.add_assoc, Nat.add_comm 1]
  · have hlies := h.lies.pop (hlength ▸ h.tail_lt) (by omega) (moved x)
    rwa [hlength] at hlies

theorem Holds.next_head (h : r.Holds k xs) : (r.head + 1) % 2 ^ k = r.tail ↔ xs.length + 1 = 2 ^ k := by
  have hlt := h.length_lt
  have htail := h.tail_lt
  rw [h.head_eq, Nat.mod_add_mod, Nat.add_assoc, wrap_eq htail (by omega)]
  split_ifs <;> omega

theorem Holds.lies_push (h : r.Holds k xs) (x : T) :
    r.head < r.queue.length ∧ Lies (r.queue.set r.head x) r.tail (xs ++ [x]) := by
  have hlength := h.length_eq
  have hlies := h.lies.push (hlength ▸ h.tail_lt) (hlength ▸ h.length_lt) x
  rw [hlength, ← h.head_eq] at hlies
  exact ⟨hlength ▸ h.head_lt, hlies⟩

theorem peek_nil (hnil : r.queue = []) (x : T) : r.peek ≠ .ok x := by
  rw [peek, hnil]
  by_cases hne : r.head ≠ r.tail
  · rw [check_of hne]
    exact fun heq => nomatch heq
  · rw [check_of_not hne]
    exact fun heq => nomatch heq

variable [Inhabited T]

/-- A full ring doubles. The items that go around its end are moved to the new
end, and those that do not stay. -/
theorem reallocate_spec (moved : T → T) (r : RingQueue T) (hlength : r.queue.length = 2 ^ k) (hk : k < 31)
    (htail : r.tail < 2 ^ k) (hhead : r.head = (r.tail + (2 ^ k - 1)) % 2 ^ k) (hxs : xs.length = 2 ^ k)
    (hlies : Lies r.queue r.tail xs) :
    ∃ r', r.reallocate moved = .ok r' ∧ r'.queue.length = 2 ^ (k + 1) ∧ r'.mask = 2 ^ (k + 1) - 1 ∧
      r'.head = r.head ∧ r'.tail < 2 ^ (k + 1) ∧
      (r.head + 1) % 2 ^ (k + 1) = (r'.tail + 2 ^ k) % 2 ^ (k + 1) ∧ Lies r'.queue r'.tail xs := by
  have hpow : 2 ^ k ≤ 2 ^ 30 := Nat.pow_le_pow_right (by decide) (by omega)
  have hdouble : 2 ^ (k + 1) = 2 * 2 ^ k := Nat.pow_succ'
  have hold : r.queue.length % 2 ^ 32 = r.queue.length := Nat.mod_eq_of_lt (by omega)
  have hsize : r.queue.length * 2 % 2 ^ 32 = r.queue.length * 2 := Nat.mod_eq_of_lt (by omega)
  have hmask : (r.queue.length * 2 + 2 ^ 32 - 1) % 2 ^ 32 = 2 ^ (k + 1) - 1 := by
    have hnext : r.queue.length * 2 + 2 ^ 32 - 1 = 2 ^ (k + 1) - 1 + 2 ^ 32 := by omega
    rw [hnext, Nat.add_mod_right, Nat.mod_eq_of_lt (by omega)]
  obtain ⟨hresized, hsame⟩ := resize_double r.queue
  have hheadIf := hhead
  rw [wrap_eq htail (by omega)] at hheadIf
  have hheadLt : r.head < 2 ^ k := hhead ▸ Nat.mod_lt _ (Nat.two_pow_pos k)
  rw [reallocate]
  simp only [hold, hsize, hmask]
  by_cases hwrapped : r.tail = (r.head + 1) % 2 ^ 32
  · rw [if_pos hwrapped]
    rw [Nat.mod_eq_of_lt (by omega)] at hwrapped
    have hnewTail : (r.tail + r.queue.length) % 2 ^ 32 = r.tail + r.queue.length := Nat.mod_eq_of_lt (by omega)
    have htailLt : r.tail < r.queue.length := hlength ▸ htail
    obtain ⟨queue, hmove, hlength', hmoved, hkept⟩ := moveBackward_double r.queue htailLt
    have hnewLength : queue.length = 2 ^ (k + 1) := by omega
    have hnewTailLt : r.tail + r.queue.length < 2 ^ (k + 1) := by omega
    have hlies' := hlies.double htailLt (by omega) hlength' hmoved hkept
    rw [hmove, ok_bind, hnewTail]
    refine ⟨_, rfl, hnewLength, rfl, rfl, hnewTailLt, ?_, hlies'⟩
    rw [hlength, hdouble, Nat.add_assoc, ← Nat.two_mul, Nat.add_mod_right, ← hwrapped]
  · rw [if_neg hwrapped]
    rw [Nat.mod_eq_of_lt (by omega)] at hwrapped
    have hzero : r.tail = 0 ∧ r.head + 1 = 2 ^ k := by
      split_ifs at hheadIf <;> omega
    have hnewLength : (resize r.queue (r.queue.length * 2)).length = 2 ^ (k + 1) := by omega
    have hnewTailLt : r.tail < 2 ^ (k + 1) := by omega
    have hlies' := hlies.extend (by omega) hsame (by omega)
    refine ⟨_, rfl, hnewLength, rfl, rfl, hnewTailLt, ?_, hlies'⟩
    rw [hzero.1, hzero.2, Nat.zero_add]

/-- A ring of half the indices forgets its size when it doubles, and its
vector is emptied. -/
theorem reallocate_overflow (hlength : r.queue.length = 2 ^ 31) (htail : r.tail < 2 ^ 31) :
    ∀ r', r.reallocate moved = .ok r' → r'.queue = [] := by
  have hsize : r.queue.length % 2 ^ 32 * 2 % 2 ^ 32 = 0 := by
    rw [hlength]
    rfl
  have hold : r.queue.length % 2 ^ 32 - r.tail ≠ 0 := by
    rw [hlength]
    omega
  have hnone : resize r.queue 0 = [] := by
    rw [resize, List.take_zero, Nat.zero_sub, List.replicate_zero, List.nil_append]
  obtain ⟨n, hn⟩ := Nat.exists_eq_succ_of_ne_zero hold
  have hmove : moveBackward moved (resize r.queue 0) (r.queue.length % 2 ^ 32) (resize r.queue 0).length
      (r.queue.length % 2 ^ 32 - r.tail) = .error .outOfBounds := by
    rw [hnone, hn]
    rfl
  intro r' hr'
  rw [reallocate] at hr'
  simp only [hsize] at hr'
  by_cases hwrapped : r.tail = (r.head + 1) % 2 ^ 32
  · rw [if_pos hwrapped, hmove] at hr'
    cases hr'
  · rw [if_neg hwrapped] at hr'
    cases hr'
    exact hnone

theorem Holds.push (h : r.Holds k xs) (moved : T → T) (hfew : xs.length + 1 < 2 ^ 31) (x : T) :
    ∃ r' k', r.push moved x = .ok r' ∧ r'.Holds k' (xs ++ [x]) := by
  obtain ⟨hcell, hlies⟩ := h.lies_push x
  have hlength : (r.queue.set r.head x).length = 2 ^ k := (List.length_set ..).trans h.length_eq
  have hsize : (xs ++ [x]).length = xs.length + 1 := by simp
  have hlt := h.length_lt
  have hnext := h.next h.head_lt
  rw [RingQueue.push, check_of hcell, ok_bind]
  by_cases hfull : xs.length + 1 = 2 ^ k
  · have hk : k < 31 := (Nat.pow_lt_pow_iff_right (by decide)).mp (hfull ▸ hfew)
    have hhead : r.head = (r.tail + (2 ^ k - 1)) % 2 ^ k := by
      rw [← hfull, Nat.add_sub_cancel, hfull]
      exact h.head_eq
    obtain ⟨r', hreallocate, hlength', hmask, hhead', htail, hhead'', hlies'⟩ :=
      reallocate_spec moved { r with queue := r.queue.set r.head x } hlength hk h.tail_lt hhead
        (hsize.trans hfull) hlies
    have hdouble : 2 ^ (k + 1) = 2 * 2 ^ k := Nat.pow_succ'
    have htwo := h.two_le
    have hnew : (r'.head + 1) % 2 ^ 32 &&& r'.mask = (r.head + 1) % 2 ^ (k + 1) := by
      have hpow := h.pow_le
      have hheadLt := h.head_lt
      rw [hhead', hmask, Nat.and_two_pow_sub_one_eq_mod, Nat.mod_eq_of_lt (show r.head + 1 < 2 ^ 32 by omega)]
    rw [if_pos (hnext.trans (h.next_head.mpr hfull)), hreallocate, ok_bind]
    refine ⟨_, k + 1, rfl, by omega, by omega, hlength', hmask, htail, ?_, by omega, hlies'⟩
    rw [hsize, hfull, ← hhead'']
    exact hnew
  · rw [if_neg (fun heq => hfull (h.next_head.mp (hnext.symm.trans heq))), ok_bind]
    refine ⟨_, k, rfl, h.two_le, h.le, hlength, h.mask_eq, h.tail_lt, ?_, by omega, hlies⟩
    rw [hsize, ← Nat.add_assoc, ← Nat.mod_add_mod (r.tail + xs.length), ← h.head_eq]
    exact hnext

theorem Holds.push_overflow (h : r.Holds k xs) (hmany : 2 ^ 31 ≤ xs.length + 1) (x y : T) :
    ∀ r', r.push moved x = .ok r' → r'.peek ≠ .ok y := by
  obtain ⟨hcell, _⟩ := h.lies_push x
  have hlength : (r.queue.set r.head x).length = 2 ^ k := (List.length_set ..).trans h.length_eq
  have hpow := h.pow_le
  have hlt := h.length_lt
  have hfull : xs.length + 1 = 2 ^ k := by omega
  have hnext := h.next h.head_lt
  have hcells : 2 ^ k = 2 ^ 31 := by omega
  intro r' hr'
  rw [RingQueue.push, check_of hcell, ok_bind, if_pos (hnext.trans (h.next_head.mpr hfull))] at hr'
  cases hreallocate : reallocate moved { r with queue := r.queue.set r.head x } with
  | error fault =>
      rw [hreallocate] at hr'
      cases hr'
  | ok r'' =>
      have hnil := reallocate_overflow (hlength.trans hcells) (hcells ▸ h.tail_lt) r'' hreallocate
      rw [hreallocate] at hr'
      cases hr'
      refine peek_nil ?_ y
      exact hnil

end Specs

inductive Op (T : Type)
  | push (item : T)
  | pop

/-- A queue, until a check fails, and the items that were pushed and that were popped. -/
structure State (T : Type) where
  ring : Except Fault (RingQueue T)
  pushed : List T := []
  popped : List T := []

section Runs

variable {T : Type} (moved : T → T)

def State.initial [Inhabited T] : State T where
  ring := .ok new

def State.apply [Inhabited T] (s : State T) : Op T → State T
  | .push item => { s with ring := s.ring.bind (fun r => r.push moved item), pushed := s.pushed ++ [item] }
  | .pop =>
      match s.ring.bind (fun r => r.pop moved) with
      | .error fault => { s with ring := .error fault }
      | .ok (item, r) => { s with ring := .ok r, popped := s.popped ++ [item] }

/-- Only what was pushed is popped. -/
def Op.Allowed (s : State T) : Op T → Prop
  | .push _ => True
  | .pop => s.popped.length < s.pushed.length

def Step [Inhabited T] (s : State T) (op : Op T) (s' : State T) : Prop := op.Allowed s ∧ s' = s.apply moved op

/-- The items come out in the order they went in, and the queue is empty when all of them have. -/
def State.Fifo (s : State T) : Prop :=
  ∃ r rest, s.ring = .ok r ∧ s.pushed = s.popped ++ rest ∧ (r.empty = true ↔ rest = []) ∧
    ∀ item ∈ rest.head?, r.peek = .ok item ∧ ∃ r', r.pop moved = .ok (item, r')

/-- Fewer than half of the indices are held after a push. -/
def Op.Fits (s : State T) : Op T → Prop
  | .push _ => s.pushed.length + 1 < s.popped.length + 2 ^ 31
  | .pop => True

/-- The items that are left lie in the ring. -/
def State.Inv (s : State T) : Prop :=
  ∃ r k rest, s.ring = .ok r ∧ s.pushed = s.popped ++ rest ∧ r.Holds k rest

instance (s : State T) (op : Op T) : Decidable (op.Allowed s) :=
  match op with
  | .push _ => isTrue trivial
  | .pop => (inferInstance : Decidable (s.popped.length < s.pushed.length))

variable {moved} {s s' : State T}

theorem State.Inv.fifo (h : s.Inv) : s.Fifo moved := by
  obtain ⟨r, k, rest, hring, hpushed, hholds⟩ := h
  refine ⟨r, rest, hring, hpushed, hholds.empty_iff, fun item hitem => ?_⟩
  obtain ⟨xs, rfl⟩ := List.head?_eq_some_iff.mp hitem
  obtain ⟨r', hpop, _⟩ := hholds.pop moved
  exact ⟨hholds.peek, r', hpop⟩

variable [Inhabited T]

theorem State.Inv.step (h : s.Inv) {op : Op T} (hstep : Step moved s op s') (hfits : op.Fits s) : s'.Inv := by
  obtain ⟨r, k, rest, hring, hpushed, hholds⟩ := h
  obtain ⟨hallowed, rfl⟩ := hstep
  cases op with
  | push item =>
      have hfew : rest.length + 1 < 2 ^ 31 := by
        have hlength := congrArg List.length hpushed
        rw [List.length_append] at hlength
        have hlt : s.pushed.length + 1 < s.popped.length + 2 ^ 31 := hfits
        omega
      obtain ⟨r', k', hpush, hholds'⟩ := hholds.push moved hfew item
      refine ⟨r', k', rest ++ [item], ?_, ?_, hholds'⟩
      · rw [State.apply, hring]
        exact hpush
      · rw [State.apply, hpushed]
        exact List.append_assoc ..
  | pop =>
      have hlt : s.popped.length < s.pushed.length := hallowed
      have hne : rest ≠ [] := by
        rintro rfl
        rw [List.append_nil] at hpushed
        exact absurd hlt (hpushed ▸ lt_irrefl _)
      obtain ⟨item, xs, rfl⟩ := List.exists_cons_of_ne_nil hne
      obtain ⟨r', hpop, hholds'⟩ := hholds.pop moved
      have hbind : s.ring.bind (fun r => r.pop moved) = .ok (item, r') := by
        rw [hring]
        exact hpop
      rw [State.apply, hbind]
      refine ⟨r', k, xs, rfl, ?_, hholds'⟩
      rw [hpushed]
      simp

theorem State.Inv.breaks (h : s.Inv) {op : Op T} (hstep : Step moved s op s') (hfits : ¬ op.Fits s) :
    ¬ s'.Fifo moved := by
  obtain ⟨r, k, rest, hring, hpushed, hholds⟩ := h
  obtain ⟨_, rfl⟩ := hstep
  cases op with
  | pop => exact absurd trivial hfits
  | push item =>
      have hmany : 2 ^ 31 ≤ rest.length + 1 := by
        have hlength := congrArg List.length hpushed
        rw [List.length_append] at hlength
        have hle : ¬ s.pushed.length + 1 < s.popped.length + 2 ^ 31 := hfits
        omega
      rintro ⟨r', rest', hring', hpushed', _, hfirst⟩
      have hrest : rest' = rest ++ [item] := by
        have happend : s.pushed ++ [item] = s.popped ++ rest' := hpushed'
        rw [hpushed, List.append_assoc] at happend
        exact (List.append_cancel_left happend).symm
      obtain ⟨first, hhead⟩ := Option.isSome_iff_exists.mp
        (show (rest'.head?).isSome = true by rw [hrest]; cases rest <;> rfl)
      have hpush : r.push moved item = .ok r' := by
        rw [State.apply, hring] at hring'
        exact hring'
      exact hholds.push_overflow hmany item first r' hpush (hfirst first hhead).1

theorem State.inv_initial : (State.initial : State T).Inv := ⟨new, 2, [], rfl, rfl, new_holds⟩

/-- The queue is first in, first out as long as it holds fewer than 2 ^ 31 items. -/
theorem fifo_iff {ts : List (State T × Op T × State T)} (h : Run (Step moved) State.initial ts s) :
    (∀ v ∈ visited State.initial ts, v.Fifo moved) ↔ ∀ t ∈ ts, t.2.1.Fits t.1 :=
  h.exact (fun s op => op.Fits s) State.Inv (State.Fifo moved) State.inv_initial (fun _ hinv => hinv.fifo)
    (fun _ _ _ hinv hstep hfits => hinv.step hstep hfits) (fun _ _ _ hinv hstep hfits => hinv.breaks hstep hfits)

/-- Items that go around the end of a ring that doubles. -/
def wrapped : List (Op Nat) :=
  [.push 1, .push 2, .pop, .push 3, .push 4, .push 5, .pop, .push 6, .push 7, .pop, .pop]

theorem fifo_iff_wrapped : ∃ ts s, Run (Step id) (State.initial : State Nat) ts s ∧ s.popped = [1, 2, 3, 4] ∧
    ((∀ v ∈ visited State.initial ts, v.Fifo id) ↔ ∀ t ∈ ts, t.2.1.Fits t.1) := by
  have hrun := run_of_allowed (State.apply id) (fun s op => op.Allowed s) wrapped State.initial (by decide)
  exact ⟨_, _, hrun, by decide, fifo_iff hrun⟩

def pushes (n : Nat) (item : T) : List (Op T) := List.replicate n (.push item) ++ [.push item]

theorem run_pushes (n : Nat) (item : T) : Run (Step moved) State.initial
    (trace (State.apply moved) State.initial (pushes n item))
    ((pushes n item).foldl (State.apply moved) State.initial) := by
  refine run_of_allowed (State.apply moved) (fun s op => op.Allowed s) _ _ (fun t ht => ?_)
  have hop : t.2.1 = .push item := by
    rcases List.mem_append.mp (op_mem_of_mem_trace ht) with hm | hm
    · exact List.eq_of_mem_replicate hm
    · exact List.mem_singleton.mp hm
  rw [hop]
  trivial

theorem pushed_replicate (moved : T → T) (n : Nat) (item : T) (s : State T) :
    ((List.replicate n (.push item)).foldl (State.apply moved) s).pushed = s.pushed ++ List.replicate n item ∧
      ((List.replicate n (.push item)).foldl (State.apply moved) s).popped = s.popped := by
  induction n generalizing s with
  | zero => exact ⟨(List.append_nil _).symm, rfl⟩
  | succ n ih =>
      obtain ⟨hpushed, hpopped⟩ := ih (s.apply moved (.push item))
      rw [List.replicate_succ, List.foldl_cons]
      refine ⟨hpushed.trans ?_, hpopped⟩
      exact List.append_assoc ..

theorem pushes_bounded (n : Nat) (item : T) (h : ∀ v ∈ visited State.initial
      (trace (State.apply moved) State.initial (pushes n item)), v.Fifo moved) : n + 1 < 2 ^ 31 := by
  have hfits := ((run_pushes n item).exact (fun s op => op.Fits s) State.Inv (State.Fifo moved) State.inv_initial
    (fun _ hinv => hinv.fifo) (fun _ _ _ hinv hstep hfits => hinv.step hstep hfits)
    (fun _ _ _ hinv hstep hfits => hinv.breaks hstep hfits)).mp h
  obtain ⟨hpushed, hpopped⟩ := pushed_replicate moved n item State.initial
  rw [pushes, trace_append] at hfits
  have hlast := hfits _ (List.mem_append_right _ (List.mem_singleton_self _))
  simp only [Op.Fits, hpushed, hpopped] at hlast
  simpa [State.initial] using hlast

theorem not_fifo_pushes : ¬ ∀ ts s, Run (Step id) (State.initial : State Nat) ts s →
    ∀ v ∈ visited State.initial ts, v.Fifo id := by
  intro h
  have hbound := pushes_bounded (2 ^ 31 - 1) 0 (h _ _ (run_pushes (2 ^ 31 - 1) 0))
  omega

end Runs

end RingQueue

end Tyrdbs
