import Tyrdbs.Library.Bytes
import Tyrdbs.Library.NewestWins
import Mathlib.Data.List.Lex
import Mathlib.Data.List.Sort
import Mathlib.Data.Fin.Basic

namespace Tyrdbs

/-- Keys are compared as unsigned bytes, a prefix before what extends it. -/
abbrev Key := List Byte

/-- What an iterator stands on after a call of next that returned true. -/
structure Part where
  key : Key
  value : List Byte
  eor : Bool
  deleted : Bool
  idx : Nat
  deriving DecidableEq

def maxKeySize : Nat := 1024

structure Record where
  key : Key
  idx : Nat
  deleted : Bool
  value : List Byte
  continuation : List (List Byte)
  key_ne : key ≠ []
  key_fits : key.length < maxKeySize
  deriving DecidableEq

namespace Record

def part (r : Record) (value : List Byte) (eor : Bool) : Part := ⟨r.key, value, eor, r.deleted, r.idx⟩

def partsOf (r : Record) : List (List Byte) → List Part
  | [] => []
  | v :: vs => r.part v vs.isEmpty :: r.partsOf vs

def parts (r : Record) : List Part := r.partsOf (r.value :: r.continuation)

end Record

theorem parts_with (r : Record) (v : List Byte) (vs : List (List Byte)) :
    ({ r with value := v, continuation := vs } : Record).parts = r.partsOf (v :: vs) := by
  have hsame : ∀ us, ({ r with value := v, continuation := vs } : Record).partsOf us = r.partsOf us := by
    intro us
    induction us with
    | nil => rfl
    | cons u us ih =>
        rw [Record.partsOf, ih]
        rfl
  exact hsame _

/-- A record without the way its value was cut into parts. -/
structure Version where
  key : Key
  idx : Nat
  deleted : Bool
  value : List Byte
  deriving DecidableEq

def Record.version (r : Record) : Version := ⟨r.key, r.idx, r.deleted, r.value ++ r.continuation.flatten⟩

theorem eq_of_key_eq {rs : List Record} (h : rs.Pairwise (fun r r' => r.key < r'.key)) {r r' : Record}
    (hr : r ∈ rs) (hr' : r' ∈ rs) (hk : r.key = r'.key) : r = r' := by
  have : Std.Symm (fun r r' : Record => r.key ≠ r'.key) := ⟨fun _ _ hne => hne.symm⟩
  by_contra hne
  exact (h.imp (fun hlt => hlt.ne)).forall hr hr' hne hk

open NewestWins

abbrev newestOf (rs : List Record) : Set Record := newest Record.key Record.idx {r | r ∈ rs}

def newestRecords (rs : List Record) : List Record :=
  (rs.filter (fun r => rs.all (fun r' => r'.key ≠ r.key ∨ r'.idx ≤ r.idx))).dedup.insertionSort
    (fun r r' => r.key ≤ r'.key)

theorem mem_newestRecords {rs : List Record} {r : Record} : r ∈ newestRecords rs ↔ r ∈ newestOf rs := by
  simp only [newestRecords, List.mem_insertionSort, List.mem_dedup, List.mem_filter, List.all_eq_true,
    decide_eq_true_eq, newest, Set.mem_ofPred_eq]
  refine and_congr_right (fun _ => forall₂_congr (fun r' _ => ?_))
  tauto

theorem newestRecords_sorted {rs : List Record} (h : Unambiguous Record.key Record.idx {r | r ∈ rs}) :
    (newestRecords rs).Pairwise (fun r r' => r.key < r'.key) := by
  have hle : (newestRecords rs).Pairwise (fun r r' => r.key ≤ r'.key) :=
    have : Std.Total (fun r r' : Record => r.key ≤ r'.key) := ⟨fun _ _ => le_total _ _⟩
    have : IsTrans Record (fun r r' => r.key ≤ r'.key) := ⟨fun _ _ _ => le_trans⟩
    List.pairwise_insertionSort _ _
  have hnd : (newestRecords rs).Nodup :=
    (List.perm_insertionSort _ _).nodup_iff.mpr (List.nodup_dedup _)
  refine (hle.and hnd).imp_of_mem (fun hr hr' hrel => ?_)
  refine lt_of_le_of_ne hrel.1 (fun hk => hrel.2 ?_)
  exact h.newest_unique (mem_newestRecords.mp hr) (mem_newestRecords.mp hr') hk

theorem newestRecords_eq {rs out : List Record} (h : Unambiguous Record.key Record.idx {r | r ∈ rs})
    (hs : out.Pairwise (fun r r' => r.key < r'.key)) (hm : ∀ r, r ∈ out ↔ r ∈ newestOf rs) :
    newestRecords rs = out := by
  have : Std.Irrefl (fun r r' : Record => r.key < r'.key) := ⟨fun _ => lt_irrefl _⟩
  have : Std.Antisymm (fun r r' : Record => r.key < r'.key) :=
    ⟨fun _ _ h h' => absurd h' (lt_asymm h)⟩
  exact (newestRecords_sorted h).eq_of_mem_iff hs (fun r => mem_newestRecords.trans (hm r).symm)

theorem newestRecords_congr {rs rs' : List Record}
    (h : Unambiguous Record.key Record.idx {r | r ∈ rs}) (hm : ∀ r, r ∈ rs ↔ r ∈ rs') :
    newestRecords rs = newestRecords rs' := by
  have hset : {r | r ∈ rs'} = {r | r ∈ rs} := Set.ext (fun r => (hm r).symm)
  refine newestRecords_eq h (newestRecords_sorted (hset ▸ h)) (fun r => ?_)
  rw [mem_newestRecords, newestOf, hset]

theorem unambiguous_flatten {rss : List (List Record)}
    (ho : ∀ rs ∈ rss, rs.Pairwise (fun r r' => r.key < r'.key))
    (ha : rss.Pairwise (fun rs rs' => ∀ r ∈ rs, ∀ r' ∈ rs', r.key = r'.key → r.idx ≠ r'.idx)) :
    Unambiguous Record.key Record.idx {r | r ∈ rss.flatten} := by
  induction rss with
  | nil => exact fun r hr => absurd hr (by simp)
  | cons rs rss ih =>
      obtain ⟨hfirst, hrest⟩ := List.pairwise_cons.mp ha
      have ih := ih (fun rs' h => ho rs' (List.mem_cons_of_mem _ h)) hrest
      intro r hr r' hr' hk hi
      rcases List.mem_append.mp hr with hr | hr <;> rcases List.mem_append.mp hr' with hr' | hr'
      · exact eq_of_key_eq (ho rs (List.mem_cons_self ..)) hr hr' hk
      · obtain ⟨rs', hrs', hr'⟩ := List.mem_flatten.mp hr'
        exact absurd hi (hfirst rs' hrs' r hr r' hr' hk)
      · obtain ⟨rs', hrs', hr⟩ := List.mem_flatten.mp hr
        exact absurd hi.symm (hfirst rs' hrs' r' hr' r hr hk.symm)
      · exact ih r hr r' hr' hk hi

namespace Ushard

/-- A slice as its iterator shows it; the key count is the number of parts
that were added to its writer. -/
structure Slice where
  records : List Record
  sorted : records.Pairwise (fun r r' => r.key < r'.key)
  keyCount : Nat
  empty_iff : keyCount = 0 ↔ records = []
  deriving DecidableEq

namespace Slice

/-- What slice::begin returns, which is no iterator for an empty slice. -/
def begin (s : Slice) : Option (List Part) :=
  if s.keyCount = 0 then none else some (s.records.flatMap Record.parts)

/-- What slice::range returns: the slice from its first key that is not below
the minimum, or no iterator, where no key lies in the range. -/
def Opened (minKey maxKey : Key) (s : Slice) : Option (List Part) → Prop
  | none => ∀ r ∈ s.records, minKey ≤ r.key → maxKey < r.key
  | some ps => ps = (s.records.dropWhile (fun r => r.key < minKey)).flatMap Record.parts

/-- The two slices hold no version of a key in common. -/
def Apart (s s' : Slice) : Prop :=
  ∀ r ∈ s.records, ∀ r' ∈ s'.records, r.key = r'.key → r.idx ≠ r'.idx

instance (s s' : Slice) : Decidable (s.Apart s') :=
  inferInstanceAs (Decidable (∀ r ∈ s.records, ∀ r' ∈ s'.records, r.key = r'.key → r.idx ≠ r'.idx))

theorem Apart.symm {s s' : Slice} (h : Apart s s') : Apart s' s :=
  fun r hr r' hr' hk hi => h r' hr' r hr hk.symm hi.symm

abbrev Distinct (slices : List Slice) : Prop := slices.Pairwise Apart

end Slice

end Ushard

end Tyrdbs
