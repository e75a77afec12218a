import Tyrdbs.Storage.WriterEffects
import Tyrdbs.Storage.DiskReaderServes
import Tyrdbs.Storage.FileContents

namespace Tyrdbs.Storage

open Allocator Extents Outcome

deriving instance DecidableEq for Descriptor

def pagesOf (extents : List Nat) : List Nat := extents.flatMap (fun x => List.range' (high x) (low x))

theorem pagesOf_append (xs ys : List Nat) : pagesOf (xs ++ ys) = pagesOf xs ++ pagesOf ys := List.flatMap_append

theorem pagesOf_cons (x : Nat) (xs : List Nat) : pagesOf (x :: xs) = List.range' (high x) (low x) ++ pagesOf xs := rfl

theorem pagesOf_pack {page pages : Nat} (h : pages < 2 ^ 32) : pagesOf [pack page pages] = List.range' page pages := by
  rw [pagesOf_cons, high_pack h, low_pack h]
  exact List.append_nil _

theorem length_pagesOf (xs : List Nat) : (pagesOf xs).length = (xs.map low).sum := by
  simp [pagesOf, List.length_flatMap]

theorem getDiskPage_eq {xs : List Nat} (hb : ∀ x ∈ xs, high x + low x ≤ 2 ^ 32) {k page : Nat}
    (hk : (pagesOf xs)[k]? = some page) : getDiskPage xs k = page := by
  induction xs generalizing k with
  | nil => cases hk
  | cons x xs ih =>
      have hx := hb x (List.mem_cons_self ..)
      rw [pagesOf_cons] at hk
      rw [getDiskPage]
      by_cases hlt : k < low x
      · rw [List.getElem?_append_left (by rwa [List.length_range']), List.getElem?_range' hlt, Nat.one_mul] at hk
        rw [if_pos hlt, u32_of_lt (by omega)]
        exact Option.some.inj hk
      · rw [List.getElem?_append_right (by rw [List.length_range']; omega), List.length_range'] at hk
        rw [if_neg hlt]
        exact ih (fun y hy => hb y (List.mem_cons_of_mem _ hy)) hk

theorem mem_pagesOf {xs : List Nat} {x p : Nat} (hx : x ∈ xs) (hp : p ∈ cells (high x, low x)) : p ∈ pagesOf xs := by
  rw [mem_cells] at hp
  exact List.mem_flatMap.mpr ⟨x, hx, List.mem_range'_1.mpr hp⟩

theorem val_cells (page pages : Nat) : (cells (page, pages)).val = (List.range' page pages : Multiset Nat) := by
  change ((List.range' page (page + pages - page) : List Nat) : Multiset Nat) = _
  rw [Nat.add_sub_cancel_left]

theorem val_union {s t : Finset Nat} (h : Disjoint s t) : (s ∪ t).val = s.val + t.val := by
  rw [← Finset.disjUnion_eq_union s t h]
  rfl

/-- disk_writer and disk_reader with the descriptors that commit has returned
and that were not unlinked since. -/
structure Volume where
  writer : DiskWriter
  commited : List Descriptor := []

namespace Volume

inductive Action
  | run (a : DiskWriter.Action)
  | read (d : Descriptor) (filePage : UInt32)
  | unlink (d : Descriptor)

def Action.inner : Action → DiskWriter.Action
  | .run a => a
  | .read d filePage => .read (.read (UInt64.ofNat d.cacheId) filePage d.extents)
  | .unlink d => .unlink d.extents

def keeps (v : Volume) : Action → List Descriptor
  | .run (.commit e) => v.commited ++ [(v.writer.files e).descriptor]
  | .unlink d => v.commited.erase d
  | _ => v.commited

def apply (v : Volume) (a : Action) : Except Stop Volume := do
  let writer ← v.writer.apply a.inner
  return { writer := writer, commited := v.keeps a }

/-- The disk stays below 2 ^ 32 pages, and cache ids fit their part of a page
key. A file is read inside its size until it is unlinked, and unlinked once
nobody reads it. -/
def Guard (v : Volume) : Action → Prop
  | .run .create => v.writer.nextCacheId < 2 ^ 39
  | .run .go => ∀ t flush, v.writer.current = some t → v.writer.threads[t]? = some (.extend flush) →
      v.writer.blocks.maxIdx + growPages < 2 ^ 32
  | .run (.read (.read _ _ _)) => False
  | .run (.unlink _) => False
  | .run _ => True
  | .read d filePage => d ∈ v.commited ∧ filePage.toNat * pageSize < d.size
  | .unlink d => d ∈ v.commited ∧
      ∀ call ∈ v.writer.reader.calls, ∀ k, call.inside (DiskReader.keyOf (UInt64.ofNat d.cacheId) k) = false

def Admits (v : Volume) (a : Action) : Prop := v.writer.Admits a.inner ∧ v.writer.InTurn a.inner ∧ v.Guard a

def Step (v : Volume) (a : Action) (v' : Volume) : Prop := v.Admits a ∧ v.apply a = .ok v'

def held (v : Volume) : Multiset Nat :=
  (v.writer.states.map (fun e => (pagesOf (v.writer.files e).descriptor.extents : Multiset Nat))).sum +
    (v.commited.map (fun d => (pagesOf d.extents : Multiset Nat))).sum

/-- Each page of the disk is free, or in one place of one file. -/
structure Apportioned (v : Volume) : Prop where
  consistent : Consistent v.writer.blocks
  held : v.held = (inUse v.writer.blocks).val
  live : ∀ e ∈ v.writer.states, ∀ x ∈ (v.writer.files e).descriptor.extents, 0 < low x
  commited : ∀ d ∈ v.commited, ∀ x ∈ d.extents, 0 < low x
  released : ∀ e ∈ v.writer.states, (v.writer.files e).commited = true → (v.writer.files e).descriptor.extents = []
  taken : ∀ flush ∈ v.writer.unplaced, flush.cachedPages ≠ [] ∧ (v.writer.files flush.state).commited = false

end Volume

end Tyrdbs.Storage
