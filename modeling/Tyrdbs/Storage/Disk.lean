import Tyrdbs.Library.Bytes
import Tyrdbs.Common.AllocatorRuns
import Mathlib.Data.List.GetD

namespace Tyrdbs.Storage

open Allocator Extents

def pageBits : Nat := 12

def pageSize : Nat := 1 <<< pageBits

def pageMask : Nat := pageSize - 1

def filePagesBits : Nat := 25

def growPages : Nat := 32768

def iovMax : Nat := 1024

inductive Fault
  | fileSizeLimit
  | pagesExhausted
  | assertion
  | unfinished
  deriving DecidableEq

structure Page where
  bytes : List Byte
  size_eq : bytes.length = pageSize

def Page.copy (p : Page) (off : Nat) (data : List Byte) : Page :=
  ⟨Bytes.splice p.bytes off data, by rw [Bytes.length_splice, p.size_eq]⟩

/-- Cache ids are counted without end, where the source has 64 bits. -/
structure Disk where
  blocks : Allocator := {}
  image : Nat → Page
  nextCacheId : Nat := 1

namespace Disk

/-- The backing file grows until an extent fits; the number of
rounds is what the 32-bit page index leaves room for. -/
def allocateLoop : Nat → Disk → Nat → Except Fault (Nat × Disk)
  | rounds, d, pages =>
      let r := d.blocks.allocate pages
      if r.1 = invalidHandle then
        match rounds with
        | 0 => .error .pagesExhausted
        | rounds + 1 => allocateLoop rounds { d with blocks := r.2.extend growPages } pages
      else .ok (r.1, { d with blocks := r.2 })

def allocate (d : Disk) (pages : Nat) : Except Fault (Nat × Disk) :=
  allocateLoop ((2 ^ 32 - 1 - d.blocks.capacity) / growPages) d pages

def read (d : Disk) (page : Nat) : Page := d.image page

def write (d : Disk) (page : Nat) (iov : List Page) : Disk :=
  { d with image := fun k => if page ≤ k then iov.getD (k - page) (d.image k) else d.image k }

end Disk

def inUse (a : Allocator) : Finset Nat := Finset.range a.maxIdx \ covered a.extents

theorem inv_inUse {a : Allocator} (h : Consistent a) : Inv ⟨a, inUse a⟩ := ⟨h, rfl⟩

theorem inUse_extend {a : Allocator} (h : Consistent a) {n : Nat} (hn : a.maxIdx + n < 2 ^ 32) :
    inUse (a.extend n) = inUse a := (inv_extend (inv_inUse h) hn).live_eq.symm

theorem inUse_allocate {a : Allocator} (h : Consistent a) {n : Nat} (hn : 0 < n)
    (hs : (a.allocate n).1 ≠ invalidHandle) :
    Consistent (a.allocate n).2 ∧ inUse (a.allocate n).2 = inUse a ∪ cells ((a.allocate n).1, n) ∧
      Disjoint (cells ((a.allocate n).1, n)) (inUse a) ∧
      (a.allocate n).1 + n ≤ (a.allocate n).2.maxIdx := by
  rcases allocate_cases (inv_inUse h) n hn with
    ⟨_, hv⟩ | ⟨e, he, hfit, _, hidx, _, hsub, hinv, hlive, hmax, _⟩
  · have hfail : a.allocate n = (invalidHandle, a) := hv
    rw [hfail] at hs
    exact absurd rfl hs
  · have hidx : (a.allocate n).1 = e.1 := hidx
    have hmax : (a.allocate n).2.maxIdx = a.maxIdx := hmax
    refine ⟨hinv.consistent, hinv.live_eq.symm.trans (by rw [hlive, hidx]), ?_, ?_⟩
    · rw [hidx]
      refine Finset.disjoint_left.mpr (fun p hp huse => ?_)
      exact (Finset.mem_sdiff.mp huse).2 (Finset.subset_biUnion_of_mem cells he (hsub hp))
    · have := h.below e he
      rw [hidx, hmax]; omega

theorem allocate_fails_same {a : Allocator} (h : Consistent a) {n : Nat} (hn : 0 < n)
    (hs : (a.allocate n).1 = invalidHandle) : (a.allocate n).2 = a := by
  rcases allocate_cases (inv_inUse h) n hn with ⟨_, hv⟩ | ⟨e, _, _, _, hidx, hvalid, _⟩
  · have hv : a.allocate n = (invalidHandle, a) := hv
    rw [hv]
  · exact absurd (hidx.symm.trans hs) hvalid

theorem allocateLoop_of_fit (rounds : Nat) (d : Disk) {n : Nat}
    (hs : (d.blocks.allocate n).1 ≠ invalidHandle) :
    d.allocateLoop rounds n = .ok ((d.blocks.allocate n).1, { d with blocks := (d.blocks.allocate n).2 }) := by
  cases rounds <;> simp only [Disk.allocateLoop, if_neg hs]

/-- However often the file grows, allocate hands out free pages and keeps
what is in use; it fails only where the page index runs out. -/
theorem allocateLoop_spec (rounds : Nat) (d : Disk) (hc : Consistent d.blocks)
    (hr : d.blocks.maxIdx + growPages * rounds < 2 ^ 32) (n : Nat) (hn : 0 < n) :
    d.allocateLoop rounds n = .error .pagesExhausted ∨
    ∃ page d', d.allocateLoop rounds n = .ok (page, d') ∧ d'.image = d.image ∧
      d'.nextCacheId = d.nextCacheId ∧ Consistent d'.blocks ∧ page + n ≤ d'.blocks.maxIdx ∧
      inUse d'.blocks = inUse d.blocks ∪ cells (page, n) ∧
      Disjoint (cells (page, n)) (inUse d.blocks) := by
  induction rounds generalizing d with
  | zero =>
      by_cases hs : (d.blocks.allocate n).1 = invalidHandle
      · exact Or.inl (by simp only [Disk.allocateLoop, if_pos hs])
      · obtain ⟨h1, h2, h3, h4⟩ := inUse_allocate hc hn hs
        exact Or.inr ⟨_, _, allocateLoop_of_fit 0 d hs, rfl, rfl, h1, h4, h2, h3⟩
  | succ rounds ih =>
      have hgrow : d.blocks.maxIdx + growPages < 2 ^ 32 :=
        (Nat.add_le_add_left (Nat.le_mul_of_pos_right _ rounds.succ_pos) _).trans_lt hr
      by_cases hs : (d.blocks.allocate n).1 = invalidHandle
      · obtain ⟨hcons, hmax, _, _⟩ := extend_spec hc hgrow
        have hstep : d.allocateLoop (rounds + 1) n =
            Disk.allocateLoop rounds { d with blocks := d.blocks.extend growPages } n := by
          rw [Disk.allocateLoop]
          simp only [if_pos hs, allocate_fails_same hc hn hs]
        have hrest : (d.blocks.extend growPages).maxIdx + growPages * rounds < 2 ^ 32 := by
          rw [hmax]
          rw [Nat.mul_succ] at hr
          omega
        have hrec := ih { d with blocks := d.blocks.extend growPages } hcons hrest
        rwa [inUse_extend hc hgrow, ← hstep] at hrec
      · obtain ⟨h1, h2, h3, h4⟩ := inUse_allocate hc hn hs
        exact Or.inr ⟨_, _, allocateLoop_of_fit _ d hs, rfl, rfl, h1, h4, h2, h3⟩

theorem allocate_spec (d : Disk) (hc : Consistent d.blocks) (n : Nat) (hn : 0 < n) :
    d.allocate n = .error .pagesExhausted ∨
    ∃ page d', d.allocate n = .ok (page, d') ∧ d'.image = d.image ∧
      d'.nextCacheId = d.nextCacheId ∧ Consistent d'.blocks ∧ page + n ≤ d'.blocks.maxIdx ∧
      inUse d'.blocks = inUse d.blocks ∪ cells (page, n) ∧
      Disjoint (cells (page, n)) (inUse d.blocks) := by
  have hb := hc.bounded
  refine allocateLoop_spec _ d hc ?_ n hn
  calc d.blocks.maxIdx + growPages * ((2 ^ 32 - 1 - d.blocks.maxIdx) / growPages)
      ≤ d.blocks.maxIdx + (2 ^ 32 - 1 - d.blocks.maxIdx) := Nat.add_le_add_left (Nat.mul_div_le _ _) _
    _ < 2 ^ 32 := by omega

theorem write_image_of_mem (d : Disk) (page : Nat) (iov : List Page) {i : Nat} (hi : i < iov.length) :
    (d.write page iov).image (page + i) = iov[i] := by
  simp [Disk.write, hi]

theorem write_image_of_notMem (d : Disk) (page : Nat) (iov : List Page) {k : Nat}
    (hk : k < page ∨ page + iov.length ≤ k) : (d.write page iov).image k = d.image k := by
  simp only [Disk.write]
  split
  next hle => exact List.getD_eq_default _ _ (by omega)
  next => rfl

end Tyrdbs.Storage
