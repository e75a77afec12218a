import Tyrdbs.Storage.FileWriter

namespace Tyrdbs.Storage

open Allocator

def getDiskPage : List Nat → Nat → Nat
  | [], _ => invalidHandle
  | x :: xs, filePage =>
      if low x > filePage then u32 (high x + filePage) else getDiskPage xs (filePage - low x)

/-- disk_reader::read: a page comes from the cache or, on a miss, from the
disk page that the extents name, and then enters the cache. -/
def readPage (e : Engine) (d : Descriptor) (filePage : Nat) : Except Fault (Page × Engine) :=
  if filePage < 1 <<< filePagesBits then
    match e.cache (cacheKey d.cacheId filePage) with
    | some page => .ok (page, e)
    | none =>
        let e := e.cacheAllocate.2
        let page := e.disk.read (getDiskPage d.extents filePage)
        .ok (page, e.cacheAdd (cacheKey d.cacheId filePage) page)
  else .error .assertion

def preadLoop (d : Descriptor) : Nat → Engine → Nat → Nat → Except Fault (List Byte × Engine)
  | 0, _, _, _ => .error .unfinished
  | rounds + 1, e, offset, size =>
      if size = 0 then .ok ([], e)
      else do
        let (page, e) ← readPage e d (offset >>> pageBits)
        let pageOffset := offset &&& pageMask
        let part := min (pageSize - pageOffset) size
        let (rest, e) ← preadLoop d rounds e (offset + part) (size - part)
        return (Bytes.slice page.bytes pageOffset part ++ rest, e)

def pread (e : Engine) (d : Descriptor) (offset size : Nat) : Except Fault (List Byte × Engine) :=
  if offset < d.size then
    let size := if offset + size > d.size then d.size - offset else size
    preadLoop d (size + 1) e offset size
  else .error .assertion

def preads (d : Descriptor) : Engine → List (Nat × Nat) → Except Fault (List (List Byte))
  | _, [] => .ok []
  | e, (offset, size) :: calls => do
      let (bytes, e) ← pread e d offset size
      let rest ← preads d e calls
      return bytes :: rest

end Tyrdbs.Storage
