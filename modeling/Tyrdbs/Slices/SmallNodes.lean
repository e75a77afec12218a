import Tyrdbs.Slices.Pages

namespace Tyrdbs.Slices

open Bytes Outcome

/-- The only entry of a leaf: its header and its data. -/
def aloneFront (size : Nat) (last : Bool) : List Byte := OpenNode.header size 8127 1 last false

def aloneBack (attributes : Nat) (piece : List Byte) (key : Byte) : List Byte :=
  littleEndian attributesSize attributes ++ (piece ++ ([key] ++ []))

theorem alone_fits {piece : List Byte} (hfit : piece.length ≤ 8111) {start : List Byte} (hstart : start.length = 2)
    (last : Bool) (attributes : Nat) (key : Byte) :
    (start ++ aloneFront piece.length last).length + (aloneBack attributes piece key).length ≤ nodeSize := by
  have hn : nodeSize = 8128 := rfl
  have hattr : attributesSize = 8 := rfl
  have hheader := length_header piece.length 8127 1 last false
  simp only [aloneFront, aloneBack, List.length_append, length_littleEndian, List.length_singleton, List.length_nil]
  omega

def alone (attributes : Nat) (piece : List Byte) (hfit : piece.length ≤ 8111) (key : Byte) (last : Bool) : OpenNode :=
  .ofPage ([0, 0] ++ aloneFront piece.length last) (aloneBack attributes piece key)
    (alone_fits hfit rfl last attributes key) 1

theorem add_alone {value piece : List Byte} {key : Byte} {attributes : Nat} {noSplit eor last : Bool}
    (hspace : OpenNode.internalReset.hasEnoughSpace [key] value noSplit = true) 
    (hsize : min 8111 value.length = piece.length) (hpiece : value.take piece.length = piece)
    (hlt : value.length < 2 ^ 16)
    (hlast : (eor && piece.length = value.length) = last) :
    NodeWriter.add {} [key] value eor false attributes noSplit = .ok
      ({ node := some (alone attributes piece (by omega) key last) }, some piece.length) := by
  have hn : nodeSize = 8128 := rfl
  have hsix : entrySize = 6 := rfl
  have hattr : attributesSize = 8 := rfl
  have hcut : min ((nodeSize - 0 - 1 + 2 ^ 32 - (2 + entrySize + attributesSize)) % 2 ^ 32) value.length % 2 ^ 16 =
      piece.length := by omega
  have hopened : ∀ w : NodeWriter, w.add [key] value eor false attributes noSplit =
      NodeWriter.add { node := some w.opened } [key] value eor false attributes noSplit := fun _ => rfl
  have hreset : ({} : NodeWriter).opened = .ofPage [0, 0] [] (by decide) 0 := internalReset_eq
  rw [hopened, hreset]
  exact @NodeWriter.add_page [0, 0] [] [key] value eor false noSplit attributes piece last (by decide) 0
    (List.cons_ne_nil _ _) (show 1 < maxKeySize by decide) (by rwa [← internalReset_eq]) hcut hpiece
    (by omega) hlast _

def aloneNode (attributes : Nat) (piece : List Byte) (hfit : piece.length ≤ 8111) (key : Byte) (last : Bool)
    (next : Nat) : Node where
  data := ⟨page (littleEndian 2 1 ++ aloneFront piece.length last) (aloneBack attributes piece key),
    length_page (alone_fits hfit rfl last attributes key)⟩
  keyCount := 1
  next := next

theorem storedNode_alone {attributes : Nat} {piece : List Byte} (hfit : piece.length ≤ 8111) (key : Byte)
    (last : Bool) : storedNode { node := some (alone attributes piece hfit key last) } =
      aloneNode attributes piece hfit key last (2 ^ 64 - 1) :=
  storedNode_page rfl (alone_fits hfit rfl last attributes key)

namespace SliceWriter

section Two

variable {z : Codec} {n : Node} {b : OpenNode} {last : List Byte} {key : Byte} {size₁ size₂ size₃ keyCount : Nat}

/-- The writer of one leaf that holds the key 97 alone, in the leaf behind it. -/
def inSecond (z : Codec) (n : Node) (size : Nat) (b : OpenNode) (last : List Byte) (hlast : last.length ≤ 8111)
    (key : Byte) (keyCount : Nat) : SliceWriter where
  sink := Sink.first z n size
  node := { node := some b }
  index := [⟨{ node := some (alone (0 <<< 16 ||| sizeField size true) last hlast 97 true) }, [97], last⟩]
  firstKey := [key]
  lastKey := [key]
  keyCount := keyCount
  handed := [⟨[97], last, 0 <<< 16 ||| sizeField size true⟩]

def pairFront (l₁ : Nat) (last : List Byte) : List Byte :=
  aloneFront last.length true ++ OpenNode.header 1 (nodeSize - (aloneBack l₁ last 97).length - 1) 1 true false

def pairBack (l₁ l₂ : Nat) (last : List Byte) (key : Byte) : List Byte :=
  littleEndian attributesSize l₂ ++ ([key] ++ ([key] ++ aloneBack l₁ last 97))

theorem length_aloneBack (attributes : Nat) (piece : List Byte) (key : Byte) :
    (aloneBack attributes piece key).length = 9 + piece.length := by
  simp only [aloneBack, List.length_append, length_littleEndian, List.length_singleton, List.length_nil]
  rw [show attributesSize = 8 from rfl]
  omega

theorem pair_fits {start : List Byte} (hstart : start.length = 2) (l₁ l₂ : Nat) (hlast : last.length ≤ 1000)
    (key : Byte) : (start ++ pairFront l₁ last).length + (pairBack l₁ l₂ last key).length ≤ nodeSize := by
  have hn : nodeSize = 8128 := rfl
  have hattr : attributesSize = 8 := rfl
  have hback := length_aloneBack l₁ last 97
  simp only [pairFront, pairBack, aloneFront, List.length_append, length_littleEndian, List.length_singleton,
    length_header, hback]
  omega

def pair (l₁ l₂ : Nat) (last : List Byte) (hlast : last.length ≤ 1000) (key : Byte) : OpenNode :=
  .ofPage ([0, 0] ++ pairFront l₁ last) (pairBack l₁ l₂ last key) (pair_fits rfl l₁ l₂ hlast key) 2

def pairNode (l₁ l₂ : Nat) (last : List Byte) (hlast : last.length ≤ 1000) (key : Byte) (next : Nat) : Node where
  data := ⟨page (littleEndian 2 2 ++ pairFront l₁ last) (pairBack l₁ l₂ last key),
    length_page (pair_fits rfl l₁ l₂ hlast key)⟩
  keyCount := 2
  next := next

theorem storedNode_pair (l₁ l₂ : Nat) (hlast : last.length ≤ 1000) (key : Byte) :
    storedNode { node := some (pair l₁ l₂ last hlast key) } = pairNode l₁ l₂ last hlast key (2 ^ 64 - 1) :=
  storedNode_page rfl (pair_fits rfl l₁ l₂ hlast key)

theorem add_beside (l₁ l₂ : Nat) (hlast : last.length ≤ 1000) :
    NodeWriter.add { node := some (alone l₁ last (by omega) 97 true) } [key] [key] true false l₂ true = .ok
      ({ node := some (pair l₁ l₂ last hlast key) }, some 1) := by
  have hback := length_aloneBack l₁ last 97
  have hfront : ([0, 0] ++ aloneFront last.length true).length = 8 := rfl
  have hn : nodeSize = 8128 := rfl
  have hspace : (alone l₁ last (by omega) 97 true).hasEnoughSpace [key] [key] true = true := by
    simp only [OpenNode.hasEnoughSpace, alone, OpenNode.ofPage, hback, hfront, List.length_singleton, if_true]
    refine decide_eq_true ?_
    have hcost : (entrySize + 1 + attributesSize + 1) % 2 ^ 16 = 16 := by decide
    omega
  have hcut : min ((nodeSize - (aloneBack l₁ last 97).length - 1 + 2 ^ 32 -
      (([0, 0] ++ aloneFront last.length true).length + entrySize + attributesSize)) % 2 ^ 32) 1 % 2 ^ 16 = 1 := by
    rw [hback, hfront, show entrySize = 6 from rfl, show attributesSize = 8 from rfl]
    omega
  exact @NodeWriter.add_page ([0, 0] ++ aloneFront last.length true) (aloneBack l₁ last 97) [key] [key] true false
    true l₂ [key] true (alone_fits (by omega) rfl true l₁ 97) 1 (List.cons_ne_nil _ _)
    (show 1 < maxKeySize by decide) hspace hcut rfl (show 1 < 16384 by decide) rfl
    (@pair_fits last [0, 0] rfl l₁ l₂ hlast key)

theorem flush_inSecond (hlast : last.length ≤ 1000) {b₁ b : OpenNode} {n₂ : Node} (h₁ : Packs z b₁ n size₁)
    (h₂ : Packs z b n₂ size₂)
    (h₃ : (packed z (pairNode (0 <<< 16 ||| sizeField size₁ true) ((size₁ + 6) <<< 16 ||| sizeField size₂ true)
      last hlast key (2 ^ 64 - 1))).length = size₃) (hpos₃ : 0 < size₃) (hle₃ : size₃ ≤ nodePageSize) :
    (inSecond z n size₁ b last (by omega) key keyCount).flush z 8 = .ok
      ((inSecond z n size₁ b last (by omega) key keyCount).closed z
        ⟨{ node := some (pair (0 <<< 16 ||| sizeField size₁ true) ((size₁ + 6) <<< 16 ||| sizeField size₂ true) last hlast
          key) }, [97], [key]⟩ n₂ (pairNode (0 <<< 16 ||| sizeField size₁ true)
          ((size₁ + 6) <<< 16 ||| sizeField size₂ true) last hlast key (2 ^ 64 - 1)) size₂ (size₁ + 6) size₃
        (size₁ + size₂ + 14)) := by
  have hpage : nodePageSize = 8192 := rfl
  have hle₁ := h₁.le
  have hle₂ := h₂.le
  have hlen : (Sink.first z n size₁).file.length = size₁ + 4 := by
    simp only [Sink.first, Sink.holding, List.nil_append, length_image, h₁.size_eq]
    omega
  have hbegun : (Sink.first z n size₁).firstNodeSize ≠ invalidSize :=
    sizeField_ne_invalid (show size₁ < 2 ^ 15 - 1 by omega) true
  exact flush_closed (w := inSecond z n size₁ b last (by omega) key keyCount) rfl h₂ (List.cons_ne_nil _ _) rfl hbegun
    (show (Sink.first z n size₁).file.length + 2 = size₁ + 6 by omega) rfl (add_beside _ _ hlast)
    ⟨storedNode_pair _ _ hlast key, h₃, hpos₃, hle₃⟩ (show size₁ + 6 + size₂ + 8 = size₁ + size₂ + 14 by omega)
    (by omega)

theorem nextLeaf_first {w : SliceWriter} {rounds : Nat} (hlast : last.length ≤ 1000) (hsink : w.sink = {})
    (hnode : w.node = { node := some b }) (hindex : w.index = [{}]) (hfirst : w.firstKey = [97])
    (hkey : w.lastKey = last) (hhanded : w.handed = []) (h : Packs z b n size₁) :
    nextLeaf z (rounds + 1) w [key] true = .ok { w with
      sink := (inSecond z n size₁ b last (by omega) key keyCount).sink
      node := {}
      index := (inSecond z n size₁ b last (by omega) key keyCount).index
      firstKey := [key]
      handed := (inSecond z n size₁ b last (by omega) key keyCount).handed } := by
  have hspace : OpenNode.internalReset.hasEnoughSpace [97] last true = true := by
    simp only [OpenNode.hasEnoughSpace, List.length_singleton, if_true, OpenNode.internalReset]
    refine decide_eq_true ?_
    rw [show entrySize = 6 from rfl, show attributesSize = 8 from rfl, show nodeSize = 8128 from rfl]
    omega
  have hentry := @add_alone last last 97 (0 <<< 16 ||| sizeField size₁ true) true true true hspace (by omega)
    (List.take_length ..) (by omega) (by rw [decide_eq_true rfl]; rfl)
  rw [nextLeaf_stored (by rw [hsink, hnode]; exact store_first h) (by rw [hfirst]; exact List.cons_ne_nil _ _) hindex
    (by rw [hfirst, hkey]; exact hentry)]
  simp only [hfirst, hkey, hhanded]
  rfl

end Two

end SliceWriter

end Tyrdbs.Slices
