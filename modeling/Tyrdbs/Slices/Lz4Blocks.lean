import Tyrdbs.Slices.Lz4Rounds

namespace Tyrdbs.Slices.Lz4Decoder

open Outcome Buffers Bytes Lz4

variable {block acc bytes : List Byte} {capacity op ip ip₁ ip₂ n literals matchCode length offset : Nat}
variable {dst u v : Memory} {next : Next}

def shown (dst : Memory) (op : Nat) : List Byte := (List.range op).map dst

@[simp] theorem length_shown (dst : Memory) (op : Nat) : (shown dst op).length = op := by
  rw [shown, List.length_map, List.length_range]

theorem shown_add (dst : Memory) (op n : Nat) :
    shown dst (op + n) = shown dst op ++ (List.range n).map (fun i => dst (op + i)) := by
  rw [shown, shown, List.range_add, List.map_append, List.map_map]
  rfl

theorem shown_congr (h : ∀ i < op, u i = dst i) : shown u op = shown dst op :=
  List.map_congr_left fun i hi => h i (List.mem_range.mp hi)

theorem shown_reads (h : Reads block dst u op ip n) (hin : ip + n ≤ block.length) :
    shown u (op + n) = shown dst op ++ slice block ip n := by
  rw [shown_add, shown_congr h.before]
  congr 1
  apply List.ext_getElem
  · rw [List.length_map, List.length_range, length_slice hin]
  · intro i hi hi'
    rw [List.length_map, List.length_range] at hi
    rw [List.getElem_map, List.getElem_range, h.bytes i (by omega) hi]
    simp [slice]

theorem copyMatch_succ {c : Nat} {b : Byte} {op rest : List Byte} (h : op.drop c = b :: rest) (length : Nat) :
    Lz4.copyMatch (c + 1) (length + 1) op = Lz4.copyMatch (c + 1) length (b :: op) := by
  rw [Lz4.copyMatch, Nat.add_sub_cancel, h]

/-- Cells that repeat are a match of the plain decoder. The induction is on the
length of the match. -/
theorem shown_repeats (hpos : 0 < offset) (hback : offset ≤ op) :
    ∀ n dst, Repeats dst u op n offset →
      (shown u (op + n)).reverse = Lz4.copyMatch offset n (shown dst op).reverse := by
  obtain ⟨c, rfl⟩ : ∃ c, offset = c + 1 := Nat.exists_eq_succ_of_ne_zero (Nat.ne_of_gt hpos)
  intro n
  induction n generalizing op with
  | zero =>
      intro dst h
      rw [Nat.add_zero, shown_congr h.before]
      rfl
  | succ n ih =>
      intro dst h
      have hfirst : u op = dst (op - (c + 1)) := by
        rw [h.back op (Nat.le_refl _) (by omega), h.before _ (by omega)]
      have hrest : Repeats u u (op + 1) n (c + 1) :=
        ⟨fun _ _ => rfl, fun i hd hlt => h.back i (by omega) (by omega)⟩
      have hshown : (shown u (op + 1)).reverse = u op :: (shown dst op).reverse := by
        rw [shown_add, shown_congr h.before, List.reverse_append]
        rfl
      have hdrop : (shown dst op).reverse.drop c = u op :: (shown dst op).reverse.drop (c + 1) := by
        have hlt : c < (shown dst op).reverse.length := by
          rw [List.length_reverse, length_shown]
          omega
        rw [List.drop_eq_getElem_cons hlt, List.getElem_reverse, hfirst]
        congr 1
        simp only [shown, List.getElem_map, List.getElem_range, List.length_map, List.length_range]
        exact congrArg dst (by omega)
      rw [show op + (n + 1) = op + 1 + n by omega, ih (by omega) u hrest, hshown, copyMatch_succ hdrop]

theorem SequenceAt.advances (h : SequenceAt block ip literals ip₁ matchCode ip₂) : ip < ip₂ := by
  have hfirst := h.length.forward
  have hsecond := h.matchLength.forward
  omega

theorem decodeLoop_done (rounds : Nat) (dst : Memory) (op : Nat) :
    decodeLoop block capacity rounds dst op .done = .ok (dst, op) := by
  cases rounds <;> rfl

/-- The induction is on the rounds; the bytes of the block that are left bound them. -/
theorem decodeLoop_contained (hsmall : block.length ≤ maxBlock) (rounds : Nat) :
    ∀ dst op ip next, Goes block capacity op ip next → block.length ≤ ip + rounds →
      (∃ u n, decodeLoop block capacity rounds dst op next = .ok (u, n) ∧ n ≤ capacity) ∨
        decodeLoop block capacity rounds dst op next = .error .outputError := by
  induction rounds with
  | zero => exact fun _ _ ip _ h hrounds => absurd h.1 (Nat.not_lt_of_le hrounds)
  | succ rounds ih =>
      intro dst op ip next h hrounds
      have hround := round_spec dst hsmall h
      rw [decodeLoop_succ dst rounds h]
      generalize round block capacity dst op next = result at hround
      cases hround with
      | refused _ => exact .inr rfl
      | ended _ fits _ =>
          simp only [ok_bind, decodeLoop_done]
          exact .inl ⟨_, _, rfl, fits⟩
      | went at_ _ _ _ goes =>
          rw [ok_bind]
          exact ih _ _ _ _ goes (by have hadvances := at_.advances; omega)

theorem plain_last {rounds : Nat} (hip : ip < block.length) (h : LastAt block ip literals ip₁) :
    decompressGeneric (rounds + 1) acc (block.drop ip) = some (acc.reverse ++ slice block ip₁ literals) := by
  obtain ⟨b, hdrop, hb⟩ := drop_eq_byteAt hip
  have hend : (block.drop ip₁).drop literals = [] := by
    rw [List.drop_drop]
    exact List.drop_eq_nil_of_le h.ends.ge
  have hle : literals ≤ (block.drop ip₁).length := by
    rw [List.length_drop]
    exact Nat.le_sub_of_add_le' h.ends.le
  rw [hdrop, decompressGeneric, hb, h.length.reads]
  simp only [Option.bind_eq_bind, Option.bind_some, hend]
  rw [if_pos hle, List.reverse_append, List.reverse_reverse]
  rfl

theorem plain_sequence {rounds : Nat} (hip : ip < block.length) (h : SequenceAt block ip literals ip₁ matchCode ip₂) :
    decompressGeneric (rounds + 1) acc (block.drop ip) =
      if 0 < offsetAt block (ip₁ + literals) ∧ offsetAt block (ip₁ + literals) ≤ acc.length + literals then
        decompressGeneric rounds (Lz4.copyMatch (offsetAt block (ip₁ + literals)) (matchCode + minMatch)
          ((slice block ip₁ literals).reverse ++ acc)) (block.drop ip₂)
      else none := by
  have hoffset := h.offset
  obtain ⟨b, hdrop, hb⟩ := drop_eq_byteAt hip
  obtain ⟨low, hlow, -⟩ := drop_eq_byteAt (show ip₁ + literals < block.length by omega)
  obtain ⟨high, hhigh, -⟩ := drop_eq_byteAt (show ip₁ + literals + 1 < block.length by omega)
  have hrest : (block.drop ip₁).drop literals = low :: high :: block.drop (ip₁ + literals + 2) := by
    rw [List.drop_drop, hlow, hhigh]
  have hpair : fromLittleEndian [low, high] = offsetAt block (ip₁ + literals) := by
    rw [offsetAt, slice, hlow, hhigh]
    rfl
  have hlength : ((slice block ip₁ literals).reverse ++ acc).length = acc.length + literals := by
    rw [List.length_append, List.length_reverse, length_slice (by omega), Nat.add_comm]
  rw [hdrop, decompressGeneric, hb, h.length.reads]
  simp only [Option.bind_eq_bind, Option.bind_some, hrest]
  rw [hpair, h.matchLength.reads, ← hlength]
  rfl

/-- A match of itself stands in a sequence of the block, from a position on. -/
inductive ZeroOffset (block : List Byte) : Nat → Prop
  | here {ip literals ip₁ matchCode ip₂ : Nat} (hip : ip < block.length)
      (at_ : SequenceAt block ip literals ip₁ matchCode ip₂) (zero : offsetAt block (ip₁ + literals) = 0) : ZeroOffset block ip
  | later {ip literals ip₁ matchCode ip₂ : Nat} (hip : ip < block.length)
      (at_ : SequenceAt block ip literals ip₁ matchCode ip₂) (later : ZeroOffset block ip₂) : ZeroOffset block ip

theorem plain_refuses (h : ZeroOffset block ip) : ∀ rounds acc, decompressGeneric rounds acc (block.drop ip) = none := by
  induction h with
  | here hip at_ zero =>
      rintro (_ | rounds) acc
      · rfl
      · rw [plain_sequence hip at_, if_neg (by omega)]
  | later hip at_ _ ih =>
      rintro (_ | rounds) acc
      · rfl
      · rw [plain_sequence hip at_, ih, ite_self]

/-- A block is taken for what it is without the fast paths, as long as no match is
of itself. The induction is on the rounds. -/
theorem decodeLoop_agrees (hsmall : block.length ≤ maxBlock) (rounds : Nat) :
    ∀ rounds' dst op ip next, Goes block capacity op ip next → block.length ≤ ip + rounds' →
      decodeLoop block capacity rounds dst op next = .ok (u, n) →
      decompressGeneric rounds' (shown dst op).reverse (block.drop ip) = some (shown u n) ∨ ZeroOffset block ip := by
  induction rounds with
  | zero =>
      intro rounds' dst op ip next h _ hok
      obtain ⟨-, ⟨rfl, -⟩ | ⟨rfl, -⟩⟩ := h <;> exact absurd hok (by simp [decodeLoop])
  | succ rounds ih =>
      intro rounds' dst op ip next h hrounds hok
      have hip := h.1
      have hround := round_spec dst hsmall h
      obtain ⟨rounds', rfl⟩ : ∃ r, rounds' = r + 1 := Nat.exists_eq_succ_of_ne_zero (by omega)
      rw [decodeLoop_succ dst rounds h] at hok
      generalize round block capacity dst op next = result at hround hok
      cases hround with
      | refused _ => exact absurd hok (by intro herror; cases herror)
      | ended at_ _ reads =>
          simp only [ok_bind, decodeLoop_done, Except.ok.injEq, Prod.mk.injEq] at hok
          obtain ⟨rfl, rfl⟩ := hok
          rw [plain_last hip at_, List.reverse_reverse, ← shown_reads reads at_.ends.le]
          exact .inl rfl
      | @went literals ip₁ _ _ _ _ _ at_ back reads matched goes =>
          have hin := at_.offset
          have hadvances := at_.advances
          by_cases hzero : offsetAt block (ip₁ + literals) = 0
          · exact .inr (.here hip at_ hzero)
          have hpos := Nat.pos_of_ne_zero hzero
          rw [ok_bind] at hok
          rw [plain_sequence hip at_, List.length_reverse, length_shown, if_pos ⟨hpos, back⟩, ← List.reverse_append,
            ← shown_reads reads (by omega), ← shown_repeats hpos back _ _ (matched hpos)]
          rcases ih rounds' _ _ _ _ goes (by omega) hok with hplain | hlater
          · exact .inl hplain
          · exact .inr (.later hip at_ hlater)

theorem goes_start (hblock : block ≠ []) :
    Goes block capacity 0 0 (if capacity < fastloopSafeDistance then .safe 0 else .fast 0) := by
  refine ⟨List.length_pos_of_ne_nil hblock, ?_⟩
  by_cases hsmall : capacity < fastloopSafeDistance
  · exact .inl ⟨if_pos hsmall, Nat.zero_le _⟩
  · exact .inr ⟨if_neg hsmall, by omega⟩

theorem decompressSafe_contained (block : List Byte) (capacity : Nat) (dst : Memory) (hsmall : block.length ≤ maxBlock) :
    (∃ u n, decompressSafe block capacity dst = .ok (u, n) ∧ n ≤ capacity) ∨
      decompressSafe block capacity dst = .error .outputError := by
  rw [decompressSafe]
  by_cases hcapacity : capacity = 0
  · rw [if_pos hcapacity]
    by_cases hblock : block = [0]
    · rw [if_pos hblock]
      exact .inl ⟨dst, 0, rfl, Nat.zero_le _⟩
    · rw [if_neg hblock]
      exact .inr rfl
  · rw [if_neg hcapacity]
    by_cases hblock : block = []
    · rw [if_pos hblock]
      exact .inr rfl
    · rw [if_neg hblock]
      exact decodeLoop_contained hsmall block.length dst 0 0 _ (goes_start hblock) (by omega)

theorem decompressSafe_contained_cut : (∃ u n, decompressSafe [255, 255, 255] 9 ⟨fun _ => 0⟩ = .ok (u, n) ∧ n ≤ 9) ∨
    decompressSafe [255, 255, 255] 9 ⟨fun _ => 0⟩ = .error .outputError :=
  decompressSafe_contained [255, 255, 255] 9 ⟨fun _ => 0⟩ (by decide)

/-- What is accepted is what the plain decoder makes of the block, which refuses
only a match of itself. -/
theorem decompressSafe_agrees (hsmall : block.length ≤ maxBlock) (hok : decompressSafe block capacity dst = .ok (u, n)) :
    Lz4.decompressSafe block = some (shown u n) ∨ ZeroOffset block 0 ∧ Lz4.decompressSafe block = none := by
  rw [decompressSafe] at hok
  split at hok
  · split at hok
    · rename_i hblock
      subst hblock
      rw [Except.ok.injEq, Prod.mk.injEq] at hok
      obtain ⟨rfl, rfl⟩ := hok
      exact .inl rfl
    · exact absurd hok (by simp)
  · split at hok
    · exact absurd hok (by simp)
    · rename_i hblock
      rcases decodeLoop_agrees hsmall _ block.length _ _ _ _ (goes_start hblock) (by omega) hok with hplain | hzero
      · exact .inl hplain
      · exact .inr ⟨hzero, plain_refuses hzero block.length []⟩

theorem decompressSafe_agrees_run : ∃ u, decompressSafe [20, 65, 1, 0, 80, 1, 2, 3, 4, 5] 14 ⟨fun _ => 0⟩ = .ok (u, 14) ∧
    (Lz4.decompressSafe [20, 65, 1, 0, 80, 1, 2, 3, 4, 5] = some (shown u 14) ∨
      ZeroOffset [20, 65, 1, 0, 80, 1, 2, 3, 4, 5] 0 ∧ Lz4.decompressSafe [20, 65, 1, 0, 80, 1, 2, 3, 4, 5] = none) := by
  obtain ⟨u, hu⟩ : ∃ u, decompressSafe [20, 65, 1, 0, 80, 1, 2, 3, 4, 5] 14 ⟨fun _ => 0⟩ = .ok (u, 14) := ⟨_, rfl⟩
  exact ⟨u, hu, decompressSafe_agrees (by decide) hu⟩

end Tyrdbs.Slices.Lz4Decoder
