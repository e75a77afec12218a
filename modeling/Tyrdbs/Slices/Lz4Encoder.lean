import Tyrdbs.Slices.Lz4

namespace Tyrdbs.Slices.Lz4

open Bytes

variable {source bytes : List Byte} {anchor index pos n : Nat} {table : HashTable}

theorem fromLittleEndian_injective {as bs : List Byte} (hlength : as.length = bs.length)
    (h : fromLittleEndian as = fromLittleEndian bs) : as = bs := by
  induction as generalizing bs with
  | nil => exact (List.eq_nil_of_length_eq_zero hlength.symm).symm
  | cons a as ih =>
      cases bs with
      | nil => exact absurd hlength (by simp)
      | cons b bs =>
          have ha := a.isLt
          have hb := b.isLt
          rw [fromLittleEndian, fromLittleEndian] at h
          rw [ih (Nat.succ.inj hlength) (by omega), Fin.ext (show a.val = b.val by omega)]

theorem take_of_read32 {as bs : List Byte} (ha : 4 ≤ as.length) (hb : 4 ≤ bs.length) (h : read32 as = read32 bs) :
    as.take 4 = bs.take 4 :=
  fromLittleEndian_injective (by rw [List.length_take, List.length_take]; omega) h

/-- The positions under their hashes are before a position of the source. -/
def Entered (source : List Byte) (index : Nat) (table : HashTable) : Prop :=
  ∀ e ∈ table, e.2.1 < index ∧ e.2.2 = source.drop e.2.1

theorem Entered.mono {index' : Nat} (h : Entered source index table) (hle : index ≤ index') :
    Entered source index' table :=
  fun e he => ⟨Nat.lt_of_lt_of_le (h e he).1 hle, (h e he).2⟩

theorem Entered.cons {h : Nat} (ht : Entered source index table) (hlt : pos < index) :
    Entered source index ((h, pos, source.drop pos) :: table) := by
  intro e he
  rcases List.mem_cons.mp he with rfl | he
  · exact ⟨hlt, rfl⟩
  · exact ht e he

theorem getPositionOnHash_spec (hpos : 0 < index) (ht : Entered source index table) (h : Nat) :
    (getPositionOnHash source h table).1 < index ∧
      (getPositionOnHash source h table).2 = source.drop (getPositionOnHash source h table).1 := by
  induction table with
  | nil => exact ⟨hpos, List.drop_zero.symm⟩
  | cons e table ih =>
      obtain ⟨h', position⟩ := e
      rw [getPositionOnHash]
      split
      · exact ht _ List.mem_cons_self
      · exact ih fun e he => ht e (List.mem_cons_of_mem _ he)

/-- Four bytes that stand at an earlier position too. -/
structure Found (source : List Byte) (index pos : Nat) (table : HashTable) : Prop where
  before : pos < index
  limit : index + mfLimit ≤ source.length
  same : (source.drop pos).take 4 = (source.drop index).take 4
  entered : Entered source (index + 1) table

theorem found_of_read32 (hlt : pos < index) (hlimit : index + mfLimit ≤ source.length)
    (hsame : read32 (source.drop pos) = read32 (source.drop index)) (ht : Entered source (index + 1) table) :
    Found source index pos table := by
  have hmin : mfLimit = 12 := rfl
  refine ⟨hlt, hlimit, take_of_read32 ?_ ?_ hsame, ht⟩ <;> rw [List.length_drop] <;> omega

/-- The induction is on the rounds; a step is never zero, so that what has been
entered stays behind. -/
theorem findMatch_spec {limit : Nat} (hlimit : limit + mfLimit = source.length + 1) (rounds : Nat) :
    ∀ table index step nb, Entered source index table → 0 < index → 0 < step → 64 ≤ nb →
      ∀ index' pos table', findMatch source limit rounds table index (source.drop index) step nb = some (index', pos, table') →
        index ≤ index' ∧ Found source index' pos table' := by
  induction rounds with
  | zero => exact fun _ _ _ _ _ _ _ _ _ _ _ h => absurd h (by simp [findMatch])
  | succ rounds ih =>
      intro table index step nb ht hindex hstep hnb index' pos table' h
      obtain ⟨hlt, hposition⟩ := getPositionOnHash_spec hindex ht (hash4 (read32 (source.drop index)))
      have hentered : Entered source (index + 1) ((hash4 (read32 (source.drop index)), index, source.drop index) :: table) :=
        (ht.mono (Nat.le_succ index)).cons (Nat.lt_succ_self index)
      rw [findMatch] at h
      split at h
      · exact absurd h (by simp)
      · rename_i hroom
        dsimp only at h
        rw [hposition] at h
        split at h
        · rename_i hsame
          rw [Option.some.injEq, Prod.mk.injEq, Prod.mk.injEq] at h
          obtain ⟨rfl, rfl, rfl⟩ := h
          exact ⟨Nat.le_refl _, found_of_read32 hlt (by omega) hsame hentered⟩
        · rw [List.drop_drop] at h
          obtain ⟨hle, hfound⟩ := ih _ _ _ _ (hentered.mono (by omega)) (by omega) (by omega) (by omega) _ _ _ h
          exact ⟨by omega, hfound⟩

theorem catchUp_spec (ip : Nat) : ∀ pos, pos < ip → anchor ≤ ip → ∀ ip' pos', catchUp source anchor ip pos = (ip', pos') →
    anchor ≤ ip' ∧ ip' ≤ ip ∧ ip' + pos = ip + pos' ∧
      ∀ i, ip' ≤ i → i < ip → source[i]? = source[i - (ip - pos)]? := by
  induction ip with
  | zero => exact fun pos hlt => absurd hlt (Nat.not_lt_zero _)
  | succ ip ih =>
      intro pos hlt hanchor ip' pos' h
      cases pos with
      | zero =>
          rw [catchUp, Prod.mk.injEq] at h
          · obtain ⟨rfl, rfl⟩ := h
            exact ⟨hanchor, Nat.le_refl _, rfl, fun i hi hi' => absurd hi' (Nat.not_lt_of_le hi)⟩
          · intro ip₀ pos₀ _ hpos₀
            exact absurd hpos₀ (by simp)
      | succ pos =>
          rw [catchUp] at h
          split at h
          · rename_i hsame
            obtain ⟨hle, hle', hsum, hback⟩ := ih pos (by omega) (by omega) ip' pos' h
            refine ⟨hle, by omega, by omega, fun i hi hi' => ?_⟩
            rw [Nat.add_sub_add_right]
            rcases Nat.lt_or_ge i ip with hi' | hi'
            · exact hback i hi hi'
            · obtain rfl : i = ip := by omega
              rw [hsame.2]
              congr 1
              omega
          · rw [Prod.mk.injEq] at h
            obtain ⟨rfl, rfl⟩ := h
            exact ⟨hanchor, Nat.le_refl _, rfl, fun i hi hi' => absurd hi' (Nat.not_lt_of_le hi)⟩

theorem count_le (as : List Byte) : ∀ bs, count as bs ≤ as.length := by
  induction as with
  | nil => exact fun bs => Nat.le_refl 0
  | cons a as ih =>
      intro bs
      cases bs with
      | nil => exact Nat.zero_le _
      | cons b bs =>
          rw [count]
          split
          · exact Nat.succ_le_succ (ih bs)
          · exact Nat.zero_le _

theorem count_same (as : List Byte) : ∀ bs i, i < count as bs → as[i]? = bs[i]? := by
  induction as with
  | nil => exact fun bs i hi => absurd hi (Nat.not_lt_zero i)
  | cons a as ih =>
      intro bs i hi
      cases bs with
      | nil => exact absurd hi (Nat.not_lt_zero i)
      | cons b bs =>
          rw [count] at hi
          split at hi
          · rename_i hab
            cases i with
            | zero => rw [hab, List.getElem?_cons_zero, List.getElem?_cons_zero]
            | succ i =>
                rw [List.getElem?_cons_succ, List.getElem?_cons_succ]
                exact ih bs i (Nat.lt_of_succ_lt_succ hi)
          · exact absurd hi (Nat.not_lt_zero i)

theorem le_count (as : List Byte) : ∀ bs n, n ≤ as.length → (∀ i < n, as[i]? = bs[i]?) → n ≤ count as bs := by
  induction as with
  | nil => exact fun bs n hn _ => hn
  | cons a as ih =>
      intro bs n hn h
      cases n with
      | zero => exact Nat.zero_le _
      | succ n =>
          cases bs with
          | nil => exact absurd (h 0 (Nat.succ_pos n)) (by simp)
          | cons b bs =>
              have hab : a = b := Option.some.inj (h 0 (Nat.succ_pos n))
              rw [count, if_pos hab]
              refine Nat.succ_le_succ (ih bs n (Nat.le_of_succ_le_succ hn) fun i hi => ?_)
              have hsucc := h (i + 1) (Nat.succ_lt_succ hi)
              rwa [List.getElem?_cons_succ, List.getElem?_cons_succ] at hsucc

/-- Bytes behind an anchor that stand an offset before them too. -/
structure Match (source : List Byte) (anchor index offset length : Nat) : Prop where
  start : anchor ≤ index
  positive : 0 < offset
  back : offset ≤ index
  minimal : minMatch ≤ length
  limit : index + mfLimit ≤ source.length
  ends : index + length + lastLiterals ≤ source.length
  repeats : ∀ i, index ≤ i → i < index + length → source[i]? = source[i - offset]?

/-- Where four bytes are found again, the match is as long as they are, with what
was caught up before them. -/
theorem Found.match_ (h : Found source index pos table) (hanchor : anchor ≤ index) {index' pos' : Nat}
    (hcatch : catchUp source anchor index pos = (index', pos')) :
    Match source anchor index' (index' - pos')
        (count (slice source index' (source.length - lastLiterals - index')) (source.drop pos')) ∧
      index < index' + count (slice source index' (source.length - lastLiterals - index')) (source.drop pos') := by
  have hlast : lastLiterals = 5 := rfl
  have hlimit : mfLimit = 12 := rfl
  have hmin : minMatch = 4 := rfl
  have hbefore := h.before
  have hroom := h.limit
  obtain ⟨hstart, hle, hsum, hback⟩ := catchUp_spec index pos hbefore hanchor index' pos' hcatch
  have hdistance : index' - pos' = index - pos := by omega
  have hsame (i : Nat) (hi : i < index - index' + 4) : source[index' + i]? = source[index' + i - (index' - pos')]? := by
    rw [hdistance]
    rcases Nat.lt_or_ge (index' + i) index with hlt | hge
    · exact hback _ (Nat.le_add_right _ _) hlt
    · obtain ⟨j, hj⟩ := Nat.exists_eq_add_of_le hge
      have hfour := congrArg (fun l => l[j]?) h.same
      simp only [List.getElem?_take_of_lt (show j < 4 by omega), List.getElem?_drop] at hfour
      rw [hj, ← hfour]
      congr 1
      omega
  have hslice : (slice source index' (source.length - lastLiterals - index')).length =
      source.length - lastLiterals - index' := length_slice (by omega)
  have hcount : count (slice source index' (source.length - lastLiterals - index')) (source.drop pos') ≤
      source.length - lastLiterals - index' := (count_le _ _).trans_eq hslice
  have hfour : index - index' + 4 ≤
      count (slice source index' (source.length - lastLiterals - index')) (source.drop pos') := by
    refine le_count _ _ _ (by omega) fun i hi => ?_
    rw [slice, List.getElem?_take_of_lt (by omega), List.getElem?_drop, List.getElem?_drop, hsame i hi]
    congr 1
    omega
  refine ⟨⟨hstart, by omega, Nat.sub_le _ _, by omega, by omega, by omega, fun i hi hlt => ?_⟩, by omega⟩
  obtain ⟨j, rfl⟩ := Nat.exists_eq_add_of_le hi
  have hequal := count_same _ _ j (Nat.lt_of_add_lt_add_left hlt)
  rw [slice, List.getElem?_take_of_lt (by omega), List.getElem?_drop, List.getElem?_drop] at hequal
  rw [hequal]
  congr 1
  omega

/-- The blocks of what follows a position of the source, of which the first one
only may end in less than the last literals. -/
inductive Encodes (source : List Byte) : Nat → List Byte → Prop
  | last {anchor : Nat} (ends : anchor = 0 ∨ anchor + lastLiterals ≤ source.length) :
      Encodes source anchor (lastSequence (source.drop anchor))
  | sequence {anchor index offset length : Nat} {block : List Byte} (m : Match source anchor index offset length)
      (rest : Encodes source (index + length) block) :
      Encodes source anchor (sequence (slice source anchor (index - anchor)) offset (length - minMatch) ++ block)

/-- The induction is on the rounds; where they end or no match is left, literals
remain. -/
theorem compressGeneric_encodes (rounds : Nat) :
    ∀ table anchor, Entered source anchor table → anchor + mfLimit ≤ source.length →
      Encodes source anchor (compressGeneric source source.length rounds table anchor) := by
  have hlast : lastLiterals = 5 := rfl
  have hmf : mfLimit = 12 := rfl
  have hmin : minMatch = 4 := rfl
  induction rounds with
  | zero => exact fun _ _ _ hlimit => Encodes.last (.inr (by omega))
  | succ rounds ih =>
      intro table anchor ht hlimit
      rw [compressGeneric]
      have hentered : Entered source (anchor + 1) ((hash4 (read32 (source.drop anchor)), anchor, source.drop anchor) :: table) :=
        (ht.mono (Nat.le_succ anchor)).cons (Nat.lt_succ_self anchor)
      dsimp only
      split
      · exact Encodes.last (.inr (by omega))
      · rename_i index pos table' hfound
        have hmatch : anchor ≤ index ∧ Found source index pos table' := by
          split at hfound
          · rename_i hsame
            obtain ⟨hlt, hposition⟩ := getPositionOnHash_spec (Nat.pos_of_ne_zero hsame.1) ht
              (hash4 (read32 (source.drop anchor)))
            rw [Option.some.injEq, Prod.mk.injEq, Prod.mk.injEq] at hfound
            obtain ⟨rfl, rfl, rfl⟩ := hfound
            exact ⟨Nat.le_refl _, found_of_read32 hlt hlimit (hposition ▸ hsame.2) hentered⟩
          · rw [List.drop_drop] at hfound
            obtain ⟨hle, hmatch⟩ := findMatch_spec (by omega) _ _ _ _ _ hentered (Nat.succ_pos anchor) Nat.one_pos
              (by decide) _ _ _ hfound
            exact ⟨Nat.le_of_succ_le hle, hmatch⟩
        obtain ⟨hanchor, hmatch⟩ := hmatch
        obtain ⟨hm, hnext⟩ := hmatch.match_ hanchor rfl
        refine Encodes.sequence hm ?_
        have hends := hm.ends
        have hminimal := hm.minimal
        split
        · exact Encodes.last (.inr (by omega))
        · refine ih _ _ ((hmatch.entered.mono hnext).cons (by omega)) (by omega)

theorem compressDefault_encodes (source : List Byte) : Encodes source 0 (compressDefault source) := by
  rw [compressDefault]
  split
  · have hlast : Encodes source 0 (lastSequence (source.drop 0)) := Encodes.last (.inl rfl)
    rwa [List.drop_zero] at hlast
  · exact compressGeneric_encodes _ _ _ (fun e he => absurd he (by simp)) (by omega)

end Tyrdbs.Slices.Lz4
