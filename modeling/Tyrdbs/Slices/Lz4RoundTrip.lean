import Tyrdbs.Slices.Lz4Blocks
import Tyrdbs.Slices.Lz4Encoder

namespace Tyrdbs.Slices.Lz4Decoder

open Outcome Buffers Bytes Lz4

variable {block source literals rest : List Byte} {capacity op ip n matchCode offset anchor : Nat}
variable {dst u : Memory} {next : Next}

theorem drop_append {xs : List Byte} (h : block.drop ip = xs ++ rest) : block.drop (ip + xs.length) = rest := by
  rw [← List.drop_drop, h, List.drop_left]

theorem slice_of_drop {xs : List Byte} (h : block.drop ip = xs ++ rest) : slice block ip xs.length = xs := by
  rw [slice, h, List.take_left]

theorem length_of_drop {xs : List Byte} (h : block.drop ip = xs) (hne : xs ≠ []) : ip + xs.length = block.length := by
  have hlength := congrArg List.length h
  have hpos := List.length_pos_of_ne_nil hne
  rw [List.length_drop] at hlength
  omega

theorem lengthAt_lengthBytes {nibble length : Nat} (hnibble : nibble = min length 15) (hip : ip ≤ block.length)
    (h : block.drop ip = lengthBytes length ++ rest) :
    LengthAt block nibble ip length (ip + (lengthBytes length).length) := by
  have hlength := congrArg List.length h
  rw [List.length_drop, List.length_append] at hlength
  refine ⟨?_, Nat.le_add_right _ _, by omega⟩
  rw [drop_append h, h, hnibble, readLength_lengthBytes]

theorem token_literals (n matchCode : Nat) : (token n matchCode).val / 16 = min n 15 := by
  simp only [token, Fin.val_ofNat]
  omega

theorem token_matchCode (n matchCode : Nat) : (token n matchCode).val % 16 = min matchCode 15 := by
  simp only [token, Fin.val_ofNat]
  omega

theorem byteAt_of_drop {b : Byte} (h : block.drop ip = b :: rest) : byteAt block ip = b.val := by
  rw [byteAt, slice, h]
  exact Nat.add_zero _

theorem last_at (h : block.drop ip = lastSequence literals) :
    ∃ ip₁, LastAt block ip literals.length ip₁ ∧ slice block ip₁ literals.length = literals := by
  have hend := length_of_drop h (by rw [lastSequence]; exact List.cons_ne_nil _ _)
  rw [lastSequence] at h hend
  rw [List.length_cons, List.length_append] at hend
  have hlengths : block.drop (ip + 1) = lengthBytes literals.length ++ literals :=
    drop_append (show block.drop ip = [token literals.length 0] ++ _ from h)
  have hliterals := (drop_append hlengths).trans (List.append_nil literals).symm
  refine ⟨_, ⟨lengthAt_lengthBytes ?_ (by omega) hlengths, by omega⟩, slice_of_drop hliterals⟩
  rw [byteAt_of_drop h, token_literals]

theorem sequence_at (hoffset : offset < 2 ^ 16) (h : block.drop ip = Lz4.sequence literals offset matchCode ++ rest) :
    ∃ ip₁ ip₂, SequenceAt block ip literals.length ip₁ matchCode ip₂ ∧ slice block ip₁ literals.length = literals ∧
      offsetAt block (ip₁ + literals.length) = offset ∧ block.drop ip₂ = rest ∧
      ip₁ + literals.length + 2 + rest.length ≤ block.length ∧ ip₂ + rest.length = block.length := by
  have hend := length_of_drop h (by rw [Lz4.sequence]; exact List.cons_ne_nil _ _)
  rw [Lz4.sequence] at h hend
  simp only [List.length_cons, List.length_append, length_littleEndian] at hend
  rw [List.cons_append, List.append_assoc, List.append_assoc, List.append_assoc] at h
  have hlengths : block.drop (ip + 1) = lengthBytes literals.length ++ (literals ++ (littleEndian 2 offset ++
      (lengthBytes matchCode ++ rest))) := drop_append (show block.drop ip = [token literals.length matchCode] ++ _ from h)
  have hliterals := drop_append hlengths
  have hoffsets := drop_append hliterals
  have hmatch := drop_append hoffsets
  have hslice := slice_of_drop hoffsets
  rw [length_littleEndian] at hmatch hslice
  refine ⟨_, _, ⟨lengthAt_lengthBytes ?_ (by omega) hlengths, by omega, lengthAt_lengthBytes ?_ (by omega) hmatch⟩,
    slice_of_drop hliterals, ?_, drop_append hmatch, by omega, by omega⟩
  · rw [byteAt_of_drop h, token_literals]
  · rw [byteAt_of_drop h, token_matchCode]
  · rw [offsetAt, hslice, fromLittleEndian_littleEndian 2 offset hoffset]

/-- The output up to a position is the source's. -/
def Shows (dst : Memory) (source : List Byte) (op : Nat) : Prop := ∀ i < op, dst i = source.getD i 0

theorem shown_of_shows (h : Shows u source source.length) : shown u source.length = source := by
  apply List.ext_getElem (length_shown _ _)
  intro i hi hi'
  simp only [shown, List.getElem_map, List.getElem_range]
  rw [h i hi', List.getD_eq_getElem _ _ hi']

theorem Shows.reads (h : Shows dst source op) (hreads : Reads block dst u op ip n) (hin : ip + n ≤ block.length)
    (hslice : slice block ip n = slice source op n) : Shows u source (op + n) := by
  intro i hi
  rcases Nat.lt_or_ge i op with hlt | hge
  · rw [hreads.before i hlt, h i hlt]
  · obtain ⟨j, rfl⟩ := Nat.exists_eq_add_of_le hge
    have hj : j < n := Nat.lt_of_add_lt_add_left hi
    have hbyte := congrArg (fun l => l[j]?) hslice
    simp only [slice, List.getElem?_take_of_lt hj, List.getElem?_drop] at hbyte
    rw [hreads.bytes j (by omega) hj, List.getD_eq_getElem?_getD, ← hbyte, List.getElem?_eq_getElem (by omega),
      Option.getD_some]

theorem Shows.matched (h : Shows dst source op) (hmatched : Matched dst u op n offset) (hpos : 0 < offset)
    (hback : offset ≤ op) (hrepeats : ∀ i, op ≤ i → i < op + n → source[i]? = source[i - offset]?) :
    Shows u source (op + n) := by
  refine (hmatched hpos).shows hpos hback h fun i hd hlt => ?_
  simp only [List.getD_eq_getElem?_getD, hrepeats i hd hlt]

theorem length_of_encodes (h : Encodes source anchor rest) (hanchor : 0 < anchor) : 1 + lastLiterals ≤ rest.length := by
  have hlast : lastLiterals = 5 := rfl
  induction h with
  | last ends =>
      rw [lastSequence, List.length_cons, List.length_append, List.length_drop]
      omega
  | sequence m _ ih =>
      have hminimal := m.minimal
      have hmin : minMatch = 4 := rfl
      have hrest := ih (by omega)
      rw [List.length_append]
      omega

/-- The induction is on the blocks: each is one round, that the fast loop and the
safe one both accept. -/
theorem decodeLoop_encodes (hsmall : block.length ≤ maxBlock) (hsource : source.length < 65547)
    (hcapacity : source.length ≤ capacity)
    (h : Encodes source anchor rest) : ∀ rounds dst ip next, Goes block capacity anchor ip next →
      block.length ≤ ip + rounds → block.drop ip = rest → Shows dst source anchor →
      ∃ u, decodeLoop block capacity rounds dst anchor next = .ok (u, source.length) ∧ Shows u source source.length := by
  have hlast : lastLiterals = 5 := rfl
  have hmf : mfLimit = 12 := rfl
  have hmin : minMatch = 4 := rfl
  induction h with
  | @last anchor ends =>
      intro rounds dst ip next hgoes hrounds hdrop hshows
      have hip := hgoes.1
      obtain ⟨rounds, rfl⟩ : ∃ r, rounds = r + 1 := Nat.exists_eq_succ_of_ne_zero (by omega)
      obtain ⟨ip₁, hat, hslice⟩ := last_at hdrop
      have hlength : anchor + (source.drop anchor).length = source.length := by
        rw [List.length_drop]
        omega
      have haccepted : Accepted block capacity anchor ip := .last hat (by omega)
      have hround := round_spec dst hsmall hgoes
      rw [decodeLoop_succ dst rounds hgoes]
      generalize round block capacity dst anchor next = result at hround
      cases hround with
      | refused hrefused => exact absurd haccepted hrefused
      | went at_ _ _ _ _ =>
          obtain ⟨rfl, rfl⟩ := hat.length.unique at_.length
          have hin := at_.offset
          exact absurd hat.ends (by omega)
      | @ended _ _ u at_ _ reads =>
          obtain ⟨rfl, rfl⟩ := hat.length.unique at_.length
          simp only [ok_bind, decodeLoop_done]
          rw [hlength]
          refine ⟨u, rfl, hlength ▸ hshows.reads reads hat.ends.le ?_⟩
          rw [hslice, slice, List.take_length]
  | @sequence anchor index offset length rest m hrest ih =>
      intro rounds dst ip next hgoes hrounds hdrop hshows
      have hip := hgoes.1
      have hstart := m.start
      have hlimit := m.limit
      have hback := m.back
      have hminimal := m.minimal
      have hends := m.ends
      obtain ⟨rounds, rfl⟩ : ∃ r, rounds = r + 1 := Nat.exists_eq_succ_of_ne_zero (by omega)
      obtain ⟨ip₁, ip₂, hat, hslice, hoffset, hdrop', hliterals, hend⟩ := sequence_at (show offset < 2 ^ 16 by omega) hdrop
      have hlength : (slice source anchor (index - anchor)).length = index - anchor := length_slice (by omega)
      have hsix := length_of_encodes hrest (by omega)
      rw [hlength] at hat hslice hoffset hliterals
      have haccepted : Accepted block capacity anchor ip := by
        refine .sequence hat ?_ (by omega) (by omega) (by omega) (by omega)
        rw [hoffset]
        omega
      have hround := round_spec dst hsmall hgoes
      rw [decodeLoop_succ dst rounds hgoes]
      generalize round block capacity dst anchor next = result at hround
      cases hround with
      | refused hrefused => exact absurd haccepted hrefused
      | ended at_ _ _ =>
          obtain ⟨rfl, rfl⟩ := hat.length.unique at_.length
          have hin := hat.offset
          exact absurd at_.ends (by omega)
      | @went _ _ _ _ u v _ at_ _ reads matched goes =>
          obtain ⟨rfl, rfl⟩ := hat.length.unique at_.length
          obtain ⟨rfl, rfl⟩ := hat.matchLength.unique at_.matchLength
          have hadvances := at_.advances
          have hindex : anchor + (index - anchor) = index := Nat.add_sub_cancel' hstart
          have hlengths : length - minMatch + minMatch = length := Nat.sub_add_cancel hminimal
          rw [hindex, hlengths] at goes ⊢
          rw [hindex, hlengths, hoffset] at matched
          have hv := hshows.reads reads (by omega) hslice
          rw [hindex] at hv
          rw [ok_bind]
          exact ih rounds u ip₂ _ goes (by omega) hdrop' (hv.matched matched m.positive hback m.repeats)

theorem length_lengthBytes (n : Nat) : (lengthBytes n).length ≤ (n + 240) / 255 := by
  rw [lengthBytes]
  split
  · exact Nat.zero_le _
  · rw [List.length_append, List.length_replicate, List.length_singleton]
    omega

theorem length_of_encodes_le (h : Encodes source anchor block) :
    block.length ≤ compressBound (source.length - anchor) := by
  induction h with
  | @last anchor _ =>
      have hlengths := length_lengthBytes (source.drop anchor).length
      rw [List.length_drop] at hlengths
      rw [lastSequence, List.length_cons, List.length_append, List.length_drop, compressBound]
      omega
  | @sequence anchor index offset length block m _ ih =>
      have hmin : minMatch = 4 := rfl
      have hlast : lastLiterals = 5 := rfl
      have hstart := m.start
      have hends := m.ends
      have hminimal := m.minimal
      have hliterals := length_lengthBytes (slice source anchor (index - anchor)).length
      have hmatch := length_lengthBytes (length - minMatch)
      have hslice : (slice source anchor (index - anchor)).length = index - anchor := length_slice (by omega)
      rw [hslice] at hliterals
      simp only [Lz4.sequence, List.length_cons, List.length_append, length_littleEndian, hslice, compressBound] at ih ⊢
      omega

theorem encodes_ne (h : Encodes source anchor block) : block ≠ [] := by
  cases h with
  | last _ => exact List.cons_ne_nil _ _
  | sequence _ _ => exact List.cons_ne_nil _ _

/-- Whatever chooses the matches, their source comes back. -/
theorem decompressSafe_encodes (h : Encodes source 0 block) (dst : Memory) (hsource : source.length < 65547)
    (hcapacity : source.length ≤ capacity) (hempty : capacity = 0 → block = [0]) :
    ∃ u, decompressSafe block capacity dst = .ok (u, source.length) ∧ shown u source.length = source := by
  have hne := encodes_ne h
  have hlength := length_of_encodes_le h
  rw [compressBound] at hlength
  have hsmall : block.length ≤ maxBlock := by
    rw [maxBlock]
    omega
  rw [decompressSafe]
  by_cases hzero : capacity = 0
  · obtain rfl : source = [] := List.eq_nil_of_length_eq_zero (by omega)
    rw [if_pos hzero, if_pos (hempty hzero)]
    exact ⟨dst, rfl, rfl⟩
  · rw [if_neg hzero, if_neg hne]
    obtain ⟨u, hu, hshows⟩ := decodeLoop_encodes hsmall hsource hcapacity h _ dst 0 _ (goes_start hne) (Nat.zero_add _).ge
      List.drop_zero fun i hi => absurd hi (Nat.not_lt_zero i)
    exact ⟨u, hu, shown_of_shows hshows⟩

theorem compressDefault_nil : compressDefault [] = [0] := by decide

/-- A source that is short enough for 16-bit positions comes back from its block,
whatever the output held before. -/
theorem decompressSafe_compressDefault (source : List Byte) (capacity : Nat) (dst : Memory)
    (hsource : source.length < 65547) (hcapacity : source.length ≤ capacity) :
    ∃ u, decompressSafe (compressDefault source) capacity dst = .ok (u, source.length) ∧
      shown u source.length = source := by
  refine decompressSafe_encodes (compressDefault_encodes source) dst hsource hcapacity fun hzero => ?_
  obtain rfl : source = [] := List.eq_nil_of_length_eq_zero (by omega)
  exact compressDefault_nil

theorem decompressSafe_compressDefault_zeros :
    ∃ u, decompressSafe (compressDefault (List.replicate 100 0)) 100 ⟨fun _ => 255⟩ = .ok (u, 100) ∧
      shown u 100 = List.replicate 100 0 :=
  decompressSafe_compressDefault (List.replicate 100 0) 100 ⟨fun _ => 255⟩ (by decide) (by decide)

def codec (dst : Memory) : Codec where
  compress := compressDefault
  decompress := fun block => match decompressSafe block nodeSize dst with
    | .ok (u, n) => some (shown u n)
    | .error _ => none
  crc32c := crc32cUpdate

theorem codec_lossless (dst : Memory) : (codec dst).Lossless := by
  intro d
  have hsize : d.bytes.length = nodeSize := d.size_eq
  have hnode : nodeSize = 8128 := by decide
  obtain ⟨u, hu, hshown⟩ := decompressSafe_encodes (compressDefault_encodes d.bytes) dst (show d.bytes.length < 65547 by omega)
    hsize.le fun hzero => absurd hzero (by omega)
  change (match decompressSafe (compressDefault d.bytes) nodeSize dst with
    | .ok (u, n) => some (shown u n)
    | .error _ => none) = some d.bytes
  rw [hu]
  exact congrArg some hshown

theorem codec_bounded (dst : Memory) : (codec dst).Bounded := by
  intro d
  have hencodes := compressDefault_encodes d.bytes
  exact ⟨List.length_pos_of_ne_nil (encodes_ne hencodes),
    (length_of_encodes_le hencodes).trans_eq (congrArg compressBound d.size_eq)⟩

theorem codec_sound (dst : Memory) : (codec dst).Lossless ∧ (codec dst).Bounded :=
  ⟨codec_lossless dst, codec_bounded dst⟩

end Tyrdbs.Slices.Lz4Decoder

namespace Tyrdbs.Slices

abbrev lz4 : Codec := Lz4Decoder.codec ⟨fun _ => 0⟩

theorem lz4_lossless : lz4.Lossless := Lz4Decoder.codec_lossless _

theorem lz4_bounded : lz4.Bounded := Lz4Decoder.codec_bounded _

end Tyrdbs.Slices
