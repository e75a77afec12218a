import Tyrdbs.Slices.Lz4Copies

namespace Tyrdbs.Slices.Lz4Decoder

open Outcome Buffers Bytes Lz4

variable {block : List Byte} {capacity op ip ip' nibble margin literals literals' matchCode matchCode' offset : Nat}
variable {dst u v : Memory} {next : Next}

def byteAt (block : List Byte) (ip : Nat) : Nat := fromLittleEndian (slice block ip 1)

def offsetAt (block : List Byte) (ip : Nat) : Nat := fromLittleEndian (slice block ip 2)

/-- A length that a nibble begins and the block goes on with. -/
structure LengthAt (block : List Byte) (nibble ip length ip' : Nat) : Prop where
  reads : readLength nibble (block.drop ip) = some (length, block.drop ip')
  forward : ip ≤ ip'
  inside : ip' ≤ block.length

theorem LengthAt.unique {length length' ip₁ ip₂ : Nat} (h : LengthAt block nibble ip length ip₁)
    (h' : LengthAt block nibble ip length' ip₂) : length = length' ∧ ip₁ = ip₂ := by
  have hsome := h.reads.symm.trans h'.reads
  rw [Option.some.injEq, Prod.mk.injEq] at hsome
  have hlength := congrArg List.length hsome.2
  rw [List.length_drop, List.length_drop] at hlength
  have hin := h.inside
  have hin' := h'.inside
  exact ⟨hsome.1, by omega⟩

theorem lengthAt_short (hip : ip ≤ block.length) (hnibble : nibble < 15) : LengthAt block nibble ip nibble ip :=
  ⟨by rw [readLength, if_pos hnibble], Nat.le_refl ip, hip⟩

theorem drop_eq_byteAt (h : ip < block.length) :
    ∃ b : Byte, block.drop ip = b :: block.drop (ip + 1) ∧ b.val = byteAt block ip := by
  refine ⟨block[ip], List.drop_eq_getElem_cons h, ?_⟩
  rw [byteAt, slice, List.drop_eq_getElem_cons h, List.take_succ_cons, List.take_zero]
  exact (Nat.add_zero _).symm

theorem byteAt_lt (block : List Byte) (ip : Nat) : byteAt block ip < 256 := by
  have hlt := fromLittleEndian_lt (slice block ip 1)
  have hle : 256 ^ (slice block ip 1).length ≤ 256 ^ 1 := Nat.pow_le_pow_right (by decide) (length_slice_le block ip 1)
  exact Nat.lt_of_lt_of_le hlt hle

theorem readLE16_eq (h : ip + 2 ≤ block.length) : readLE16 block ip = .ok (offsetAt block ip) := by
  rw [readLE16, fetch_eq h]
  rfl

theorem fetch_one (h : ip < block.length) : fetch block ip 1 = .ok (slice block ip 1) := fetch_eq h

theorem length_rest_lt {bytes rest : List Byte} {n : Nat} (h : Lz4.readVariableLength bytes = some (n, rest)) :
    rest.length < bytes.length := by
  induction bytes generalizing n with
  | nil => exact absurd h (by simp [Lz4.readVariableLength])
  | cons b bytes ih =>
      rw [Lz4.readVariableLength] at h
      split at h
      · obtain ⟨⟨m, rest'⟩, hm, hpair⟩ := Option.map_eq_some_iff.mp h
        rw [Prod.mk.injEq] at hpair
        obtain rfl : rest' = rest := hpair.2
        exact Nat.lt_succ_of_lt (ih hm)
      · rw [Option.some.injEq, Prod.mk.injEq] at h
        rw [← h.2]
        exact Nat.lt_succ_self _

/-- The bytes of a length, as they are read up to the margin; behind it more of
them may follow. The induction is on the bytes that are left. -/
theorem readVariableLength_spec (margin rounds : Nat) :
    ∀ ip length, ip < block.length → block.length ≤ ip + rounds →
      length + 255 * (block.length - ip) < 2 ^ 32 →
      ∃ n ip' inside, readVariableLength block margin rounds ip length = .ok (length + n, ip', inside) ∧
        ip < ip' ∧ ip' ≤ block.length ∧ (inside = true ↔ ip' + margin < block.length) ∧
        (Lz4.readVariableLength (block.drop ip) = some (n, block.drop ip') ∨
          inside = false ∧ 255 ≤ n ∧ ∀ n' ip'', ip'' ≤ block.length →
            Lz4.readVariableLength (block.drop ip) = some (n', block.drop ip'') → n ≤ n' ∧ ip' ≤ ip'') := by
  induction rounds with
  | zero => exact fun ip _ hip hrounds _ => absurd hip (Nat.not_lt_of_le hrounds)
  | succ rounds ih =>
      intro ip length hip hrounds hsum
      have hbyte := byteAt_lt block ip
      have hmod : (length + byteAt block ip) % 2 ^ 32 = length + byteAt block ip := Nat.mod_eq_of_lt (by omega)
      obtain ⟨b, hdrop, hb⟩ := drop_eq_byteAt hip
      rw [readVariableLength, fetch_one hip, ok_bind]
      dsimp only
      rw [← byteAt, hmod]
      by_cases hmore : byteAt block ip = 255
      case neg =>
        have hread : Lz4.readVariableLength (block.drop ip) = some (byteAt block ip, block.drop (ip + 1)) := by
          rw [hdrop, Lz4.readVariableLength, if_neg (hb ▸ hmore), hb]
        by_cases hend : block.length ≤ ip + 1 + margin
        · rw [if_pos hend]
          exact ⟨_, _, _, rfl, Nat.lt_succ_self ip, hip, by simp; omega, .inl hread⟩
        · rw [if_neg hend, if_neg hmore]
          exact ⟨_, _, _, rfl, Nat.lt_succ_self ip, hip, by simp; omega, .inl hread⟩
      case pos =>
        have hstep : Lz4.readVariableLength (block.drop ip) =
            (Lz4.readVariableLength (block.drop (ip + 1))).map (fun r => (r.1 + 255, r.2)) := by
          rw [hdrop, Lz4.readVariableLength, if_pos (hb ▸ hmore)]
        rw [hmore, hstep]
        by_cases hend : block.length ≤ ip + 1 + margin
        · rw [if_pos hend]
          refine ⟨255, ip + 1, false, rfl, Nat.lt_succ_self ip, hip, by simp; omega,
            .inr ⟨rfl, Nat.le_refl _, fun n' ip'' hin hread => ?_⟩⟩
          obtain ⟨⟨m, rest⟩, hm, hpair⟩ := Option.map_eq_some_iff.mp hread
          rw [Prod.mk.injEq] at hpair
          refine ⟨by omega, ?_⟩
          by_contra hback
          have hlength := length_rest_lt hm
          obtain rfl : rest = block.drop ip'' := hpair.2
          rw [List.length_drop, List.length_drop] at hlength
          omega
        · obtain ⟨n, ip', inside, hread, hlt, hle, hinside, hplain⟩ :=
            ih (ip + 1) (length + 255) (by omega) (by omega) (by omega)
          rw [if_neg hend, if_pos rfl]
          refine ⟨n + 255, ip', inside, ?_, by omega, hle, hinside, ?_⟩
          · rw [hread]
            congr 2
            omega
          rcases hplain with hplain | ⟨hfalse, h255, hlater⟩
          · exact .inl (by rw [hplain, Option.map_some])
          · refine .inr ⟨hfalse, by omega, fun n' ip'' hin hread' => ?_⟩
            obtain ⟨⟨m, rest⟩, hm, hpair⟩ := Option.map_eq_some_iff.mp hread'
            rw [Prod.mk.injEq] at hpair
            obtain rfl : rest = block.drop ip'' := hpair.2
            obtain ⟨hn, hip'⟩ := hlater m ip'' hin hm
            exact ⟨by omega, hip'⟩

theorem readLength_long {bytes rest : List Byte} {length : Nat} :
    readLength 15 bytes = some (length, rest) ↔ ∃ n, Lz4.readVariableLength bytes = some (n, rest) ∧ n + 15 = length := by
  rw [readLength, if_neg (Nat.lt_irrefl 15), Option.map_eq_some_iff]
  constructor
  · rintro ⟨⟨n, rest'⟩, hn, hpair⟩
    rw [Prod.mk.injEq] at hpair
    obtain ⟨hlength, rfl⟩ := hpair
    exact ⟨n, hn, hlength⟩
  · rintro ⟨n, hn, rfl⟩
    exact ⟨(n, rest), hn, rfl⟩

/-- The lengths of a block that is no longer fit in 32 bits. -/
def maxBlock : Nat := 2 ^ 24

/-- The block does not reach to the end of the literals. -/
def Short (block : List Byte) (nibble ip : Nat) : Prop :=
  ∀ literals ip', LengthAt block nibble ip literals ip' → block.length < ip' + literals

theorem literalLength_spec (hsmall : block.length ≤ maxBlock) (hip : ip ≤ block.length) (hnibble : nibble < 16) :
    (literalLength block ip nibble = .error .outputError ∧ Short block nibble ip) ∨
      ∃ literals ip', literalLength block ip nibble = .ok (literals, ip') ∧ ip' ≤ block.length ∧
        (LengthAt block nibble ip literals ip' ∨ block.length < ip' + literals ∧ Short block nibble ip) := by
  have hmax : maxBlock = 2 ^ 24 := rfl
  rw [literalLength]
  by_cases hlong : nibble = 15
  case neg =>
    rw [if_neg hlong]
    exact .inr ⟨nibble, ip, rfl, hip, .inl (lengthAt_short hip (by omega))⟩
  case pos =>
    subst hlong
    rw [if_pos rfl]
    by_cases hroom : ip + 15 < block.length
    case neg =>
      refine .inl ⟨by rw [check_of_not hroom]; rfl, fun literals ip' hlength => ?_⟩
      obtain ⟨n, hn, rfl⟩ := readLength_long.mp hlength.reads
      have hlt := length_rest_lt hn
      have hinside := hlength.inside
      rw [List.length_drop, List.length_drop] at hlt
      omega
    case pos =>
      obtain ⟨n, ip', inside, hread, hforward, hle, hinside, hplain⟩ := readVariableLength_spec 15
        block.length ip 0 (show ip < block.length by omega) (by omega) (by omega)
      rw [Nat.zero_add] at hread
      refine .inr ⟨15 + n, ip', by rw [check_of hroom, ok_bind, hread]; rfl, hle, ?_⟩
      rcases hplain with hplain | ⟨hfalse, h255, hlater⟩
      · exact .inl ⟨readLength_long.mpr ⟨n, hplain, Nat.add_comm n 15⟩, hforward.le, hle⟩
      · have hend : ¬ ip' + 15 < block.length := fun hlt => absurd (hfalse.symm.trans (hinside.mpr hlt)) (by decide)
        refine .inr ⟨by omega, fun literals ip'' hlength => ?_⟩
        obtain ⟨n', hn', rfl⟩ := readLength_long.mp hlength.reads
        obtain ⟨hn, hip'⟩ := hlater n' ip'' hlength.inside hn'
        omega

theorem matchLength_spec (hsmall : block.length ≤ maxBlock) (hip : ip < block.length) (hnibble : nibble < 16) :
    (matchLength block ip nibble = .error .outputError ∧
      ∀ matchCode ip', LengthAt block nibble ip matchCode ip' → block.length < ip' + lastLiterals) ∨
      ∃ matchCode ip', matchLength block ip nibble = .ok (matchCode + minMatch, ip') ∧ ip' < block.length ∧
        LengthAt block nibble ip matchCode ip' ∧ (nibble ≠ 15 → matchCode = nibble ∧ ip' = ip) := by
  have hmax : maxBlock = 2 ^ 24 := rfl
  rw [matchLength]
  by_cases hlong : nibble = 15
  case neg =>
    rw [if_neg hlong]
    exact .inr ⟨nibble, ip, rfl, hip, lengthAt_short hip.le (by omega), fun _ => ⟨rfl, rfl⟩⟩
  case pos =>
    subst hlong
    obtain ⟨n, ip', inside, hread, hforward, hle, hinside, hplain⟩ := readVariableLength_spec (lastLiterals - 1)
      block.length ip 0 hip (by omega) (by omega)
    have hlast : lastLiterals = 5 := rfl
    rw [Nat.zero_add] at hread
    rw [if_pos rfl, hread, ok_bind]
    dsimp only
    by_cases htrue : inside = true
    · have hroom := hinside.mp htrue
      have hlength : Lz4.readVariableLength (block.drop ip) = some (n, block.drop ip') := by
        rcases hplain with hplain | ⟨hfalse, -⟩
        · exact hplain
        · exact absurd (hfalse.symm.trans htrue) (by decide)
      refine .inr ⟨15 + n, ip', by rw [check_of htrue]; rfl, by omega,
        ⟨readLength_long.mpr ⟨n, hlength, Nat.add_comm n 15⟩, hforward.le, hle⟩, fun hne => absurd rfl hne⟩
    · have hend : ¬ ip' + (lastLiterals - 1) < block.length := fun hlt => htrue (hinside.mpr hlt)
      refine .inl ⟨by rw [check_of_not htrue]; rfl, fun matchCode ip'' hlength => ?_⟩
      obtain ⟨n', hn', -⟩ := readLength_long.mp hlength.reads
      rcases hplain with hplain | ⟨-, -, hlater⟩
      · have hunique := hlength.unique ⟨readLength_long.mpr ⟨n, hplain, rfl⟩, hforward.le, hle⟩
        omega
      · have hip' := (hlater n' ip'' hlength.inside hn').2
        omega

/-- How far from the ends of the buffers a round may begin. -/
def Goes (block : List Byte) (capacity op ip : Nat) (next : Next) : Prop :=
  ip < block.length ∧ (next = .safe ip ∧ op ≤ capacity ∨ next = .fast ip ∧ op + fastloopSafeDistance ≤ capacity)

/-- What comes of the rest of a round, once the offset of its match is known. -/
inductive Tail (block : List Byte) (capacity : Nat) (v : Memory) (op ip offset nibble : Nat) :
    Except Stop (Memory × Nat × Next) → Prop
  | refused (h : ∀ matchCode ip', LengthAt block nibble ip matchCode ip' → offset ≤ op →
      ip' + lastLiterals ≤ block.length → capacity < op + (matchCode + minMatch) + lastLiterals) :
      Tail block capacity v op ip offset nibble (.error .outputError)
  | went {matchCode ip' : Nat} {u : Memory} {next : Next} (length : LengthAt block nibble ip matchCode ip')
      (back : offset ≤ op) (goes : Goes block capacity (op + (matchCode + minMatch)) ip' next)
      (matched : Matched v u op (matchCode + minMatch) offset) :
      Tail block capacity v op ip offset nibble (.ok (u, op + (matchCode + minMatch), next))

theorem Matched.of_front (h : Matched v u op literals offset) (hfront : ∀ i < op, v i = dst i) :
    Matched dst u op literals offset :=
  fun hpos => ⟨fun i hi => ((h hpos).before i hi).trans (hfront i hi), (h hpos).back⟩

theorem Tail.of_front {result : Except Stop (Memory × Nat × Next)} (h : Tail block capacity v op ip offset nibble result)
    (hfront : ∀ i < op, v i = dst i) : Tail block capacity dst op ip offset nibble result := by
  cases h with
  | refused h => exact Tail.refused h
  | went length back goes matched => exact Tail.went length back goes (matched.of_front hfront)

theorem safeMatchCopy_tail (v : Memory) (hback : offset ≤ op) (hroom : op + 12 ≤ capacity) (hip' : ip' < block.length)
    (hlength : LengthAt block nibble ip matchCode ip') :
    Tail block capacity v op ip offset nibble (do
      let (dst, op) ← safeMatchCopy capacity v op offset (matchCode + minMatch)
      return (dst, op, .safe ip')) := by
  by_cases hend : op + (matchCode + minMatch) + lastLiterals ≤ capacity
  · obtain ⟨u, hu, hmatched⟩ := safeMatchCopy_spec v hback hroom (Nat.le_add_left minMatch matchCode) hend
    rw [hu, ok_bind]
    exact Tail.went hlength hback ⟨hip', .inl ⟨rfl, by omega⟩⟩ hmatched
  · rw [safeMatchCopy_refused v hback hroom (Nat.lt_of_not_le hend)]
    refine Tail.refused fun matchCode' ip'' hlength' _ _ => ?_
    obtain ⟨rfl, -⟩ := hlength.unique hlength'
    exact Nat.lt_of_not_le hend

theorem copyMatch_tail (dst : Memory) (hsmall : block.length ≤ maxBlock) (hip : ip < block.length)
    (hroom : op + 12 ≤ capacity) (hnibble : nibble < 16) :
    Tail block capacity dst op ip offset nibble (copyMatch block capacity dst op ip offset nibble) := by
  rw [copyMatch]
  by_cases hback : offset ≤ op
  case neg =>
    rw [check_of_not hback]
    exact Tail.refused fun _ _ _ h _ => absurd h hback
  case pos =>
    have hzeros : op + (List.replicate 4 (0 : Byte)).length ≤ capacity := by
      rw [List.length_replicate]
      omega
    rw [check_of hback, ok_bind, write_eq hzeros, ok_bind]
    rcases matchLength_spec hsmall hip hnibble with ⟨herror, hrefused⟩ | ⟨matchCode, ip', hok, hip', hlength, -⟩
    · rw [herror]
      exact Tail.refused fun matchCode ip' hlength _ hin => absurd (hrefused matchCode ip' hlength) (by omega)
    · rw [hok, ok_bind]
      exact (safeMatchCopy_tail _ hback hroom hip' hlength).of_front fun i hi => store_before hi

theorem fastMatch_tail (dst : Memory) (hsmall : block.length ≤ maxBlock) (hip : ip + 2 < block.length)
    (hroom : op + 32 ≤ capacity) (hnibble : nibble < 16) :
    Tail block capacity dst op (ip + 2) (offsetAt block ip) nibble (fastMatch block capacity dst op ip nibble) := by
  have hdistance : fastloopSafeDistance = 64 := rfl
  have hmin : minMatch = 4 := rfl
  rw [fastMatch, readLE16_eq hip.le, ok_bind]
  by_cases hback : offsetAt block ip ≤ op
  case neg =>
    rw [check_of_not hback]
    exact Tail.refused fun _ _ _ h _ => absurd h hback
  case pos =>
    rw [check_of hback, ok_bind]
    rcases matchLength_spec hsmall hip hnibble with ⟨herror, hrefused⟩ | ⟨matchCode, ip', hok, hip', hlength, hshort⟩
    · rw [herror]
      exact Tail.refused fun matchCode ip' hlength _ hin => absurd (hrefused matchCode ip' hlength) (by omega)
    rw [hok, ok_bind]
    dsimp only
    by_cases hnear : capacity ≤ op + (matchCode + minMatch) + fastloopSafeDistance
    · rw [if_pos hnear]
      exact safeMatchCopy_tail dst hback (by omega) hip' hlength
    rw [if_neg hnear]
    have hgoes : Goes block capacity (op + (matchCode + minMatch)) ip' (.fast ip') :=
      ⟨hip', .inr ⟨rfl, by omega⟩⟩
    by_cases hsimple : nibble ≠ 15 ∧ 8 ≤ offsetAt block ip
    · obtain ⟨u, hu, hmatched⟩ := shortMatch_spec dst
        (fun dst => .ok (dst, op + (matchCode + minMatch), Next.fast ip')) hsimple.2 hback
        (show op + 18 ≤ capacity by omega)
      rw [if_pos hsimple]
      have hcode := (hshort hsimple.1).1
      have hne := hsimple.1
      exact hu ▸ Tail.went hlength hback hgoes (hmatched.weaken (by omega))
    rw [if_neg hsimple]
    by_cases hclose : offsetAt block ip < 16
    · obtain ⟨u, hu, hmatched⟩ := memcpyUsingOffset_spec dst hback (show op + 16 ≤ capacity by omega)
        (show op + (matchCode + minMatch) + 7 ≤ capacity by omega)
      rw [if_pos hclose, hu]
      exact Tail.went hlength hback hgoes (hmatched.weaken (by omega))
    · obtain ⟨u, m, hu, hrepeats, hm⟩ := wildCopy32_repeats dst (Nat.sub_add_cancel hback) (Nat.le_of_not_lt hclose)
        hroom (show op + (matchCode + minMatch) + 31 ≤ capacity by omega)
      rw [if_neg hclose, hu]
      exact Tail.went hlength hback hgoes fun _ => hrepeats.weaken (by omega)

structure LastAt (block : List Byte) (ip literals ip₁ : Nat) : Prop where
  length : LengthAt block (byteAt block ip / 16) (ip + 1) literals ip₁
  ends : ip₁ + literals = block.length

structure SequenceAt (block : List Byte) (ip literals ip₁ matchCode ip₂ : Nat) : Prop where
  length : LengthAt block (byteAt block ip / 16) (ip + 1) literals ip₁
  offset : ip₁ + literals + 2 ≤ block.length
  matchLength : LengthAt block (byteAt block ip % 16) (ip₁ + literals + 2) matchCode ip₂

/-- What the format asks for at the ends of the buffers, and a match to be of bytes
that are there. -/
inductive Accepted (block : List Byte) (capacity op ip : Nat) : Prop
  | last {literals ip₁ : Nat} (at_ : LastAt block ip literals ip₁) (fits : op + literals ≤ capacity)
  | sequence {literals ip₁ matchCode ip₂ : Nat} (at_ : SequenceAt block ip literals ip₁ matchCode ip₂)
      (back : offsetAt block (ip₁ + literals) ≤ op + literals)
      (literalsEnd : ip₁ + literals + (2 + 1 + lastLiterals) ≤ block.length) (matchStart : op + literals + mfLimit ≤ capacity)
      (blockEnd : ip₂ + lastLiterals ≤ block.length)
      (matchEnd : op + literals + (matchCode + minMatch) + lastLiterals ≤ capacity)

inductive Round (block : List Byte) (capacity : Nat) (dst : Memory) (op ip : Nat) :
    Except Stop (Memory × Nat × Next) → Prop
  | refused (h : ¬ Accepted block capacity op ip) : Round block capacity dst op ip (.error .outputError)
  | ended {literals ip₁ : Nat} {u : Memory} (at_ : LastAt block ip literals ip₁) (fits : op + literals ≤ capacity)
      (reads : Reads block dst u op ip₁ literals) : Round block capacity dst op ip (.ok (u, op + literals, .done))
  | went {literals ip₁ matchCode ip₂ : Nat} {u v : Memory} {next : Next}
      (at_ : SequenceAt block ip literals ip₁ matchCode ip₂)
      (back : offsetAt block (ip₁ + literals) ≤ op + literals) (reads : Reads block dst v op ip₁ literals)
      (matched : Matched v u (op + literals) (matchCode + minMatch) (offsetAt block (ip₁ + literals)))
      (goes : Goes block capacity (op + literals + (matchCode + minMatch)) ip₂ next) :
      Round block capacity dst op ip (.ok (u, op + literals + (matchCode + minMatch), next))

theorem Round.of_tail {ip₁ : Nat} {result : Except Stop (Memory × Nat × Next)}
    (hlength : LengthAt block (byteAt block ip / 16) (ip + 1) literals ip₁) (hoffset : ip₁ + literals + 2 ≤ block.length)
    (hreads : Reads block dst v op ip₁ literals)
    (h : Tail block capacity v (op + literals) (ip₁ + literals + 2) (offsetAt block (ip₁ + literals)) (byteAt block ip % 16)
      result) : Round block capacity dst op ip result := by
  cases h with
  | went length back goes matched => exact Round.went ⟨hlength, hoffset, length⟩ back hreads matched goes
  | refused h =>
      refine Round.refused fun haccepted => ?_
      cases haccepted with
      | last at_ _ =>
          obtain ⟨rfl, rfl⟩ := hlength.unique at_.length
          exact absurd at_.ends (by omega)
      | sequence at_ back _ _ blockEnd matchEnd =>
          obtain ⟨rfl, rfl⟩ := hlength.unique at_.length
          exact absurd matchEnd (Nat.not_le_of_lt (h _ _ at_.matchLength back blockEnd))

theorem nibble_lt (block : List Byte) (ip : Nat) : byteAt block ip % 16 < 16 := Nat.mod_lt _ (by decide)

theorem literalNibble_lt (block : List Byte) (ip : Nat) : byteAt block ip / 16 < 16 := Nat.div_lt_of_lt_mul (byteAt_lt block ip)

theorem not_accepted_of_short (h : Short block (byteAt block ip / 16) (ip + 1)) : ¬ Accepted block capacity op ip := by
  intro haccepted
  cases haccepted with
  | last at_ _ => exact absurd (h _ _ at_.length) (Nat.not_lt_of_le at_.ends.le)
  | sequence at_ _ literalsEnd _ _ _ => exact absurd (h _ _ at_.length) (by omega)

theorem safeLiteralCopy_round {ip₁ : Nat} (dst : Memory) (hsmall : block.length ≤ maxBlock)
    (hlength : LengthAt block (byteAt block ip / 16) (ip + 1) literals ip₁ ∨
      block.length < ip₁ + literals ∧ Short block (byteAt block ip / 16) (ip + 1)) :
    Round block capacity dst op ip (safeLiteralCopy block capacity dst op ip₁ literals (byteAt block ip % 16)) := by
  rw [safeLiteralCopy]
  by_cases hend : capacity < op + literals + mfLimit ∨ block.length < ip₁ + literals + (2 + 1 + lastLiterals)
  case pos =>
    rw [if_pos hend]
    by_cases hlast : ip₁ + literals = block.length ∧ op + literals ≤ capacity
    case pos =>
      rcases hlength with hlength | ⟨hlt, -⟩
      · obtain ⟨u, hu, hreads⟩ := copyIn_reads dst literals hlast.1.le hlast.2
        rw [check_of hlast, ok_bind, hu]
        exact Round.ended ⟨hlength, hlast.1⟩ hlast.2 hreads
      · exact absurd hlast.1 (Nat.ne_of_gt hlt)
    case neg =>
      rw [check_of_not hlast]
      refine Round.refused ?_
      rcases hlength with hlength | ⟨-, hshort⟩
      · rintro (⟨at_, fits⟩ | ⟨at_, -, literalsEnd, matchStart, -, -⟩)
        · obtain ⟨rfl, rfl⟩ := hlength.unique at_.length
          exact hlast ⟨at_.ends, fits⟩
        · obtain ⟨rfl, rfl⟩ := hlength.unique at_.length
          rcases hend with hend | hend
          · exact absurd matchStart (Nat.not_le_of_lt hend)
          · exact absurd literalsEnd (Nat.not_le_of_lt hend)
      · exact not_accepted_of_short hshort
  case neg =>
    rw [not_or, Nat.not_lt, Nat.not_lt] at hend
    have hlast : lastLiterals = 5 := rfl
    have hlimit : mfLimit = 12 := rfl
    rcases hlength with hlength | ⟨hlt, -⟩
    · obtain ⟨v, hv, hreads⟩ := wildCopyIn8_reads dst rfl (show ip₁ + literals + 8 ≤ block.length by omega)
        (show op + literals + 8 ≤ capacity by omega)
      rw [if_neg (by omega), hv, ok_bind, readLE16_eq (by omega), ok_bind]
      exact Round.of_tail hlength (by omega) hreads (copyMatch_tail v hsmall (by omega) (by omega) (nibble_lt _ _))
    · omega

theorem safeRound_round (dst : Memory) (hsmall : block.length ≤ maxBlock) (hip : ip < block.length) :
    Round block capacity dst op ip (safeRound block capacity dst op ip) := by
  have hmin : minMatch = 4 := rfl
  rw [safeRound, fetch_one hip, ok_bind]
  dsimp only
  rw [← byteAt]
  by_cases hshortcut : byteAt block ip / 16 ≠ 15 ∧ ip + 1 + 16 < block.length ∧ op + 32 ≤ capacity
  case pos =>
    obtain ⟨hne, hin, hout⟩ := hshortcut
    have hlength : LengthAt block (byteAt block ip / 16) (ip + 1) (byteAt block ip / 16) (ip + 1) :=
      lengthAt_short hip (lt_of_le_of_ne (Nat.le_of_lt_succ (literalNibble_lt _ _)) hne)
    have hlt := literalNibble_lt block ip
    rw [if_pos ⟨hne, hin, hout⟩]
    obtain ⟨v, hv, hreads⟩ := copyIn_reads dst 16 hin.le (show op + 16 ≤ capacity by omega)
    rw [hv, ok_bind, readLE16_eq (by omega), ok_bind]
    refine Round.of_tail hlength (by omega) (hreads.weaken (by omega)) ?_
    by_cases hsimple : byteAt block ip % 16 ≠ 15 ∧ 8 ≤ offsetAt block (ip + 1 + byteAt block ip / 16) ∧
        offsetAt block (ip + 1 + byteAt block ip / 16) ≤ op + byteAt block ip / 16
    · have hnibble := nibble_lt block ip
      obtain ⟨hne', h8, hback⟩ := hsimple
      obtain ⟨u, hu, hmatched⟩ := shortMatch_spec v (fun dst => .ok (dst, op + byteAt block ip / 16 + byteAt block ip % 16 +
          minMatch, Next.safe (ip + 1 + byteAt block ip / 16 + 2))) h8 hback
        (show op + byteAt block ip / 16 + 18 ≤ capacity by omega)
      rw [if_pos ⟨hne', h8, hback⟩]
      refine hu ▸ ?_
      rw [Nat.add_assoc _ _ minMatch]
      exact Tail.went (lengthAt_short (by omega) (by omega)) hback ⟨by omega, .inl ⟨rfl, by omega⟩⟩
        (hmatched.weaken (by omega))
    · rw [if_neg hsimple]
      exact copyMatch_tail v hsmall (by omega) (by omega) (nibble_lt _ _)
  case neg =>
    rw [if_neg hshortcut]
    rcases literalLength_spec hsmall (show ip + 1 ≤ block.length from hip) (literalNibble_lt _ _) with
      ⟨herror, hshort⟩ | ⟨literals, ip₁, hok, hin, hlength⟩
    · rw [herror]
      exact Round.refused (not_accepted_of_short hshort)
    · rw [hok, ok_bind]
      exact safeLiteralCopy_round dst hsmall hlength

theorem fastRound_round (dst : Memory) (hsmall : block.length ≤ maxBlock) (hip : ip < block.length)
    (hop : op + fastloopSafeDistance ≤ capacity) :
    Round block capacity dst op ip (fastRound block capacity dst op ip) := by
  have hdistance : fastloopSafeDistance = 64 := rfl
  rw [fastRound, fetch_one hip, ok_bind]
  dsimp only
  rw [← byteAt]
  by_cases hlong : byteAt block ip / 16 = 15
  case pos =>
    rw [if_pos hlong]
    rcases literalLength_spec hsmall (show ip + 1 ≤ block.length from hip) (literalNibble_lt _ _) with
      ⟨herror, hshort⟩ | ⟨literals, ip₁, hok, hin, hlength⟩
    · rw [herror]
      exact Round.refused (not_accepted_of_short hshort)
    rw [hok, ok_bind]
    dsimp only
    by_cases hnear : capacity < op + literals + 32 ∨ block.length < ip₁ + literals + 32
    · rw [if_pos hnear]
      exact safeLiteralCopy_round dst hsmall hlength
    · rw [if_neg hnear]
      rw [not_or, Nat.not_lt, Nat.not_lt] at hnear
      rcases hlength with hlength | ⟨hlt, -⟩
      · obtain ⟨v, hv, hreads⟩ := wildCopyIn32_reads dst rfl hnear.2 hnear.1
        rw [hv, ok_bind]
        exact Round.of_tail hlength (by omega) hreads (fastMatch_tail v hsmall (by omega) hnear.1 (nibble_lt _ _))
      · omega
  case neg =>
    have hlt := literalNibble_lt block ip
    have hlength : LengthAt block (byteAt block ip / 16) (ip + 1) (byteAt block ip / 16) (ip + 1) :=
      lengthAt_short hip (by omega)
    rw [if_neg hlong]
    by_cases hend : block.length < ip + 1 + 17
    · rw [if_pos hend]
      exact safeLiteralCopy_round dst hsmall (.inl hlength)
    · rw [if_neg hend]
      obtain ⟨v, hv, hreads⟩ := copyIn_reads dst 16 (show ip + 1 + 16 ≤ block.length by omega)
        (show op + 16 ≤ capacity by omega)
      rw [hv, ok_bind]
      exact Round.of_tail hlength (by omega) (hreads.weaken (by omega))
        (fastMatch_tail v hsmall (by omega) (by omega) (nibble_lt _ _))

def round (block : List Byte) (capacity : Nat) (dst : Memory) (op : Nat) : Next → Except Stop (Memory × Nat × Next)
  | .done => .ok (dst, op, .done)
  | .safe ip => safeRound block capacity dst op ip
  | .fast ip => fastRound block capacity dst op ip

theorem round_spec (dst : Memory) (hsmall : block.length ≤ maxBlock) (h : Goes block capacity op ip next) :
    Round block capacity dst op ip (round block capacity dst op next) := by
  obtain ⟨hip, ⟨rfl, -⟩ | ⟨rfl, hop⟩⟩ := h
  · exact safeRound_round dst hsmall hip
  · exact fastRound_round dst hsmall hip hop

theorem decodeLoop_succ (dst : Memory) (rounds : Nat) (h : Goes block capacity op ip next) :
    decodeLoop block capacity (rounds + 1) dst op next = (do
      let (dst, op, next) ← round block capacity dst op next
      decodeLoop block capacity rounds dst op next) := by
  obtain ⟨-, ⟨rfl, -⟩ | ⟨rfl, -⟩⟩ := h <;> rfl

end Tyrdbs.Slices.Lz4Decoder
