import Tyrdbs.Library.Bytes
import Tyrdbs.Library.Outcome

namespace Tyrdbs

open Outcome

namespace BufferedWriter

/-- How a call ends that does not return: by the error of the writer, or by one
of its sink; unfinished stands for a loop that is cut off. -/
inductive Fault (ε : Type)
  | cannotWrite
  | sink (e : ε)
  | unfinished

inductive Op
  | write (data : List Byte)
  | flush

def Op.data : Op → List Byte
  | .write data => data
  | .flush => []

end BufferedWriter

open BufferedWriter

/-- The bytes in the buffer up to m_offset, and the sink. What the sink has
accepted so far is kept for what is said about it; no function reads it. -/
structure BufferedWriter (σ : Type) where
  buffer : List Byte := []
  sink : σ
  accepted : List Byte := []

namespace BufferedWriter

variable {ε σ : Type} (size : UInt32) (sinkWrite : σ → List Byte → Except ε (Nat × σ))

/-- How many bytes the sink accepted is not looked at. -/
def flush (w : BufferedWriter σ) : Except (Fault ε) (BufferedWriter σ) :=
  if w.buffer = [] then .ok w
  else
    match sinkWrite w.sink w.buffer with
    | .error e => .error (.sink e)
    | .ok (count, sink) => .ok { buffer := [], sink := sink, accepted := w.accepted ++ w.buffer.take count }

/-- The loop of write; every round copies something. -/
def writeLoop : Nat → BufferedWriter σ → List Byte → Except (Fault ε) (BufferedWriter σ)
  | _, w, [] => .ok w
  | 0, _, _ :: _ => .error .unfinished
  | rounds + 1, w, b :: data => do
      let w ← (if w.buffer.length = size.toNat then do
        let w ← w.flush sinkWrite
        check (w.buffer.length ≠ size.toNat) .cannotWrite
        return w
      else .ok w)
      let partSize := min (size.toNat - w.buffer.length) (data.length + 1)
      writeLoop rounds { w with buffer := w.buffer ++ (b :: data).take partSize } ((b :: data).drop partSize)

def write (w : BufferedWriter σ) (data : List Byte) : Except (Fault ε) (BufferedWriter σ) :=
  writeLoop size sinkWrite data.length w data

def apply (w : BufferedWriter σ) : Op → Except (Fault ε) (BufferedWriter σ)
  | .write data => w.write size sinkWrite data
  | .flush => w.flush sinkWrite

def run (w : BufferedWriter σ) (ops : List Op) : Except (Fault ε) (BufferedWriter σ) :=
  ops.foldlM (apply size sinkWrite) w

/-- A sink as long as it is in one of these states accepts between one and all
of the bytes that it is offered. -/
def Accepting (Good : σ → Prop) : Prop :=
  ∀ s data, Good s → data ≠ [] →
    ∃ count s', sinkWrite s data = .ok (count, s') ∧ 0 < count ∧ count ≤ data.length ∧ Good s'

/-- The sink accepts every one of these chunks as a whole. -/
def AcceptsAll : σ → List (List Byte) → Prop
  | _, [] => True
  | s, chunk :: chunks => ∃ s', sinkWrite s chunk = .ok (chunk.length, s') ∧ AcceptsAll s' chunks

/-- Bytes that are cut into chunks of one size, a byte at a time. -/
structure Cutter where
  chunks : List (List Byte) := []
  pending : List Byte := []

namespace Cutter

def flush (c : Cutter) : Cutter := if c.pending = [] then c else ⟨c.chunks ++ [c.pending], []⟩

def put (c : Cutter) (b : Byte) : Cutter :=
  if c.pending.length = size.toNat then ⟨c.chunks ++ [c.pending], [b]⟩ else ⟨c.chunks, c.pending ++ [b]⟩

def apply (c : Cutter) (op : Op) : Cutter :=
  match op with
  | .write data => data.foldl (put size) c
  | .flush => c.flush

end Cutter

/-- What the operations and a final flush offer to the sink, whatever it accepts. -/
def offers (ops : List Op) : List (List Byte) := (ops.foldl (Cutter.apply size) {}).flush.chunks

def feed : σ → List (List Byte) → Except ε (List Byte × σ)
  | s, [] => .ok ([], s)
  | s, chunk :: chunks => do
      let (count, s) ← sinkWrite s chunk
      let (rest, s) ← feed s chunks
      return (chunk.take count ++ rest, s)

variable {size : UInt32} {sinkWrite : σ → List Byte → Except ε (Nat × σ)} {Good : σ → Prop} {s : σ}

section Cutting

variable {c : Cutter}

theorem Cutter.flush_chunks (c : Cutter) : c.flush.chunks.flatten = c.chunks.flatten ++ c.pending := by
  rw [Cutter.flush]
  split
  case isTrue h => rw [h, List.append_nil]
  case isFalse => simp

theorem Cutter.put_bytes (c : Cutter) (b : Byte) :
    (c.put size b).chunks.flatten ++ (c.put size b).pending = c.chunks.flatten ++ c.pending ++ [b] := by
  rw [Cutter.put]
  split
  case isTrue => simp
  case isFalse => simp

theorem Cutter.apply_bytes (c : Cutter) (op : Op) :
    (c.apply size op).chunks.flatten ++ (c.apply size op).pending = c.chunks.flatten ++ c.pending ++ op.data := by
  cases op with
  | flush =>
      rw [Cutter.apply, Cutter.flush]
      split
      case isTrue => simp [Op.data]
      case isFalse => simp [Op.data]
  | write data =>
      simp only [Cutter.apply, Op.data]
      induction data generalizing c with
      | nil => simp
      | cons b data ih => rw [List.foldl_cons, ih, put_bytes, List.append_assoc, List.singleton_append]

theorem offers_flatten (ops : List Op) : (offers size ops).flatten = ops.flatMap Op.data := by
  have hall : ∀ (ops : List Op) (c : Cutter), (ops.foldl (Cutter.apply size) c).chunks.flatten ++
      (ops.foldl (Cutter.apply size) c).pending = c.chunks.flatten ++ c.pending ++ ops.flatMap Op.data := by
    intro ops
    induction ops with
    | nil => simp
    | cons op ops ih =>
        intro c
        rw [List.foldl_cons, ih, Cutter.apply_bytes, List.flatMap_cons, List.append_assoc]
  rw [offers, Cutter.flush_chunks, hall]
  rfl

theorem Cutter.puts_room (data : List Byte) (h : c.pending.length + data.length ≤ size.toNat) :
    data.foldl (Cutter.put size) c = ⟨c.chunks, c.pending ++ data⟩ := by
  induction data generalizing c with
  | nil => rw [List.append_nil, List.foldl_nil]
  | cons b data ih =>
      have hroom : c.pending.length ≠ size.toNat := by
        rw [List.length_cons] at h
        omega
      rw [List.foldl_cons, Cutter.put, if_neg hroom, ih]
      · rw [List.append_assoc, List.singleton_append]
      · rw [List.length_append, List.length_singleton]
        rw [List.length_cons] at h
        omega

theorem Cutter.puts_full (h : c.pending.length = size.toNat) (hsize : 0 < size.toNat) (b : Byte)
    (data : List Byte) : (b :: data).foldl (Cutter.put size) c = (b :: data).foldl (Cutter.put size) c.flush := by
  have hne : c.pending ≠ [] := List.length_pos_iff.mp (by omega)
  have hempty : ([] : List Byte).length ≠ size.toNat := by
    rw [List.length_nil]
    omega
  rw [List.foldl_cons, List.foldl_cons, Cutter.put, if_pos h, Cutter.flush, if_neg hne, Cutter.put, if_neg hempty]
  rfl

end Cutting

theorem feed_concat (s : σ) (chunks : List (List Byte)) (chunk : List Byte) :
    feed sinkWrite s (chunks ++ [chunk]) = (do
      let (bytes, s) ← feed sinkWrite s chunks
      let (count, s) ← sinkWrite s chunk
      return (bytes ++ chunk.take count, s)) := by
  induction chunks generalizing s with
  | nil =>
      change (sinkWrite s chunk >>= fun r => pure (chunk.take r.1 ++ [], r.2)) =
        sinkWrite s chunk >>= fun r => pure ([] ++ chunk.take r.1, r.2)
      simp only [List.append_nil, List.nil_append]
  | cons first chunks ih =>
      simp only [List.cons_append, feed, ih, bind_assoc, pure_bind, List.append_assoc]

/-- A sink accepts the bytes of some chunks as they are if and only if it accepts
each chunk as a whole: it can make up nowhere for what it left out. -/
theorem feed_spec (hsink : Accepting sinkWrite Good) (hs : Good s) {chunks : List (List Byte)}
    (hne : ∀ chunk ∈ chunks, chunk ≠ []) :
    ∃ bytes s', feed sinkWrite s chunks = .ok (bytes, s') ∧ bytes.length ≤ chunks.flatten.length ∧
      (bytes = chunks.flatten ↔ AcceptsAll sinkWrite s chunks) := by
  induction chunks generalizing s with
  | nil => exact ⟨[], s, rfl, Nat.le_refl _, iff_of_true rfl trivial⟩
  | cons chunk chunks ih =>
      obtain ⟨count, s₁, hwrite, -, hle, hs₁⟩ := hsink s chunk hs (hne chunk (List.mem_cons_self ..))
      obtain ⟨bytes, s₂, hfeed, hlen, hiff⟩ := ih hs₁ (fun c hc => hne c (List.mem_cons_of_mem _ hc))
      refine ⟨chunk.take count ++ bytes, s₂, ?_, ?_, ?_⟩
      · rw [feed, hwrite, ok_bind]
        simp only [hfeed, ok_bind]
        rfl
      · rw [List.flatten_cons, List.length_append, List.length_append, List.length_take]
        omega
      · rw [AcceptsAll, hwrite, List.flatten_cons]
        constructor
        · intro heq
          have hlength := congrArg List.length heq
          rw [List.length_append, List.length_append, List.length_take] at hlength
          obtain rfl : count = chunk.length := by omega
          rw [List.take_length, List.append_right_inj] at heq
          exact ⟨s₁, rfl, hiff.mp heq⟩
        · rintro ⟨s', hs', hall⟩
          rw [Except.ok.injEq, Prod.mk.injEq] at hs'
          obtain ⟨rfl, rfl⟩ := hs'
          rw [List.take_length, hiff.mpr hall]

/-- The writer holds what waits to be cut, and its sink was fed the chunks. -/
structure Cuts (size : UInt32) (sinkWrite : σ → List Byte → Except ε (Nat × σ)) (Good : σ → Prop) (s : σ)
    (c : Cutter) (w : BufferedWriter σ) : Prop where
  buffer : w.buffer = c.pending
  room : c.pending.length ≤ size.toNat
  fed : feed sinkWrite s c.chunks = .ok (w.accepted, w.sink)
  good : Good w.sink
  filled : ∀ chunk ∈ c.chunks, chunk ≠ []

section Refinement

variable {c : Cutter} {w : BufferedWriter σ}

theorem Cuts.flush (h : Cuts size sinkWrite Good s c w) (hsink : Accepting sinkWrite Good) :
    ∃ w', w.flush sinkWrite = .ok w' ∧ Cuts size sinkWrite Good s c.flush w' := by
  rw [BufferedWriter.flush, Cutter.flush, h.buffer]
  by_cases hempty : c.pending = []
  · rw [if_pos hempty, if_pos hempty]
    exact ⟨w, rfl, h⟩
  · rw [if_neg hempty, if_neg hempty]
    obtain ⟨count, s', hwrite, -, -, hs'⟩ := hsink w.sink c.pending h.good hempty
    rw [hwrite]
    refine ⟨_, rfl, rfl, Nat.zero_le _, ?_, hs', fun chunk hc => ?_⟩
    · rw [feed_concat, h.fed, ok_bind]
      change (sinkWrite w.sink c.pending >>= _) = _
      rw [hwrite]
      rfl
    · rcases List.mem_append.mp hc with hc | hc
      · exact h.filled chunk hc
      · rw [List.mem_singleton.mp hc]
        exact hempty

theorem Cuts.writeLoop (hsink : Accepting sinkWrite Good) (hsize : 0 < size.toNat) (rounds : Nat)
    {data : List Byte} (hrounds : data.length ≤ rounds) (h : Cuts size sinkWrite Good s c w) :
    ∃ w', w.writeLoop size sinkWrite rounds data = .ok w' ∧
      Cuts size sinkWrite Good s (data.foldl (Cutter.put size) c) w' := by
  induction rounds generalizing c w data with
  | zero =>
      obtain rfl := List.length_eq_zero_iff.mp (Nat.le_zero.mp hrounds)
      exact ⟨w, rfl, h⟩
  | succ rounds ih =>
      cases data with
      | nil => exact ⟨w, rfl, h⟩
      | cons b data =>
          -- After the flush there is room, and the cutter makes the same chunks.
          have hroom : ∃ w₁ c₁, (if w.buffer.length = size.toNat then (do
                let w ← w.flush sinkWrite
                check (w.buffer.length ≠ size.toNat) .cannotWrite
                return w : Except (Fault ε) (BufferedWriter σ)) else .ok w) = .ok w₁ ∧
              Cuts size sinkWrite Good s c₁ w₁ ∧ w₁.buffer.length < size.toNat ∧
              (b :: data).foldl (Cutter.put size) c = (b :: data).foldl (Cutter.put size) c₁ := by
            by_cases hfull : w.buffer.length = size.toNat
            · obtain ⟨w₁, hflush, h₁⟩ := h.flush hsink
              have hpending : c.pending ≠ [] := List.length_pos_iff.mp (by rw [← h.buffer, hfull]; exact hsize)
              have hbuffer : w₁.buffer.length = 0 := by
                rw [h₁.buffer, Cutter.flush, if_neg hpending]
                rfl
              refine ⟨w₁, c.flush, ?_, h₁, by omega, Cutter.puts_full (h.buffer ▸ hfull) hsize b data⟩
              rw [if_pos hfull, hflush, ok_bind, check_of (by omega), ok_bind]
              rfl
            · have hle : w.buffer.length ≤ size.toNat := h.buffer ▸ h.room
              exact ⟨w, c, if_neg hfull, h, by omega, rfl⟩
          obtain ⟨w₁, c₁, hfirst, h₁, hlt, hfold⟩ := hroom
          let partSize := min (size.toNat - w₁.buffer.length) (data.length + 1)
          have hpart : ((b :: data).take partSize).length = partSize := by
            rw [List.length_take, List.length_cons]
            omega
          have hfit : c₁.pending.length + ((b :: data).take partSize).length ≤ size.toNat := by
            rw [hpart, ← h₁.buffer]
            omega
          have hcopied : Cuts size sinkWrite Good s ⟨c₁.chunks, c₁.pending ++ (b :: data).take partSize⟩
              { w₁ with buffer := w₁.buffer ++ (b :: data).take partSize } :=
            ⟨by rw [h₁.buffer], by rw [List.length_append]; exact hfit, h₁.fed, h₁.good, h₁.filled⟩
          have hrest : ((b :: data).drop partSize).length ≤ rounds := by
            rw [List.length_drop]
            rw [List.length_cons] at hrounds ⊢
            omega
          obtain ⟨w', hloop, h'⟩ := ih hrest hcopied
          refine ⟨w', ?_, ?_⟩
          · rw [BufferedWriter.writeLoop, hfirst, ok_bind]
            exact hloop
          · rw [hfold, ← List.take_append_drop partSize (b :: data), List.foldl_append, Cutter.puts_room _ hfit]
            exact h'

theorem Cuts.apply (hsink : Accepting sinkWrite Good) (h : Cuts size sinkWrite Good s c w) (op : Op)
    (hsize : 0 < size.toNat ∨ op.data = []) :
    ∃ w', w.apply size sinkWrite op = .ok w' ∧ Cuts size sinkWrite Good s (c.apply size op) w' := by
  cases op with
  | flush => exact h.flush hsink
  | write data =>
      rcases hsize with hsize | hempty
      · exact h.writeLoop hsink hsize data.length (Nat.le_refl _)
      · obtain rfl : data = [] := hempty
        exact ⟨w, rfl, h⟩

theorem Cuts.run (hsink : Accepting sinkWrite Good) (h : Cuts size sinkWrite Good s c w) {ops : List Op}
    (hsize : 0 < size.toNat ∨ ops.flatMap Op.data = []) :
    ∃ w', w.run size sinkWrite ops = .ok w' ∧ Cuts size sinkWrite Good s (ops.foldl (Cutter.apply size) c) w' := by
  induction ops generalizing c w with
  | nil => exact ⟨w, rfl, h⟩
  | cons op ops ih =>
      rw [List.flatMap_cons, List.append_eq_nil_iff] at hsize
      obtain ⟨w₁, hop, h₁⟩ := h.apply hsink op (hsize.imp_right And.left)
      obtain ⟨w', hrun, h'⟩ := ih h₁ (hsize.imp_right And.right)
      refine ⟨w', ?_, h'⟩
      rw [BufferedWriter.run, List.foldlM_cons, hop, ok_bind]
      exact hrun

end Refinement

theorem run_cannotWrite (hsize : size.toNat = 0) {w : BufferedWriter σ} (hempty : w.buffer = []) {ops : List Op}
    (hbytes : ops.flatMap Op.data ≠ []) : w.run size sinkWrite ops = .error .cannotWrite := by
  induction ops with
  | nil => exact absurd rfl hbytes
  | cons op ops ih =>
      have hflush : w.flush sinkWrite = .ok w := by rw [BufferedWriter.flush, if_pos hempty]
      by_cases hop : op.data = []
      · have hstay : w.apply size sinkWrite op = .ok w := by
          cases op with
          | flush => exact hflush
          | write data =>
              obtain rfl : data = [] := hop
              rfl
        rw [List.flatMap_cons, hop, List.nil_append] at hbytes
        rw [BufferedWriter.run, List.foldlM_cons, hstay, ok_bind]
        exact ih hbytes
      · cases op with
        | flush => exact absurd rfl hop
        | write data =>
            obtain ⟨b, data, rfl⟩ := List.exists_cons_of_ne_nil hop
            have hlength : w.buffer.length = size.toNat := by rw [hempty, hsize, List.length_nil]
            rw [BufferedWriter.run, List.foldlM_cons, BufferedWriter.apply, BufferedWriter.write, List.length_cons,
              BufferedWriter.writeLoop, if_pos hlength, hflush, ok_bind, check_of_not (not_not.mpr hlength)]
            rfl

theorem flush_adds_nothing (ops : List Op) : (ops ++ [Op.flush]).flatMap Op.data = ops.flatMap Op.data := by
  simp [Op.data]

theorem run_feeds (hsink : Accepting sinkWrite Good) (hs : Good s) {ops : List Op}
    (hsize : 0 < size.toNat ∨ ops.flatMap Op.data = []) :
    ∃ w, run size sinkWrite { sink := s } (ops ++ [.flush]) = .ok w ∧
      feed sinkWrite s (offers size ops) = .ok (w.accepted, w.sink) ∧ ∀ chunk ∈ offers size ops, chunk ≠ [] := by
  have hstart : Cuts size sinkWrite Good s {} { sink := s } :=
    ⟨rfl, Nat.zero_le _, rfl, hs, fun chunk hc => absurd hc List.not_mem_nil⟩
  obtain ⟨w, hrun, hcuts⟩ := hstart.run hsink ((flush_adds_nothing ops).symm ▸ hsize)
  rw [List.foldl_append, List.foldl_cons, List.foldl_nil] at hcuts
  exact ⟨w, hrun, hcuts.fed, hcuts.filled⟩

/-- What is asked of the writer: after a final flush the sink has accepted the
bytes written, in order. -/
def WritesAll (size : UInt32) (sinkWrite : σ → List Byte → Except ε (Nat × σ)) (s : σ) (ops : List Op) : Prop :=
  ∃ w, run size sinkWrite { sink := s } (ops ++ [.flush]) = .ok w ∧ w.accepted = ops.flatMap Op.data

/-- The sink gets all bytes if and only if it accepts everything it is offered
at once: what it leaves is not offered again. -/
theorem writes_all_iff (size : UInt32) (hsink : Accepting sinkWrite Good) (hs : Good s) (ops : List Op) :
    WritesAll size sinkWrite s ops ↔
      (0 < size.toNat ∨ ops.flatMap Op.data = []) ∧ AcceptsAll sinkWrite s (offers size ops) := by
  by_cases hsize : 0 < size.toNat ∨ ops.flatMap Op.data = []
  · obtain ⟨w, hrun, hfed, hfilled⟩ := run_feeds hsink hs hsize
    obtain ⟨bytes, s', hfeed, -, hiff⟩ := feed_spec hsink hs hfilled
    rw [hfed, Except.ok.injEq, Prod.mk.injEq] at hfeed
    rw [← hfeed.1, offers_flatten] at hiff
    rw [and_iff_right hsize, ← hiff]
    refine ⟨fun ⟨w', hrun', hw'⟩ => ?_, fun hw => ⟨w, hrun, hw⟩⟩
    rw [hrun, Except.ok.injEq] at hrun'
    rw [hrun', hw']
  · obtain ⟨hzero, hbytes⟩ := not_or.mp hsize
    refine iff_of_false ?_ (fun h => hsize h.1)
    rintro ⟨w, hrun, -⟩
    have hfail := @run_cannotWrite ε σ size sinkWrite (Nat.eq_zero_of_not_pos hzero) { sink := s } rfl
      (ops ++ [.flush]) (by rwa [flush_adds_nothing])
    rw [hfail] at hrun
    exact absurd hrun (by simp)

def firstByte (_ : Unit) (_ : List Byte) : Except Empty (Nat × Unit) := .ok (1, ())

theorem accepting_firstByte : Accepting firstByte (fun _ => True) :=
  fun _ _ _ hne => ⟨1, (), rfl, Nat.one_pos, List.length_pos_iff.mpr hne, trivial⟩

theorem writes_all_iff_bytes : WritesAll 1 firstByte () [.write [1, 2], .flush, .write [3]] :=
  (writes_all_iff 1 accepting_firstByte trivial _).mpr
    ⟨.inl (by decide), (), rfl, (), rfl, (), rfl, trivial⟩

/-- The second of two bytes that are flushed together is lost. -/
theorem not_writes_all : ¬ WritesAll 4 firstByte () [.write [1, 2]] := by
  rintro ⟨w, hrun, hw⟩
  have hrun' : run 4 firstByte { sink := () } [.write [1, 2], .flush] =
      .ok { buffer := [], sink := (), accepted := [1] } := rfl
  have hrun : run 4 firstByte { sink := () } [.write [1, 2], .flush] = .ok w := hrun
  rw [hrun', Except.ok.injEq] at hrun
  rw [← hrun] at hw
  exact absurd hw (by decide)

end BufferedWriter

end Tyrdbs
