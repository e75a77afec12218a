import Tyrdbs.Message.Encoding
import Tyrdbs.Message.Parser

namespace Tyrdbs.Net

open Bytes Outcome Message

/-- How a connection ends; unfinished stands for a loop that is cut off. -/
inductive Stop
  | tooBig
  | disconnected
  | malformed
  | noMoreData
  | assertion
  | overflow
  | unfinished
  deriving DecidableEq

/-- A buffered_reader: what was loaded last, how much of it was read, and the
chunks that recv is going to return. -/
structure Reader where
  loaded : List Byte := []
  offset : Nat := 0
  source : List (List Byte)

namespace Reader

variable (bufferSize : Nat)

def load (r : Reader) : Except Stop Reader :=
  match r.source with
  | [] => .error .disconnected
  | chunk :: rest => do
      check (chunk.length ≤ bufferSize) .overflow
      check (chunk.length ≠ 0) .assertion
      return { loaded := chunk, source := rest }

def refill (r : Reader) : Except Stop Reader :=
  if r.offset = r.loaded.length then do
    let r ← r.load bufferSize
    check (r.offset ≠ r.loaded.length) .noMoreData
    return r
  else .ok r

/-- The loop of read; every round leaves less to read. -/
def readLoop : Nat → Reader → Nat → Except Stop (List Byte × Reader)
  | _, r, 0 => .ok ([], r)
  | 0, _, _ + 1 => .error .unfinished
  | rounds + 1, r, size => do
      let r ← r.refill bufferSize
      let partSize := min size (r.loaded.length - r.offset)
      let (data, r') ← readLoop rounds { r with offset := r.offset + partSize } (size - partSize)
      return (slice r.loaded r.offset partSize ++ data, r')

def read (r : Reader) (size : Nat) : Except Stop (List Byte × Reader) := readLoop bufferSize size r size

end Reader

/-- The fields of service::request. -/
def request : StructDef := [.static (.scalar .uint16), .static (.scalar .uint16), .dynamic (.one .template)]

/-- The fields of service::response, whose error is another struct of the service. -/
def response : StructDef := [.dynamic (.one (.struct 0)), .dynamic (.one .template)]

/-- The comparison is one of size_t, which buffer_size less the size of an uint16_t
is. -/
def isTooBig (bufferSize messageSize : Nat) : Prop := (bufferSize + 2 ^ 64 - 2) % 2 ^ 64 < messageSize

instance (bufferSize messageSize : Nat) : Decidable (isTooBig bufferSize messageSize) :=
  inferInstanceAs (Decidable (_ < _))

/-- One turn of the loop of worker_thread, and the message that it hands to
process_message; the response is as long as it has to be to be begun. -/
def turn (bufferSize : Nat) (r : Reader) : Except Stop (List Byte × Reader) := do
  let (sizeBytes, r) ← r.read bufferSize 2
  check (2 ≤ bufferSize) .overflow
  let messageSize := fromLittleEndian sizeBytes
  check (¬ isTooBig bufferSize messageSize) .tooBig
  let (body, r) ← r.read bufferSize messageSize
  check (2 + messageSize ≤ bufferSize) .overflow
  let message := sizeBytes ++ body
  match StructParser.make message request 0 with
  | .error _ => .error .malformed
  | .ok _ => do
      check (response.minSize ≤ bufferSize) .assertion
      return (message, r)

/-- The messages that process_message gets, whose handlers return, and how the
connection ends within a number of turns. -/
def serve (bufferSize : Nat) : Nat → Reader → List (List Byte) × Option Stop
  | 0, _ => ([], none)
  | turns + 1, r =>
      match turn bufferSize r with
      | .error stop => ([], some stop)
      | .ok (message, r) =>
          let (messages, stop) := serve bufferSize turns r
          (message :: messages, stop)

/-- A message that a builder of the service has built in a buffer. -/
def Built (bufferSize : Nat) (message : List Byte) : Prop :=
  ∃ (schema : Schema) (name : Nat) (calls : Calls) (maxSize : Nat) (b : Builder), schema name = request ∧
    maxSize ≤ bufferSize ∧ (Tree.struct name calls).build schema ⟨[], maxSize⟩ (.one (.struct name)) = .ok b ∧
    message = b.bytes

/-- A frame whose declared size is too much for the buffer. -/
def Oversized (bufferSize : Nat) (stream : List Byte) : Prop :=
  2 ≤ stream.length ∧ bufferSize < u16At stream 0 + 2

def ending (bufferSize : Nat) (rest : List Byte) : Stop :=
  if rest = [] then .disconnected else if 2 ≤ bufferSize then .tooBig else .overflow

def Reader.remaining (r : Reader) : List Byte := r.loaded.drop r.offset ++ r.source.flatten

structure Reader.Fed (bufferSize : Nat) (r : Reader) : Prop where
  offset : r.offset ≤ r.loaded.length
  chunks : ∀ chunk ∈ r.source, chunk ≠ [] ∧ chunk.length ≤ bufferSize

variable {bufferSize : Nat} {r : Reader}

theorem refill_spec (h : r.Fed bufferSize) (hmore : r.remaining ≠ []) :
    ∃ r', r.refill bufferSize = .ok r' ∧ r'.Fed bufferSize ∧ r'.remaining = r.remaining ∧
      r'.offset < r'.loaded.length := by
  by_cases hend : r.offset = r.loaded.length
  · have hloaded : r.remaining = r.source.flatten := by
      rw [Reader.remaining, hend, List.drop_length, List.nil_append]
    rw [Reader.refill, if_pos hend, Reader.load]
    cases hsource : r.source with
    | nil =>
        rw [hloaded, hsource] at hmore
        exact absurd rfl hmore
    | cons chunk rest =>
        obtain ⟨hne, hfit⟩ := h.chunks chunk (hsource ▸ List.mem_cons_self ..)
        have hpos : 0 < chunk.length := List.length_pos_iff.mpr hne
        refine ⟨{ loaded := chunk, source := rest }, ?_, ⟨Nat.zero_le _, fun c hc => ?_⟩, ?_, hpos⟩
        · simp only [check_of hfit, check_of (Nat.ne_of_gt hpos), ok_bind]
          change (check ((0 : Nat) ≠ chunk.length) _ >>= _) = _
          rw [check_of (Nat.ne_of_lt hpos)]
          rfl
        · exact h.chunks c (hsource ▸ List.mem_cons_of_mem chunk hc)
        · rw [hloaded, hsource]
          rfl
  · rw [Reader.refill, if_neg hend]
    exact ⟨r, rfl, h, rfl, Nat.lt_of_le_of_ne h.offset hend⟩

theorem refill_disconnected (bufferSize : Nat) (h : r.offset ≤ r.loaded.length) (hend : r.remaining = [])
    (hchunks : ∀ chunk ∈ r.source, chunk ≠ []) : r.refill bufferSize = .error .disconnected := by
  obtain ⟨hloaded, hsource⟩ := List.append_eq_nil_iff.mp hend
  have hoffset : r.offset = r.loaded.length := Nat.le_antisymm h (List.drop_eq_nil_iff.mp hloaded)
  have hnone : r.source = [] := by
    cases hs : r.source with
    | nil => rfl
    | cons chunk rest =>
        rw [hs, List.flatten_cons] at hsource
        exact absurd (List.append_eq_nil_iff.mp hsource).1 (hchunks chunk (hs ▸ List.mem_cons_self ..))
  rw [Reader.refill, if_pos hoffset, Reader.load, hnone]
  rfl

/-- However the stream is cut, a read takes the next bytes of it. -/
theorem readLoop_spec : ∀ (rounds size : Nat) {r : Reader}, size ≤ rounds → r.Fed bufferSize →
    size ≤ r.remaining.length → ∃ r', r.readLoop bufferSize rounds size = .ok (r.remaining.take size, r') ∧
      r'.Fed bufferSize ∧ r'.remaining = r.remaining.drop size
  | rounds, 0, r, _, h, _ => by
      refine ⟨r, ?_, h, rfl⟩
      cases rounds <;> rfl
  | rounds + 1, size + 1, r, hrounds, h, hmore => by
      have hnonempty : r.remaining ≠ [] := List.length_pos_iff.mp (Nat.lt_of_lt_of_le (Nat.succ_pos size) hmore)
      obtain ⟨r₁, hrefill, h₁, hremaining, hlt⟩ := refill_spec h hnonempty
      let partSize := min (size + 1) (r₁.loaded.length - r₁.offset)
      have hpart : partSize ≤ size + 1 := Nat.min_le_left ..
      have hloaded : partSize ≤ r₁.loaded.length - r₁.offset := Nat.min_le_right ..
      have hpos : 0 < partSize := by omega
      have hdrop : (r₁.loaded.drop r₁.offset).length = r₁.loaded.length - r₁.offset := List.length_drop ..
      have hrest : { r₁ with offset := r₁.offset + partSize : Reader }.remaining = r.remaining.drop partSize := by
        rw [← hremaining, Reader.remaining, Reader.remaining, List.drop_append_of_le_length (hdrop ▸ hloaded),
          List.drop_drop]
      have hfirst : slice r₁.loaded r₁.offset partSize = r.remaining.take partSize := by
        rw [← hremaining, Reader.remaining, List.take_append_of_le_length (hdrop ▸ hloaded)]
        rfl
      obtain ⟨r₂, hloop, h₂, hend⟩ := readLoop_spec rounds (size + 1 - partSize)
        (r := { r₁ with offset := r₁.offset + partSize }) (by omega)
        ⟨by change r₁.offset + partSize ≤ r₁.loaded.length; omega, h₁.chunks⟩
        (by rw [hrest, List.length_drop]; omega)
      refine ⟨r₂, ?_, h₂, ?_⟩
      · rw [Reader.readLoop, hrefill, ok_bind]
        · change (Reader.readLoop bufferSize rounds { r₁ with offset := r₁.offset + partSize }
            (size + 1 - partSize) >>= fun d => pure (slice r₁.loaded r₁.offset partSize ++ d.1, d.2)) = _
          rw [hloop, ok_bind, hfirst, hrest, ← List.take_add, Nat.add_sub_cancel' hpart]
          rfl
        · exact Nat.succ_ne_zero size
      · rw [hend, hrest, List.drop_drop, Nat.add_sub_cancel' hpart]

theorem read_spec {size : Nat} (h : r.Fed bufferSize) (hmore : size ≤ r.remaining.length) :
    ∃ r', r.read bufferSize size = .ok (r.remaining.take size, r') ∧ r'.Fed bufferSize ∧
      r'.remaining = r.remaining.drop size :=
  readLoop_spec size size (Nat.le_refl size) h hmore

theorem read_disconnected {size : Nat} (h : r.Fed bufferSize) (hend : r.remaining = []) :
    r.read bufferSize (size + 1) = .error .disconnected := by
  have hrefill := refill_disconnected bufferSize h.offset hend (fun c hc => (h.chunks c hc).1)
  rw [Reader.read, Reader.readLoop, hrefill]
  · rfl
  · exact Nat.succ_ne_zero size

theorem withStruct_framed {maxSize : Nat} {d : StructDef} {calls : Builder → StructBuilder → Except Fault Builder}
    (hcalls : ∀ b s, Yields (fun _ => True) b.Grows (calls b s)) :
    Yields (fun _ => True)
      (fun b => b.bytes.length < 65536 → d.minSize ≤ b.bytes.length ∧ u16At b.bytes 0 + 2 = b.bytes.length)
      ((Builder.mk [] maxSize).withStruct d calls) := by
  have hbegin : Yields (fun _ => True) (fun r => d.minSize ≤ r.1.bytes.length ∧ r.2.offset = 0)
      ((Builder.mk [] maxSize).beginStruct d) :=
    yields_checked (fun _ => ⟨Nat.le_of_eq (List.length_replicate ..).symm, rfl⟩)
  have htwo : 2 ≤ d.minSize := by
    unfold StructDef.minSize
    omega
  refine hbegin.bind (fun ⟨b, s⟩ ⟨hmin, hs⟩ => (hcalls b s).bind (fun b' hgrows hlt => ?_))
  have hlength : (b'.finalize s).bytes.length = b'.bytes.length := length_splice ..
  have hlong : d.minSize ≤ b'.bytes.length := Nat.le_trans hmin hgrows.length
  have hfirst : slice (b'.finalize s).bytes 0 2 = littleEndian 2 (b'.bytes.length - 0 - 2) := by
    change slice (splice b'.bytes s.offset (littleEndian 2 (b'.bytes.length - s.offset - 2))) 0 2 = _
    rw [show s.offset = 0 from hs]
    have hfit : 0 + (littleEndian 2 (b'.bytes.length - 0 - 2)).length ≤ b'.bytes.length := by
      rw [length_littleEndian]
      omega
    have hself := slice_splice_self hfit
    rwa [length_littleEndian] at hself
  rw [hlength] at hlt ⊢
  rw [u16At, hfirst, fromLittleEndian_littleEndian _ _ (by omega)]
  omega

theorem built_framed {message : List Byte} (hbuffer : bufferSize < 65536) (h : Built bufferSize message) :
    request.minSize ≤ message.length ∧ message.length ≤ bufferSize ∧ u16At message 0 + 2 = message.length := by
  obtain ⟨schema, name, calls, maxSize, b, hname, hmax, hbuild, rfl⟩ := h
  have hgrows := (Tree.build_grows schema (.one (.struct name)) (.struct name calls) ⟨[], maxSize⟩).of_ok hbuild
  have hfit : b.bytes.length ≤ bufferSize :=
    Nat.le_trans (hgrows.bounded (Nat.zero_le _)) (Nat.le_trans (Nat.le_of_eq hgrows.maxSize) hmax)
  rw [build_struct (by simp [ElementType.accepts]), hname] at hbuild
  obtain ⟨hmin, hsize⟩ := (withStruct_framed (fun b' s => calls.build_grows schema b' s)).of_ok hbuild
    (Nat.lt_of_le_of_lt hfit hbuffer)
  exact ⟨hmin, hfit, hsize⟩

/-- A message in front of the stream is handed on as a whole, and nothing behind it
is lost. -/
theorem turn_message {message rest : List Byte} (hbuffer : bufferSize < 65536) (hmessage : Built bufferSize message)
    (h : r.Fed bufferSize) (hr : r.remaining = message ++ rest) :
    ∃ r', turn bufferSize r = .ok (message, r') ∧ r'.Fed bufferSize ∧ r'.remaining = rest := by
  obtain ⟨hmin, hmax, hsize⟩ := built_framed hbuffer hmessage
  have hlength : r.remaining.length = message.length + rest.length := by rw [hr, List.length_append]
  obtain ⟨r₁, hread, h₁, hr₁⟩ := read_spec h (show 2 ≤ r.remaining.length by omega)
  have hbytes : r.remaining.take 2 = slice message 0 2 := by
    rw [hr, List.take_append_of_le_length (by omega)]
    rfl
  have hsmall : ¬ isTooBig bufferSize (u16At message 0) := by
    unfold isTooBig
    omega
  have hlength₁ : r₁.remaining.length = message.length + rest.length - 2 := by rw [hr₁, List.length_drop, hlength]
  obtain ⟨r₂, hread₂, h₂, hr₂⟩ := read_spec h₁ (show u16At message 0 ≤ r₁.remaining.length by omega)
  have hwhole : slice message 0 2 ++ r₁.remaining.take (u16At message 0) = message := by
    rw [hr₁, hr, List.drop_append_of_le_length (by omega),
      List.take_append_of_le_length (by rw [List.length_drop]; omega),
      List.take_of_length_le (by rw [List.length_drop]; omega)]
    exact List.take_append_drop 2 message
  have hparse : StructParser.make message request 0 = .ok ⟨0, request⟩ := by
    rw [StructParser.make, check_of (by omega)]
    rfl
  refine ⟨r₂, ?_, h₂, ?_⟩
  · rw [turn, hread, ok_bind]
    change (check (2 ≤ bufferSize) _ >>= _) = _
    rw [check_of (show 2 ≤ bufferSize by omega), ok_bind, hbytes]
    change (check (¬ isTooBig bufferSize (u16At message 0)) _ >>= _) = _
    rw [check_of hsmall, ok_bind]
    change (r₁.read bufferSize (u16At message 0) >>= _) = _
    rw [hread₂, ok_bind]
    change (check (2 + u16At message 0 ≤ bufferSize) _ >>= _) = _
    rw [check_of (by omega), ok_bind, hwhole]
    have hresponse : response.minSize ≤ bufferSize := Nat.le_trans (by decide) (Nat.le_trans hmin hmax)
    simp only [hparse, check_of hresponse]
    rfl
  · rw [hr₂, hr₁, List.drop_drop, hr, hsize.symm.trans (Nat.add_comm ..) |>.symm, List.drop_left]

theorem turn_ending {rest : List Byte} (hrest : rest = [] ∨ Oversized bufferSize rest) (hbuffer : bufferSize < 65536)
    (h : r.Fed bufferSize) (hr : r.remaining = rest) : turn bufferSize r = .error (ending bufferSize rest) := by
  by_cases hnil : rest = []
  · rw [turn, read_disconnected h (hr.trans hnil), ending, if_pos hnil]
    rfl
  · obtain ⟨hlength, hbig⟩ := hrest.resolve_left hnil
    obtain ⟨r₁, hread, h₁, hr₁⟩ := read_spec h (show 2 ≤ r.remaining.length by rw [hr]; exact hlength)
    have hbytes : r.remaining.take 2 = slice rest 0 2 := by
      rw [hr]
      rfl
    rw [turn, hread, ok_bind, ending, if_neg hnil]
    change (check (2 ≤ bufferSize) _ >>= _) = _
    by_cases htwo : 2 ≤ bufferSize
    · have hlarge : ¬ ¬ isTooBig bufferSize (u16At rest 0) := by
        unfold isTooBig
        omega
      rw [check_of htwo, ok_bind, hbytes, if_pos htwo]
      change (check (¬ isTooBig bufferSize (u16At rest 0)) _ >>= _) = _
      rw [check_of_not hlarge]
      rfl
    · rw [check_of_not htwo, if_neg htwo]
      rfl

theorem serve_spec {rest : List Byte} (hrest : rest = [] ∨ Oversized bufferSize rest) (hbuffer : bufferSize < 65536) :
    ∀ (messages : List (List Byte)) (turns : Nat) {r : Reader}, messages.length < turns →
      (∀ message ∈ messages, Built bufferSize message) → r.Fed bufferSize →
      r.remaining = messages.flatten ++ rest →
      serve bufferSize turns r = (messages, some (ending bufferSize rest)) := by
  intro messages
  induction messages with
  | nil =>
      intro turns r hturns _ h hr
      obtain ⟨turns, rfl⟩ := Nat.exists_eq_succ_of_ne_zero (Nat.ne_of_gt hturns)
      rw [serve, turn_ending hrest hbuffer h hr]
  | cons message messages ih =>
      intro turns r hturns hbuilt h hr
      obtain ⟨turns, rfl⟩ := Nat.exists_eq_succ_of_ne_zero (Nat.ne_of_gt (Nat.lt_of_le_of_lt (Nat.zero_le _) hturns))
      rw [List.flatten_cons, List.append_assoc] at hr
      obtain ⟨r', hturn, h', hr'⟩ := turn_message hbuffer (hbuilt message (List.mem_cons_self ..)) h hr
      rw [serve, hturn]
      simp only [ih turns (Nat.lt_of_succ_lt_succ hturns) (fun m hm => hbuilt m (List.mem_cons_of_mem _ hm)) h' hr']

/-- However the bytes of the messages are cut, each is handed on as it was built,
until the first frame that is too big, and nothing after it. -/
theorem framing {chunks messages : List (List Byte)} {rest : List Byte} {turns : Nat} (hbuffer : bufferSize < 65536)
    (hbuilt : ∀ message ∈ messages, Built bufferSize message) (hrest : rest = [] ∨ Oversized bufferSize rest)
    (hchunks : ∀ chunk ∈ chunks, chunk ≠ [] ∧ chunk.length ≤ bufferSize)
    (hstream : chunks.flatten = messages.flatten ++ rest) (hturns : messages.length < turns) :
    serve bufferSize turns { source := chunks } = (messages, some (ending bufferSize rest)) :=
  serve_spec hrest hbuffer messages turns hturns hbuilt ⟨Nat.le_refl _, hchunks⟩ hstream

def call (module function : Nat) : List Byte :=
  littleEndian 2 6 ++ littleEndian 2 0 ++ littleEndian 2 module ++ littleEndian 2 function

theorem built_call (module function : Nat) : Built 16 (call module function) :=
  ⟨fun _ => request, 0, .set 0 module (.set 1 function .done), 16, ⟨call module function, 16⟩, rfl, Nat.le_refl 16,
    rfl, rfl⟩

/-- Two calls in four chunks, and a frame of 20 bytes behind them. -/
theorem framing_calls :
    serve 16 5 { source := [[6], [0, 0, 0, 7], [0, 3, 0, 6, 0, 0, 0, 1, 0, 9], [0, 20, 0, 1, 2]] } =
      ([call 7 3, call 1 9], some .tooBig) := by
  have hbig : Oversized 16 [20, 0, 1, 2] := ⟨by decide, by decide⟩
  refine framing (by decide) ?_ (.inr hbig) (by decide) (by decide) (by decide)
  intro message hm
  rcases List.mem_cons.mp hm with rfl | hm
  · exact built_call 7 3
  · obtain rfl := List.mem_singleton.mp hm
    exact built_call 1 9

end Tyrdbs.Net
