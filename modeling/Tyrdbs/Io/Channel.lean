import Tyrdbs.Common.BufferedWriter

namespace Tyrdbs.Io

open Outcome

/-- The errors of a channel; unfinished stands for a loop that is cut off. -/
inductive ChannelError
  | disconnected
  | timeout
  | runtime (errno : Nat)
  | unfinished
  deriving DecidableEq

/-- What a request comes back with, and the clock before and after it. -/
structure Reply where
  res : Int
  before : UInt64
  after : UInt64

def Reply.sendTook (r : Reply) : UInt64 := r.after - r.before

/-- A send as io::send gets it; a timeout of 0 is none. -/
structure SendRequest where
  data : List Byte
  timeout : UInt64
  deriving DecidableEq

/-- The sends issued on a channel and the bytes that the kernel has taken; its
reply to a send may depend on how many came before and on how much it is offered. -/
structure Channel where
  answer : Nat → Nat → Reply
  requests : List SendRequest := []
  wire : List Byte := []

namespace Channel

def econnreset : Int := 104

def ecanceled : Int := 125

def reply (c : Channel) (size : Nat) : Reply := c.answer c.requests.length size

def send (c : Channel) (data : List Byte) (timeout : UInt64) : Except ChannelError (Nat × Channel) :=
  let res := (c.reply data.length).res
  if 0 < res then .ok (res.toNat, { c with
    requests := c.requests ++ [⟨data, timeout⟩]
    wire := c.wire ++ data.take res.toNat })
  else if res = 0 ∨ -res = econnreset then .error .disconnected
  else if -res = ecanceled then .error .timeout
  else .error (.runtime (-res).toNat)

/-- What is left of a timeout after a send. The clock counts nanoseconds, a
timeout milliseconds. -/
def timeLeft (timeout sendTook : UInt64) : UInt64 := if timeout > sendTook then timeout - sendTook else 1

/-- The loop of send_all; every round leaves less to send. -/
def sendLoop : Nat → Channel → List Byte → UInt64 → Except ChannelError Channel
  | _, c, [], _ => .ok c
  | 0, _, _ :: _, _ => .error .unfinished
  | rounds + 1, c, b :: data, timeout => do
      let took := (c.reply (data.length + 1)).sendTook
      let (res, c) ← c.send (b :: data) timeout
      sendLoop rounds c ((b :: data).drop res) (timeLeft timeout took)

def sendAll (c : Channel) (data : List Byte) (timeout : UInt64) : Except ChannelError Channel :=
  c.sendLoop data.length data timeout

/-- Each send takes at least a byte, and no more than it is offered. -/
def Partial (c : Channel) : Prop :=
  ∀ i size, 0 < size → 0 < (c.answer i size).res ∧ (c.answer i size).res ≤ size

/-- What is asked of send_all: it sends the block, and without a timeout it
issues no send that has one. -/
def SendsAll (c : Channel) (data : List Byte) (timeout : UInt64) : Prop :=
  ∃ c' issued, c.sendAll data timeout = .ok c' ∧ c'.wire = c.wire ++ data ∧
    c'.requests = c.requests ++ issued ∧ (timeout = 0 → ∀ r ∈ issued, r.timeout = 0)

variable {c : Channel} {data : List Byte} {timeout : UInt64}

theorem timeLeft_ne_zero (timeout sendTook : UInt64) : timeLeft timeout sendTook ≠ 0 := by
  rw [timeLeft]
  split
  case isTrue h =>
    have hle : sendTook ≤ timeout := UInt64.le_of_lt h
    have hlt := UInt64.lt_iff_toNat_lt.mp h
    intro hzero
    have hsub := congrArg UInt64.toNat hzero
    rw [UInt64.toNat_sub_of_le _ _ hle] at hsub
    exact absurd hsub (Nat.sub_ne_zero_of_lt hlt)
  case isFalse => decide

theorem send_spec (h : c.Partial) (hne : data ≠ []) (timeout : UInt64) : ∃ size, 0 < size ∧ size ≤ data.length ∧
    ((c.reply data.length).res = size) ∧
    c.send data timeout = .ok (size, { c with
      requests := c.requests ++ [⟨data, timeout⟩]
      wire := c.wire ++ data.take size }) := by
  obtain ⟨hpos, hle⟩ := h c.requests.length data.length (List.length_pos_iff.mpr hne)
  refine ⟨(c.reply data.length).res.toNat, ?_, ?_, ?_, ?_⟩
  · rw [reply]; omega
  · rw [reply]; omega
  · rw [reply]; omega
  · rw [send]
    exact if_pos hpos

/-- Whatever the timeout is, the loop sends the block; once there is a timeout, no
send is issued without one. -/
theorem sendLoop_spec (rounds : Nat) (h : c.Partial) (hrounds : data.length ≤ rounds) (timeout : UInt64) :
    ∃ issued, c.sendLoop rounds data timeout = .ok { c with
        requests := c.requests ++ issued
        wire := c.wire ++ data } ∧
      (issued = [] ↔ data = []) ∧ (timeout ≠ 0 → ∀ r ∈ issued, r.timeout ≠ 0) := by
  induction rounds generalizing c data timeout with
  | zero =>
      obtain rfl := List.length_eq_zero_iff.mp (Nat.le_zero.mp hrounds)
      exact ⟨[], by simp [sendLoop], by simp, by simp⟩
  | succ rounds ih =>
      cases data with
      | nil => exact ⟨[], by simp [sendLoop], by simp, by simp⟩
      | cons b data =>
          obtain ⟨size, hpos, hle, -, hsend⟩ := send_spec h (List.cons_ne_nil b data) timeout
          let c₁ : Channel := { c with
            requests := c.requests ++ [⟨b :: data, timeout⟩]
            wire := c.wire ++ (b :: data).take size }
          let left := timeLeft timeout (c.reply (data.length + 1)).sendTook
          have hlen : ((b :: data).drop size).length ≤ rounds := by
            rw [List.length_drop]
            omega
          obtain ⟨issued, hloop, -, htimed⟩ := @ih c₁ _ h hlen left
          refine ⟨⟨b :: data, timeout⟩ :: issued, ?_, by simp, fun hne r hr => ?_⟩
          · rw [sendLoop, hsend, ok_bind]
            refine hloop.trans ?_
            simp only [c₁, List.append_assoc, List.take_append_drop, List.singleton_append]
          · rcases List.mem_cons.mp hr with rfl | hr
            · exact hne
            · exact htimed (timeLeft_ne_zero _ _) r hr

theorem sendAll_cons (h : c.Partial) (hne : data ≠ []) (timeout : UInt64) : ∃ issued,
    c.sendAll data timeout = .ok { c with
        requests := c.requests ++ ⟨data, timeout⟩ :: issued
        wire := c.wire ++ data } ∧
      (issued = [] ↔ (c.reply data.length).res = data.length) ∧ ∀ r ∈ issued, r.timeout ≠ 0 := by
  obtain ⟨b, data, rfl⟩ := List.exists_cons_of_ne_nil hne
  obtain ⟨size, hpos, hle, hres, hsend⟩ := send_spec h hne timeout
  let c₁ : Channel := { c with
    requests := c.requests ++ [⟨b :: data, timeout⟩]
    wire := c.wire ++ (b :: data).take size }
  have hlen : ((b :: data).drop size).length ≤ data.length := by
    rw [List.length_drop, List.length_cons]
    omega
  obtain ⟨issued, hloop, hempty, htimed⟩ := sendLoop_spec (c := c₁) data.length h hlen
    (timeLeft timeout (c.reply (data.length + 1)).sendTook)
  refine ⟨issued, ?_, ?_, htimed (timeLeft_ne_zero _ _)⟩
  · rw [sendAll, List.length_cons, sendLoop, hsend, ok_bind]
    refine hloop.trans ?_
    simp only [c₁, List.append_assoc, List.take_append_drop, List.singleton_append]
  · rw [hempty, hres, List.drop_eq_nil_iff]
    omega

/-- The sends of a call without a timeout have none either if and only if the
first of them takes the whole block. -/
theorem sends_all_iff (h : c.Partial) (data : List Byte) (timeout : UInt64) :
    c.SendsAll data timeout ↔ timeout ≠ 0 ∨ data = [] ∨ (c.reply data.length).res = data.length := by
  by_cases hne : data = []
  · subst hne
    refine iff_of_true ⟨c, [], rfl, ?_, ?_, by simp⟩ (.inr (.inl rfl))
    · rw [List.append_nil]
    · rw [List.append_nil]
  · obtain ⟨issued, hall, hempty, htimed⟩ := sendAll_cons h hne timeout
    constructor
    · rintro ⟨c', issued', hall', -, hissued, hzero⟩
      rw [hall, Except.ok.injEq] at hall'
      rw [← hall', List.append_right_inj] at hissued
      by_cases htimeout : timeout = 0
      · refine .inr (.inr (hempty.mp (List.eq_nil_iff_forall_not_mem.mpr (fun r hr => ?_))))
        exact htimed r hr (hzero htimeout r (hissued ▸ List.mem_cons_of_mem _ hr))
      · exact .inl htimeout
    · intro hwhole
      refine ⟨_, _, hall, rfl, rfl, fun htimeout r hr => ?_⟩
      have hwhole := (hwhole.resolve_left (not_not.mpr htimeout)).resolve_left hne
      rw [hempty.mpr hwhole, List.mem_singleton] at hr
      rw [hr, htimeout]

def byteAtATime : Channel where
  answer _ _ := { res := 1, before := 0, after := 0 }

theorem byteAtATime_partial : byteAtATime.Partial :=
  fun _ _ hsize => ⟨Int.one_pos, Int.toNat_le.mp hsize⟩

theorem sends_all_iff_three : byteAtATime.SendsAll [1, 2, 3] 20 ∧ ¬ byteAtATime.SendsAll [1, 2, 3] 0 := by
  constructor
  · exact (sends_all_iff byteAtATime_partial [1, 2, 3] 20).mpr (.inl (by decide))
  · intro h
    exact absurd ((sends_all_iff byteAtATime_partial [1, 2, 3] 0).mp h) (by decide)

/-- The second byte of a call without a timeout is sent with one. -/
theorem not_sends_all : ¬ byteAtATime.SendsAll [1, 2] 0 := by
  rw [SendsAll]
  rintro ⟨c', issued, hall, -, hissued, hzero⟩
  have hrequests : c'.requests = [⟨[1, 2], 0⟩, ⟨[2], 1⟩] := by
    rw [← Except.ok.inj hall]
    rfl
  rw [hrequests] at hissued
  have hlast : (⟨[2], 1⟩ : SendRequest) ∈ issued := by
    rw [show issued = [⟨[1, 2], 0⟩, ⟨[2], 1⟩] from hissued.symm]
    simp
  exact absurd (hzero rfl _ hlast) (by decide)

end Channel

namespace ChannelWriter

open BufferedWriter

def write (c : Channel) (data : List Byte) : Except ChannelError (Nat × Channel) := c.send data 0

theorem accepting_write : Accepting write Channel.Partial := by
  intro c data hc hne
  obtain ⟨size, hpos, hle, -, hsend⟩ := Channel.send_spec hc hne 0
  exact ⟨size, _, hsend, hpos, hle, hc⟩

theorem feed_wire {c c' : Channel} {chunks : List (List Byte)} {bytes : List Byte} (hc : c.Partial)
    (hne : ∀ chunk ∈ chunks, chunk ≠ []) (h : feed write c chunks = .ok (bytes, c')) : c'.wire = c.wire ++ bytes := by
  induction chunks generalizing c bytes with
  | nil =>
      rw [feed, Except.ok.injEq, Prod.mk.injEq] at h
      rw [← h.1, ← h.2, List.append_nil]
  | cons chunk chunks ih =>
      obtain ⟨size, -, -, -, hsend⟩ := Channel.send_spec hc (hne chunk (List.mem_cons_self ..)) 0
      let c₁ : Channel := { c with
        requests := c.requests ++ [⟨chunk, 0⟩]
        wire := c.wire ++ chunk.take size }
      rw [feed, write, hsend, ok_bind] at h
      change (feed write c₁ chunks >>= _) = _ at h
      cases hrest : feed write c₁ chunks with
      | error e =>
          rw [hrest] at h
          exact absurd h (by simp [bind, Except.bind])
      | ok r =>
          rw [hrest, ok_bind] at h
          obtain ⟨rfl, rfl⟩ := Prod.mk.inj (Except.ok.inj h)
          rw [@ih c₁ r.1 hc (fun chunk' hc' => hne chunk' (List.mem_cons_of_mem _ hc')) hrest, List.append_assoc]

/-- Over a channel, the bytes on the wire are those written if and only if the
kernel takes every chunk at once. -/
theorem wire_iff (size : UInt32) {c : Channel} (hc : c.Partial) {ops : List Op} (hsize : 0 < size.toNat) :
    (∃ w, run size write { sink := c } (ops ++ [.flush]) = .ok w ∧ w.sink.wire = c.wire ++ ops.flatMap Op.data) ↔
      AcceptsAll write c (offers size ops) := by
  have hroom : 0 < size.toNat ∨ ops.flatMap Op.data = [] := .inl hsize
  obtain ⟨w, hrun, hfed, hfilled⟩ := run_feeds accepting_write hc hroom
  obtain ⟨bytes, s', hfeed, -, hiff⟩ := feed_spec accepting_write hc hfilled
  rw [hfed, Except.ok.injEq, Prod.mk.injEq] at hfeed
  rw [← hiff, offers_flatten, ← hfeed.1]
  constructor
  · rintro ⟨w', hrun', hwire⟩
    rw [hrun, Except.ok.injEq] at hrun'
    rwa [← hrun', feed_wire hc hfilled hfed, List.append_right_inj] at hwire
  · intro hall
    exact ⟨w, hrun, by rw [feed_wire hc hfilled hfed, hall]⟩

end ChannelWriter

end Tyrdbs.Io
