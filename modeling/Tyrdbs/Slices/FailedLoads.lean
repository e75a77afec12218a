import Tyrdbs.Slices.NodeLoads
import Tyrdbs.Storage.FailedReads

namespace Tyrdbs.Slices

open Abandoned Outcome Runs Slots Storage

def GetCall.inside (key : NodeKey) (c : GetCall) : Bool :=
  decide (c.key = key) && match c.phase with
    | .returned _ => false
    | _ => true

theorem GetCall.inside_of_ne {key : NodeKey} {c : GetCall} (h : c.key ≠ key) : c.inside key = false := by
  rw [inside, decide_eq_false h, Bool.false_and]

namespace NodeCache

def Action.ends : Action → Option Nat
  | .loadDone id _ => some id
  | _ => none

/-- The load of a call throws: the file cannot be read, or what it holds there
is no node. Nothing is undone in get. -/
inductive Throws : System → Nat → System → Prop
  | mk {s : NodeCache} {id : Nat} {key : NodeKey} {during : Option Nat} :
      s.calls[id]? = some ⟨key, .loading, during⟩ → Throws (.running s) id (.running s)

/-- Nothing is left of calls that have thrown. Where an entry has a value, the
next to come will wait for it. -/
structure Traceless (s : NodeCache) (gone : List Nat) : Prop where
  counted : s.cache ≠ none → ∀ key,
    (s.latch.entries.find key).elim 0 LatchEntry.refCount = present (GetCall.inside key) gone s.calls
  loaded : ∀ key e, s.latch.entries.find key = some e → e.value ≠ none → e.released = false →
    ∃ (i : Nat) (d : Option Nat), i ∉ gone ∧ s.calls[i]? = some ⟨key, .loading, d⟩

def System.Traceless : Course System → Prop
  | ⟨.running s, gone⟩ => NodeCache.Traceless s gone
  | ⟨.stopped _, _⟩ => True

/-- The latch counts the calls inside, all of which load. -/
structure Counted (s : NodeCache) : Prop where
  emptyValue : s.latch.emptyValue = none
  values : ∀ key e, s.latch.entries.find key = some e → e.value = none
  count : s.cache ≠ none → ∀ key,
    (s.latch.entries.find key).elim 0 LatchEntry.refCount = s.calls.countP (GetCall.inside key)
  latchless : s.cache = none → ∀ key, s.latch.entries.find key = none
  quiet : ∀ (i node : Nat) (key : NodeKey) (d : Option Nat), s.calls[i]? ≠ some ⟨key, .waiting node, d⟩

/-- What a step keeps. -/
def Keeps (s s' : NodeCache) : Prop := s'.Counted ∧ (s'.cache = none ↔ s.cache = none)

variable {z : Codec} {s s' : NodeCache} {id : Nat} {key : NodeKey} {c : GetCall}

theorem calls_frame {calls calls' : List GetCall} (h : Replaced calls calls' id c)
    (hold : ∀ b, calls[id]? = some b → b.key = c.key) (hkey : c.key ≠ key) :
    calls'.countP (GetCall.inside key) = calls.countP (GetCall.inside key) := by
  have hcount := h.count (GetCall.inside key)
  rw [GetCall.inside_of_ne hkey, Bool.toNat_false, Nat.add_zero] at hcount
  cases hb : calls[id]? with
  | none => rwa [hb, Option.elim_none, Nat.add_zero] at hcount
  | some b =>
      rwa [hb, Option.elim_some, GetCall.inside_of_ne ((hold b hb).trans_ne hkey), Bool.toNat_false, Nat.add_zero]
        at hcount

theorem Counted.update (h : s.Counted) (hcalls : Replaced s.calls s'.calls id c)
    (hold : ∀ b, s.calls[id]? = some b → b.key = c.key) (hcache : s'.cache = none ↔ s.cache = none)
    (hempty : s'.latch.emptyValue = s.latch.emptyValue)
    (hfind : ∀ k, k ≠ c.key → s'.latch.entries.find k = s.latch.entries.find k)
    (hvalue : ∀ e, s'.latch.entries.find c.key = some e → e.value = none)
    (hcount : s.cache ≠ none → (s'.latch.entries.find c.key).elim 0 LatchEntry.refCount +
      s.calls[id]?.elim 0 (fun b => (b.inside c.key).toNat) =
        (s.latch.entries.find c.key).elim 0 LatchEntry.refCount + (c.inside c.key).toNat)
    (hlatchless : s.cache = none → s'.latch.entries.find c.key = none)
    (hquiet : ∀ node, c.phase ≠ .waiting node) : s.Keeps s' := by
  refine ⟨⟨hempty.trans h.emptyValue, fun k e he => ?_, fun hsome k => ?_, fun hnone k => ?_, fun i node k d hi => ?_⟩,
    hcache⟩
  · by_cases hk : k = c.key
    · exact hvalue e (hk ▸ he)
    · exact h.values k e ((hfind k hk).symm.trans he)
  · have hsome : s.cache ≠ none := fun hnone => hsome (hcache.mpr hnone)
    by_cases hk : k = c.key
    · subst hk
      have hsum := hcalls.count (GetCall.inside c.key)
      have hentry := hcount hsome
      rw [h.count hsome] at hentry
      omega
    · rw [hfind k hk, h.count hsome, calls_frame hcalls hold (Ne.symm hk)]
  · by_cases hk : k = c.key
    · exact hk ▸ hlatchless (hcache.mp hnone)
    · rw [hfind k hk, h.latchless (hcache.mp hnone)]
  · rw [hcalls.get] at hi
    by_cases hid : i = id
    · rw [if_pos hid, Option.some.injEq] at hi
      exact hquiet node (congrArg GetCall.phase hi)
    · rw [if_neg hid] at hi
      exact h.quiet i node k d hi

theorem Counted.push (h : s.Counted) (hcalls : s'.calls = s.calls ++ [c]) (hout : c.inside c.key = false)
    (hcache : s'.cache = none ↔ s.cache = none) (hlatch : s'.latch = s.latch)
    (hquiet : ∀ node, c.phase ≠ .waiting node) : s.Keeps s' := by
  have hlast : s.calls[s.calls.length]? = none := List.getElem?_eq_none (Nat.le_refl _)
  refine h.update (hcalls ▸ replaced_append s.calls c) (fun b hb => ?_) hcache (hlatch ▸ rfl) (fun k _ => hlatch ▸ rfl)
    (fun e he => h.values c.key e (hlatch ▸ he)) (fun _ => ?_) (fun hnone => hlatch ▸ h.latchless hnone c.key) hquiet
  · rw [hlast] at hb
    cases hb
  · rw [hlast, hout, hlatch]
    rfl

theorem Counted.get (h : s.Counted) (key : NodeKey) : Yields (fun _ => True) s.Keeps (s.get key) := by
  have hlast : s.calls[s.calls.length]? = none := List.getElem?_eq_none (Nat.le_refl _)
  cases hc : s.cache with
  | none =>
      rw [get_none hc]
      refine h.update (replaced_append s.calls _) (fun b hb => ?_) Iff.rfl rfl (fun _ _ => rfl)
        (fun e he => h.values key e he) (fun hsome => absurd hc hsome) (fun hnone => h.latchless hnone key) (by simp)
      rw [hlast] at hb
      cases hb
  | some cache =>
      have hstays : ∀ d : Wtinylfu NodeKey (Option Nat), some d = none ↔ s.cache = none := by simp [hc]
      cases hget : cache.get NodeKey.hash key with
      | error fault =>
          rw [NodeCache.get, hc]
          simp only [hget]
          trivial
      | ok r =>
          obtain ⟨found, d⟩ := r
          cases found with
          | some node =>
              rw [get_hit hc hget]
              exact h.push rfl (by simp [GetCall.inside]) (hstays d) rfl (by simp)
          | none =>
              have hvalue : (s.latch.acquire key).1 = none := by
                rw [Latch.acquire]
                cases he : s.latch.entries.find key with
                | none => exact h.emptyValue
                | some e => exact h.values key e he
              rw [get_miss hc hget (Prod.ext hvalue rfl)]
              refine h.update (replaced_append s.calls _) (fun b hb => ?_) (hstays d) rfl (fun k hk => ?_)
                (fun e he => ?_) (fun _ => ?_) (fun hnone => ?_) (by simp)
              · rw [hlast] at hb
                cases hb
              · exact (Latch.find_put ..).trans (if_neg hk)
              · have he : (s.latch.put key _).entries.find key = some e := he
                rw [Latch.find_put, if_pos rfl, Option.some.injEq] at he
                subst he
                exact hvalue
              · change ((s.latch.put key _).entries.find key).elim 0 _ + _ = _
                rw [Latch.find_put, if_pos rfl, hlast]
                cases he : s.latch.entries.find key <;> simp [GetCall.inside]
              · rw [hc] at hnone
                cases hnone

section LoadDone

variable {d : Option Nat} {node : Node}

theorem loadDone_notLast {cache : Wtinylfu NodeKey (Option Nat)} {e : LatchEntry (Option Nat)}
    (hc : s.cache = some cache) (he : s.latch.entries.find key = some e) (hpos : e.refCount ≠ 0)
    (hlast : e.refCount - 1 ≠ 0) :
    s.loadDone id key node = .ok { s with
      nodes := s.nodes ++ [node]
      latch := s.latch.put key { e with released := true, cond := [], refCount := e.refCount - 1 }
      runQueue := s.runQueue ++ e.cond
      calls := (s.calls.modify id (fun b => { b with phase := .leaving s.nodes.length })).modify id
        (fun b => { b with phase := .returned s.nodes.length }) } := by
  have hput : (s.latch.put key { e with released := true, cond := [] }).entries.find key =
      some { e with released := true, cond := [] } := by rw [Latch.find_put, if_pos rfl]
  rw [loadDone]
  simp only [hc, Latch.release, Latch.entry_eq he, ok_bind]
  change leave _ _ _ _ = _
  rw [leave]
  simp only [setPhase, Latch.remove, Latch.entry_eq hput, ok_bind, check_of hpos, if_neg hlast, Latch.put_put]
  rfl

theorem Counted.loadDone (h : s.Counted) (hi : s.calls[id]? = some ⟨key, .loading, d⟩) (node : Node) :
    Yields (fun _ => True) s.Keeps (s.loadDone id key node) := by
  have hold : ∀ b, s.calls[id]? = some b → b.key = key := by
    intro b hb
    rw [hi, Option.some.injEq] at hb
    rw [← hb]
  have hin : GetCall.inside key ⟨key, .loading, d⟩ = true := by simp [GetCall.inside]
  have hout : ∀ n, GetCall.inside key ⟨key, .returned n, d⟩ = false := by simp [GetCall.inside]
  cases hc : s.cache with
  | none =>
      rw [loadDone_none hc]
      exact h.update (replaced_modify hi _) hold Iff.rfl rfl (fun _ _ => rfl) (fun e he => h.values key e he)
        (fun hsome => absurd hc hsome) (fun hnone => h.latchless hnone key) (by simp)
  | some cache =>
      have hsome : s.cache ≠ none := by simp [hc]
      have hstays : ∀ c : Wtinylfu NodeKey (Option Nat), some c = none ↔ s.cache = none := by simp [hc]
      have hpresent : 0 < s.calls.countP (GetCall.inside key) :=
        List.countP_pos_iff.mpr ⟨_, List.mem_of_getElem? hi, hin⟩
      rw [← h.count hsome] at hpresent
      cases he : s.latch.entries.find key with
      | none =>
          rw [he] at hpresent
          exact absurd hpresent (Nat.lt_irrefl 0)
      | some e =>
          rw [he, Option.elim_some] at hpresent
          by_cases hlast : e.refCount - 1 = 0
          · rw [loadDone_last hc he (by omega)]
            refine (yields_true _).bind (fun r _ => ?_)
            refine h.update (calls_done hi s.nodes.length) hold (hstays r.2) rfl (fun k hk => ?_) (fun e' he' => ?_)
              (fun _ => ?_) (fun hnone => absurd hnone hsome) (by simp)
            · change ((s.latch.entries.put key _).erase key).find k = _
              rw [Table.find_erase, if_neg hk, Table.find_put, if_neg hk]
            · have he' : ((s.latch.entries.put key _).erase key).find key = some e' := he'
              rw [Table.find_erase, if_pos rfl] at he'
              cases he'
            · change (((s.latch.entries.put key _).erase key).find key).elim 0 _ + _ = _
              rw [Table.find_erase, if_pos rfl, hi, he, Option.elim_none, Option.elim_some, Option.elim_some, hin,
                hout, Bool.toNat_true, Bool.toNat_false]
              omega
          · rw [loadDone_notLast hc he hpresent.ne' hlast]
            refine h.update (calls_done hi s.nodes.length) hold Iff.rfl rfl (fun k hk => ?_) (fun e' he' => ?_)
              (fun _ => ?_) (fun hnone => absurd hnone hsome) (by simp)
            · exact (Latch.find_put ..).trans (if_neg hk)
            · have he' : (s.latch.put key _).entries.find key = some e' := he'
              rw [Latch.find_put, if_pos rfl, Option.some.injEq] at he'
              subst he'
              exact h.values key e he
            · change ((s.latch.put key _).entries.find key).elim 0 _ + _ = _
              rw [Latch.find_put, if_pos rfl, hi, he, Option.elim_some, Option.elim_some, Option.elim_some, hin, hout,
                Bool.toNat_true, Bool.toNat_false]
              change e.refCount - 1 + 1 = e.refCount + 0
              omega

end LoadDone

theorem Counted.apply {a : Action} (h : s.Counted) (ha : Admits z s a) :
    Yields (fun _ => True) s.Keeps (s.apply a) := by
  cases a with
  | get key => exact h.get key
  | loadDone id node =>
      obtain ⟨key, d, _, hi, _⟩ := ha
      rw [NodeCache.apply, hi]
      exact h.loadDone hi node
  | resume id =>
      obtain ⟨_, key, node, d, hi⟩ := ha
      exact absurd hi (h.quiet id node key d)

/-- Whether there is a node cache never changes. -/
def System.Kept (on : Bool) : System → Prop
  | .running s => s.Counted ∧ s.cache.isSome = on
  | .stopped _ => True

theorem step_kept {v w : System} {a : Action} {on : Bool} (hv : v.Kept on) (hs : Step z v a w) : w.Kept on := by
  cases hs with
  | mk s a ha =>
      obtain ⟨hcounted, hon⟩ := hv
      have hkeeps := hcounted.apply ha
      cases happly : s.apply a with
      | error stop => trivial
      | ok s' =>
          rw [happly] at hkeeps
          refine ⟨hkeeps.1, ?_⟩
          rw [← hon, Bool.eq_iff_iff, Option.isSome_iff_ne_none, Option.isSome_iff_ne_none]
          exact not_congr hkeeps.2

theorem Counted.traceless (h : s.Counted) : s.Traceless [] := by
  refine ⟨fun hsome key => ?_, fun key e he hvalue _ => absurd (h.values key e he) hvalue⟩
  rw [present_nil, h.count hsome]

theorem Counted.traceless_off (h : s.Counted) (hc : s.cache = none) (gone : List Nat) : s.Traceless gone := by
  refine ⟨fun hsome => absurd hc hsome, fun key e he => ?_⟩
  rw [h.latchless hc key] at he
  cases he

theorem Counted.traces (h : s.Counted) (hsome : s.cache ≠ none) {d : Option Nat}
    (hi : s.calls[id]? = some ⟨key, .loading, d⟩) : ¬ s.Traceless [id] := by
  intro htraceless
  have hcounted := htraceless.counted hsome key
  have hfewer : present (GetCall.inside key) [id] s.calls + 1 = s.calls.countP (GetCall.inside key) :=
    present_singleton (by simp [GetCall.inside]) hi
  rw [← h.count hsome key, hcounted] at hfewer
  omega

section Initial

variable {clzOfZero : UInt32} {cacheBits : Nat} {files : UInt64 → List Byte}
  {ts : List (Course System × Act Action × Course System)} {u : Course System}

theorem initial_kept : (System.running (initial clzOfZero cacheBits files)).Kept (decide (cacheBits ≠ 0)) := by
  refine ⟨⟨rfl, fun key e he => ?_, fun _ key => rfl, fun _ key => rfl, fun i node key d hi => ?_⟩, ?_⟩
  · exact absurd he (by simp [initial])
  · exact absurd hi (by simp [initial])
  · by_cases hbits : cacheBits = 0 <;> simp [initial, hbits]

theorem loads_traceless_iff (hrun : Run (Abandoned.Step (Step z) Throws Action.ends)
    ⟨.running (initial clzOfZero cacheBits files), []⟩ ts u) :
    (∀ v ∈ visited ⟨.running (initial clzOfZero cacheBits files), []⟩ ts, System.Traceless v) ↔
      cacheBits = 0 ∨ ∀ t ∈ ts, t.2.1.abandons = false := by
  have hinit := @initial_kept clzOfZero cacheBits files
  by_cases hbits : cacheBits = 0
  · refine iff_of_true (fun v hv => ?_) (Or.inl hbits)
    have hkept := visited_invariant hrun (fun v => v.inner.Kept false) (by simpa [hbits] using hinit)
      (fun v a w _ hv hs _ => step_kept hv hs) (fun v id w _ hv ht _ => by cases ht; exact hv) v hv
    obtain ⟨inner, gone⟩ := v
    cases inner with
    | running s =>
        have hnone := Option.isNone_iff_eq_none.mp (Option.isSome_eq_false_iff.mp hkept.2)
        exact Counted.traceless_off hkept.1 hnone gone
    | stopped stop => trivial
  · rw [or_iff_right hbits]
    refine unabandoned_iff hrun (System.Kept true) System.Traceless (by simpa [hbits] using hinit)
      (fun v a w hv hs => step_kept hv hs) (fun v hv => ?_) (fun v id w hv ht => ?_)
    · cases v with
      | running s => exact Counted.traceless hv.1
      | stopped stop => trivial
    · cases ht with
      | mk hi => exact Counted.traces hv.1 (Option.isSome_iff_ne_none.mp hv.2) hi

end Initial

/-- In a run of any number of readers, in any order, failed loads leave no trace
exactly when no disk read throws, and for nodes when there is no node cache or
no load throws. -/
theorem failed_loads_traceless_iff {z : Codec} {diskPageOf : UInt64 → Nat} {clzOfZero : UInt32} {cacheBits nodeBits : Nat}
    {image memory : Nat → Page} {files : UInt64 → List Byte} (h7 : 7 ≤ cacheBits) (h32 : cacheBits < 32) :
    (∀ ts u, Run (Abandoned.Step (DiskReader.Step diskPageOf) DiskReader.Throws DiskReader.Action.ends)
      ⟨.running (DiskReader.initial clzOfZero cacheBits image memory), []⟩ ts u →
        ((∀ v ∈ visited ⟨.running (DiskReader.initial clzOfZero cacheBits image memory), []⟩ ts,
          DiskReader.System.Traceless v) ↔ ∀ t ∈ ts, t.2.1.abandons = false)) ∧
    (∀ ts u, Run (Abandoned.Step (Step z) Throws Action.ends) ⟨.running (initial clzOfZero nodeBits files), []⟩ ts u →
      ((∀ v ∈ visited ⟨.running (initial clzOfZero nodeBits files), []⟩ ts, System.Traceless v) ↔
        nodeBits = 0 ∨ ∀ t ∈ ts, t.2.1.abandons = false)) :=
  ⟨fun _ _ hrun => DiskReader.reads_traceless_iff h7 h32 hrun, fun _ _ hrun => loads_traceless_iff hrun⟩

section Concrete

theorem run_throws : ∃ ts u, Run (Abandoned.Step (Step blank) Throws Action.ends)
    ⟨.running (initial 0 7 blankFiles), []⟩ ts u ∧ ∃ t ∈ ts, t.2.1.abandons = true := by
  have hload : loadingFirst.calls[0]? = some ⟨firstKey, .loading, none⟩ := rfl
  obtain ⟨ts, hrun, hthrows⟩ := run_abandon run_started (Throws.mk hload)
  exact ⟨ts, _, hrun, hthrows⟩

theorem failed_loads_traceless_iff_first :
    (∃ ts u, (Run (Abandoned.Step (DiskReader.Step (fun key => key.toNat % 2 ^ filePagesBits)) DiskReader.Throws
      DiskReader.Action.ends) ⟨DiskReader.small, []⟩ ts u ∧ ∃ t ∈ ts, t.2.1.abandons = true) ∧
        ((∀ v ∈ visited ⟨DiskReader.small, []⟩ ts, DiskReader.System.Traceless v) ↔
          ∀ t ∈ ts, t.2.1.abandons = false)) ∧
    (∃ ts u, (Run (Abandoned.Step (Step blank) Throws Action.ends) ⟨.running (initial 0 7 blankFiles), []⟩ ts u ∧
      ∃ t ∈ ts, t.2.1.abandons = true) ∧
        ((∀ v ∈ visited ⟨.running (initial 0 7 blankFiles), []⟩ ts, System.Traceless v) ↔
          7 = 0 ∨ ∀ t ∈ ts, t.2.1.abandons = false)) := by
  obtain ⟨ts, u, hrun, hthrows⟩ := DiskReader.run_throws
  obtain ⟨ts', u', hrun', hthrows'⟩ := run_throws
  have hiff := @failed_loads_traceless_iff blank (fun key => key.toNat % 2 ^ filePagesBits) 0 7 7
    (fun _ => DiskReader.emptyPage) (fun _ => DiskReader.emptyPage) blankFiles (by decide) (by decide)
  exact ⟨⟨ts, u, ⟨hrun, hthrows⟩, hiff.1 ts u hrun⟩, ts', u', ⟨hrun', hthrows'⟩, hiff.2 ts' u' hrun'⟩

/-- A disk read that throws leaves its trace, and so does the load of a node. -/
theorem not_traceless_first :
    (¬ ∀ (diskPageOf : UInt64 → Nat) (clzOfZero : UInt32) (cacheBits : Nat) (image memory : Nat → Page)
      (ts : List (Course DiskReader.System × Act DiskReader.Action × Course DiskReader.System))
      (u : Course DiskReader.System), 7 ≤ cacheBits → cacheBits < 32 →
      Run (Abandoned.Step (DiskReader.Step diskPageOf) DiskReader.Throws DiskReader.Action.ends)
        ⟨.running (DiskReader.initial clzOfZero cacheBits image memory), []⟩ ts u →
      ∀ v ∈ visited ⟨.running (DiskReader.initial clzOfZero cacheBits image memory), []⟩ ts,
        DiskReader.System.Traceless v) ∧
    (¬ ∀ (z : Codec) (clzOfZero : UInt32) (nodeBits : Nat) (files : UInt64 → List Byte)
      (ts : List (Course System × Act Action × Course System)) (u : Course System),
      7 ≤ nodeBits → nodeBits < 32 →
      Run (Abandoned.Step (Step z) Throws Action.ends) ⟨.running (initial clzOfZero nodeBits files), []⟩ ts u →
      ∀ v ∈ visited ⟨.running (initial clzOfZero nodeBits files), []⟩ ts, System.Traceless v) := by
  constructor
  · intro h
    obtain ⟨ts, u, hrun, t, ht, hthrows⟩ := DiskReader.run_throws
    have hnone := (DiskReader.reads_traceless_iff (by decide) (by decide) hrun).mp
      (h _ 0 7 _ _ ts u (by decide) (by decide) hrun) t ht
    rw [hnone] at hthrows
    cases hthrows
  · intro h
    obtain ⟨ts, u, hrun, t, ht, hthrows⟩ := run_throws
    have hnone := ((loads_traceless_iff hrun).mp (h _ 0 7 _ ts u (by decide) (by decide) hrun)).resolve_left
      (by decide) t ht
    rw [hnone] at hthrows
    cases hthrows

end Concrete

end NodeCache

end Tyrdbs.Slices
