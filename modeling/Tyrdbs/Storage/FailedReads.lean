import Tyrdbs.Library.Abandoned
import Tyrdbs.Storage.DiskReaderRuns

namespace Tyrdbs.Storage.DiskReader

open Abandoned Outcome Runs Slots

variable {diskPageOf : UInt64 → Nat} {s : DiskReader} {total id page diskPage : Nat} {key : UInt64}

def Action.ends : Action → Option Nat
  | .readDone id => some id
  | _ => none

/-- The disk read of a call throws, whatever it has put in the page. The
exception leaves read, where nothing is undone. -/
inductive Throws : System → Nat → System → Prop
  | mk {s : DiskReader} {id page diskPage : Nat} {key : UInt64} (bytes : Page) :
      s.calls[id]? = some ⟨key, .reading page diskPage⟩ →
        Throws (.running s) id (.running { s with memory := Function.update s.memory page bytes })

/-- Nothing is left of calls that have thrown: references to latch entries are
those of the calls inside, whose pages are the only ones that are neither free
nor cached, and whoever waits for a latch waits for a call that reads. -/
structure Traceless (s : DiskReader) (gone : List Nat) : Prop where
  counted : ∀ key, (s.latch.entries.find key).elim 0 LatchEntry.refCount = present (Call.inside key) gone s.calls
  pages : ∀ free, s.cache.pages.Holds free → ∀ page ∈ s.cache.pages.all, page ∈ free ∨ page ∈ s.cache.cached ∨
    ∃ (i : Nat) (c : Call), i ∉ gone ∧ s.calls[i]? = some c ∧ c.inside c.key = true ∧ c.page = page
  loaded : ∀ key e, s.latch.entries.find key = some e → e.released = false →
    ∃ i page d : Nat, i ∉ gone ∧ s.calls[i]? = some ⟨key, .reading page d⟩

def System.Traceless : Course System → Prop
  | ⟨.running s, gone⟩ => DiskReader.Traceless s gone
  | ⟨.stopped _, _⟩ => True

theorem Inv.traceless (h : s.Inv diskPageOf total) : s.Traceless [] := by
  refine ⟨fun key => ?_, fun free hfree page hpage => ?_, fun key e he hr => ?_⟩
  · rw [present_nil]
    exact (h.keys key).count.symm
  · obtain ⟨free', hfree', hsplit⟩ := h.owned.split
    rw [hsplit, hfree'.unique hfree] at hpage
    rcases Multiset.mem_add.mp hpage with hpage | hheld
    · exact (Multiset.mem_add.mp hpage).imp_right Or.inl
    · obtain ⟨e, he, rfl⟩ := Multiset.mem_map.mp hheld
      obtain ⟨⟨key, e'⟩, hentry, rfl⟩ := List.mem_map.mp he
      have hfind : s.latch.entries.find key = some e' := Table.find_eq_some.mpr hentry
      have hcount := (h.keys key).count
      rw [hfind, Option.elim_some] at hcount
      have hpos : 0 < s.calls.countP (Call.inside key) := hcount ▸ ((h.keys key).entry e' hfind).positive
      obtain ⟨c, hc, hin⟩ := List.countP_pos_iff.mp hpos
      obtain ⟨i, hi⟩ := List.getElem?_of_mem hc
      have hkey : c.key = key := of_decide_eq_true (Bool.and_eq_true_iff.mp hin).1
      subst hkey
      obtain ⟨e'', he'', hv⟩ := h.inside_entry hi hin
      rw [hfind, Option.some.injEq] at he''
      exact Or.inr (Or.inr ⟨i, c, List.not_mem_nil, hi, hin, he'' ▸ hv.symm⟩)
  · obtain ⟨i, d, hi⟩ := ((h.keys key).entry e he).reader hr
    exact ⟨i, e.value, d, List.not_mem_nil, hi⟩

theorem Inv.traces (h : s.Inv diskPageOf total) (hi : s.calls[id]? = some ⟨key, .reading page diskPage⟩) (bytes : Page) :
    ¬ Traceless { s with memory := Function.update s.memory page bytes } [id] := by
  intro htraceless
  have hcounted : (s.latch.entries.find key).elim 0 LatchEntry.refCount = present (Call.inside key) [id] s.calls :=
    htraceless.counted key
  have hfewer : present (Call.inside key) [id] s.calls + 1 = s.calls.countP (Call.inside key) :=
    present_singleton (by simp [Call.inside]) hi
  rw [(h.keys key).count, hcounted] at hfewer
  omega

/-- All is well unless the program has stopped. -/
def System.Kept (diskPageOf : UInt64 → Nat) (total : Nat) : System → Prop
  | .running s => DiskReader.Inv diskPageOf s total
  | .stopped _ => True

theorem step_kept {v w : System} {a : Action} (hv : v.Kept diskPageOf total) (hs : Step diskPageOf v a w) :
    w.Kept diskPageOf total := by
  cases hs with
  | mk s a ha =>
      by_cases hfits : Fits total (.running s) a
      · have hinv := step_inv hv ha hfits
        cases happly : s.apply a with
        | ok s' => rwa [happly] at hinv
        | error stop => trivial
      · cases a with
        | read cacheId filePage extents =>
            rw [apply, read_fails hv ha hfits]
            trivial
        | readDone | resume => exact absurd trivial hfits

section Latecomers

theorem Inv.torn (h : s.Inv diskPageOf total) (hi : s.calls[id]? = some ⟨key, .reading page diskPage⟩) (bytes : Page) :
    Inv diskPageOf { s with memory := Function.update s.memory page bytes } total := by
  obtain ⟨e, he, hvalue, hreleased, _⟩ := (h.keys key).calls id _ hi rfl
  have he : s.latch.entries.find key = some e := he
  have hcached : ∀ k p, s.resident k p → p ≠ page := by
    intro k p hp heq
    refine h.owned.not_cached (h.value_held he) ?_
    exact (heq.trans hvalue.symm) ▸ Multiset.mem_map_of_mem Prod.snd hp
  refine ⟨h.owned, h.size, h.emptyValue, fun k => ?_⟩
  have hk' := h.keys k
  by_cases hk : k = key
  · subst hk
    refine ⟨hk'.count, fun f hf => ?_, hk'.calls, hk'.oneReader, fun p hp => ?_, hk'.counts⟩
    · have hentry := hk'.entry f hf
      refine ⟨hentry.nonzero, hentry.absent, hentry.positive, fun hr => ?_, hentry.queue, hentry.reader⟩
      have hf : s.latch.entries.find k = some f := hf
      rw [he, Option.some.injEq] at hf
      rw [← hf, hreleased] at hr
      cases hr
    · exact (Function.update_of_ne (hcached k p hp) ..).trans (hk'.cached p hp)
  · refine hk'.frame ⟨rfl, fun _ _ _ => Iff.rfl, rfl, fun _ hp => hp, fun p hp => ?_, fun _ _ _ hq => hq, rfl, rfl, rfl⟩
    refine Function.update_of_ne ?_ ..
    rcases hp with hp | ⟨f, hf, rfl⟩
    · exact hcached k p hp
    · exact hvalue ▸ h.values_ne hk he hf

/-- Who comes while a page is read waits. -/
def Queued (s : DiskReader) : Prop :=
  ∀ (id : Nat) (key : UInt64) (p d : Nat), s.calls[id]? = some ⟨key, .reading p d⟩ →
    ∀ (j : Nat) (c : Call), id < j → s.calls[j]? = some c → c.key = key → ∃ q, c.phase = .waiting q

/-- One call came or went on: it reads only if it is new, and returns only if
nobody else reads its page. -/
structure Moved (s s' : DiskReader) (i : Nat) (c : Call) : Prop where
  calls : Replaced s.calls s'.calls i c
  reading : ∀ p d, c.phase = .reading p d → i = s.calls.length
  returned : ∀ p b, c.phase = .returned p b → ∀ id q d : Nat, id ≠ i → s.calls[id]? ≠ some ⟨c.key, .reading q d⟩

theorem Moved.queued {s' : DiskReader} {i : Nat} {c : Call} (hm : Moved s s' i c) (h : s.Queued)
    (hinv : s'.Inv diskPageOf total) : s'.Queued := by
  intro id key p d hid j b hj hb hkey
  rcases eq_or_ne id i with rfl | hne
  · -- a call that begins to read is the last
    rw [hm.calls.get_self, Option.some.injEq] at hid
    have hlast := hm.reading p d (congrArg Call.phase hid)
    rw [hm.calls.get_of_ne hj.ne', List.getElem?_eq_none (hlast ▸ hj.le)] at hb
    cases hb
  · have hold := hid
    rw [hm.calls.get_of_ne hne] at hold
    rcases eq_or_ne j i with rfl | hne'
    · obtain ⟨e, he, _, hreleased, _⟩ := (hinv.keys key).calls id _ hid rfl
      have he : s'.latch.entries.find key = some e := he
      obtain rfl : b = c := Option.some.inj (hb.symm.trans hm.calls.get_self)
      have hc := (hinv.keys key).calls j b hb hkey
      obtain ⟨k, phase⟩ := b
      obtain rfl : k = key := hkey
      cases phase with
      | reading q d' => exact absurd ((hinv.keys k).oneReader id j p q d d' hid hb) hne
      | waiting q => exact ⟨q, rfl⟩
      | leaving q =>
          obtain ⟨e', he', _, hr⟩ := hc
          rw [he, Option.some.injEq] at he'
          rw [← he', hreleased] at hr
          cases hr
      | returned q b => exact absurd hold (hm.returned q b rfl id p d hne)
    · rw [hm.calls.get_of_ne hne'] at hb
      exact h id key p d hold j b hj hb hkey

theorem leave_calls (s : DiskReader) (id : Nat) (key : UInt64) (page : Nat) :
    Yields (fun _ => True) (fun s' => s'.calls = s.calls.set id ⟨key, .returned page (s.memory page)⟩)
      (s.leave id key page) := by
  rw [leave]
  refine (Outcome.yields_true _).bind (fun r _ => ?_)
  change Yields _ _ (if r.1 = true then _ else _)
  split
  · exact (Outcome.yields_true _).bind (fun cache _ => rfl)
  · rfl

/-- A call that enters wait_for waits or returns, the latter with its entry
released. -/
theorem waitFor_calls (s : DiskReader) (id : Nat) (key : UInt64) (page : Nat) :
    Yields (fun _ => True) (fun s' => s'.calls = s.calls.set id ⟨key, .waiting page⟩ ∨
      (∃ e, s.latch.entries.find key = some e ∧ e.released = true) ∧
        ∃ b, s'.calls = (s.calls.set id ⟨key, .leaving page⟩).set id ⟨key, .returned page b⟩)
      (s.waitFor id key page) := by
  cases he : s.latch.entries.find key with
  | none =>
      rw [waitFor, Latch.mustWait, Latch.entry, he]
      trivial
  | some e =>
      cases hr : e.released with
      | true =>
          rw [waitFor_released he hr]
          exact (leave_calls _ id key page).mono (fun s' hs' => Or.inr ⟨⟨e, rfl, hr⟩, _, hs'⟩)
      | false =>
          rw [waitFor_unreleased he hr]
          exact Or.inl rfl

theorem Inv.unread_of_released (h : s.Inv diskPageOf total) {e : LatchEntry Nat}
    (he : s.latch.entries.find key = some e) (hr : e.released = true) (i q d : Nat) :
    s.calls[i]? ≠ some ⟨key, .reading q d⟩ := by
  intro hi
  obtain ⟨e', he', _, hreleased, _⟩ := (h.keys key).calls i _ hi rfl
  have he' : s.latch.entries.find key = some e' := he'
  rw [he, Option.some.injEq] at he'
  rw [← he', hr] at hreleased
  cases hreleased

theorem Inv.unread_of_resident (h : s.Inv diskPageOf total) (hp : s.resident key page) (i q d : Nat) :
    s.calls[i]? ≠ some ⟨key, .reading q d⟩ := by
  intro hi
  obtain ⟨e, he, _⟩ := (h.keys key).calls i _ hi rfl
  exact ((h.keys key).entry e he).absent page hp

/-- What became of one call, whose disk read has not been given up. -/
def MovesCall (s : DiskReader) (a : Action) (s' : DiskReader) : Prop :=
  ∃ i c, Moved s s' i c ∧
    ∀ (id q d : Nat) (k : UInt64), s.calls[id]? = some ⟨k, .reading q d⟩ → a.ends ≠ some id → id ≠ i

theorem Inv.read_moves {cacheId : UInt64} {filePage : UInt32} {extents : List Nat} (h : s.Inv diskPageOf total)
    (ha : Admits diskPageOf s (.read cacheId filePage extents)) :
    Yields (fun _ => True) (s.MovesCall (.read cacheId filePage extents)) (s.read cacheId filePage extents) := by
  obtain ⟨hfile, hkey, _⟩ := ha
  have hlast : ∀ (id q d : Nat) (k : UInt64), s.calls[id]? = some ⟨k, .reading q d⟩ →
      Action.ends (.read cacheId filePage extents) ≠ some id → id ≠ s.calls.length :=
    fun id q d k hid _ => ((List.getElem?_eq_some_iff.mp hid).1).ne
  obtain ⟨⟨p, cache⟩, hget, _, _, _, hcases⟩ := (PageCache.get_yields h.owned hkey).exists_ok
  by_cases hp : p = invalidHandle
  · subst hp
    cases he : s.latch.entries.find (keyOf cacheId filePage) with
    | none =>
        rw [read_new hfile hget he h.emptyValue]
        refine (Outcome.yields_true _).bind (fun r _ => ?_)
        exact ⟨_, _, ⟨replaced_append s.calls _, fun _ _ _ => rfl, by simp⟩, hlast⟩
    | some e =>
        have hvalid : e.value ≠ invalidHandle := h.owned.valid (h.owned.held_mem (h.value_held he))
        have hrep := replaced_append s.calls ⟨keyOf cacheId filePage, .leaving e.value⟩
        rw [read_join hfile hget he hvalid]
        refine (waitFor_calls _ _ _ _).mono (fun s' hs' => ?_)
        rcases hs' with hwaits | ⟨⟨e', he', hr⟩, b, hreturns⟩
        · refine ⟨_, ⟨keyOf cacheId filePage, .waiting e.value⟩, ⟨?_, by simp, by simp⟩, hlast⟩
          rw [hwaits]
          exact hrep.trans (replaced_set hrep.get_self _)
        · have he' : (s.latch.put _ _).entries.find (keyOf cacheId filePage) = some e' := he'
          rw [Latch.find_put, if_pos rfl, Option.some.injEq] at he'
          subst he'
          refine ⟨_, ⟨keyOf cacheId filePage, .returned e.value b⟩,
            ⟨?_, by simp, fun _ _ _ i q d _ => h.unread_of_released he hr i q d⟩, hlast⟩
          have hleft := hrep.trans (replaced_set hrep.get_self ⟨keyOf cacheId filePage, .leaving e.value⟩)
          rw [hreturns]
          exact hleft.trans (replaced_set hleft.get_self ⟨keyOf cacheId filePage, .returned e.value b⟩)
  · have hmem : s.resident (keyOf cacheId filePage) p := hcases.resolve_left (fun hnone => hp hnone.1)
    rw [read_hit hfile hget hp]
    exact ⟨_, _, ⟨replaced_append s.calls _, by simp, fun _ _ _ i q d _ => h.unread_of_resident hmem i q d⟩, hlast⟩

theorem Inv.moves {a : Action} (h : s.Inv diskPageOf total) (ha : Admits diskPageOf s a) :
    Yields (fun _ => True) (s.MovesCall a) (s.apply a) := by
  cases a with
  | read cacheId filePage extents => exact h.read_moves ha
  | readDone id =>
      obtain ⟨key, page, d, hc⟩ := ha
      rw [apply, hc]
      refine (Outcome.yields_true _).bind (fun r _ => (leave_calls _ id key page).mono (fun s' hs' => ?_))
      have hleft := replaced_set hc ⟨key, .leaving page⟩
      have hback := hs' ▸ hleft.trans (replaced_set hleft.get_self _)
      refine ⟨id, _, ⟨hback, by simp, fun _ _ _ i q d' hne hi => ?_⟩, fun i q d' k hi hends heq => ?_⟩
      · exact hne ((h.keys key).oneReader i id q page d' d hi hc)
      · exact hends (congrArg some heq.symm)
  | resume id =>
      obtain ⟨_, key, page, hc⟩ := ha
      rw [apply, hc]
      refine (waitFor_calls _ id key page).mono (fun s' hs' => ?_)
      have hwas : ∀ (i q d : Nat) (k : UInt64), s.calls[i]? = some ⟨k, .reading q d⟩ →
          Action.ends (.resume id) ≠ some i → i ≠ id := by
        rintro i q d k hi _ rfl
        rw [hc, Option.some.injEq] at hi
        cases hi
      rcases hs' with hwaits | ⟨⟨e, he, hr⟩, b, hreturns⟩
      · refine ⟨id, ⟨key, .waiting page⟩, ⟨?_, by simp, by simp⟩, hwas⟩
        rw [hwaits]
        exact replaced_set hc ⟨key, .waiting page⟩
      · refine ⟨id, ⟨key, .returned page b⟩, ⟨?_, by simp,
          fun _ _ _ i q d _ => h.unread_of_released he hr i q d⟩, hwas⟩
        have hleft := replaced_set hc ⟨key, .leaving page⟩
        rw [hreturns]
        exact hleft.trans (replaced_set hleft.get_self ⟨key, .returned page b⟩)

end Latecomers

section Initial

variable {clzOfZero : UInt32} {cacheBits : Nat} {image memory : Nat → Page}

theorem reads_traceless_iff (h7 : 7 ≤ cacheBits) (h32 : cacheBits < 32)
    {ts : List (Course System × Act Action × Course System)} {u : Course System}
    (hrun : Run (Abandoned.Step (Step diskPageOf) Throws Action.ends)
      ⟨.running (initial clzOfZero cacheBits image memory), []⟩ ts u) :
    (∀ v ∈ visited ⟨.running (initial clzOfZero cacheBits image memory), []⟩ ts, System.Traceless v) ↔
      ∀ t ∈ ts, t.2.1.abandons = false := by
  refine unabandoned_iff hrun (System.Kept diskPageOf (2 ^ cacheBits)) System.Traceless (initial_inv h7 h32)
    (fun v a w hv hs => step_kept hv hs) (fun v hv => ?_) (fun v id w hv ht => ?_)
  · cases v with
    | running s => exact Inv.traceless hv
    | stopped stop => trivial
  · cases ht with
    | mk bytes hi => exact Inv.traces hv hi bytes

/-- A call that has thrown is found reading ever after. -/
def Stuck (s : DiskReader) (gone : List Nat) : Prop :=
  ∀ id ∈ gone, ∃ (key : UInt64) (page d : Nat), s.calls[id]? = some ⟨key, .reading page d⟩

def System.Waited (diskPageOf : UInt64 → Nat) (total : Nat) : Course System → Prop
  | ⟨.running s, gone⟩ => s.Inv diskPageOf total ∧ s.Queued ∧ s.Stuck gone
  | ⟨.stopped _, _⟩ => True

theorem initial_waited (h7 : 7 ≤ cacheBits) (h32 : cacheBits < 32) :
    System.Waited diskPageOf (2 ^ cacheBits) ⟨.running (initial clzOfZero cacheBits image memory), []⟩ := by
  refine ⟨initial_inv h7 h32, fun id key p d hi => ?_, fun id hid => ?_⟩
  · exact absurd hi (by simp [initial])
  · exact absurd hid List.not_mem_nil

theorem step_waited {v w : System} {a : Action} {gone : List Nat} (hv : System.Waited diskPageOf total ⟨v, gone⟩)
    (hs : Step diskPageOf v a w) (hends : ∀ id ∈ gone, a.ends ≠ some id) :
    System.Waited diskPageOf total ⟨w, gone⟩ := by
  have hkept : ∀ s, v = .running s → v.Kept diskPageOf total := by
    rintro s rfl
    exact hv.1
  cases hs with
  | mk s a ha =>
      obtain ⟨hinv, hqueued, hstuck⟩ := hv
      have hafter := step_kept (hkept s rfl) (Step.mk s a ha)
      have hmoves := hinv.moves ha
      cases happly : s.apply a with
      | error stop => trivial
      | ok s' =>
          rw [happly] at hafter hmoves
          obtain ⟨i, c, hm, hothers⟩ := hmoves
          have hinv' : s'.Inv diskPageOf total := hafter
          refine ⟨hinv', hm.queued hqueued hinv', fun id hid => ?_⟩
          obtain ⟨key, page, d, hc⟩ := hstuck id hid
          exact ⟨key, page, d, (hm.calls.get_of_ne (hothers id page d key hc (hends id hid))).trans hc⟩

/-- After a disk read has thrown, whoever asks for the page waits for ever: in no
later state of a run, whatever happens in it, is the latch entry released or has
one of them gone on. -/
theorem latecomers_wait (h7 : 7 ≤ cacheBits) (h32 : cacheBits < 32)
    {ts : List (Course System × Act Action × Course System)} {u : Course System}
    (hrun : Run (Abandoned.Step (Step diskPageOf) Throws Action.ends)
      ⟨.running (initial clzOfZero cacheBits image memory), []⟩ ts u) {s : DiskReader} {gone : List Nat} {id : Nat}
    (hv : ⟨.running s, gone⟩ ∈ visited ⟨.running (initial clzOfZero cacheBits image memory), []⟩ ts) (hid : id ∈ gone) :
    ∃ (key : UInt64) (e : LatchEntry Nat), s.latch.entries.find key = some e ∧ e.released = false ∧
      ∀ (j : Nat) (c : Call), id < j → s.calls[j]? = some c → c.key = key → ∃ page, c.phase = .waiting page := by
  have hwaited := visited_invariant hrun (System.Waited diskPageOf (2 ^ cacheBits)) (initial_waited h7 h32)
    (fun v a w gone hv hs hends => step_waited hv hs hends) (fun v id w gone hv ht _ => ?_) _ hv
  · obtain ⟨hinv, hqueued, hstuck⟩ := hwaited
    obtain ⟨key, page, d, hc⟩ := hstuck id hid
    obtain ⟨e, he, _, hreleased, _⟩ := (hinv.keys key).calls id _ hc rfl
    exact ⟨key, e, he, hreleased, hqueued id key page d hc⟩
  · cases ht with
    | mk bytes hi =>
        obtain ⟨hinv, hqueued, hstuck⟩ := hv
        refine ⟨hinv.torn hi bytes, hqueued, fun k hk => ?_⟩
        rcases List.mem_cons.mp hk with rfl | hk
        · exact ⟨_, _, _, hi⟩
        · exact hstuck k hk

end Initial

section Concrete

def System.reads (id : Nat) : System → Bool
  | .running s => s.calls[id]?.any (fun c => match c.phase with
      | .reading _ _ => true
      | _ => false)
  | .stopped _ => false

theorem throws_of_reads {u : System} {id : Nat} (h : u.reads id = true) : ∃ v, Throws u id v := by
  cases u with
  | running s =>
      obtain ⟨⟨key, phase⟩, hc, hphase⟩ := (Option.any_eq_true _ _).mp h
      cases phase with
      | reading page diskPage => exact ⟨_, Throws.mk emptyPage hc⟩
      | waiting | leaving | returned => cases hphase
  | stopped stop => cases h

theorem reads_first : (performed [.read 1 5 [200]]).any (fun r => r.2.reads 0) = true := by decide +kernel

theorem run_throws : ∃ ts u, Run (Abandoned.Step (Step (fun key => key.toNat % 2 ^ filePagesBits)) Throws Action.ends)
    ⟨small, []⟩ ts u ∧ ∃ t ∈ ts, t.2.1.abandons = true := by
  obtain ⟨⟨ts, u⟩, hfollow, hreads⟩ := (Option.any_eq_true _ _).mp reads_first
  obtain ⟨v, hv⟩ := throws_of_reads hreads
  obtain ⟨ts', hrun, hthrows⟩ := run_abandon (run_follow _ step_perform _ _ hfollow) hv
  exact ⟨ts', _, hrun, hthrows⟩

end Concrete

end Tyrdbs.Storage.DiskReader
