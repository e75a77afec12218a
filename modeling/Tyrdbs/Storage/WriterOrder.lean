import Tyrdbs.Storage.DiskWriter

namespace Tyrdbs.Storage

open Outcome

/-- A buffer is filled only while there is a page, and a file that is committed
has been flushed. -/
structure FileWriter.WellFormed (f : FileWriter) : Prop where
  buffer : f.memPage = invalidHandle → f.bufferOffset = 0
  flushed : f.commited = true → f.flushed = true

def Stage.sweeps : Stage → Bool
  | .flushPages _ wait => !wait
  | .sweep _ => true
  | _ => false

/-- The file that file_writer::write is filling. -/
def Stage.fills : Stage → Option Nat
  | .allocatePage e _ => some e
  | .write e _ => some e
  | _ => none

theorem Stage.operand_of_fills {stage : Stage} {e : Nat} (h : stage.fills = some e) : stage.operand = some e := by
  cases stage with
  | allocatePage | write => exact h
  | _ => cases h

theorem Stage.state_of_operand {stage : Stage} {e : Nat} (h : stage.operand = some e) : stage.state = some e := by
  have hcall : ∀ call : Flush, (if call.wait then some call.state else none) = some e → some call.state = some e := by
    intro call hc
    split at hc
    case isTrue => exact hc
    case isFalse => cases hc
  cases stage with
  | flushPages e' wait =>
      cases wait with
      | true => exact h
      | false => cases h
  | allocatePage => exact h
  | write => exact h
  | flush => exact h
  | allocate call => exact hcall call h
  | allocating call => exact hcall call h
  | extend call => exact hcall call h
  | batch call => exact hcall call h
  | writing call => exact hcall call h
  | user | outside | flushThread | sweep | ended => cases h

namespace DiskWriter

/-- Handles of states are given out once, a context goes on with a state that
is there, and is alone in a call for it, and the file was not committed; the flush
thread gives up the processor inside a flush only. -/
structure Orderly (s : DiskWriter) : Prop where
  nodup : (s.states ++ s.freed).Nodup
  below : ∀ e ∈ s.states ++ s.freed, e < s.fresh
  live : ∀ stage ∈ s.threads, ∀ e, stage.state = some e → e ∈ s.states
  single : ∀ (t t' : Nat) (stage stage' : Stage) (e : Nat), s.threads[t]? = some stage →
    s.threads[t']? = some stage' → stage.operand = some e → stage'.operand = some e → t = t'
  sweeping : ∀ (t : Nat) (stage : Stage), s.threads[t]? = some stage → stage.sweeps = true → s.current = some t
  pageless : ∀ e data, Stage.allocatePage e data ∈ s.threads → (s.files e).memPage = invalidHandle
  uncommited : ∀ stage ∈ s.threads, ∀ e, stage.operand = some e → (s.files e).commited = false
  files : ∀ e, (s.files e).WellFormed

variable {s s' : DiskWriter} {t e : Nat} {stage stage' : Stage} {f : FileWriter}

theorem Orderly.same (h : s.Orderly) (hstates : s'.states = s.states) (hfreed : s'.freed = s.freed)
    (hfresh : s'.fresh = s.fresh) (hthreads : s'.threads = s.threads) (hcurrent : s'.current = s.current)
    (hfiles : s'.files = s.files) : s'.Orderly := by
  obtain ⟨hnodup, hbelow, hlive, hsingle, hsweeping, hpageless, huncommited, hwf⟩ := h
  refine ⟨?_, ?_, ?_, ?_, ?_, ?_, ?_, ?_⟩
  · rwa [hstates, hfreed]
  · rwa [hstates, hfreed, hfresh]
  · rwa [hstates, hthreads]
  · rwa [hthreads]
  · rwa [hthreads, hcurrent]
  · rwa [hthreads, hfiles]
  · rwa [hthreads, hfiles]
  · rwa [hfiles]

theorem Orderly.schedule (h : s.Orderly) (hnone : s.current = none) (c : Option Nat) (queue : List Nat) :
    Orderly { s with current := c, runQueue := queue } := by
  refine ⟨h.nodup, h.below, h.live, h.single, fun t stage ht hs => ?_, h.pageless, h.uncommited, h.files⟩
  rw [h.sweeping t stage ht hs] at hnone
  cases hnone

theorem Orderly.createThread (h : s.Orderly) (hstate : stage.state = none) (hsweeps : stage.sweeps = false) :
    (s.createThread stage).Orderly := by
  have hget : ∀ {k : Nat} {x : Stage}, (s.threads ++ [stage])[k]? = some x → s.threads[k]? = some x ∨ x = stage := by
    intro k x hx
    rw [List.getElem?_append] at hx
    split at hx
    case isTrue => exact .inl hx
    case isFalse => exact .inr (List.mem_singleton.mp (List.mem_of_getElem? hx))
  have hoperand : ∀ e, stage.operand ≠ some e := by
    intro e he
    rw [Stage.state_of_operand he] at hstate
    cases hstate
  refine ⟨h.nodup, h.below, fun x hx e he => ?_, fun k k' x x' e hk hk' he he' => ?_, fun k x hk hs => ?_,
    fun e data hx => ?_, fun x hx e he => ?_, h.files⟩
  · rcases List.mem_append.mp hx with hx | hx
    · exact h.live x hx e he
    · rw [List.mem_singleton.mp hx, hstate] at he
      cases he
  · rcases hget hk with hk | rfl
    · rcases hget hk' with hk' | rfl
      · exact h.single k k' x x' e hk hk' he he'
      · exact absurd he' (hoperand e)
    · exact absurd he (hoperand e)
  · rcases hget hk with hk | rfl
    · exact h.sweeping k x hk hs
    · rw [hsweeps] at hs
      cases hs
  · rcases List.mem_append.mp hx with hx | hx
    · exact h.pageless e data hx
    · rw [← List.mem_singleton.mp hx] at hstate
      cases hstate
  · rcases List.mem_append.mp hx with hx | hx
    · exact h.uncommited x hx e he
    · rw [List.mem_singleton.mp hx] at he
      exact absurd he (hoperand e)

/-- A file is nobody else's but of a context in this stage. -/
def Owns (s : DiskWriter) (stage : Stage) (e : Nat) : Prop :=
  stage.operand = some e ∨ ∀ x ∈ s.threads, x.operand ≠ some e

theorem Orderly.only (h : s.Orderly) (ht : s.threads[t]? = some stage) (ho : s.Owns stage e) {k : Nat} {x : Stage}
    (hk : s.threads[k]? = some x) (hx : x.operand = some e) : k = t := by
  rcases ho with ho | ho
  · exact h.single k t x stage e hk ht hx ho
  · exact absurd hx (ho x (List.mem_of_getElem? hk))

theorem Orderly.advance (h : s.Orderly) (ht : s.threads[t]? = some stage) (stage' : Stage) {c : Option Nat}
    (hstate : ∀ e, stage'.state = some e → e ∈ s.states) (hoperand : ∀ e, stage'.operand = some e → s.Owns stage e)
    (hcurrent : s.current = some t ∨ c = s.current) (hsweeps : stage'.sweeps = true → c = some t)
    (hpageless : ∀ e data, stage' = .allocatePage e data → (s.files e).memPage = invalidHandle)
    (huncommited : ∀ e, stage'.operand = some e → (s.files e).commited = false) :
    Orderly { s.setStage t stage' with current := c } := by
  have hlt : t < s.threads.length := (List.getElem?_eq_some_iff.mp ht).1
  have hget : ∀ {k : Nat} {x : Stage}, (s.threads.set t stage')[k]? = some x →
      (k = t ∧ x = stage') ∨ (k ≠ t ∧ s.threads[k]? = some x) := by
    intro k x hx
    by_cases hk : k = t
    · subst hk
      rw [List.getElem?_set_self hlt] at hx
      exact .inl ⟨rfl, (Option.some.inj hx).symm⟩
    · rw [List.getElem?_set_ne (Ne.symm hk)] at hx
      exact .inr ⟨hk, hx⟩
  have hmem : ∀ {x}, x ∈ s.threads.set t stage' → x ∈ s.threads ∨ x = stage' :=
    fun hx => List.mem_or_eq_of_mem_set hx
  refine ⟨h.nodup, h.below, fun x hx e he => ?_, fun k k' x x' e hk hk' he he' => ?_, fun k x hk hs => ?_,
    fun e data hx => ?_, fun x hx e he => ?_, h.files⟩
  · rcases hmem hx with hx | rfl
    · exact h.live x hx e he
    · exact hstate e he
  · rcases hget hk with ⟨rfl, rfl⟩ | ⟨hne, hold⟩
    · rcases hget hk' with ⟨rfl, rfl⟩ | ⟨hne', hold'⟩
      · rfl
      · exact (h.only ht (hoperand e he) hold' he').symm
    · rcases hget hk' with ⟨rfl, rfl⟩ | ⟨hne', hold'⟩
      · exact h.only ht (hoperand e he') hold he
      · exact h.single k k' x x' e hold hold' he he'
  · rcases hget hk with ⟨rfl, rfl⟩ | ⟨hne, hk⟩
    · exact hsweeps hs
    · have hold := h.sweeping k x hk hs
      rcases hcurrent with hcurrent | hcurrent
      · rw [hold] at hcurrent
        exact absurd (Option.some.inj hcurrent) hne
      · exact hcurrent.trans hold
  · rcases hmem hx with hx | hx
    · exact h.pageless e data hx
    · exact hpageless e data hx.symm
  · rcases hmem hx with hx | rfl
    · exact h.uncommited x hx e he
    · exact huncommited e he

@[simp] theorem setFile_self (s : DiskWriter) (e : Nat) (f : FileWriter) : (s.setFile e f).files e = f :=
  Function.update_self ..

@[simp] theorem put_self (s : DiskWriter) (e : Nat) (data : List Byte) :
    (s.put e data).files e = { s.files e with
      bufferOffset := (s.files e).bufferOffset + data.length
      descriptor := { (s.files e).descriptor with size := (s.files e).descriptor.size + data.length } } :=
  Function.update_self ..

theorem Orderly.setFile (h : s.Orderly) (hwf : f.WellFormed)
    (hpage : ∀ data, Stage.allocatePage e data ∈ s.threads → f.memPage = invalidHandle)
    (hopen : ∀ x ∈ s.threads, x.operand = some e → f.commited = false) : (s.setFile e f).Orderly := by
  refine ⟨h.nodup, h.below, h.live, h.single, h.sweeping, fun k data hk => ?_, fun x hx k hk => ?_, fun k => ?_⟩
  · change (Function.update s.files e f k).memPage = _
    by_cases hke : k = e
    · subst hke
      rw [Function.update_self]
      exact hpage data hk
    · rw [Function.update_of_ne hke]
      exact h.pageless k data hk
  · change (Function.update s.files e f k).commited = _
    by_cases hke : k = e
    · subst hke
      rw [Function.update_self]
      exact hopen x hx hk
    · rw [Function.update_of_ne hke]
      exact h.uncommited x hx k hk
  · change (Function.update s.files e f k).WellFormed
    by_cases hke : k = e
    · rw [hke, Function.update_self]
      exact hwf
    · rw [Function.update_of_ne hke]
      exact h.files k

theorem Orderly.setFile_same (h : s.Orderly) (hwf : f.WellFormed) (hpage : f.memPage = (s.files e).memPage)
    (hcommited : f.commited = (s.files e).commited) : (s.setFile e f).Orderly :=
  h.setFile hwf (fun data hx => hpage.trans (h.pageless e data hx)) (fun x hx hk => hcommited.trans (h.uncommited x hx e hk))

theorem next_mem (he : e ∈ s.states) {e' : Nat} (h : s.next e = some e') : e' ∈ s.states := by
  rw [next, if_pos he] at h
  exact (List.dropWhile_sublist _).subset (List.mem_of_getElem? h)

theorem Orderly.fresh_notMem (h : s.Orderly) : s.freed.headD s.fresh ∉ s.states := by
  intro hm
  cases hfreed : s.freed with
  | nil =>
      rw [hfreed] at hm
      exact Nat.lt_irrefl _ (h.below _ (List.mem_append_left _ hm))
  | cons e rest =>
      rw [hfreed] at hm
      have hnodup := h.nodup
      rw [hfreed] at hnodup
      exact List.disjoint_of_nodup_append hnodup hm (List.mem_cons_self ..)

theorem Orderly.allocate (h : s.Orderly) : s.allocate.Orderly := by
  have hnew := h.fresh_notMem
  have hall : s.allocate.states ++ s.allocate.freed = s.states ++ s.freed ∨
      (s.freed = [] ∧ s.allocate.states ++ s.allocate.freed = s.states ++ [s.fresh] ∧
        s.allocate.fresh = s.fresh + 1) := by
    cases hfreed : s.freed with
    | nil => exact .inr ⟨rfl, by simp [DiskWriter.allocate, hfreed], by simp [DiskWriter.allocate, hfreed]⟩
    | cons e rest => exact .inl (by simp [DiskWriter.allocate, hfreed])
  have hfresh : s.fresh ≤ s.allocate.fresh := by
    change _ ≤ if s.freed = [] then s.fresh + 1 else s.fresh
    split
    · exact Nat.le_succ _
    · exact Nat.le_refl _
  have hfile : ∀ k ∈ s.states, s.allocate.files k = s.files k :=
    fun k hk => Function.update_of_ne (fun heq : k = s.freed.headD s.fresh => hnew (heq ▸ hk)) _ _
  refine ⟨?_, ?_, fun x hx e he => List.mem_append_left _ (h.live x hx e he), h.single, h.sweeping,
    fun e data hx => ?_, fun x hx e he => ?_, fun k => ?_⟩
  · rcases hall with hall | ⟨hfreed, hall, _⟩
    · exact hall ▸ h.nodup
    · have hnodup := h.nodup
      rw [hfreed, List.append_nil] at hnodup
      rw [hall]
      refine List.nodup_append.mpr ⟨hnodup, List.nodup_singleton _, fun a ha b hb heq => ?_⟩
      rw [List.mem_singleton.mp hb] at heq
      exact Nat.lt_irrefl _ (heq ▸ h.below a (List.mem_append_left _ ha))
  · rcases hall with hall | ⟨hfreed, hall, hsucc⟩
    · rw [hall]
      exact fun e he => Nat.lt_of_lt_of_le (h.below e he) hfresh
    · rw [hall, hsucc]
      intro e he
      rcases List.mem_append.mp he with he | he
      · exact Nat.lt_succ_of_lt (h.below e (List.mem_append_left _ he))
      · rw [List.mem_singleton.mp he]
        exact Nat.lt_succ_self _
  · have hlive := h.live _ hx e rfl
    rw [hfile e hlive]
    exact h.pageless e data hx
  · rw [hfile e (h.live x hx e (Stage.state_of_operand he))]
    exact h.uncommited x hx e he
  · change (Function.update s.files _ _ k).WellFormed
    by_cases hk : k = s.freed.headD s.fresh
    · rw [hk, Function.update_self]
      exact ⟨fun _ => rfl, fun hfalse => absurd hfalse (by simp)⟩
    · rw [Function.update_of_ne hk]
      exact h.files k

theorem Orderly.free (h : s.Orderly) (he : e ∈ s.states) (hnone : ∀ x ∈ s.threads, x.state ≠ some e) :
    (s.free e).Orderly := by
  have hperm : (s.states.erase e ++ e :: s.freed).Perm (s.states ++ s.freed) :=
    List.perm_middle.trans ((List.perm_cons_erase he).symm.append_right s.freed)
  refine ⟨hperm.nodup_iff.mpr h.nodup, fun k hk => h.below k (hperm.mem_iff.mp hk), fun x hx k hk => ?_, h.single,
    h.sweeping, h.pageless, h.uncommited, h.files⟩
  have hne : k ≠ e := fun heq => hnone x hx (heq ▸ hk)
  exact (List.mem_erase_of_ne hne).mpr (h.live x hx k hk)

/-- Where a context may go on from a stage. -/
structure Follows (s : DiskWriter) (stage stage' : Stage) : Prop where
  state : ∀ e, stage'.state = some e → e ∈ s.states
  operand : ∀ e, stage'.operand = some e → s.Owns stage e
  pageless : ∀ e data, stage' = .allocatePage e data → (s.files e).memPage = invalidHandle
  uncommited : ∀ e, stage'.operand = some e → (s.files e).commited = false

theorem Orderly.follows (h : s.Orderly) (ht : s.threads[t]? = some stage)
    (hstate : stage'.state = none ∨ stage'.state = stage.state) (hoperand : stage'.operand = stage.operand)
    (hfills : stage'.fills = none) : s.Follows stage stage' := by
  refine ⟨fun e he => ?_, fun e he => .inl (hoperand ▸ he), fun e data heq => ?_, fun e he => ?_⟩
  · rcases hstate with hnone | hsame
    · rw [hnone] at he
      cases he
    · exact h.live stage (List.mem_of_getElem? ht) e (hsame ▸ he)
  · rw [heq] at hfills
    cases hfills
  · exact h.uncommited stage (List.mem_of_getElem? ht) e (hoperand ▸ he)

theorem follows_none (hstate : stage'.state = none) : s.Follows stage stage' := by
  have hoperand : ∀ e, stage'.operand ≠ some e := by
    intro e he
    rw [Stage.state_of_operand he] at hstate
    cases hstate
  refine ⟨fun e he => ?_, fun e he => absurd he (hoperand e), fun e data heq => ?_, fun e he => ?_⟩
  · rw [hstate] at he
    cases he
  · rw [heq] at hstate
    cases hstate
  · exact absurd he (hoperand e)

theorem Orderly.setStage (h : s.Orderly) (ht : s.threads[t]? = some stage) (hf : s.Follows stage stage')
    (hsweeps : stage'.sweeps = true → s.current = some t) : (s.setStage t stage').Orderly :=
  h.advance ht stage' (c := s.current) hf.state hf.operand (.inr rfl) hsweeps hf.pageless hf.uncommited

theorem Orderly.suspend (h : s.Orderly) (hcurrent : s.current = some t) (ht : s.threads[t]? = some stage)
    (hf : s.Follows stage stage') (hsweeps : stage'.sweeps = false) : (s.suspend t stage').Orderly :=
  h.advance ht stage' (c := none) hf.state hf.operand (.inl hcurrent) (fun hs => absurd (hsweeps.symm.trans hs) (by simp))
    hf.pageless hf.uncommited

theorem Orderly.yield (h : s.Orderly) (hcurrent : s.current = some t) (ht : s.threads[t]? = some stage)
    (hf : s.Follows stage stage') (hsweeps : stage'.sweeps = false) : (s.yield t stage').Orderly :=
  (h.suspend hcurrent ht hf hsweeps).same rfl rfl rfl rfl rfl rfl

theorem Orderly.startGlobalFlush (h : s.Orderly) : s.startGlobalFlush.Orderly := by
  rw [DiskWriter.startGlobalFlush]
  split
  · exact h
  · have hsame : Orderly { s with globalFlushActive := true } := h.same rfl rfl rfl rfl rfl rfl
    exact hsame.createThread rfl rfl

theorem startGlobalFlush_threads (ht : s.threads[t]? = some stage) : s.startGlobalFlush.threads[t]? = some stage := by
  rw [DiskWriter.startGlobalFlush]
  split
  · exact ht
  · exact (List.getElem?_append_left (List.getElem?_eq_some_iff.mp ht).1).trans ht

@[simp] theorem startGlobalFlush_files (s : DiskWriter) : s.startGlobalFlush.files = s.files := by
  rw [DiskWriter.startGlobalFlush]
  split <;> rfl

@[simp] theorem startGlobalFlush_states (s : DiskWriter) : s.startGlobalFlush.states = s.states := by
  rw [DiskWriter.startGlobalFlush]
  split <;> rfl

@[simp] theorem startGlobalFlush_current (s : DiskWriter) : s.startGlobalFlush.current = s.current := by
  rw [DiskWriter.startGlobalFlush]
  split <;> rfl

theorem Orderly.no_allocatePage (h : s.Orderly) (ht : s.threads[t]? = some stage) (ho : s.Owns stage e)
    (hne : ∀ data, stage ≠ .allocatePage e data) : ∀ data, Stage.allocatePage e data ∉ s.threads := by
  intro data hx
  obtain ⟨k, hk⟩ := List.getElem?_of_mem hx
  obtain rfl := h.only ht ho hk rfl
  rw [ht] at hk
  exact hne data (Option.some.inj hk)

theorem Orderly.allocatePage (h : s.Orderly) (hcurrent : s.current = some t) (ht : s.threads[t]? = some stage)
    (hfills : stage.fills = some e) (hpage : (s.files e).memPage = invalidHandle) (data : List Byte) :
    Yields (fun _ => True) Orderly (s.allocatePage t e data) := by
  have hoperand := Stage.operand_of_fills hfills
  have hlive := h.live stage (List.mem_of_getElem? ht) e (Stage.state_of_operand hoperand)
  have hopen := h.uncommited stage (List.mem_of_getElem? ht) e hoperand
  rw [DiskWriter.allocatePage]
  split
  case isTrue =>
    have hsame : Orderly { s.startGlobalFlush with dirtyPagesCond := s.startGlobalFlush.dirtyPagesCond ++ [t] } :=
      h.startGlobalFlush.same rfl rfl rfl rfl rfl rfl
    refine hsame.suspend ?_ (startGlobalFlush_threads ht) ⟨fun k hk => ?_, fun k hk => .inl ?_,
      fun k d hk => ?_, fun k hk => ?_⟩ rfl
    · exact (startGlobalFlush_current s).trans hcurrent
    · obtain rfl := Option.some.inj hk
      exact (startGlobalFlush_states s).symm ▸ hlive
    · obtain rfl := Option.some.inj hk
      exact hoperand
    · cases hk
      exact (congrArg (fun g => (g e).memPage) (startGlobalFlush_files s)).trans hpage
    · obtain rfl := Option.some.inj hk
      exact (congrArg (fun g => (g e).commited) (startGlobalFlush_files s)).trans hopen
  case isFalse =>
    refine (Outcome.yields_true s.reader.cache.allocate).bind (fun ⟨page, cache⟩ _ => ?_)
    have hfollows : s.Follows stage (.write e data) := by
      refine ⟨fun k hk => ?_, fun k hk => .inl ?_, fun k d hk => ?_, fun k hk => ?_⟩
      · obtain rfl := Option.some.inj hk
        exact hlive
      · obtain rfl := Option.some.inj hk
        exact hoperand
      · cases hk
      · obtain rfl := Option.some.inj hk
        exact hopen
    have hmoved := h.setStage ht hfollows (fun hs => by cases hs)
    have hself : (s.setStage t (.write e data)).threads[t]? = some (.write e data) :=
      List.getElem?_set_self (List.getElem?_eq_some_iff.mp ht).1
    have hnone := hmoved.no_allocatePage hself (.inl rfl) (fun d heq => by cases heq)
    have hwf : FileWriter.WellFormed { s.files e with memPage := page } :=
      ⟨fun _ => (h.files e).buffer hpage, (h.files e).flushed⟩
    exact (hmoved.setFile hwf (fun d hx => absurd hx (hnone d)) (fun _ _ _ => hopen)).same rfl rfl rfl rfl rfl rfl

theorem Orderly.put (h : s.Orderly) (hpage : (s.files e).memPage ≠ invalidHandle) (data : List Byte) :
    (s.put e data).Orderly := by
  have hwf := h.files e
  have hfile := h.setFile_same (e := e) (f := { s.files e with
      bufferOffset := (s.files e).bufferOffset + data.length
      descriptor := { (s.files e).descriptor with size := (s.files e).descriptor.size + data.length } })
    ⟨fun hp => absurd hp hpage, hwf.flushed⟩ rfl rfl
  exact hfile.same rfl rfl rfl rfl rfl rfl

theorem Orderly.pushPage (h : s.Orderly) (e : Nat) : (s.pushPage e).Orderly :=
  h.setFile ⟨fun _ => rfl, (h.files e).flushed⟩ (fun _ _ => rfl) (fun x hx hk => h.uncommited x hx e hk)

theorem Orderly.follows_write (h : s.Orderly) (ht : s.threads[t]? = some stage) (hfills : stage.fills = some e)
    (data : List Byte) : s.Follows stage (.write e data) := by
  have hoperand := Stage.operand_of_fills hfills
  refine ⟨fun k hk => ?_, fun k hk => .inl ?_, fun k d hk => ?_, fun k hk => ?_⟩
  · obtain rfl := Option.some.inj hk
    exact h.live stage (List.mem_of_getElem? ht) _ (Stage.state_of_operand hoperand)
  · obtain rfl := Option.some.inj hk
    exact hoperand
  · cases hk
  · obtain rfl := Option.some.inj hk
    exact h.uncommited stage (List.mem_of_getElem? ht) _ hoperand

theorem Orderly.writeRound (h : s.Orderly) (hcurrent : s.current = some t) {data : List Byte}
    (ht : s.threads[t]? = some (.write e data)) : Yields (fun _ => True) Orderly (s.writeRound t e data) := by
  rw [DiskWriter.writeRound]
  split
  · exact h.setStage ht (follows_none rfl) (fun hs => by cases hs)
  split
  case isTrue hpage => exact h.allocatePage hcurrent ht rfl hpage data
  case isFalse _ hpage =>
    have hput := h.put hpage (data.take (min (pageSize - (s.files e).bufferOffset) data.length))
    change Yields _ _ (if _ then _ else _)
    split
    · have hpush := hput.pushPage e
      exact hpush.yield hcurrent ht (hpush.follows_write ht rfl _) rfl
    · exact hput.setStage ht (hput.follows_write ht rfl _) (fun hs => by cases hs)

theorem Callable.owns (h : s.Callable e) (stage : Stage) : s.Owns stage e := .inr h.idle

theorem Callable.follows (h : s.Callable e) (hopen : (s.files e).commited = false) (stage : Stage) (data : List Byte) :
    s.Follows stage (.write e data) := by
  refine ⟨fun k hk => ?_, fun k hk => ?_, fun k d hk => ?_, fun k hk => ?_⟩
  · obtain rfl := Option.some.inj hk
    exact h.live
  · obtain rfl := Option.some.inj hk
    exact h.owns stage
  · cases hk
  · obtain rfl := Option.some.inj hk
    exact hopen

theorem Orderly.write (h : s.Orderly) (hc : s.Callable e) (ht : s.threads[t]? = some .user) (data : List Byte) :
    Yields (fun _ => True) Orderly (s.write t e data) := by
  rw [DiskWriter.write]
  split
  · exact h
  · by_cases hopen : (s.files e).commited = false
    · rw [check_of hopen]
      exact h.setStage ht (hc.follows hopen .user data) (fun hs => by cases hs)
    · rw [check_of_not hopen]
      trivial

theorem Orderly.addPadding (h : s.Orderly) : Yields (fun _ => True) Orderly (s.addPadding e) := by
  rw [DiskWriter.addPadding]
  refine (Outcome.yields_true _).bind (fun _ _ => ?_)
  split
  · exact h
  case isFalse hoffset =>
    refine h.put (fun hpage => hoffset ?_) _
    rw [(h.files e).buffer hpage]
    exact Nat.zero_and _

theorem Orderly.flush (h : s.Orderly) (hc : s.Callable e) (hcurrent : s.current = some t)
    (ht : s.threads[t]? = some .user) : Yields (fun _ => True) Orderly (s.flush t e) := by
  rw [DiskWriter.flush]
  by_cases hflushed : (s.files e).flushed = false
  case neg =>
    rw [check_of_not hflushed]
    trivial
  rw [check_of hflushed, ok_bind]
  have hopen : (s.files e).commited = false := by
    cases hcommited : (s.files e).commited with
    | false => rfl
    | true =>
        rw [(h.files e).flushed hcommited] at hflushed
        cases hflushed
  have hmark := h.setFile_same (e := e) (f := { s.files e with flushed := true })
    ⟨(h.files e).buffer, fun _ => rfl⟩ rfl rfl
  have hfollows : ∀ s' : DiskWriter, s'.states = s.states → s'.threads = s.threads → (s'.files e).commited = false →
      s'.Follows .user (.flush e) := by
    intro s' hstates hthreads hopen'
    refine ⟨fun k hk => ?_, fun k hk => ?_, fun k d hk => (by cases hk), fun k hk => ?_⟩
    · obtain rfl := Option.some.inj hk
      exact hstates ▸ hc.live
    · obtain rfl := Option.some.inj hk
      exact .inr (hthreads ▸ hc.idle)
    · obtain rfl := Option.some.inj hk
      exact hopen'
  have hopen' : ((s.setFile e { s.files e with flushed := true }).files e).commited = false := by
    rw [setFile_self]
    exact hopen
  change Yields _ _ (if _ then _ else _)
  split
  · refine (Outcome.yields_true _).bind (fun _ _ => ?_)
    exact hmark.setStage ht (hfollows _ rfl rfl hopen') (fun hs => by cases hs)
  · refine (hmark.pushPage e).yield hcurrent ht (hfollows _ rfl rfl ?_) rfl
    exact (congrArg FileWriter.commited (setFile_self ..)).trans hopen'

theorem Orderly.commit (h : s.Orderly) (hc : s.Callable e) : Yields (fun _ => True) Orderly (s.commit e) := by
  rw [DiskWriter.commit]
  by_cases hflushed : (s.files e).flushed = true
  case neg =>
    rw [check_of_not hflushed]
    trivial
  rw [check_of hflushed, ok_bind]
  refine (Outcome.yields_true _).bind (fun _ _ => ?_)
  refine h.setFile ⟨(h.files e).buffer, fun _ => hflushed⟩ (fun data hx => h.pageless e data hx) (fun x hx hk => ?_)
  exact absurd hk (hc.idle x hx)

/-- What flush_pages goes back to. -/
theorem Orderly.returned (h : s.Orderly) (hcurrent : s.current = some t) (ht : s.threads[t]? = some stage)
    (hlive : e ∈ s.states) (wait : Bool) : (s.returned t e wait).Orderly := by
  cases wait with
  | true => exact h.setStage ht (follows_none rfl) (fun hs => by cases hs)
  | false =>
      refine h.setStage ht ⟨fun k hk => next_mem hlive hk, fun k hk => ?_, fun k d hk => ?_, fun k hk => ?_⟩
        (fun _ => hcurrent)
      · cases hk
      · cases hk
      · cases hk

theorem Orderly.testLatch (h : s.Orderly) (hcurrent : s.current = some t) (ht : s.threads[t]? = some (.flush e)) :
    (s.testLatch t e).Orderly := by
  rw [DiskWriter.testLatch]
  split
  case h_1 waiting _ =>
    have hsame : Orderly { s with latch := s.latch.put (s.files e).descriptor.cacheId (waiting ++ [t]) } :=
      h.same rfl rfl rfl rfl rfl rfl
    exact hsame.suspend hcurrent ht (hsame.follows ht (.inr rfl) rfl rfl) rfl
  case h_2 => exact h.setStage ht (h.follows ht (.inr rfl) rfl rfl) (fun hs => by cases hs)

theorem Orderly.sweep (h : s.Orderly) (hcurrent : s.current = some t) {e : Option Nat}
    (ht : s.threads[t]? = some (.sweep e)) : (s.sweep t e).Orderly := by
  cases e with
  | none =>
      have hsame : Orderly { s with globalFlushActive := false } := h.same rfl rfl rfl rfl rfl rfl
      exact hsame.suspend hcurrent ht (follows_none rfl) rfl
  | some e =>
      rw [DiskWriter.sweep]
      split
      · exact h.returned hcurrent ht (h.live _ (List.mem_of_getElem? ht) e rfl) false
      · exact h.setStage ht (h.follows ht (.inr rfl) rfl rfl) (fun _ => hcurrent)

theorem Orderly.takePages (h : s.Orderly) (hcurrent : s.current = some t) {wait : Bool}
    (ht : s.threads[t]? = some (.flushPages e wait)) : (s.takePages t e wait).Orderly := by
  rw [DiskWriter.takePages]
  change Orderly (if _ then _ else _)
  split
  · exact h.returned hcurrent ht (h.live _ (List.mem_of_getElem? ht) e rfl) wait
  · have hwf := h.files e
    have hfile := h.setFile_same (e := e) (f := { s.files e with cachedPages := [] })
      ⟨hwf.buffer, hwf.flushed⟩ rfl rfl
    have hlatch : Orderly { s.setFile e { s.files e with cachedPages := [] } with
        latch := s.latch.put (s.files e).descriptor.cacheId
          ((s.latch.find (s.files e).descriptor.cacheId).getD []) } := hfile.same rfl rfl rfl rfl rfl rfl
    exact hlatch.setStage ht (hlatch.follows ht (.inr rfl) rfl rfl) (fun hs => by cases hs)

section Flushes

variable {flush : Flush}

theorem allocateBlocks_of_invalid (h : (s.blocks.allocate flush.cachedPages.length).1 = invalidHandle) :
    s.allocateBlocks t flush = s.allocateSpace t flush := by
  rw [DiskWriter.allocateBlocks]
  exact if_pos h

/-- The file with the extent that disk::allocate has found. -/
def extended (s : DiskWriter) (flush : Flush) : FileWriter :=
  let f := s.files flush.state
  let pages := flush.cachedPages.length
  { f with descriptor := { f.descriptor with
      extents := f.descriptor.extents ++ [Allocator.pack (s.blocks.allocate pages).1 pages] } }

theorem allocateBlocks_of_valid (h : (s.blocks.allocate flush.cachedPages.length).1 ≠ invalidHandle) :
    s.allocateBlocks t flush = ({ s with blocks := (s.blocks.allocate flush.cachedPages.length).2 }.setFile flush.state
      (s.extended flush)).setStage t
        (.batch flush (s.blocks.allocate flush.cachedPages.length).1 flush.cachedPages) := by
  rw [DiskWriter.allocateBlocks]
  exact if_neg h

theorem Orderly.allocateSpace (h : s.Orderly) (hcurrent : s.current = some t)
    (ht : s.threads[t]? = some (.allocate flush)) : (s.allocateSpace t flush).Orderly := by
  rw [DiskWriter.allocateSpace]
  split
  · have hsame : Orderly { s with allocationCond := s.allocationCond ++ [t] } := h.same rfl rfl rfl rfl rfl rfl
    exact hsame.suspend hcurrent ht (hsame.follows ht (.inr rfl) rfl rfl) rfl
  · have hsame : Orderly { s with allocationInProgress := true } := h.same rfl rfl rfl rfl rfl rfl
    change Orderly (if _ then _ else _)
    split
    · exact hsame.suspend hcurrent ht (hsame.follows ht (.inr rfl) rfl rfl) rfl
    · exact hsame.setStage ht (hsame.follows ht (.inr rfl) rfl rfl) (fun hs => by cases hs)

theorem Orderly.allocateBlocks (h : s.Orderly) (hcurrent : s.current = some t)
    (ht : s.threads[t]? = some (.allocate flush)) : (s.allocateBlocks t flush).Orderly := by
  by_cases hpage : (s.blocks.allocate flush.cachedPages.length).1 = invalidHandle
  · rw [allocateBlocks_of_invalid hpage]
    exact h.allocateSpace hcurrent ht
  · have hwf := h.files flush.state
    have hblocks : Orderly { s with blocks := (s.blocks.allocate flush.cachedPages.length).2 } :=
      h.same rfl rfl rfl rfl rfl rfl
    have hfile := hblocks.setFile_same (e := flush.state) (f := s.extended flush)
      ⟨hwf.buffer, hwf.flushed⟩ rfl rfl
    rw [allocateBlocks_of_valid hpage]
    exact hfile.setStage ht (hfile.follows ht (.inr rfl) rfl rfl) (fun hs => by cases hs)

theorem Orderly.extendBlocks (h : s.Orderly) (ht : s.threads[t]? = some (.extend flush)) :
    (s.extendBlocks t flush).Orderly := by
  have hsame : Orderly { s.enqueue s.allocationCond with
      blocks := s.blocks.extend growPages
      allocationInProgress := false
      allocationCond := [] } := h.same rfl rfl rfl rfl rfl rfl
  exact hsame.setStage ht (hsame.follows ht (.inr rfl) rfl rfl) (fun hs => by cases hs)

/-- The engine has worked on pages, and on nothing that contexts go by. -/
structure Aside (s s' : DiskWriter) : Prop where
  states : s'.states = s.states
  freed : s'.freed = s.freed
  fresh : s'.fresh = s.fresh
  threads : s'.threads = s.threads
  current : s'.current = s.current
  files : s'.files = s.files

theorem Aside.trans {s'' : DiskWriter} (h : Aside s s') (h' : Aside s' s'') : Aside s s'' :=
  ⟨h'.states.trans h.states, h'.freed.trans h.freed, h'.fresh.trans h.fresh, h'.threads.trans h.threads,
    h'.current.trans h.current, h'.files.trans h.files⟩

theorem Orderly.aside (h : s.Orderly) (ha : Aside s s') : s'.Orderly :=
  h.same ha.states ha.freed ha.fresh ha.threads ha.current ha.files

theorem aside_enterPages (e : Nat) : ∀ (pages : List Nat) (s : DiskWriter) (filePage : Nat),
    Yields (fun _ => True) (Aside s) (s.enterPages e filePage pages) := by
  intro pages
  induction pages with
  | nil => exact fun s _ => ⟨rfl, rfl, rfl, rfl, rfl, rfl⟩
  | cons page pages ih =>
      intro s filePage
      rw [DiskWriter.enterPages]
      refine (Outcome.yields_true _).bind (fun _ _ => (Outcome.yields_true _).bind (fun cache _ => ?_))
      refine (ih _ _).mono (fun s' hs' => Aside.trans ?_ hs')
      exact ⟨rfl, rfl, rfl, rfl, rfl, rfl⟩

theorem aside_freePages : ∀ (pages : List Nat) (s : DiskWriter), Yields (fun _ => True) (Aside s) (s.freePages pages) := by
  intro pages
  induction pages with
  | nil => exact fun s => ⟨rfl, rfl, rfl, rfl, rfl, rfl⟩
  | cons page pages ih =>
      intro s
      rw [DiskWriter.freePages]
      refine (Outcome.yields_true _).bind (fun cache _ => (ih _).mono (fun s' hs' => Aside.trans ?_ hs'))
      exact ⟨rfl, rfl, rfl, rfl, rfl, rfl⟩

theorem Orderly.releaseLatch (h : s.Orderly) (hcurrent : s.current = some t) (ht : s.threads[t]? = some stage)
    (hlive : flush.state ∈ s.states) (waiting : List Nat) : (s.releaseLatch t flush waiting).Orderly := by
  have hlatch : Orderly { s.enqueue waiting with
      latch := (s.latch.put flush.cond []).erase (s.files flush.state).descriptor.cacheId } :=
    h.same rfl rfl rfl rfl rfl rfl
  exact hlatch.returned hcurrent ht hlive flush.wait

theorem Orderly.finishFlush (h : s.Orderly) (hcurrent : s.current = some t) (ht : s.threads[t]? = some stage)
    (hlive : flush.state ∈ s.states) : Yields (fun _ => True) Orderly (s.finishFlush t flush) := by
  rw [DiskWriter.finishFlush]
  refine (aside_enterPages flush.state flush.cachedPages s flush.filePage).bind (fun s₁ ha => ?_)
  refine (Outcome.yields_true _).bind (fun _ _ => ?_)
  split
  · trivial
  · have hclean : (s₁.cleanPages flush.cachedPages.length).Orderly := (h.aside ha).same rfl rfl rfl rfl rfl rfl
    have hthreads : s₁.threads[t]? = some stage := ha.threads ▸ ht
    exact hclean.releaseLatch (ha.current.trans hcurrent) hthreads (ha.states ▸ hlive) _

theorem Orderly.writeBatch (h : s.Orderly) (hcurrent : s.current = some t) {diskPage : Nat} {rest : List Nat}
    (ht : s.threads[t]? = some (.batch flush diskPage rest)) :
    Yields (fun _ => True) Orderly (s.writeBatch t flush diskPage rest) := by
  rw [DiskWriter.writeBatch]
  split
  · exact h.finishFlush hcurrent ht (h.live _ (List.mem_of_getElem? ht) flush.state rfl)
  · exact h.suspend hcurrent ht (h.follows ht (.inr rfl) rfl rfl) rfl

end Flushes

theorem Orderly.ioDone (h : s.Orderly) (t : Nat) : (s.ioDone t).Orderly := by
  rw [DiskWriter.ioDone]
  split
  case h_1 flush diskPage rest ht =>
    have hfollows : s.Follows (.writing flush diskPage rest)
        (.batch flush (u32 (diskPage + (rest.take iovMax).length)) (rest.drop iovMax)) :=
      h.follows ht (.inr rfl) rfl rfl
    exact (h.setStage ht hfollows (fun hs => by cases hs)).same rfl rfl rfl rfl rfl rfl
  case h_2 flush ht =>
    have hfollows : s.Follows (.allocating flush) (.extend flush) := h.follows ht (.inr rfl) rfl rfl
    exact (h.setStage ht hfollows (fun hs => by cases hs)).same rfl rfl rfl rfl rfl rfl
  case h_3 => exact h

theorem aside_remove (e : Nat) : Yields (fun _ => True) (Aside s) (s.remove e) := by
  have hpage : Yields (fun _ => True) (Aside s) (s.removePage (s.files e).memPage) := by
    rw [DiskWriter.removePage]
    split
    · exact ⟨rfl, rfl, rfl, rfl, rfl, rfl⟩
    · refine (aside_freePages _ s).bind (fun s₁ h₁ => Aside.trans h₁ ?_)
      exact ⟨rfl, rfl, rfl, rfl, rfl, rfl⟩
  rw [DiskWriter.remove]
  refine hpage.bind (fun s₁ h₁ => (Outcome.yields_true _).bind (fun blocks _ => ?_))
  refine (aside_freePages _ _).bind (fun s₂ h₂ => (Outcome.yields_true _).bind (fun _ _ => ?_))
  have hblocks : Aside s₁ { s₁ with blocks := blocks } := ⟨rfl, rfl, rfl, rfl, rfl, rfl⟩
  exact ((h₁.trans hblocks).trans h₂).trans ⟨rfl, rfl, rfl, rfl, rfl, rfl⟩

/-- No call of flush_pages has pages of the file in flight. -/
def Unflushed (s : DiskWriter) (e : Nat) : Prop := ∀ x ∈ s.threads, ∀ flush, x.flush? = some flush → flush.state ≠ e

/-- Nobody goes on with a file that is destroyed, unless it is being flushed. -/
theorem Orderly.unused (h : s.Orderly) (hc : s.Callable e) (hu : s.Unflushed e) : ∀ x ∈ s.threads, x.state ≠ some e := by
  intro x hx hxe
  obtain ⟨t, hcurrent, ht⟩ := hc.user
  obtain ⟨k, hk⟩ := List.getElem?_of_mem hx
  have hsweeps : x.sweeps = false := by
    by_contra hs
    have hk' := h.sweeping k x hk (by simpa using hs)
    rw [hcurrent] at hk'
    obtain rfl := Option.some.inj hk'
    rw [ht] at hk
    obtain rfl := Option.some.inj hk
    exact hs rfl
  have hidle := hc.idle x hx
  have hcall : ∀ flush, x.flush? = some flush → x.state = some flush.state → False :=
    fun flush hflush hstate => hu x hx flush hflush (Option.some.inj (hstate.symm.trans hxe))
  cases x with
  | allocatePage | write | flush => exact hidle hxe
  | flushPages k wait =>
      cases wait with
      | true => exact hidle hxe
      | false => cases hsweeps
  | allocate call | allocating call | extend call | batch call | writing call => exact hcall call rfl rfl
  | sweep => cases hsweeps
  | user | outside | flushThread | ended => cases hxe

theorem Orderly.destroy (h : s.Orderly) (hc : s.Callable e) (hu : s.Unflushed e) :
    Yields (fun _ => True) Orderly (s.destroy e) := by
  have hunused := h.unused hc hu
  rw [DiskWriter.destroy]
  split
  · exact h.free hc.live hunused
  · refine (aside_remove e).bind (fun s₁ ha => ?_)
    exact (h.aside ha).free (ha.states ▸ hc.live) (ha.threads ▸ hunused)

theorem Orderly.go (h : s.Orderly) (hcurrent : s.current = some t) : Yields (fun _ => True) Orderly (s.go t) := by
  rw [DiskWriter.go]
  split
  case h_1 e data ht => exact h.allocatePage hcurrent ht rfl (h.pageless e data (List.mem_of_getElem? ht)) data
  case h_2 e data ht => exact h.writeRound hcurrent ht
  case h_3 e ht => exact h.testLatch hcurrent ht
  case h_4 e wait ht => exact h.takePages hcurrent ht
  case h_5 flush ht => exact h.allocateBlocks hcurrent ht
  case h_6 flush ht => exact h.extendBlocks ht
  case h_7 flush diskPage rest ht => exact h.writeBatch hcurrent ht
  case h_8 ht =>
    refine h.setStage ht ⟨fun k hk => List.mem_of_head? hk, fun k hk => ?_, fun k d hk => ?_, fun k hk => ?_⟩
      (fun _ => hcurrent)
    · cases hk
    · cases hk
    · cases hk
  case h_9 e ht => exact h.sweep hcurrent ht
  case h_10 => exact h

/-- Files are destroyed while they are not being flushed. -/
def Removable (s : DiskWriter) : Action → Prop
  | .destroy e => s.Unflushed e
  | _ => True

theorem Step.orderly {a : Action} (hs : Step s a s') (hr : s.Removable a) (h : s.Orderly) : s'.Orderly := by
  obtain ⟨hadmits, happly⟩ := hs
  have hyields : Yields (fun _ => True) Orderly (s.apply a) := by
    cases a with
    | schedule t => exact h.schedule hadmits.1 (some t) _
    | start => exact h.createThread rfl rfl
    | wake t => exact (h.setStage hadmits (follows_none rfl) (fun hs => by cases hs)).same rfl rfl rfl rfl rfl rfl
    | ioDone t => exact h.ioDone t
    | read a => exact (Outcome.yields_true _).bind (fun reader _ => h.same rfl rfl rfl rfl rfl rfl)
    | go =>
        obtain ⟨t, hcurrent⟩ := Option.ne_none_iff_exists'.mp hadmits
        simp only [apply, hcurrent]
        exact h.go hcurrent
    | create =>
        obtain ⟨t, hcurrent, ht⟩ := hadmits
        simp only [apply, hcurrent]
        exact h.allocate
    | pause =>
        obtain ⟨t, hcurrent, ht⟩ := hadmits
        simp only [apply, hcurrent]
        exact h.suspend hcurrent ht (follows_none rfl) rfl
    | write e data =>
        obtain ⟨t, hcurrent, ht⟩ := hadmits.user
        simp only [apply, hcurrent]
        exact h.write hadmits ht data
    | addPadding e =>
        obtain ⟨t, hcurrent, ht⟩ := hadmits.user
        simp only [apply, hcurrent]
        exact h.addPadding
    | flush e =>
        obtain ⟨t, hcurrent, ht⟩ := hadmits.user
        simp only [apply, hcurrent]
        exact h.flush hadmits hcurrent ht
    | commit e =>
        obtain ⟨t, hcurrent, ht⟩ := hadmits.user
        simp only [apply, hcurrent]
        exact h.commit hadmits
    | destroy e =>
        obtain ⟨t, hcurrent, ht⟩ := hadmits.user
        simp only [apply, hcurrent]
        exact h.destroy hadmits hr
    | unlink extents =>
        obtain ⟨t, hcurrent, ht⟩ := hadmits
        simp only [apply, hcurrent]
        exact (Outcome.yields_true _).bind (fun blocks _ => h.same rfl rfl rfl rfl rfl rfl)
  exact hyields.of_ok happly

end DiskWriter

end Tyrdbs.Storage
