import Tyrdbs.Storage.VolumeMoves

namespace Tyrdbs.Storage

open Allocator Extents Outcome Runs

theorem toNat_pageKey {id k : Nat} (hid : id < 2 ^ 39) (hk : k < 2 ^ 25) :
    (DiskWriter.pageKey id k).toNat = id * 2 ^ 25 + k := by
  have hshift : (UInt64.ofNat id <<< 25).toNat = id <<< 25 := by
    rw [UInt64.toNat_shiftLeft, UInt64.toNat_ofNat_of_lt' (show id < 2 ^ 64 by omega)]
    exact Nat.mod_eq_of_lt (by rw [show (25 : UInt64).toNat % 64 = 25 from rfl, Nat.shiftLeft_eq]; omega)
  rw [DiskWriter.pageKey, DiskReader.keyOf, UInt64.toNat_or, hshift, UInt32.toNat_toUInt64,
    UInt32.toNat_ofNat_of_lt' (show k < 2 ^ 32 by omega), ← Nat.shiftLeft_add_eq_or_of_lt hk, Nat.shiftLeft_eq]

theorem pageKey_inj {id k id' k' : Nat} (hid : id < 2 ^ 39) (hk : k < 2 ^ 25) (hid' : id' < 2 ^ 39) (hk' : k' < 2 ^ 25)
    (h : DiskWriter.pageKey id k = DiskWriter.pageKey id' k') : id = id' ∧ k = k' := by
  have hnat := congrArg UInt64.toNat h
  rw [toNat_pageKey hid hk, toNat_pageKey hid' hk'] at hnat
  omega

namespace DiskWriter

variable {s s' : DiskWriter} {total maxDirty : Nat} {ds : List Descriptor}

theorem Contents.effect (h : s.Contents ds) (hp : Volume.Apportioned ⟨s, ds⟩) (hr : s.Regular)
    (hl : s.Ledger total maxDirty 0) {a : Action} (heffect : Effect s a s')
    (hnext : a = .create → s.nextCacheId < 2 ^ 39) : s'.Contents ds := by
  have hdistinct : ∀ {e}, e ∈ s.states → ∀ k ∈ s.states, s.cacheId k = s.cacheId e → k = e :=
    fun he k hk heq => hr.turns.distinct k hk _ he heq
  have hoffset : ∀ {e}, e ∈ s.states → (s.files e).commited = false → (s.files e).bufferOffset ≤ pageSize :=
    fun he hc => (h.files _ he hc).offset
  cases heffect with
  | quiet hq => exact h.quiet hq
  | gives he hopen hpage hallocate hq => exact (h.give hl.reader hr.orderly he hopen hpage hallocate).quiet hq
  | puts he hopen hpage hroom hq =>
      exact (h.put hl hr.orderly hr.turns he hopen hpage (fun hc => hroom (hoffset he hc))).quiet hq
  | @completes _ e data he hopen hpage hfull hq =>
      have hput := h.put hl hr.orderly hr.turns he hopen hpage (fun _ => hfull.le)
      have hkept := put_kept s e data e
      refine (hput.push he (hkept.2.1 ▸ hpage) (fun k hk heq => ?_) (.inl ?_)).quiet hq
      · rw [cacheId_put, cacheId_put] at heq
        exact hdistinct he k hk heq
      · rw [put_self]
        exact hfull
  | marks he hopen _ hq => exact (h.mark hr.orderly he hopen).quiet hq
  | @seals _ e he hopen hpage hq =>
      have hmarked := mark_files s e
      refine ((h.mark hr.orderly he hopen).push he (hmarked.2.1 ▸ hpage) (fun k hk heq => ?_) (.inr hmarked.1)).quiet hq
      rw [cacheId_mark, cacheId_mark] at heq
      exact hdistinct he k hk heq
  | @takes t e wait hcurrent ht hsome =>
      have hfree := hr.turns.latch_free hr.placed hcurrent ht
      have he : e ∈ s.states := hr.orderly.live _ (List.mem_of_getElem? ht) _ rfl
      exact h.take ht (hr.turns.unflushed hfree) (hp.base_lt he)
  | @places t flush ht hpage =>
      have hstage := List.mem_of_getElem? ht
      obtain ⟨hsome, hopen⟩ := hp.taken flush (List.mem_filterMap.mpr ⟨_, hstage, rfl⟩)
      have hlive : flush.state ∈ s.states := hr.orderly.live _ hstage _ rfl
      obtain ⟨hcons, -, -, hmax⟩ := inUse_allocate (a := s.blocks) hp.consistent (List.length_pos_iff.mpr hsome) hpage
      have hlen : flush.cachedPages.length < 2 ^ 32 := by
        have hle : flush.cachedPages.length ≤ (s.blocks.allocate flush.cachedPages.length).2.maxIdx := by omega
        exact hle.trans_lt hcons.bounded
      exact h.place hr.turns ht hlive hopen rfl rfl rfl rfl rfl (fun k hk => Function.update_of_ne hk _ _)
        (setFile_self ..) hlen
  | grows _ _ _ hq => exact (h.blocks _).quiet hq
  | writes ht => exact h.write hr.turns hp ht (hr.orderly.live _ (List.mem_of_getElem? ht) _ rfl)
  | finishes ht henter => exact h.finish hr.turns hl ht henter
  | creates hcreate => exact h.create hr.orderly (hnext hcreate)
  | frees => exact h.drop _ rfl rfl rfl rfl rfl rfl rfl rfl rfl rfl
  | rollsBack => exact h.drop _ rfl rfl rfl rfl rfl rfl rfl rfl rfl rfl

end DiskWriter

namespace Volume

open DiskWriter

structure Sound (v : Volume) (total maxDirty : Nat) : Prop where
  regular : v.writer.Regular
  ledger : v.writer.Ledger total maxDirty 0
  apportioned : v.Apportioned
  contents : v.writer.Contents v.commited

variable {v v' : Volume} {a : Action} {total maxDirty : Nat} {d : Descriptor}

theorem Step.writer (h : v.Step a v') : DiskWriter.Step v.writer a.inner v'.writer ∧ v'.commited = v.keeps a := by
  obtain ⟨⟨hadmits, -, -⟩, happly⟩ := h
  rw [Volume.apply] at happly
  cases hinner : v.writer.apply a.inner with
  | error stop =>
      rw [hinner] at happly
      cases happly
  | ok writer =>
      rw [hinner] at happly
      obtain rfl := Except.ok.inj happly
      exact ⟨⟨hadmits, hinner⟩, rfl⟩

theorem Apportioned.below (h : v.Apportioned) (hd : d ∈ v.commited) {x : Nat} (hx : x ∈ d.extents) :
    high x + low x ≤ 2 ^ 32 := by
  have hpos := h.commited d hd x hx
  have hlast : high x + low x - 1 ∈ pagesOf d.extents := mem_pagesOf hx (mem_cells.mpr (by dsimp only; omega))
  have hle : (pagesOf d.extents : Multiset Nat) ≤ v.held :=
    (List.le_sum_of_mem (List.mem_map_of_mem (f := fun d : Descriptor => (pagesOf d.extents : Multiset Nat)) hd)).trans
      (Multiset.le_add_left _ _)
  have hheld : high x + low x - 1 ∈ v.held := Multiset.mem_of_le hle hlast
  have hlt := Apportioned.lt h hheld
  omega

theorem Sound.reads (h : v.Sound total maxDirty) (hd : d ∈ v.commited) {filePage : UInt32}
    (hinside : filePage.toNat * pageSize < d.size) (hfile : filePage.toNat < 2 ^ 25) :
    Reads v.commited (DiskReader.keyOf (UInt64.ofNat d.cacheId) filePage) (getDiskPage d.extents filePage.toNat) := by
  have hcovers := (h.contents.commited d hd).covers
  have hlt : filePage.toNat < (pagesOf d.extents).length := lt_of_mul_lt_mul_right (hinside.trans_le hcovers) (Nat.zero_le _)
  refine ⟨d, hd, filePage.toNat, hfile, ?_, ?_⟩
  · rw [pageKey, UInt32.ofNat_toNat]
  · have hpage := List.getElem?_eq_getElem hlt
    rw [getDiskPage_eq (fun x hx => h.apportioned.below hd hx) hpage]
    exact hpage

theorem read_cases {s s' : DiskWriter} {r : DiskReader.Action} (h : s.apply (.read r) = .ok s') :
    ∃ reader, s.reader.apply r = .ok reader ∧ s' = { s with reader := reader } := by
  change (do let reader ← s.reader.apply r; return { s with reader := reader }) = .ok s' at h
  cases hreader : s.reader.apply r with
  | error stop =>
      rw [hreader] at h
      cases h
  | ok reader =>
      rw [hreader] at h
      exact ⟨reader, rfl, (Except.ok.inj h).symm⟩

theorem unlink_cases {s s' : DiskWriter} {extents : List Nat} (hadmits : s.IsUser)
    (h : s.apply (.unlink extents) = .ok s') :
    ∃ blocks, removeExtents s.blocks extents = .ok blocks ∧ s' = { s with blocks := blocks } := by
  obtain ⟨t, hcurrent, -⟩ := hadmits
  simp only [DiskWriter.apply, hcurrent] at h
  change (do let blocks ← removeExtents s.blocks extents; return { s with blocks := blocks }) = .ok s' at h
  cases hblocks : removeExtents s.blocks extents with
  | error stop =>
      rw [hblocks] at h
      cases h
  | ok blocks =>
      rw [hblocks] at h
      exact ⟨blocks, rfl, (Except.ok.inj h).symm⟩

theorem Sound.read (h : v.Sound total maxDirty) {s : DiskWriter} {r : DiskReader.Action}
    (happly : v.writer.apply (.read r) = .ok s)
    (hreads : ∀ cacheId filePage extents, r = .read cacheId filePage extents →
      Reads v.commited (DiskReader.keyOf cacheId filePage) (getDiskPage extents filePage.toNat)) :
    Apportioned ⟨s, v.commited⟩ ∧ s.Contents v.commited := by
  obtain ⟨reader, hreader, rfl⟩ := read_cases happly
  refine ⟨h.apportioned.same rfl rfl (fun _ => ⟨rfl, rfl⟩) (fun flush hf => .inl hf), ?_⟩
  exact h.contents.read h.ledger hreader hreads

theorem Sound.commit (h : v.Sound total maxDirty) {s : DiskWriter} {e : Nat} (hadmits : v.writer.Admits (.commit e))
    (happly : v.writer.apply (.commit e) = .ok s) :
    Apportioned ⟨s, v.commited ++ [(v.writer.files e).descriptor]⟩ ∧
      s.Contents (v.commited ++ [(v.writer.files e).descriptor]) := by
  have hcallable : v.writer.Callable e := hadmits
  obtain ⟨t, hcurrent, -⟩ := hcallable.user
  simp only [DiskWriter.apply, hcurrent] at happly
  obtain ⟨hflushed, hopen, rfl⟩ := commit_cases happly
  have hu : v.writer.Unflushed e := (h.regular.settled.done e hcallable.live hflushed hcallable.idle).2
  obtain ⟨hpage, hcached⟩ := h.regular.settled.emptied hcallable.live hflushed hcallable.idle
  exact ⟨h.apportioned.commit h.regular.orderly hcallable.live hu,
    h.contents.commit h.regular.turns hcallable.live hu hflushed hopen hpage hcached⟩

theorem Sound.unlink (h : v.Sound total maxDirty) {s : DiskWriter} (hguard : v.Guard (.unlink d))
    (hadmits : v.writer.IsUser) (happly : v.writer.apply (.unlink d.extents) = .ok s) :
    Apportioned ⟨s, v.commited.erase d⟩ ∧ s.Contents (v.commited.erase d) := by
  obtain ⟨blocks, hblocks, rfl⟩ := unlink_cases hadmits happly
  exact ⟨h.apportioned.unlink hguard.1 hblocks, (h.contents.unlink hguard.2).blocks blocks⟩

theorem Sound.effect (h : v.Sound total maxDirty) {s : DiskWriter} {a : DiskWriter.Action}
    (hstep : DiskWriter.Step v.writer a s) (hturn : v.writer.InTurn a) (hguard : v.Guard (.run a))
    (hcommit : ∀ e, a ≠ .commit e) (hunlink : ∀ extents, a ≠ .unlink extents) (hread : ∀ r, a ≠ .read r) :
    Apportioned ⟨s, v.commited⟩ ∧ s.Contents v.commited := by
  have heffect := hstep.effect hturn h.regular hcommit hunlink hread
  refine ⟨h.apportioned.effect h.regular heffect ?_, h.contents.effect h.apportioned h.regular h.ledger heffect ?_⟩
  · rintro rfl
    exact hguard
  · rintro rfl
    exact hguard

theorem Step.sound (hs : v.Step a v') (h : v.Sound total maxDirty) : v'.Sound total maxDirty := by
  obtain ⟨hstep, hkeeps⟩ := hs.writer
  obtain ⟨⟨hadmits, hturn, hguard⟩, -⟩ := hs
  have hledger := hstep.ledger h.regular.orderly h.ledger
  rw [h.regular.leftPages hadmits, zero_add] at hledger
  have hregular := hstep.regular hturn h.regular
  obtain ⟨hadmits', happly⟩ := hstep
  suffices hrest : Apportioned ⟨v'.writer, v.keeps a⟩ ∧ v'.writer.Contents (v.keeps a) by
    rw [← hkeeps] at hrest
    exact ⟨hregular, hledger, hrest.1, hrest.2⟩
  cases a with
  | read d filePage =>
      refine h.read happly (fun cacheId page extents heq => ?_)
      obtain ⟨rfl, rfl, rfl⟩ := DiskReader.Action.read.inj heq
      obtain ⟨-, -, hfile, -⟩ := hadmits
      exact h.reads hguard.1 hguard.2 hfile
  | unlink d => exact h.unlink hguard hadmits happly
  | run a =>
      cases a with
      | commit e => exact h.commit hadmits happly
      | unlink extents => exact hguard.elim
      | read r =>
          refine h.read happly (fun cacheId page extents heq => ?_)
          subst heq
          exact hguard.elim
      | _ =>
          exact h.effect ⟨hadmits', happly⟩ hturn hguard (by simp [Action.inner]) (by simp [Action.inner])
            (by simp [Action.inner])

/-- disk_writer and disk_reader as they are constructed over a file of a number
of pages. -/
def initial (clzOfZero : UInt32) (cacheBits writeCacheBits filePages : Nat) (preallocateSpace : Bool)
    (image memory : Nat → Page) : Volume where
  writer := DiskWriter.initial clzOfZero cacheBits writeCacheBits filePages preallocateSpace image memory

section Initial

variable {clzOfZero : UInt32} {cacheBits writeCacheBits filePages : Nat} {preallocateSpace : Bool}
  {image memory : Nat → Page}

theorem initial_apportioned (hfile : filePages < 2 ^ 32) :
    (initial clzOfZero cacheBits writeCacheBits filePages preallocateSpace image memory).Apportioned := by
  have hroom : ({} : Allocator).maxIdx + filePages < 2 ^ 32 := by
    rw [show ({} : Allocator).maxIdx = 0 from rfl, Nat.zero_add]
    exact hfile
  have hempty : Consistent {} := inv_empty.consistent
  refine ⟨(extend_spec hempty hroom).1, ?_, fun _ h => absurd h List.not_mem_nil, fun _ h => absurd h List.not_mem_nil,
    fun _ h => absurd h List.not_mem_nil, fun _ h => absurd h List.not_mem_nil⟩
  change (0 : Multiset Nat) = (inUse (({} : Allocator).extend filePages)).val
  rw [inUse_extend hempty hroom]
  rfl

theorem initial_contents :
    (initial clzOfZero cacheBits writeCacheBits filePages preallocateSpace image memory).writer.Contents [] := by
  have hids : (1 : Nat) ≤ 2 ^ 39 := Nat.one_le_two_pow
  refine ⟨hids, fun _ _ => rfl, fun _ h => absurd h List.not_mem_nil, fun _ h => absurd h List.not_mem_nil,
    fun _ _ _ h => absurd h List.not_mem_nil, fun _ h => absurd h List.not_mem_nil, ?_⟩
  refine ⟨fun key page h => ?_, fun key e h => ?_, fun _ _ _ h => absurd h List.not_mem_nil,
    fun _ _ _ h => absurd h List.not_mem_nil⟩
  · exact absurd h (Multiset.notMem_zero _)
  · cases h

theorem initial_sound (h7 : 7 ≤ cacheBits) (h32 : cacheBits < 32) (hfile : filePages < 2 ^ 32) :
    (initial clzOfZero cacheBits writeCacheBits filePages preallocateSpace image memory).Sound (2 ^ cacheBits)
      (2 ^ writeCacheBits) where
  regular := initial_regular
  ledger := pages_iff.mp (initial_pages h7 h32)
  apportioned := initial_apportioned hfile
  contents := initial_contents

/-- Whatever the contexts and the readers do, in any order that is admitted, a
page of the disk is free or in one place of one file. No page is lost. -/
theorem pages_apportioned (h7 : 7 ≤ cacheBits) (h32 : cacheBits < 32) (hfile : filePages < 2 ^ 32)
    {ts : List (Volume × Action × Volume)} {u : Volume}
    (hrun : Run Step (initial clzOfZero cacheBits writeCacheBits filePages preallocateSpace image memory) ts u) :
    ∀ v ∈ visited (initial clzOfZero cacheBits writeCacheBits filePages preallocateSpace image memory) ts,
      Consistent v.writer.blocks ∧ v.held = (inUse v.writer.blocks).val := by
  intro v hv
  have hsound := hrun.visited_guarded (fun _ _ => True) (fun _ _ => trivial) (fun v => v.Sound _ _)
    (initial_sound h7 h32 hfile) (fun _ _ _ hu hstep _ => hstep.sound hu) v hv
  exact ⟨hsound.apportioned.consistent, hsound.apportioned.held⟩

/-- A file that was commited has the size of what was written to it, and a read
that returned has what was written to that page of the file. -/
theorem reads_written (h7 : 7 ≤ cacheBits) (h32 : cacheBits < 32) (hfile : filePages < 2 ^ 32)
    {ts : List (Volume × Action × Volume)} {u : Volume}
    (hrun : Run Step (initial clzOfZero cacheBits writeCacheBits filePages preallocateSpace image memory) ts u) :
    ∀ v ∈ visited (initial clzOfZero cacheBits writeCacheBits filePages preallocateSpace image memory) ts,
      (∀ d ∈ v.commited, d.size = (v.writer.written d.cacheId).length) ∧
        ∀ id k page bytes, id < 2 ^ 39 → k < 2 ^ 25 →
          ⟨pageKey id k, .returned page bytes⟩ ∈ v.writer.reader.calls → pageOf (v.writer.written id) k <+: bytes.bytes := by
  intro v hv
  have hsound := hrun.visited_guarded (fun _ _ => True) (fun _ _ => trivial) (fun v => v.Sound _ _)
    (initial_sound h7 h32 hfile) (fun _ _ _ hu hstep _ => hstep.sound hu) v hv
  refine ⟨fun d hd => (hsound.contents.commited d hd).size, fun id k page bytes hid hk hcall => ?_⟩
  obtain ⟨id', k', hid', hk', hkey, hkept⟩ := hsound.contents.reader.returned _ page bytes hcall
  obtain ⟨rfl, rfl⟩ := pageKey_inj hid hk hid' hk' hkey
  exact hkept.shows

end Initial

section Concrete

/-- The actions that are tried below, where they are admitted. -/
def Tries (v : Volume) : Action → Prop
  | .run .create => v.writer.IsUser ∧ v.writer.nextCacheId < 2 ^ 39
  | .run .go => v.writer.current ≠ none ∧ v.writer.blocks.maxIdx + growPages < 2 ^ 32
  | .run (.wake t) => v.writer.threads[t]? = some .outside
  | .run (.read _) => False
  | .run (.unlink _) => False
  | .run a => v.writer.InTurn a ∧ v.writer.Allows a
  | .read d filePage => v.writer.Allows (.read (.read (UInt64.ofNat d.cacheId) filePage d.extents)) ∧ d ∈ v.commited ∧
      filePage.toNat * pageSize < d.size
  | .unlink d => v.writer.IsUser ∧ d ∈ v.commited ∧ ∀ call ∈ v.writer.reader.calls, call.inside call.key = false

instance (v : Volume) (a : Action) : Decidable (v.Tries a) :=
  match a with
  | .run .create => inferInstanceAs (Decidable (v.writer.IsUser ∧ _ < _))
  | .run .go => inferInstanceAs (Decidable (_ ≠ none ∧ _ < _))
  | .run (.wake _) => inferInstanceAs (Decidable (_ = _))
  | .run (.read _) => inferInstanceAs (Decidable False)
  | .run (.unlink _) => inferInstanceAs (Decidable False)
  | .run (.write e data) => inferInstanceAs (Decidable (v.writer.InTurn (.write e data) ∧ v.writer.Allows (.write e data)))
  | .run (.addPadding e) => inferInstanceAs (Decidable (v.writer.InTurn (.addPadding e) ∧ v.writer.Allows (.addPadding e)))
  | .run (.flush e) => inferInstanceAs (Decidable (v.writer.InTurn (.flush e) ∧ v.writer.Allows (.flush e)))
  | .run (.commit e) => inferInstanceAs (Decidable (v.writer.InTurn (.commit e) ∧ v.writer.Allows (.commit e)))
  | .run (.destroy e) => inferInstanceAs (Decidable (v.writer.InTurn (.destroy e) ∧ v.writer.Allows (.destroy e)))
  | .run .pause => inferInstanceAs (Decidable (v.writer.InTurn .pause ∧ v.writer.Allows .pause))
  | .run (.schedule t) => inferInstanceAs (Decidable (v.writer.InTurn (.schedule t) ∧ v.writer.Allows (.schedule t)))
  | .run .start => inferInstanceAs (Decidable (v.writer.InTurn .start ∧ v.writer.Allows .start))
  | .run (.ioDone t) => inferInstanceAs (Decidable (v.writer.InTurn (.ioDone t) ∧ v.writer.Allows (.ioDone t)))
  | .read _ _ => inferInstanceAs (Decidable (v.writer.Allows (.read (.read _ _ _)) ∧ _ ∈ v.commited ∧ _ < _))
  | .unlink _ => inferInstanceAs (Decidable (v.writer.IsUser ∧ _ ∈ v.commited ∧ ∀ call ∈ v.writer.reader.calls, _ = false))

theorem Tries.admits (h : v.Tries a) : v.Admits a := by
  cases a with
  | read d filePage => exact ⟨h.1.admits.1, trivial, h.2⟩
  | unlink d =>
      refine ⟨h.1, trivial, h.2.1, fun call hcall k => ?_⟩
      have hidle := h.2.2 call hcall
      rw [Call.inside] at hidle ⊢
      simp_all
  | run a =>
      cases a with
      | create => exact ⟨h.1, trivial, h.2⟩
      | go => exact ⟨h.1, trivial, fun _ _ _ _ => h.2⟩
      | wake t => exact ⟨h, trivial, trivial⟩
      | read | unlink => exact h.elim
      | _ => exact ⟨h.2.admits.1, h.1, trivial⟩

def attempt (v : Volume) (a : Action) : Option Volume := if v.Tries a then (v.apply a).toOption else none

theorem step_attempt (h : v.attempt a = some v') : v.Step a v' := by
  obtain ⟨htries, happly⟩ := ok_of_toOption h
  exact ⟨htries.admits, happly⟩

def single : Volume := initial 0 7 1 4 false (fun _ => DiskReader.emptyPage) (fun _ => DiskReader.emptyPage)

/-- A file of two pages is written, commited, read and unlinked, and another one
is rolled back. -/
def lifetime : List Action :=
  [.run .start, .run (.schedule 0), .run .create, .run (.write 0 (List.replicate 4096 1 ++ [2, 3])), .run .go, .run .go,
    .run (.schedule 0), .run .go, .run .go, .run .go, .run .go, .run (.flush 0), .run (.schedule 0), .run .go, .run .go,
    .run .go, .run .go, .run (.ioDone 0), .run (.schedule 0), .run .go, .run .go, .run (.commit 0), .run (.destroy 0),
    .run .pause, .read ⟨1, 4098, [2]⟩ 1, .run (.wake 0), .run (.schedule 0), .unlink ⟨1, 4098, [2]⟩,
    .run .create, .run (.write 0 [3]), .run .go, .run .go, .run .go, .run (.destroy 0)]

theorem lifetime_done : (follow attempt single lifetime).any (fun r =>
    r.2.writer.states.isEmpty && r.2.commited.isEmpty && r.1.any (fun x => decide (x.1.commited = [⟨1, 4098, [2]⟩])) &&
      r.2.writer.reader.calls.length == 1 && r.2.writer.entered.length == 2) = true := by
  decide +kernel

theorem pages_apportioned_lifetime : ∃ ts u, (u.writer.states.isEmpty && u.commited.isEmpty &&
      ts.any (fun x => decide (x.1.commited = [⟨1, 4098, [2]⟩])) && u.writer.reader.calls.length == 1 &&
      u.writer.entered.length == 2) = true ∧ Run Step single ts u ∧
    ∀ v ∈ visited single ts, Consistent v.writer.blocks ∧ v.held = (inUse v.writer.blocks).val := by
  obtain ⟨⟨ts, u⟩, hfollow, hdone⟩ := (Option.any_eq_true _ _).mp lifetime_done
  have hrun : Run Step single ts u := run_follow attempt (fun _ _ _ h => step_attempt h) lifetime single hfollow
  exact ⟨ts, u, hdone, hrun, pages_apportioned (by decide) (by decide) (by decide) hrun⟩

theorem reads_written_lifetime : ∃ ts u, (u.writer.states.isEmpty && u.commited.isEmpty &&
      ts.any (fun x => decide (x.1.commited = [⟨1, 4098, [2]⟩])) && u.writer.reader.calls.length == 1 &&
      u.writer.entered.length == 2) = true ∧ Run Step single ts u ∧
    ∀ v ∈ visited single ts, (∀ d ∈ v.commited, d.size = (v.writer.written d.cacheId).length) ∧
      ∀ id k page bytes, id < 2 ^ 39 → k < 2 ^ 25 → ⟨pageKey id k, .returned page bytes⟩ ∈ v.writer.reader.calls →
        pageOf (v.writer.written id) k <+: bytes.bytes := by
  obtain ⟨⟨ts, u⟩, hfollow, hdone⟩ := (Option.any_eq_true _ _).mp lifetime_done
  have hrun : Run Step single ts u := run_follow attempt (fun _ _ _ h => step_attempt h) lifetime single hfollow
  exact ⟨ts, u, hdone, hrun, reads_written (by decide) (by decide) (by decide) hrun⟩

end Concrete

end Volume

end Tyrdbs.Storage
