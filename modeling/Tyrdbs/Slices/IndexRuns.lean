import Tyrdbs.Slices.Caching
import Tyrdbs.Slices.IndexReturns
import Tyrdbs.Slices.ReadBack

namespace Tyrdbs.Slices

open Bytes Outcome Runs SpanTree

/-- A tree whose inner entries are the hulls of what their children hold. -/
def Tree (holds : Nat → List (Span Key Nat) → Prop) :
    Nat → Nat → List (Span Key Nat) → List (Span Key Nat) → Prop
  | 0, _, _, _ => False
  | height + 1, location, entries, spans =>
      entries ≠ [] ∧ holds location entries ∧ ∃ subs, spans = subs.flatten ∧
        List.Forall₂ (fun e sub => Leaf e.target ∧ sub = [e] ∨
          ¬ Leaf e.target ∧ ∃ children, Hull e children ∧ Tree holds height e.target children sub) entries subs

theorem hull_parts {holds : Nat → List (Span Key Nat) → Prop} {height : Nat} {e : Span Key Nat}
    {parts : List (Span Key Nat × List (Span Key Nat))} (hne : parts ≠ [])
    (hb : ∀ p ∈ parts, Below holds Leaf height p.1 p.2) (h : Hull e (parts.flatMap Prod.snd)) :
    Hull e (parts.map Prod.fst) := by
  obtain ⟨⟨t, ht, htfirst⟩, u, hu, hulast⟩ := h
  constructor
  · obtain ⟨p, rest, rfl⟩ := List.exists_cons_of_ne_nil hne
    obtain ⟨⟨v, hv, hvfirst⟩, -⟩ := (hb p (List.mem_cons_self ..)).hull
    rw [List.flatMap_cons, List.head?_append, hv] at ht
    obtain rfl : v = t := Option.some.inj ht
    exact ⟨p.1, rfl, hvfirst.symm.trans htfirst⟩
  · obtain ⟨rest, p, rfl⟩ := (List.eq_nil_or_concat' parts).resolve_left hne
    obtain ⟨-, v, hv, hvlast⟩ := (hb p (by simp)).hull
    rw [List.flatMap_append, List.flatMap_singleton, List.getLast?_append, hv] at hu
    obtain rfl : v = u := Option.some.inj hu
    exact ⟨p.1, by simp, hvlast.symm.trans hulast⟩

theorem tree_of_spans {holds : Nat → List (Span Key Nat) → Prop} {height location : Nat}
    {spans : List (Span Key Nat)} (h : Spans holds Leaf height location spans) :
    ∃ entries, Tree holds height location entries spans ∧ ∀ e, Hull e spans → Hull e entries := by
  induction height generalizing location spans with
  | zero => exact h.elim
  | succ height ih =>
      obtain ⟨parts, hne, hholds, rfl, hb⟩ := h.parts
      refine ⟨parts.map Prod.fst, ⟨List.map_eq_nil_iff.not.mpr hne, hholds, parts.map Prod.snd, ?_, ?_⟩,
        fun e he => hull_parts hne hb he⟩
      · rw [List.flatMap_def]
      · rw [List.forall₂_map_left_iff, List.forall₂_map_right_iff, List.forall₂_same]
        intro p hp
        refine (hb p hp).imp_right (fun hsub => ⟨hsub.1, ?_⟩)
        obtain ⟨children, htree, hhull⟩ := ih hsub.2.2
        exact ⟨children, hhull p.1 hsub.2.1, htree⟩

/-- What happens to an index writer: an entry is added, or a leaf is stored
meanwhile. -/
inductive IndexCall
  | entry (e : Span Key Nat)
  | leaf (w : NodeWriter)

def IndexStep (z : Codec) (u : Sink × List IndexLevel) (call : IndexCall) (v : Sink × List IndexLevel) : Prop :=
  match call with
  | .entry e => ∃ rounds, indexAdd z rounds u.1 u.2 e.first e.last e.target = .ok v
  | .leaf w => ∃ w' location, u.1.store z w true = .ok (v.1, w', location) ∧ v.2 = u.2

def IndexCall.added : IndexCall → Option (Span Key Nat)
  | .entry e => some e
  | .leaf _ => none

def entriesOf (ts : List ((Sink × List IndexLevel) × IndexCall × (Sink × List IndexLevel))) :
    List (Span Key Nat) := ts.filterMap (fun t => t.2.1.added)

theorem entriesOf_concat (ts : List ((Sink × List IndexLevel) × IndexCall × (Sink × List IndexLevel)))
    (u : Sink × List IndexLevel) (call : IndexCall) (v : Sink × List IndexLevel) :
    entriesOf (ts ++ [(u, call, v)]) = entriesOf ts ++ call.added.toList := by
  rw [entriesOf, List.filterMap_append]
  cases call <;> rfl

/-- A leaf is stored, and the file has room for so many more nodes. -/
structure Sink.HasRoom (s : Sink) (nodes : Nat) : Prop where
  first_ne : s.firstNodeSize ≠ invalidSize
  small : s.file.length + nodes * nodePageSize < Storage.maxFileSize

def NoneEmpty (s : Sink) : Prop := ∀ p ∈ contents s.nodes, ¬ Leaf p.1 → p.2 ≠ []

section Runs

variable {z : Codec}

theorem NoneEmpty.store {s s' : Sink} {w : NodeWriter} {isLeaf : Bool} {location : Nat} (h : NoneEmpty s)
    (hst : Stores z s w isLeaf s' location) (hfull : isLeaf = false → (storedNode w).entries ≠ []) :
    NoneEmpty s' := by
  intro p hp hleaf
  rw [hst.contents_eq] at hp
  rcases List.mem_append.mp hp with hp | hp
  · exact h p hp hleaf
  · obtain rfl := List.mem_singleton.mp hp
    refine hfull ?_
    rw [← hst.isLeafFrom_eq]
    exact Bool.eq_false_iff.mpr hleaf

def IndexSink (z : Codec) (s : Sink) : Prop := AllRecorded z s ∧ NoneEmpty s

theorem IndexSink.store {s s' : Sink} {w : NodeWriter} {location : Nat} {es : List Entry} (h : IndexSink z s)
    (hf : Filled w.opened es) (hne : es ≠ []) (hst : Stores z s w false s' location) : IndexSink z s' :=
  ⟨h.1.store hst, h.2.store hst (fun _ => by rw [contents_stored hf]; exact hne)⟩

theorem run_index {ts : List ((Sink × List IndexLevel) × IndexCall × (Sink × List IndexLevel))}
    {u : Sink × List IndexLevel} (hrun : Run (IndexStep z) ({}, [{}]) ts u)
    (hentries : ∀ e ∈ entriesOf ts, Fits e ∧ Leaf e.target) :
    IndexSink z u.1 ∧ Levels u.1 0 u.2 (entriesOf ts) := by
  induction hrun with
  | refl =>
      refine ⟨⟨.nil, fun p hp => absurd hp (by simp [contents])⟩, [], [], levelHolds_idle {} 0, rfl, rfl, ?_⟩
      exact fun hne => absurd rfl hne
  | @tail ts u v call hprev hstep ih =>
      rw [entriesOf_concat] at hentries ⊢
      obtain ⟨hsink, hlevels⟩ := ih (fun e he => hentries e (List.mem_append_left _ he))
      cases call with
      | entry e =>
          obtain ⟨rounds, hadd⟩ := hstep
          obtain ⟨hfits, hleaf⟩ := hentries e (by simp [IndexCall.added])
          have hgrows := indexAdd_grows (P := IndexSink z)
            (fun s s' w location es hs hf hne hst => hs.store hf hne hst) rounds hsink hlevels
            (Or.inl ⟨hleaf, rfl⟩ : Below u.1.Holds Leaf 0 e [e]) hfits
          obtain ⟨hsink', -, hlevels'⟩ := hgrows.of_ok hadd
          exact ⟨hsink', hlevels'⟩
      | leaf w =>
          obtain ⟨w', location, hstore, hsame⟩ := hstep
          obtain ⟨hst, -⟩ := (store_yields z u.1 w true).of_ok hstore
          refine ⟨⟨hsink.1.store hst, hsink.2.store hst (fun habs => by cases habs)⟩, ?_⟩
          rw [hsame]
          simpa [IndexCall.added] using hlevels.mono ⟨_, hst.contents_eq.symm⟩

end Runs

/-- A slice over the file that an index was written to. The cache keeps nodes
as they were stored or loaded. -/
structure Reads (z : Codec) (s : Sink) (t : Slice) : Prop where
  file_eq : ∃ more, 2 ≤ more.length ∧ t.file = s.file ++ more
  small : t.file.length < 2 ^ 32
  fits : ∀ p ∈ s.nodes, (packed z p.2).length ≤ nodeSize
  cached : ∀ l n, t.cached l = some n →
    (∃ p ∈ s.nodes, p.1 = l ∧ n.data = p.2.data ∧ n.keyCount = p.2.keyCount) ∨
      loadNode z t.file (t.stale l) l = .ok n

section Reads

variable {z : Codec} {s : Sink} {t : Slice}

theorem Node.entries_congr {n n' : Node} (hd : n.data = n'.data) (hk : n.keyCount = n'.keyCount) :
    n.entries = n'.entries := by
  obtain ⟨d, k, x⟩ := n
  obtain ⟨d', k', x'⟩ := n'
  obtain rfl : d = d' := hd
  obtain rfl : k = k' := hk
  rfl

theorem AllRecorded.exists_start (h : AllRecorded z s) {p : Nat × Node} (hp : p ∈ s.nodes) :
    ∃ start, Recorded z s.file p start := by
  rw [AllRecorded, List.forall₂_iff_zip] at h
  obtain ⟨i, hi, rfl⟩ := List.mem_iff_getElem.mp hp
  have hstart : i < s.begins.length := h.1 ▸ hi
  refine ⟨s.begins[i], h.2 (List.mem_iff_getElem.mpr ⟨i, ?_, List.getElem_zip⟩)⟩
  rw [List.length_zip]
  exact lt_min hi hstart

theorem Reads.loadNode (h : Reads z s t) (hz : z.Lossless) (hs : AllRecorded z s) {p : Nat × Node}
    (hp : p ∈ s.nodes) (stale : List Byte) :
    ∃ n, loadNode z t.file stale p.1 = .ok n ∧ n.data = p.2.data ∧ n.keyCount = p.2.keyCount := by
  have hmax : maxSize = 2 ^ 15 - 1 := rfl
  have hoffset : maxOffset = 2 ^ 48 := rfl
  have hsmall := h.small
  obtain ⟨more, hmore, hfile⟩ := h.file_eq
  obtain ⟨start, hrecorded⟩ := hs.exists_start hp
  have hend := hrecorded.end_le
  have hlen := congrArg List.length hfile
  rw [List.length_append] at hlen
  have hafter := hrecorded.append more
  rw [← hfile] at hafter
  have hback := (hafter.reads_iff hz (by omega) (by omega)).mpr (h.fits p hp)
  refine hback.loads ?_ stale
  obtain ⟨isLeaf, hloc⟩ := hrecorded.location_eq
  have hlt := hrecorded.size_lt
  rw [hloc, offsetFrom_or _ (sizeField_lt (by omega) isLeaf)]
  exact Nat.mod_eq_of_lt (by omega)

theorem Reads.load (h : Reads z s t) (hz : z.Lossless) (hs : AllRecorded z s) {p : Nat × Node}
    (hp : p ∈ s.nodes) :
    ∃ n, t.load z p.1 = .ok n ∧ n.data = p.2.data ∧ n.keyCount = p.2.keyCount := by
  rw [Slice.load]
  cases hc : t.cached p.1 with
  | none => exact h.loadNode hz hs hp _
  | some n =>
      refine ⟨n, rfl, ?_⟩
      obtain ⟨m, hm, hd, hk⟩ := h.loadNode hz hs hp (t.stale p.1)
      rcases h.cached p.1 n hc with ⟨q, hq, hl, hqd, hqk⟩ | hload
      · -- another node under the same location is read from the same bytes
        obtain ⟨m', hm', hd', hk'⟩ := h.loadNode hz hs hq (t.stale p.1)
        rw [hl, hm] at hm'
        obtain rfl : m = m' := Except.ok.inj hm'
        exact ⟨hqd.trans (hd'.symm.trans hd), hqk.trans (hk'.symm.trans hk)⟩
      · rw [hm] at hload
        obtain rfl : m = n := Except.ok.inj hload
        exact ⟨hd, hk⟩

theorem Reads.holds (h : Reads z s t) (hz : z.Lossless) (hs : AllRecorded z s) {l : Nat}
    {spans : List (Span Key Nat)} (hh : s.Holds l spans) : t.Holds z l spans := by
  obtain ⟨es, hmem, rfl⟩ := hh
  obtain ⟨p, hp, heq⟩ := List.mem_map.mp hmem
  obtain ⟨rfl, rfl⟩ := Prod.mk.inj heq
  obtain ⟨n, hn, hd, hk⟩ := h.load hz hs hp
  exact ⟨n, hn, by rw [n.spans_eq, Node.entries_congr hd hk]⟩

end Reads

section Index

variable {z : Codec} {ts : List ((Sink × List IndexLevel) × IndexCall × (Sink × List IndexLevel))}
  {u : Sink × List IndexLevel}

/-- As long as the file has room, each add returns, and so does flush. The tree that
flush leaves lists what was added, and a search for any key of an entry ends at its
leaf. -/
theorem index_finds (hz : z.Lossless) (hrun : Run (IndexStep z) ({}, [{}]) ts u)
    (hentries : ∀ e ∈ entriesOf ts, Fits e ∧ Leaf e.target) (hne : entriesOf ts ≠ [])
    (hordered : Ordered (entriesOf ts)) :
    (z.Bounded → u.1.HasRoom u.2.length → ∀ e, Fits e → Leaf e.target → ∃ v, IndexStep z u (.entry e) v) ∧
      (z.Bounded → u.1.HasRoom (u.2.length * (u.2.length + 1)) → ∃ rounds r, indexFlush z rounds u.1 u.2 = .ok r) ∧
      ∀ s root, (∃ rounds, indexFlush z rounds u.1 u.2 = .ok (s, root)) →
        (∃ top entries, Tree s.Holds top root entries (entriesOf ts)) ∧ NoneEmpty s ∧
          ∀ t, Reads z s t → ∃ height, ∀ rounds ≥ height, ∀ e ∈ entriesOf ts, ∀ key, e.first ≤ key → key ≤ e.last →
            t.findNodeFor z key key rounds root = .ok e.target := by
  obtain ⟨hsink, hlevels⟩ := run_index hrun hentries
  refine ⟨fun hb hroom e hfits hleaf => ?_, fun hb hroom => ?_, fun s root hflush => ?_⟩
  · obtain ⟨v, hv, -⟩ := indexAdd_returns hb hlevels (Or.inl ⟨hleaf, rfl⟩ : Below u.1.Holds Leaf 0 e [e]) hfits
      hroom.first_ne le_rfl hroom.small
    exact ⟨v, _, hv⟩
  · obtain ⟨r, hr⟩ := indexFlush_returns hb hlevels hne hroom.first_ne le_rfl hroom.small
    exact ⟨_, r, hr⟩
  · obtain ⟨rounds, hok⟩ := hflush
    have hgrows := indexFlush_grows (P := IndexSink z)
      (fun s s' w location es hs hf hne hst => hs.store hf hne hst) rounds hsink hlevels hne
    obtain ⟨hs, -, top, hspans⟩ := hgrows.of_ok hok
    obtain ⟨entries, htree, -⟩ := tree_of_spans hspans
    refine ⟨⟨top, entries, htree⟩, hs.2, fun t hreads => ⟨top, fun rounds hr e he key hfirst hlast => ?_⟩⟩
    have hread := hspans.mono (fun l es hh => hreads.holds hz hs.1 hh)
    obtain ⟨sp, hchosen, -, hfind⟩ := Slice.findNodeFor_spans key key hr hordered hread
    obtain rfl := hchosen.unique hordered (chosen_of_mem hordered he hfirst hlast)
    rw [hfind, if_neg]
    rintro (hout | hout)
    · exact absurd hlast (not_le.mpr hout)
    · exact absurd hfirst (not_le.mpr hout)

/-- An index that was given these pairs of keys, a leaf stored before each. -/
structure Fed (z : Codec) (pairs : List (Key × Key))
    (ts : List ((Sink × List IndexLevel) × IndexCall × (Sink × List IndexLevel))) (u : Sink × List IndexLevel) :
    Prop where
  run : Run (IndexStep z) ({}, [{}]) ts u
  pairs_eq : (entriesOf ts).map (fun e => (e.first, e.last)) = pairs
  entries : ∀ e ∈ entriesOf ts, Fits e ∧ Leaf e.target
  first_ne : pairs ≠ [] → u.1.firstNodeSize ≠ invalidSize
  size_le : u.1.file.length ≤ pairs.length * (pairs.length + 2) * nodePageSize
  levels_le : u.2.length ≤ pairs.length + 1
  levels_ne : u.2 ≠ []
  spent : u.2.length = 1 →
    (u.2.headD {}).node.opened.dataOffset + ((entriesOf ts).map spanSize).sum = nodeSize

theorem Fed.push (hb : z.Bounded) {pairs : List (Key × Key)} (h : Fed z pairs ts u) {first last : Key}
    (hne : first ≠ []) (hfirst : first.length < maxKeySize) (hlast : last.length < maxKeySize)
    (hroom : (pairs.length + 1) * (pairs.length + 3) * nodePageSize < Storage.maxFileSize) :
    ∃ ts v, Fed z (pairs ++ [(first, last)]) ts v := by
  have hsize := h.size_le
  have hcount := h.levels_le
  have hpages : (pairs.length + 1) * (pairs.length + 3) * nodePageSize = pairs.length * (pairs.length + 2) *
      nodePageSize + (pairs.length + 1) * nodePageSize + (pairs.length + 2) * nodePageSize := by ring
  have hlevel := Nat.mul_le_mul_right nodePageSize hcount
  have hpage : 2 * nodePageSize ≤ (pairs.length + 2) * nodePageSize := Nat.mul_le_mul_right _ (Nat.le_add_left ..)
  obtain ⟨s₁, location, hs₁, hst⟩ := @store_returns z u.1 {} true hb (Or.inr rfl) (by omega)
  have hlen := (hst.length_lt hb).2
  obtain ⟨e, he⟩ : ∃ e : Span Key Nat, e = ⟨first, last, location⟩ := ⟨_, rfl⟩
  have hfits : Fits e := he ▸ ⟨hne, hfirst, hlast, hst.location_lt⟩
  have hleaf : Leaf e.target := he ▸ hst.isLeafFrom_eq
  have hstored : Run (IndexStep z) ({}, [{}]) (ts ++ [(u, .leaf {}, (s₁, u.2))]) (s₁, u.2) :=
    h.run.tail ⟨{}, location, hs₁, rfl⟩
  have hnone : entriesOf (ts ++ [(u, .leaf {}, (s₁, u.2))]) = entriesOf ts := by
    rw [entriesOf_concat]
    exact List.append_nil _
  obtain ⟨-, hlevels⟩ := run_index hstored (hnone ▸ h.entries)
  have hsmall : s₁.file.length + u.2.length * nodePageSize < Storage.maxFileSize := by omega
  obtain ⟨v, hv, hadded⟩ := indexAdd_returns hb hlevels (Or.inl ⟨hleaf, rfl⟩ : Below s₁.Holds Leaf 0 e [e]) hfits
    hst.first_ne le_rfl hsmall
  have hadd : IndexStep z (s₁, u.2) (.entry e) v := ⟨_, hv⟩
  have hadds : entriesOf (ts ++ [(u, .leaf {}, (s₁, u.2))] ++ [((s₁, u.2), .entry e, v)]) = entriesOf ts ++ [e] := by
    rw [entriesOf_concat, hnone]
    rfl
  have hgrown := hadded.size_le
  refine ⟨_, v, hstored.tail hadd, ?_, ?_, fun _ => hadded.first_ne, ?_, ?_, hadded.levels_ne, fun hone => ?_⟩
  · rw [hadds, List.map_append, h.pairs_eq, he]
    rfl
  · rw [hadds]
    intro e' he'
    rcases List.mem_append.mp he' with he' | he'
    · exact h.entries e' he'
    · obtain rfl := List.mem_singleton.mp he'
      exact ⟨hfits, hleaf⟩
  · rw [List.length_append, List.length_singleton]
    change v.1.file.length ≤ (pairs.length + 1) * (pairs.length + 3) * nodePageSize
    change v.1.file.length ≤ s₁.file.length + u.2.length * nodePageSize at hgrown
    omega
  · rw [List.length_append, List.length_singleton]
    rcases hadded.count with hsame | ⟨hmore, -⟩
    · exact hsame.trans_le (hcount.trans (Nat.le_succ _))
    · exact hmore.trans_le (Nat.succ_le_succ hcount)
  · have hspent := hadded.spent hone
    have hbefore : u.2.length = 1 := by
      have hpos := List.length_pos_of_ne_nil h.levels_ne
      rcases hadded.count with hsame | ⟨hmore, -⟩
      · exact hsame.symm.trans hone
      · change v.2.length = u.2.length + 1 at hmore
        omega
    have hbefore := h.spent hbefore
    rw [hadds, List.map_append, List.sum_append, List.map_singleton, List.sum_singleton]
    change _ + spanSize e = (u.2.headD {}).node.opened.dataOffset at hspent
    omega

theorem exists_fed (hb : z.Bounded) (pairs : List (Key × Key))
    (hpairs : ∀ p ∈ pairs, p.1 ≠ [] ∧ p.1.length < maxKeySize ∧ p.2.length < maxKeySize)
    (hroom : pairs.length * (pairs.length + 2) * nodePageSize < Storage.maxFileSize) :
    ∃ ts u, Fed z pairs ts u := by
  induction pairs using List.reverseRecOn with
  | nil =>
      refine ⟨[], ({}, [{}]), Run.refl, rfl, fun e he => absurd he List.not_mem_nil, fun hne => absurd rfl hne,
        Nat.zero_le _, le_rfl, List.cons_ne_nil _ _, fun _ => rfl⟩
  | append_singleton pairs p ih =>
      rw [List.length_append, List.length_singleton] at hroom
      have hless : pairs.length * (pairs.length + 2) ≤ (pairs.length + 1) * (pairs.length + 1 + 2) :=
        Nat.mul_le_mul (Nat.le_succ _) (Nat.le_succ _)
      obtain ⟨ts, u, h⟩ := ih (fun q hq => hpairs q (List.mem_append_left _ hq))
        ((Nat.mul_le_mul_right nodePageSize hless).trans_lt hroom)
      obtain ⟨hne, hfirst, hlast⟩ := hpairs p (List.mem_append_right _ (List.mem_singleton_self p))
      exact h.push hb hne hfirst hlast hroom

def longKey (b : Byte) : Key := List.replicate 1000 b

theorem length_longKey (b : Byte) : (longKey b).length = 1000 := List.length_replicate

theorem longKey_lt {b c : Byte} (h : b < c) : longKey b < longKey c := List.cons_lt_cons_iff.mpr (Or.inl h)

def longPairs : List (Key × Key) :=
  [(1, 2), (3, 4), (5, 6), (7, 8), (9, 10)].map (fun p => (longKey p.1, longKey p.2))

theorem longPairs_fit : ∀ p ∈ longPairs, p.1 ≠ [] ∧ p.1.length < maxKeySize ∧ p.2.length < maxKeySize := by
  refine List.forall_mem_map.mpr (fun p _ => ?_)
  rw [length_longKey, length_longKey]
  exact ⟨List.cons_ne_nil _ _, by decide, by decide⟩

theorem longPairs_ordered : (∀ p ∈ longPairs, p.1 ≤ p.2) ∧ longPairs.Pairwise (fun p q => p.2 < q.1) := by
  constructor
  · have hall : List.all [((1 : Byte), (2 : Byte)), (3, 4), (5, 6), (7, 8), (9, 10)] (fun p => p.1 < p.2) = true := by
      decide
    exact List.forall_mem_map.mpr (fun p hp => (longKey_lt (of_decide_eq_true (List.all_eq_true.mp hall p hp))).le)
  · rw [longPairs, List.pairwise_map]
    refine List.Pairwise.imp (fun hlt => longKey_lt hlt) ?_
    decide

theorem index_finds_levels : ∃ ts u s root, Run (IndexStep lz4) ({}, [{}]) ts u ∧
    (entriesOf ts).map (fun e => (e.first, e.last)) = longPairs ∧ 2 ≤ u.2.length ∧
      (∃ rounds, indexFlush lz4 rounds u.1 u.2 = .ok (s, root)) ∧
      (∃ top entries, Tree s.Holds top root entries (entriesOf ts)) ∧ NoneEmpty s ∧
        ∀ t, Reads lz4 s t → ∃ height, ∀ rounds ≥ height, ∀ e ∈ entriesOf ts, ∀ key, e.first ≤ key →
          key ≤ e.last → t.findNodeFor lz4 key key rounds root = .ok e.target := by
  obtain ⟨ts, u, h⟩ := exists_fed lz4_bounded longPairs longPairs_fit (by decide)
  have hne : entriesOf ts ≠ [] := by
    intro hnil
    have hpairs := h.pairs_eq
    rw [hnil] at hpairs
    exact absurd hpairs.symm (List.cons_ne_nil _ _)
  have hordered : Ordered (entriesOf ts) := by
    refine ⟨?_, ?_⟩
    · have hle : ∀ p ∈ (entriesOf ts).map (fun e => (e.first, e.last)), p.1 ≤ p.2 := by
        rw [h.pairs_eq]
        exact longPairs_ordered.1
      exact List.forall_mem_map.mp hle
    · have hlt := longPairs_ordered.2
      rw [← h.pairs_eq, List.pairwise_map] at hlt
      exact hlt
  have hlevels : 2 ≤ u.2.length := by
    have hpos := List.length_pos_of_ne_nil h.levels_ne
    by_contra hless
    have hspent := h.spent (by omega)
    have hsum : ((entriesOf ts).map spanSize).sum = 10040 := by
      have hmap : (entriesOf ts).map spanSize = ((entriesOf ts).map (fun e => (e.first, e.last))).map
          (fun p => p.1.length + p.2.length + attributesSize) := by
        rw [List.map_map]
        rfl
      rw [hmap, h.pairs_eq]
      simp [longPairs, length_longKey, attributesSize]
    have hsize : nodeSize = 8128 := rfl
    omega
  have hsize := h.size_le
  have hcount := h.levels_le
  have hsix : u.2.length * (u.2.length + 1) ≤ 6 * 7 := Nat.mul_le_mul hcount (Nat.succ_le_succ hcount)
  have hroom : u.1.HasRoom (u.2.length * (u.2.length + 1)) := by
    refine ⟨h.first_ne (List.cons_ne_nil _ _), ?_⟩
    have hnode := Nat.mul_le_mul_right nodePageSize hsix
    have hfive : u.1.file.length ≤ 5 * 7 * nodePageSize := hsize
    have hmax : 6 * 7 * nodePageSize + 5 * 7 * nodePageSize < Storage.maxFileSize := by decide
    omega
  obtain ⟨-, hflushes, hfinds⟩ := index_finds lz4_lossless h.run h.entries hne hordered
  obtain ⟨rounds, ⟨s, root⟩, hflush⟩ := hflushes lz4_bounded hroom
  exact ⟨ts, u, s, root, h.run, h.pairs_eq, hlevels, ⟨rounds, hflush⟩, hfinds s root ⟨rounds, hflush⟩⟩

/-- Without an entry the flush stores an empty root. -/
theorem index_root_empty : ¬ ∀ (z : Codec)
    (ts : List ((Sink × List IndexLevel) × IndexCall × (Sink × List IndexLevel))) (u : Sink × List IndexLevel)
    (s : Sink) (root : Nat), z.Lossless → z.Bounded → Run (IndexStep z) ({}, [{}]) ts u →
      (∃ rounds, indexFlush z rounds u.1 u.2 = .ok (s, root)) → (∀ e ∈ entriesOf ts, Fits e ∧ Leaf e.target) →
        Ordered (entriesOf ts) → NoneEmpty s := by
  intro h
  obtain ⟨s₁, location, hs₁, hst₁⟩ := @store_returns framed {} {} true framed_bounded (Or.inr rfl) (by decide)
  have hlen : s₁.file.length < nodePageSize := (hst₁.length_lt framed_bounded).2
  have hroom : nodePageSize + nodePageSize < Storage.maxFileSize := by decide
  obtain ⟨s₂, root, hs₂, hst₂⟩ := @store_returns framed s₁ {} false framed_bounded (Or.inl hst₁.first_ne) (by omega)
  have hflush : indexFlush framed 1 s₁ [{}] = .ok (s₂, root) := by
    rw [indexFlush]
    simp only [List.headD_cons, List.tail_cons, if_true, hs₂, ok_bind]
  have hrun : Run (IndexStep framed) ({}, [{}]) [(({}, [{}]), .leaf {}, (s₁, [{}]))] (s₁, [{}]) :=
    Run.tail Run.refl ⟨{}, location, hs₁, rfl⟩
  have hnone := h framed _ _ s₂ root framed_lossless framed_bounded hrun ⟨1, hflush⟩
    (fun e he => absurd he List.not_mem_nil) ⟨fun e he => absurd he List.not_mem_nil, List.Pairwise.nil⟩
  have hempty : (storedNode {}).entries = [] := contents_stored internalReset_filled
  refine hnone (root, []) ?_ ?_ rfl
  · rw [hst₂.contents_eq, hempty]
    exact List.mem_append_right _ (List.mem_singleton_self _)
  · rw [Leaf, hst₂.isLeafFrom_eq]
    decide

end Index

end Tyrdbs.Slices
