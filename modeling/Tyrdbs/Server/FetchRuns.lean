import Tyrdbs.Library.Runs
import Tyrdbs.Server.FetchResponses

namespace Tyrdbs.Server.Fetch

open Message Outcome Ushard Runs

section Frame

variable {readers readers' : Readers} {rq : Request} {handle : Handle} {rounds : Nat}

/-- A reader is found under the address of its iterator. -/
def Addressed (readers : Readers) : Prop := ∀ h r, readers h = some r → r.address = h

theorem fetchLoop_address (rounds : Nat) (r : Reader) (b : Builder) (entries : Nat) :
    Yields (fun _ => True) (fun x => ∃ it v, x.1 = ⟨r.address, it, v⟩) (fetchLoop rounds r b entries) := by
  induction rounds generalizing r b with
  | zero => trivial
  | succ rounds ih =>
      rw [fetchLoop]
      refine (yields_true _).bind (fun p _ => ?_)
      split
      · exact ⟨_, _, rfl⟩
      refine (yields_true _).bind (fun _ _ => ?_)
      refine (yields_true _).bind (fun b _ => ?_)
      split
      · exact ⟨_, _, rfl⟩
      refine (yields_true _).bind (fun n _ => ?_)
      split
      split
      · exact ⟨_, _, rfl⟩
      exact (yields_true _).bind (fun q _ => ih _ _)

theorem fetchEntries_address (rounds : Nat) (r : Reader) (b : Builder) :
    Yields (fun _ => True) (fun x => x.2.1.address = r.address) (fetchEntries rounds r b) := by
  rw [fetchEntries]
  refine (yields_true _).bind (fun _ _ => (yields_true _).bind (fun _ _ => (yields_true _).bind (fun _ _ => ?_)))
  refine (yields_true _).bind (fun _ _ => (yields_true _).bind (fun _ _ => (yields_true _).bind (fun _ _ => ?_)))
  refine (fetchLoop_address ..).bind (fun x hx => (yields_true _).bind (fun _ _ => ?_))
  obtain ⟨it, v, hx⟩ := hx
  have haddress : x.1.address = r.address := by rw [hx]
  exact haddress

/-- A request has to do with its own reader only. -/
structure Apart (handle : Handle) (readers readers' : Readers) : Prop where
  addressed : Addressed readers'
  same : ∀ h, h ≠ handle → readers' h = readers h

theorem apart_update (h : Addressed readers) {r : Option Reader} (hr : ∀ r', r = some r' → r'.address = handle) :
    Apart handle readers (Function.update readers handle r) := by
  refine ⟨fun h' r' hr' => ?_, fun h' hne => Function.update_of_ne hne ..⟩
  by_cases heq : h' = handle
  · subst heq
    rw [Function.update_self] at hr'
    exact hr r' hr'
  · rw [Function.update_of_ne heq] at hr'
    exact h h' r' hr'

theorem fetchData_apart (h : Addressed readers) (b : Builder) (response : StructBuilder) :
    Yields (fun _ => True) (fun x => Apart rq.handle readers x.1) (fetchData rounds readers b response rq) := by
  have hsame : Apart rq.handle readers readers := ⟨h, fun _ _ => rfl⟩
  cases rq with
  | first handle it =>
      rw [fetchData]
      refine (yields_true _).bind (fun n _ => ?_)
      dsimp only
      split
      · exact hsame
      refine (yields_true _).bind (fun p _ => (yields_true _).bind (fun b _ => ?_))
      refine (fetchEntries_address ..).bind (fun x hx => ?_)
      split
      · exact hsame
      refine (yields_true _).bind (fun b _ => apart_update h (fun r' hr' => ?_))
      obtain rfl := Option.some.inj hr'
      exact hx
  | next handle =>
      rw [fetchData]
      cases hr : readers handle with
      | none => trivial
      | some r =>
          have haddress := h handle r hr
          refine (yields_true _).bind (fun b _ => (fetchEntries_address ..).bind (fun x hx => ?_))
          have hupdate : Apart handle readers (Function.update readers handle (some x.2.1)) := by
            refine apart_update h (fun r' hr' => ?_)
            obtain rfl := Option.some.inj hr'
            exact hx.trans haddress
          dsimp only
          split
          · rw [haddress, Function.update_idem]
            exact apart_update h (fun r' hr' => absurd hr' (by simp))
          · exact (yields_true _).bind (fun b _ => hupdate)
  | abort handle => exact apart_update h (fun r' hr' => absurd hr' (by simp))

theorem serve_apart (h : Addressed readers) :
    Yields (fun _ => True) (fun x => Apart rq.handle readers x.1) (serve rounds readers rq) := by
  rw [serve]
  refine (yields_true _).bind (fun _ _ => (yields_true _).bind (fun _ _ => (yields_true _).bind (fun _ _ => ?_)))
  exact (fetchData_apart h _ _).bind (fun x hx => hx)

theorem serve_eq (rounds : Nat) (readers : Readers) {rq : Request} (hrq : rq.response = structs 2) :
    serve rounds readers rq = fetchData rounds readers ⟨opened, bufferSize⟩ ⟨6, structs 2⟩ rq >>= fun x =>
      .ok (x.1, ((x.2.finalize ⟨6, structs 2⟩).finalize ⟨0, structs 0⟩).bytes) := by
  have hbegin : Builder.beginStruct ⟨[], bufferSize⟩ (structs 0) =
      .ok (⟨[0, 0, 0, 0, 0, 0], bufferSize⟩, ⟨0, structs 0⟩) := rfl
  have hoffset : Builder.setOffset ⟨[0, 0, 0, 0, 0, 0], bufferSize⟩ ⟨0, structs 0⟩ 1 =
      .ok ⟨[0, 0, 0, 0, 6, 0], bufferSize⟩ := rfl
  have hbegin' : Builder.beginStruct ⟨[0, 0, 0, 0, 6, 0], bufferSize⟩ (structs 2) =
      .ok (⟨opened, bufferSize⟩, ⟨6, structs 2⟩) := rfl
  rw [serve, hbegin, mapError_ok, ok_bind]
  dsimp only
  rw [hoffset, mapError_ok, ok_bind, hrq, hbegin', mapError_ok, ok_bind]
  rfl

/-- What has become of the reader of a handle: the stream has come to its end, or
it stands on what is left. -/
def Left (handle : Handle) (rest : List Part) (ended : Bool) (r : Option Reader) : Prop :=
  ended = true ∧ rest = [] ∧ r = none ∨ ended = false ∧ ∃ r', r = some r' ∧ r'.address = handle ∧ r'.Stands rest

theorem fetchEntries_answers {r : Reader} {ps : List Part} (hstands : r.Stands ps) (hps : ∀ p ∈ ps, Sendable p)
    (hrounds : ps.length ≤ rounds) :
    ∃ x r' b b' rest, fetchEntries rounds r ⟨withData, bufferSize⟩ = .ok (x.ended, r', b) ∧
      addRest r.address x.ended b = .ok b' ∧
      Carries r.address ((b'.finalize ⟨6, structs 2⟩).finalize ⟨0, structs 0⟩).bytes x ∧ x.entries ≠ [] ∧
      (x.entries.flatMap Entry.value).length ≤ bufferSize ∧ Sends ps x.entries rest ∧
      Left r.address rest x.ended (if x.ended then none else some r') := by
  obtain ⟨es, rest, r', flags, hentries, hfits, hsends, hremains, hsome⟩ :=
    fetchEntries_spec hstands hps hrounds withData (by decide)
  have hsmall : (es.flatMap Entry.value).length ≤ bufferSize := by
    have hvalues := values_le_size es
    rw [dataTree_size] at hfits
    omega
  rcases hremains with ⟨hrest, rfl⟩ | ⟨rfl, hstands', haddress⟩
  · obtain ⟨b', hadd, hcarries⟩ := @addRest_carries ⟨es, true⟩ r.address hfits hsends.flags_lt
    exact ⟨⟨es, true⟩, r', _, b', rest, hentries, hadd, hcarries, hsome, hsmall, hsends, .inl ⟨rfl, hrest, rfl⟩⟩
  · obtain ⟨b', hadd, hcarries⟩ := @addRest_carries ⟨es, false⟩ r.address hfits hsends.flags_lt
    exact ⟨⟨es, false⟩, r', _, b', rest, hentries, hadd, hcarries, hsome, hsmall, hsends,
      .inr ⟨rfl, r', rfl, haddress, hstands'⟩⟩

/-- A response to a request that has to do with a handle. -/
structure Answers (readers : Readers) (rq : Request) (rounds : Nat) (ps : List Part) (x : Response) (rest : List Part)
    (readers' : Readers) (bytes : List Byte) : Prop where
  serve_eq : serve rounds readers rq = .ok (readers', bytes)
  carries : Carries rq.handle bytes x
  some_entry : x.entries ≠ []
  small : (x.entries.flatMap Entry.value).length ≤ bufferSize
  sends : Sends ps x.entries rest
  left : Left rq.handle rest x.ended (readers' rq.handle)

theorem setOffset_opened : Builder.setOffset ⟨opened, bufferSize⟩ ⟨6, structs 2⟩ 1 = .ok ⟨withData, bufferSize⟩ := rfl

/-- Behind the data, in both of fetch_data's branches. -/
theorem addRest_bind (handle : Handle) (ended : Bool) (b : Builder) (done more : Readers) :
    (if ended = true then pure (done, b) else addHandle b ⟨6, structs 2⟩ handle >>= fun b => pure (more, b)) =
      addRest handle ended b >>= fun b => .ok (if ended then done else more, b) := by
  cases ended <;> rfl

theorem serve_next {r : Reader} {ps : List Part} (hr : readers handle = some r) (haddress : r.address = handle)
    (hstands : r.Stands ps) (hps : ∀ p ∈ ps, Sendable p) (hrounds : ps.length ≤ rounds) :
    ∃ x rest readers' bytes, Answers readers (.next handle) rounds ps x rest readers' bytes := by
  obtain ⟨x, r', b, b', rest, hentries, hadd, hcarries, hsome, hsmall, hsends, hleft⟩ :=
    fetchEntries_answers hstands hps hrounds
  subst haddress
  have hserve := serve_eq rounds readers (show (Request.next r.address).response = structs 2 from rfl)
  rw [fetchData] at hserve
  simp only [hr] at hserve
  rw [setOffset_opened, mapError_ok, ok_bind, hentries, ok_bind] at hserve
  dsimp only at hserve
  rw [addRest_bind, hadd, ok_bind, ok_bind] at hserve
  refine ⟨x, rest, _, _, hserve, hcarries, hsome, hsmall, hsends, ?_⟩
  have hreader : (if x.ended then Function.update (Function.update readers r.address (some r')) r.address none
      else Function.update readers r.address (some r')) r.address = if x.ended then none else some r' := by
    cases x.ended <;> exact Function.update_self ..
  rw [← hreader] at hleft
  exact hleft

theorem serve_first {it it' : UshardIterator} {p : Part} {ps : List Part} (hnone : readers handle = none)
    (hnext : it.next = .ok (true, it')) (hcurrent : it'.current = .ok p) (hleads : Leads it' ps)
    (hps : ∀ q ∈ p :: ps, Sendable q) (hrounds : (p :: ps).length ≤ rounds) :
    ∃ x rest readers' bytes, Answers readers (.first handle it) rounds (p :: ps) x rest readers' bytes := by
  have hstands : Reader.Stands ⟨handle, it', p.value⟩ (p :: ps) := ⟨p, ps, hcurrent, hleads, rfl⟩
  obtain ⟨x, r', b, b', rest, hentries, hadd, hcarries, hsome, hsmall, hsends, hleft⟩ :=
    fetchEntries_answers hstands hps hrounds
  have hserve := serve_eq rounds readers (show (Request.first handle it).response = structs 2 from rfl)
  rw [fetchData, hnext, mapError_ok, ok_bind] at hserve
  dsimp only at hserve
  rw [if_neg (by decide), hcurrent, mapError_ok, ok_bind, setOffset_opened, mapError_ok, ok_bind, hentries,
    ok_bind] at hserve
  dsimp only at hserve
  rw [addRest_bind, hadd, ok_bind, ok_bind] at hserve
  refine ⟨x, rest, _, _, hserve, hcarries, hsome, hsmall, hsends, ?_⟩
  have hreader : (if x.ended then readers else Function.update readers handle (some r')) handle =
      if x.ended then none else some r' := by
    cases x.ended
    · exact Function.update_self ..
    · exact hnone
  rw [← hreader] at hleft
  exact hleft

end Frame

section Sessions

variable {rounds : Nat} {readers readers' : Readers} {handle : Handle} {rs : List Record} {ps : List Part}

def noReaders : Readers := fun _ => none

/-- A step of the server, with the request and the response. -/
def Serves (rounds : Nat) (readers : Readers) (a : Request × List Byte) (readers' : Readers) : Prop :=
  serve rounds readers a.1 = .ok (readers', a.2)

theorem run_addressed {ts : List (Readers × (Request × List Byte) × Readers)}
    (hrun : Run (Serves rounds) noReaders ts readers) : Addressed readers :=
  hrun.invariant Addressed (fun _ _ h => absurd h (by simp [noReaders]))
    (fun _ _ _ h hs => ((serve_apart h).of_ok hs).addressed)

def Request.isNext (handle : Handle) : Request → Bool
  | .next h => h = handle
  | _ => false

/-- The responses to the further requests with a handle, oldest first. -/
def answersTo (handle : Handle) (ts : List (Readers × (Request × List Byte) × Readers)) : List (List Byte) :=
  (ts.filter (fun t => t.2.1.1.isNext handle)).map (fun t => t.2.1.2)

/-- The handle is used for nothing but to fetch on. -/
def FetchesOn (handle : Handle) (ts : List (Readers × (Request × List Byte) × Readers)) : Prop :=
  ∀ t ∈ ts, t.2.1.1.handle = handle → t.2.1.1.isNext handle = true

/-- What a fetch has sent, and where its reader is. -/
def Fetched (handle : Handle) (ps : List Part) (answers : List (List Byte)) (r : Option Reader) : Prop :=
  ∃ opening last rest, List.Forall₂ (Carries handle) answers (opening ++ [last]) ∧
    (∀ x ∈ opening, x.ended = false) ∧ (∀ x ∈ opening ++ [last], x.entries ≠ []) ∧
    Sends ps ((opening ++ [last]).flatMap Response.entries) rest ∧ Left handle rest last.ended r

theorem sendable_drop (p : Part) (n : Nat) (h : Sendable p) : Sendable { p with value := p.value.drop n } := by
  have hvalue := h.value_fits
  refine ⟨h.key_fits, ?_⟩
  rw [List.length_drop]
  omega

theorem serve_ended {a : List Byte} (hnone : readers handle = none) :
    ¬ Serves rounds readers (.next handle, a) readers' := by
  intro hserve
  rw [Serves, serve_eq rounds readers (show (Request.next handle).response = structs 2 from rfl), fetchData] at hserve
  simp only [hnone] at hserve
  cases hserve

/-- As long as the reader is there, the server has a further response for it. -/
theorem Fetched.goes_on {answers : List (List Byte)} (h : Fetched handle ps answers (readers handle))
    (hps : ∀ p ∈ ps, Sendable p) (hrounds : ps.length ≤ rounds) (hsome : readers handle ≠ none) :
    ∃ readers' bytes, Serves rounds readers (.next handle, bytes) readers' ∧
      Fetched handle ps (answers ++ [bytes]) (readers' handle) := by
  obtain ⟨opening, last, rest, hcarries, hopen, hentries, hsends, hleft⟩ := h
  rcases hleft with ⟨-, -, hnone⟩ | ⟨hlast, r, hr, haddress, hstands⟩
  · exact absurd hnone hsome
  · obtain ⟨hrest, hlen⟩ := hsends.rest_of sendable_drop hps
    obtain ⟨x, rest', readers', bytes, hserve, hcarries', hentries', -, hsends', hleft'⟩ :=
      serve_next hr haddress hstands hrest (Nat.le_trans hlen hrounds)
    refine ⟨readers', bytes, hserve, opening ++ [last], x, rest', ?_, ?_, ?_, ?_, hleft'⟩
    · exact List.rel_append hcarries (.cons hcarries' .nil)
    · simpa [or_imp, forall_and] using ⟨hopen, hlast⟩
    · intro y hy
      rcases List.mem_append.mp hy with hy | hy
      · exact hentries y hy
      · rw [List.mem_singleton.mp hy]
        exact hentries'
    · rw [List.flatMap_append, List.flatMap_singleton]
      exact hsends.trans hsends'

theorem Fetched.next {answers : List (List Byte)} {bytes : List Byte} (h : Fetched handle ps answers (readers handle))
    (hps : ∀ p ∈ ps, Sendable p) (hrounds : ps.length ≤ rounds)
    (hs : Serves rounds readers (.next handle, bytes) readers') :
    Fetched handle ps (answers ++ [bytes]) (readers' handle) := by
  obtain ⟨readers₁, bytes₁, hserve, hmore⟩ := h.goes_on hps hrounds (fun hnone => serve_ended hnone hs)
  obtain ⟨rfl, rfl⟩ := Prod.mk.inj (Except.ok.inj (hserve.symm.trans hs))
  exact hmore

theorem answersTo_snoc (handle : Handle) (ts : List (Readers × (Request × List Byte) × Readers))
    (t : Readers × (Request × List Byte) × Readers) : answersTo handle (ts ++ [t]) =
      answersTo handle ts ++ if t.2.1.1.isNext handle then [t.2.1.2] else [] := by
  rw [answersTo, List.filter_append, List.map_append, answersTo]
  cases hnext : t.2.1.1.isNext handle <;> simp [hnext]

theorem isNext_eq {rq : Request} (h : rq.isNext handle = true) : rq = .next handle := by
  cases rq with
  | next h' => exact congrArg Request.next (of_decide_eq_true h)
  | first => exact absurd h (by simp [Request.isNext])
  | abort => exact absurd h (by simp [Request.isNext])

theorem run_fetched {bytes : List Byte} (haddressed : Addressed readers)
    (h : Fetched handle ps [bytes] (readers handle)) (hps : ∀ p ∈ ps, Sendable p) (hrounds : ps.length ≤ rounds)
    {ts : List (Readers × (Request × List Byte) × Readers)} {u : Readers} (hrun : Run (Serves rounds) readers ts u)
    (hon : FetchesOn handle ts) : Addressed u ∧ Fetched handle ps (bytes :: answersTo handle ts) (u handle) := by
  induction hrun with
  | refl => exact ⟨haddressed, h⟩
  | @tail ts u v a hrun hs ih =>
      obtain ⟨hu, hfetched⟩ := ih (fun t ht => hon t (List.mem_append_left _ ht))
      have hlast := hon _ (List.mem_append_right ts (List.mem_singleton_self (u, a, v)))
      have hapart := (serve_apart hu).of_ok hs
      refine ⟨hapart.addressed, ?_⟩
      obtain ⟨rq, answer⟩ := a
      rw [answersTo_snoc]
      by_cases heq : rq.handle = handle
      · have hnext : rq.isNext handle = true := hlast heq
        obtain rfl := isNext_eq hnext
        rw [if_pos hnext, ← List.cons_append]
        exact hfetched.next hps hrounds hs
      · have hother : ¬ rq.isNext handle = true := fun hnext => heq (by rw [isNext_eq hnext]; rfl)
        have hsame : v handle = u handle := hapart.same handle (Ne.symm heq)
        rw [if_neg hother, List.append_nil, hsame]
        exact hfetched

/-- The entries of the responses are the records, cut in another way; the last
response alone says that it is the last one. -/
def Reassembles (handle : Handle) (rs : List Record) (answers : List (List Byte)) : Prop :=
  ∃ opening last, List.Forall₂ (Carries handle) answers (opening ++ [last]) ∧ last.ended = true ∧
    (∀ x ∈ opening, x.ended = false) ∧ (∀ x ∈ opening ++ [last], x.entries ≠ []) ∧
    Recut rs ((opening ++ [last]).flatMap Response.entries)

theorem Fetched.reassembles {answers : List (List Byte)} (h : Fetched handle (rs.flatMap Record.parts) answers none) :
    Reassembles handle rs answers := by
  obtain ⟨opening, last, rest, hcarries, hopen, hsome, hsends, hleft⟩ := h
  rcases hleft with ⟨hended, rfl, -⟩ | ⟨-, r, hr, -⟩
  · exact ⟨opening, last, hcarries, hended, hopen, hsome, hsends.recut⟩
  · exact absurd hr (by simp)

theorem Fetched.length_le {answers : List (List Byte)} {r : Option Reader} (h : Fetched handle ps answers r) :
    answers.length ≤ weight ps := by
  obtain ⟨opening, last, rest, hcarries, -, hsome, hsends, -⟩ := h
  have hcount : ∀ xs : List Response, (∀ x ∈ xs, x.entries ≠ []) →
      xs.length ≤ (xs.flatMap Response.entries).length := by
    intro xs hxs
    induction xs with
    | nil => exact Nat.le_refl _
    | cons x xs ih =>
        obtain ⟨hx, hxs⟩ := List.forall_mem_cons.mp hxs
        have hpos := List.length_pos_of_ne_nil hx
        have hrest := ih hxs
        rw [List.flatMap_cons, List.length_append, List.length_cons]
        omega
  have hweight := hsends.weight_le
  have hentries := hcount _ hsome
  rw [hcarries.length_eq]
  omega

theorem sendable_parts {p : Part} (hp : p ∈ rs.flatMap Record.parts) (hvalue : p.value.length < 65536) : Sendable p := by
  obtain ⟨r, -, hpr⟩ := List.mem_flatMap.mp hp
  have hkey : ∀ vs, ∀ q ∈ r.partsOf vs, q.key = r.key := by
    intro vs
    induction vs with
    | nil => simp [Record.partsOf]
    | cons v vs ih =>
        rw [Record.partsOf]
        exact List.forall_mem_cons.mpr ⟨rfl, ih⟩
  refine ⟨?_, hvalue⟩
  rw [hkey _ p hpr]
  exact r.key_fits

/-- A response with neither data nor a handle. -/
def CarriesNothing (bytes : List Byte) : Prop :=
  bytes.length ≤ bufferSize ∧
    (Tree.struct 0 (.add 1 (.struct 2 .done) .done)).Shows structs bytes (.one (.struct 0)) 0

theorem serve_empty {it : UshardIterator} (hleads : Leads it []) :
    ∃ bytes, serve rounds readers (.first handle it) = .ok (readers, bytes) ∧ CarriesNothing bytes := by
  obtain ⟨hnext⟩ := hleads
  have hserve := serve_eq rounds readers (show (Request.first handle it).response = structs 2 from rfl)
  rw [fetchData, hnext, mapError_ok, ok_bind] at hserve
  have htyped : (Tree.struct 0 (.add 1 (.struct 2 .done) .done)).WellTyped structs (.one (.struct 0)) :=
    ⟨rfl, ⟨rfl, trivial⟩, by simp [Calls.added], trivial⟩
  obtain ⟨b, hbuild, hlength, hshows⟩ := message_round_trip structs structs_wide 0 _ bufferSize htyped (by decide)
    (by decide)
  rw [build_response] at hbuild
  obtain rfl := Except.ok.inj hbuild
  exact ⟨_, hserve, by rw [hlength]; decide, hshows⟩

/-- The first response of a fetch; more bytes than it has room for leave a reader. -/
theorem serve_started {it : UshardIterator} (hnone : readers handle = none) (hleads : Leads it ps) (hne : ps ≠ [])
    (hps : ∀ p ∈ ps, Sendable p) (hrounds : ps.length ≤ rounds) :
    ∃ readers' bytes, serve rounds readers (.first handle it) = .ok (readers', bytes) ∧
      Fetched handle ps [bytes] (readers' handle) ∧
      (bufferSize < (ps.flatMap Part.value).length → readers' handle ≠ none) := by
  cases hleads with
  | ends => exact absurd rfl hne
  | more hnext hcurrent hleads =>
      obtain ⟨x, rest, readers', bytes, hserve, hcarries, hsome, hsmall, hsends, hleft⟩ :=
        serve_first hnone hnext hcurrent hleads hps hrounds
      refine ⟨readers', bytes, hserve, ⟨[], x, rest, .cons hcarries .nil, by simp, by simpa using hsome, ?_, hleft⟩,
        fun hlarge hended => ?_⟩
      · simpa using hsends
      · rcases hleft with ⟨-, rfl, -⟩ | ⟨-, r, hr, -⟩
        · have hvalues := congrArg List.length hsends.values
          rw [List.flatMap_nil, List.append_nil] at hvalues
          omega
        · exact absurd (hr.symm.trans hended) (Option.some_ne_none r)

/-- A stream of records is fetched in responses that reassemble it, whatever others
ask the server for; where there are no records, the only response has no data. -/
theorem fetch_reassembles {before : List (Readers × (Request × List Byte) × Readers)}
    (hrun : Run (Serves rounds) noReaders before readers) (hnone : readers handle = none) {it : UshardIterator}
    {drained : Nat} (hstream : it.drain drained = .ok (rs.flatMap Record.parts))
    (hvalues : ∀ p ∈ rs.flatMap Record.parts, p.value.length < 65536)
    (hrounds : (rs.flatMap Record.parts).length ≤ rounds) :
    (rs = [] → ∃ bytes, serve rounds readers (.first handle it) = .ok (readers, bytes) ∧ CarriesNothing bytes) ∧
    (rs ≠ [] → ∃ readers' bytes, serve rounds readers (.first handle it) = .ok (readers', bytes) ∧
      ∀ ts u, Run (Serves rounds) readers' ts u → FetchesOn handle ts →
        (bytes :: answersTo handle ts).length ≤ weight (rs.flatMap Record.parts) ∧
        (u handle = none → Reassembles handle rs (bytes :: answersTo handle ts)) ∧
        (u handle ≠ none → ∃ u' bytes', serve rounds u (.next handle) = .ok (u', bytes'))) := by
  have hleads := leads_of_drain hstream
  have hps : ∀ p ∈ rs.flatMap Record.parts, Sendable p := fun p hp => sendable_parts hp (hvalues p hp)
  constructor
  · rintro rfl
    exact serve_empty hleads
  · intro hne
    have hparts : rs.flatMap Record.parts ≠ [] := by
      obtain ⟨r, rs, rfl⟩ := List.exists_cons_of_ne_nil hne
      simp [Record.parts, Record.partsOf]
    obtain ⟨readers', bytes, hserve, hfetched, -⟩ := serve_started hnone hleads hparts hps hrounds
    refine ⟨readers', bytes, hserve, fun ts u hrun' hon => ?_⟩
    have haddressed := ((serve_apart (run_addressed hrun)).of_ok hserve).addressed
    obtain ⟨-, hlater⟩ := run_fetched haddressed hfetched hps hrounds hrun' hon
    refine ⟨hlater.length_le, fun hended => ?_, fun hgoes => ?_⟩
    · rw [hended] at hlater
      exact hlater.reassembles
    · obtain ⟨u', bytes', hserve', -⟩ := hlater.goes_on hps hrounds hgoes
      exact ⟨u', bytes', hserve'⟩

/-- A client that goes on asking comes to the end: each response sends something of
what is left. -/
theorem exists_ended {answers : List (List Byte)} (h : Fetched handle ps answers (readers handle))
    (hps : ∀ p ∈ ps, Sendable p) (hrounds : ps.length ≤ rounds) :
    ∃ ts u, Run (Serves rounds) readers ts u ∧ u handle = none ∧ (∀ t ∈ ts, t.2.1.1 = .next handle) ∧
      (readers handle ≠ none → ts ≠ []) := by
  induction hleft : weight ps - answers.length using Nat.strong_induction_on generalizing readers answers with
  | _ n ih =>
      by_cases hended : readers handle = none
      · exact ⟨[], readers, .refl, hended, fun t ht => absurd ht List.not_mem_nil, fun hsome => absurd hended hsome⟩
      · obtain ⟨readers', bytes, hserve, hmore⟩ := h.goes_on hps hrounds hended
        have hlen := hmore.length_le
        rw [List.length_append, List.length_singleton] at hlen
        have hless : weight ps - (answers ++ [bytes]).length < n := by
          rw [List.length_append, List.length_singleton]
          omega
        obtain ⟨ts, u, hrun, hdone, hnext, -⟩ := ih _ hless hmore rfl
        exact ⟨(readers, (.next handle, bytes), readers') :: ts, u, Run.head hserve hrun, hdone,
          List.forall_mem_cons.mpr ⟨rfl, hnext⟩, fun _ => List.cons_ne_nil _ _⟩

/-- A part that leaves no room in a response for another one of its size. -/
def largePart (b : Byte) : List Byte := List.replicate 8000 b

theorem length_largePart (b : Byte) : (largePart b).length = 8000 := List.length_replicate

def largeRecord : Record := ⟨[97], 1, false, largePart 98, [largePart 99], by decide, by decide⟩

def deletedRecord : Record := ⟨[98], 1, true, [], [], by decide, by decide⟩

def twoRecords : UshardIterator :=
  { elements := [⟨⟨[97], largePart 98, false, false, 1⟩, [⟨[97], largePart 99, true, false, 1⟩, ⟨[98], [], true, true, 1⟩]⟩] }

theorem drain_twoRecords : twoRecords.drain 4 = .ok ([largeRecord, deletedRecord].flatMap Record.parts) := rfl

theorem fetch_reassembles_cut : twoRecords.drain 4 = .ok ([largeRecord, deletedRecord].flatMap Record.parts) ∧
    ∃ readers bytes ts u, serve 3 noReaders (.first 5 twoRecords) = .ok (readers, bytes) ∧
      Run (Serves 3) readers ts u ∧ FetchesOn 5 ts ∧ answersTo 5 ts ≠ [] ∧ u 5 = none ∧
      Reassembles 5 [largeRecord, deletedRecord] (bytes :: answersTo 5 ts) := by
  have hbefore : Run (Serves 3) noReaders [] noReaders := .refl
  have hvalues : ∀ p ∈ [largeRecord, deletedRecord].flatMap Record.parts, p.value.length < 65536 := by
    intro p hp
    obtain ⟨b, hb⟩ | hb : (∃ b, p.value = largePart b) ∨ p.value = [] := by
      rcases List.mem_cons.mp hp with rfl | hp
      · exact .inl ⟨98, rfl⟩
      rcases List.mem_cons.mp hp with rfl | hp
      · exact .inl ⟨99, rfl⟩
      · exact .inr (by rw [List.mem_singleton.mp hp]; rfl)
    · rw [hb, length_largePart]
      decide
    · rw [hb]
      decide
  have hlarge : bufferSize < (([largeRecord, deletedRecord].flatMap Record.parts).flatMap Part.value).length := by
    change bufferSize < (largePart 98 ++ (largePart 99 ++ [])).length
    rw [List.length_append, List.length_append, length_largePart, length_largePart]
    decide
  have hps : ∀ p ∈ [largeRecord, deletedRecord].flatMap Record.parts, Sendable p :=
    fun p hp => sendable_parts hp (hvalues p hp)
  have hnone : noReaders 5 = none := rfl
  have hrounds : ([largeRecord, deletedRecord].flatMap Record.parts).length ≤ 3 := le_rfl
  obtain ⟨readers, bytes, hserve, hruns⟩ :=
    (fetch_reassembles hbefore hnone drain_twoRecords hvalues hrounds).2 (List.cons_ne_nil _ _)
  obtain ⟨readers₁, bytes₁, hserve₁, hfetched, hmore⟩ :=
    serve_started hnone (leads_of_drain drain_twoRecords) (List.cons_ne_nil _ _) hps hrounds
  obtain ⟨rfl, rfl⟩ := Prod.mk.inj (Except.ok.inj (hserve₁.symm.trans hserve))
  obtain ⟨ts, u, hrun, hended, hnext, hasks⟩ := exists_ended hfetched hps hrounds
  have hon : FetchesOn 5 ts := fun t ht _ => by rw [hnext t ht]; rfl
  refine ⟨drain_twoRecords, _, _, ts, u, hserve, hrun, hon, ?_, hended, (hruns ts u hrun hon).2.1 hended⟩
  obtain ⟨t, ts, rfl⟩ := List.exists_cons_of_ne_nil (hasks (hmore hlarge))
  rw [answersTo, List.filter_cons_of_pos (by rw [hnext t (List.mem_cons_self ..)]; rfl)]
  exact List.cons_ne_nil _ _

/-- No responses at all could say nothing but entries of a stream without records,
and each of them an entry. -/
theorem not_reassembles_nil (handle : Handle) (answers : List (List Byte)) : ¬ Reassembles handle [] answers := by
  rintro ⟨opening, last, -, -, -, hsome, rs, hentries, hversions⟩
  obtain rfl := List.map_eq_nil_iff.mp hversions
  refine hsome last (List.mem_append_right _ (List.mem_singleton_self _)) ?_
  exact List.flatMap_eq_nil_iff.mp hentries last (List.mem_append_right _ (List.mem_singleton_self _))

/-- No entry and no end flag, where there are no records. -/
theorem fetch_nothing : UshardIterator.drain 1 { elements := [] } = .ok [] ∧
    ∃ bytes, serve 1 noReaders (.first 5 { elements := [] }) = .ok (noReaders, bytes) ∧
      (∀ x, ¬ Carries 5 bytes x) ∧ ∀ answers, ¬ Reassembles 5 [] answers := by
  refine ⟨rfl, [10, 0, 0, 0, 6, 0, 4, 0, 0, 0, 0, 0], rfl, fun x hx => ?_, not_reassembles_nil 5⟩
  obtain ⟨-, -, p, hp, -, -, -, hcalls, -⟩ := hx
  obtain rfl := Except.ok.inj hp
  obtain ⟨offset, hoffset, -, p, hp, -, hhas, -⟩ := hcalls
  obtain rfl : 6 = offset := Except.ok.inj hoffset
  obtain rfl := Except.ok.inj hp
  have hdata := hhas 1 (by decide)
  have hread : StructParser.hasOffset [10, 0, 0, 0, 6, 0, 4, 0, 0, 0, 0, 0] ⟨6, structs 2⟩ 1 = .ok false := rfl
  rw [hread] at hdata
  have hadded := Except.ok.inj hdata
  simp [Response.calls, Calls.added] at hadded

end Sessions

end Tyrdbs.Server.Fetch
