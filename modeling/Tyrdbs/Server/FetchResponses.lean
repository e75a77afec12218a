import Tyrdbs.Server.Reassembly

namespace Tyrdbs.Server.Fetch

open Bytes Message Outcome Ushard

section Sizes

variable {b : Builder} {key : Key} {e : Entry} {es : List Entry}

theorem availableSpace_eq (h : b.bytes.length ≤ b.maxSize) (hmax : b.maxSize < 2 ^ 16) :
    availableSpace b = b.maxSize - b.bytes.length := by
  rw [availableSpace]
  omega

theorem bytesRequired_eq (h : key.length < maxKeySize) : bytesRequired key = key.length + 21 := by
  have hmax : maxKeySize = 1024 := rfl
  have hmin : (structs 5).minSize = 9 := rfl
  rw [bytesRequired, hmin]
  omega

theorem entryFlags_lt (eor deleted : Bool) : entryFlags eor deleted < 256 := by
  cases eor <;> cases deleted <;> decide

theorem entryFlags_cut (eor deleted : Bool) : entryFlags eor deleted &&& 0xfe = entryFlags false deleted := by
  cases eor <;> cases deleted <;> rfl

theorem entry_size (e : Entry) : e.tree.size structs (.one (.struct 5)) = 13 + e.key.length + e.value.length := by
  have hsize : e.tree.size structs (.one (.struct 5)) = 9 + (2 + e.key.length + (2 + e.value.length + 0)) := rfl
  omega

theorem entry_wellTyped (h : e.flags < 256) : e.tree.WellTyped structs (.one (.struct 5)) := by
  refine ⟨rfl, ⟨.scalar .uint8, rfl, h⟩, trivial, ?_, trivial, ?_, trivial⟩ <;> simp [Calls.added]

def treesOf : List Entry → Trees
  | [] => .nil
  | e :: es => .cons e.tree (treesOf es)

theorem length_treesOf (es : List Entry) : (treesOf es).length = es.length := by
  induction es with
  | nil => rfl
  | cons e es ih => exact congrArg (· + 1) ih

theorem values_le_size (es : List Entry) : (es.flatMap Entry.value).length ≤ (treesOf es).size structs (.struct 5) := by
  induction es with
  | nil => exact Nat.zero_le _
  | cons e es ih =>
      rw [List.flatMap_cons, List.length_append, treesOf, Trees.size, entry_size]
      omega

theorem treesOf_wellTyped (h : ∀ e ∈ es, e.flags < 256) : (treesOf es).WellTyped structs (.struct 5) := by
  induction es with
  | nil => trivial
  | cons e es ih =>
      obtain ⟨he, hes⟩ := List.forall_mem_cons.mp h
      exact ⟨entry_wellTyped he, ih hes⟩

theorem Sends.flags_lt {ps rest : List Part} (h : Sends ps es rest) : ∀ e ∈ es, e.flags < 256 := by
  induction h with
  | stops => simp
  | cut _ _ _ ih => exact List.forall_mem_cons.mpr ⟨entryFlags_lt _ _, ih⟩
  | whole _ ih => exact List.forall_mem_cons.mpr ⟨entryFlags_lt _ _, ih⟩

theorem length_entry (h : e.flags < 256) :
    (e.tree.encode structs (.one (.struct 5))).length = 13 + e.key.length + e.value.length := by
  rw [Tree.length_encode _ _ (entry_wellTyped h).formed, entry_size]

theorem addEntry_eq (he : e.flags < 256) (pre body : List Byte) (n : Nat)
    (hspace : pre.length + 2 + body.length + (13 + e.key.length + e.value.length) ≤ bufferSize) :
    e.tree.build structs (Builder.addElement ⟨pre ++ littleEndian 2 n ++ body, bufferSize⟩ pre.length)
      (.one (.struct 5)) =
    .ok ⟨pre ++ littleEndian 2 (n + 1) ++ (body ++ e.tree.encode structs (.one (.struct 5))), bufferSize⟩ := by
  have hfits : (pre ++ littleEndian 2 (n + 1) ++ body).length + e.tree.size structs (.one (.struct 5)) ≤ bufferSize := by
    rw [List.length_append, List.length_append, length_littleEndian, entry_size]
    exact hspace
  rw [addElement_eq, Tree.build_eq _ _ _ (entry_wellTyped he) (show bufferSize < 65536 by decide) hfits, Builder.put,
    List.append_assoc]

end Sizes

/-- A reader stands on parts, the first of them without what was sent of its value. -/
def Reader.Stands (r : Reader) (ps : List Part) : Prop :=
  ∃ p rest, r.iterator.current = .ok p ∧ Leads r.iterator rest ∧ ps = { p with value := r.valuePart } :: rest

/-- What fetch_entries can send: the size of a part fits in 16 bits, as that of a node does. -/
structure Sendable (p : Part) : Prop where
  key_fits : p.key.length < maxKeySize
  value_fits : p.value.length < 65536

/-- Where a response ends: at the end of the stream, or before parts that are left. -/
def Remains (address : Handle) (rest : List Part) (flags : Nat) (r : Reader) : Prop :=
  rest = [] ∧ flags = 1 ∨ flags = 0 ∧ r.Stands rest ∧ r.address = address

theorem mapError_ok {ε ε' α : Type} (f : ε → ε') (a : α) : (Except.ok a).mapError f = .ok a := rfl

section Rounds

variable {rounds : Nat} {r : Reader} {b b' : Builder} {p q : Part} {entries : Nat} {it : UshardIterator}

theorem fetchLoop_full (hcurrent : r.iterator.current = .ok p) (hfull : availableSpace b ≤ bytesRequired p.key) :
    fetchLoop (rounds + 1) r b entries = .ok (r, b, 0) := by
  rw [fetchLoop, hcurrent, mapError_ok, ok_bind, if_pos hfull]
  rfl

theorem fetchLoop_cut (hcurrent : r.iterator.current = .ok p) {size : Nat}
    (hroom : availableSpace b = bytesRequired p.key + size) (hpos : 0 < size) (hlt : size < r.valuePart.length)
    (hvalue : r.valuePart.length < 65536)
    (hbuild : (Entry.ofPart { p with value := r.valuePart.take size, eor := false }).tree.build structs
      (b.addElement entries) (.one (.struct 5)) = .ok b') :
    fetchLoop (rounds + 1) r b entries = .ok ({ r with valuePart := r.valuePart.drop size }, b', 0) := by
  have hmore : ¬ availableSpace b ≤ bytesRequired p.key := by omega
  have hsize : min (availableSpace b - bytesRequired p.key) r.valuePart.length = size := by omega
  have hne : size ≠ r.valuePart.length := Nat.ne_of_lt hlt
  have hbuild : (Entry.tree ⟨entryFlags p.eor p.deleted &&& 0xfe, p.key, r.valuePart.take size⟩).build structs
      (b.addElement entries) (.one (.struct 5)) = .ok b' := by
    rw [entryFlags_cut]
    exact hbuild
  rw [fetchLoop, hcurrent, mapError_ok, ok_bind, if_neg hmore, check_of hvalue, ok_bind]
  dsimp only
  rw [hsize, if_pos hne, hbuild, mapError_ok, ok_bind, if_pos hne]
  rfl

theorem fetchLoop_whole (hcurrent : r.iterator.current = .ok p)
    (hroom : bytesRequired p.key + r.valuePart.length ≤ availableSpace b)
    (hsome : bytesRequired p.key < availableSpace b) (hvalue : r.valuePart.length < 65536)
    (hbuild : (Entry.ofPart { p with value := r.valuePart }).tree.build structs (b.addElement entries)
      (.one (.struct 5)) = .ok b') :
    fetchLoop (rounds + 1) r b entries = (r.iterator.next.mapError .iterator >>= fun n =>
      if n.1 = false then .ok ({ r with iterator := n.2 }, b', 1)
      else n.2.current.mapError .iterator >>= fun p =>
        fetchLoop rounds { r with iterator := n.2, valuePart := p.value } b' entries) := by
  have hmore : ¬ availableSpace b ≤ bytesRequired p.key := Nat.not_le.mpr hsome
  have hsize : min (availableSpace b - bytesRequired p.key) r.valuePart.length = r.valuePart.length := by omega
  have hbuild : (Entry.tree ⟨entryFlags p.eor p.deleted, p.key, r.valuePart⟩).build structs (b.addElement entries)
      (.one (.struct 5)) = .ok b' := hbuild
  rw [fetchLoop, hcurrent, mapError_ok, ok_bind, if_neg hmore, check_of hvalue, ok_bind]
  dsimp only
  rw [hsize, if_neg (not_not.mpr rfl), List.take_length, hbuild, mapError_ok, ok_bind, if_neg (not_not.mpr rfl)]
  rfl

end Rounds

section Loop

variable {r : Reader} {ps : List Part} {pre body : List Byte} {n : Nat}

/-- What the loop appends to a list, at least an entry when there is room for one,
and where it leaves the reader. -/
def Fills (roomy : Prop) (pre body : List Byte) (n : Nat) (r : Reader) (ps : List Part)
    (result : Except Fault (Reader × Builder × Nat)) : Prop :=
  ∃ es rest r' flags,
    result = .ok (r', ⟨pre ++ littleEndian 2 (n + es.length) ++ (body ++ (treesOf es).encode structs (.struct 5)),
      bufferSize⟩, flags) ∧
    pre.length + 2 + body.length + (treesOf es).size structs (.struct 5) + 8 ≤ bufferSize ∧
    Sends ps es rest ∧ Remains r.address rest flags r' ∧ (roomy → es ≠ [])

theorem fills_nothing {roomy : Prop} (hnot : ¬ roomy) {r' : Reader} {flags : Nat}
    (hremains : Remains r.address ps flags r') (hroom : pre.length + 2 + body.length + 8 ≤ bufferSize) :
    Fills roomy pre body n r ps (.ok (r', ⟨pre ++ littleEndian 2 n ++ body, bufferSize⟩, flags)) := by
  refine ⟨[], ps, r', flags, ?_, hroom, .stops _, hremains, fun h => absurd h hnot⟩
  rw [treesOf, Trees.encode, List.append_nil]
  rfl

theorem Fills.cons {roomy roomy' : Prop} {e : Entry} {ps : List Part} {r₁ : Reader}
    {result : Except Fault (Reader × Builder × Nat)}
    (h : Fills roomy pre (body ++ e.tree.encode structs (.one (.struct 5))) (n + 1) r₁ ps result) (he : e.flags < 256)
    (haddress : r₁.address = r.address) {left : List Part}
    (hsends : ∀ es rest, Sends ps es rest → Sends left (e :: es) rest) : Fills roomy' pre body n r left result := by
  obtain ⟨es, rest, r', flags, hresult, hfits, hsent, hremains, -⟩ := h
  refine ⟨e :: es, rest, r', flags, ?_, ?_, hsends es rest hsent, haddress ▸ hremains, fun _ => List.cons_ne_nil _ _⟩
  · rw [hresult, List.length_cons, treesOf, Trees.encode, List.append_assoc body, Nat.add_assoc n, Nat.add_comm 1]
  · rw [List.length_append, length_entry he] at hfits
    rw [treesOf, Trees.size, entry_size]
    omega

theorem fills_last {roomy : Prop} {e : Entry} {left rest : List Part} {r' : Reader} {flags : Nat} (he : e.flags < 256)
    (haddress : r'.address = r.address) (hremains : Remains r.address rest flags r')
    (hroom : pre.length + 2 + body.length + (13 + e.key.length + e.value.length) + 8 ≤ bufferSize)
    (hsends : ∀ es rest', Sends rest es rest' → Sends left (e :: es) rest') :
    Fills roomy pre body n r left (.ok (r', ⟨pre ++ littleEndian 2 (n + 1) ++
      (body ++ e.tree.encode structs (.one (.struct 5))), bufferSize⟩, flags)) := by
  refine Fills.cons (fills_nothing (r := r') not_false (haddress ▸ hremains) ?_) he haddress hsends
  rw [List.length_append, length_entry he]
  omega

theorem availableSpace_open (h : pre.length + 2 + body.length ≤ bufferSize) :
    availableSpace ⟨pre ++ littleEndian 2 n ++ body, bufferSize⟩ = bufferSize - (pre.length + 2 + body.length) := by
  have hlen : (pre ++ littleEndian 2 n ++ body).length = pre.length + 2 + body.length := by
    rw [List.length_append, List.length_append, length_littleEndian]
  rw [availableSpace_eq (hlen ▸ h) (show bufferSize < 2 ^ 16 by decide), hlen]

variable {rounds : Nat} {p : Part} {tl : List Part}

theorem fills_whole {roomy : Prop} (hcurrent : r.iterator.current = .ok p) (hleads : Leads r.iterator tl)
    (hkey : p.key.length < maxKeySize) (hvalue : r.valuePart.length < 65536)
    (hspace : pre.length + 2 + body.length + (21 + p.key.length + r.valuePart.length) ≤ bufferSize)
    (hsome : pre.length + 2 + body.length + (21 + p.key.length) < bufferSize)
    (hothers : ∀ body' r', r'.Stands tl → pre.length + 2 + body'.length + 8 ≤ bufferSize →
      ∃ roomy, Fills roomy pre body' (n + 1) r' tl
        (fetchLoop rounds r' ⟨pre ++ littleEndian 2 (n + 1) ++ body', bufferSize⟩ pre.length)) :
    Fills roomy pre body n r ({ p with value := r.valuePart } :: tl)
      (fetchLoop (rounds + 1) r ⟨pre ++ littleEndian 2 n ++ body, bufferSize⟩ pre.length) := by
  have hrequired := bytesRequired_eq hkey
  have havailable := @availableSpace_open pre body n (by omega)
  have hflags := entryFlags_lt p.eor p.deleted
  have hbuild := addEntry_eq (e := .ofPart { p with value := r.valuePart }) hflags pre body n
    (show pre.length + 2 + body.length + (13 + p.key.length + r.valuePart.length) ≤ bufferSize by omega)
  have hlen : ((Entry.ofPart { p with value := r.valuePart }).tree.encode structs (.one (.struct 5))).length =
      13 + p.key.length + r.valuePart.length := length_entry (e := .ofPart { p with value := r.valuePart }) hflags
  rw [fetchLoop_whole hcurrent (by omega) (by omega) hvalue hbuild]
  cases hleads with
  | @ends it it' hnext =>
      rw [hnext, mapError_ok, ok_bind, if_pos rfl]
      refine fills_last hflags rfl (.inl ⟨rfl, rfl⟩) ?_ (fun _ _ => .whole)
      change _ + (13 + p.key.length + r.valuePart.length) + 8 ≤ _
      omega
  | @more it it' q qs hnext hcurrent' hleads' =>
      rw [hnext, mapError_ok, ok_bind, if_neg (by simp), hcurrent', mapError_ok, ok_bind]
      obtain ⟨roomy', hfills⟩ := hothers
        (body ++ (Entry.ofPart { p with value := r.valuePart }).tree.encode structs (.one (.struct 5)))
        { r with iterator := it', valuePart := q.value } ⟨q, qs, hcurrent', hleads', rfl⟩ (by
          rw [List.length_append, hlen]
          omega)
      exact Fills.cons hfills hflags rfl (fun _ _ => .whole)

theorem fills_cut {roomy : Prop} (hcurrent : r.iterator.current = .ok p) (hleads : Leads r.iterator tl)
    (hkey : p.key.length < maxKeySize) (hvalue : r.valuePart.length < 65536) {size : Nat}
    (hspace : pre.length + 2 + body.length + (21 + p.key.length + size) = bufferSize) (hpos : 0 < size)
    (hlt : size < r.valuePart.length) :
    Fills roomy pre body n r ({ p with value := r.valuePart } :: tl)
      (fetchLoop (rounds + 1) r ⟨pre ++ littleEndian 2 n ++ body, bufferSize⟩ pre.length) := by
  have hrequired := bytesRequired_eq hkey
  have havailable := @availableSpace_open pre body n (by omega)
  have hflags := entryFlags_lt false p.deleted
  have htake : (r.valuePart.take size).length = size := List.length_take_of_le (Nat.le_of_lt hlt)
  have hentry : pre.length + 2 + body.length + (13 + p.key.length + (r.valuePart.take size).length) + 8 ≤ bufferSize := by
    omega
  have hbuild := addEntry_eq (e := .ofPart { p with value := r.valuePart.take size, eor := false }) hflags pre body n
    (Nat.le_of_add_right_le hentry)
  rw [fetchLoop_cut hcurrent (by omega) hpos hlt hvalue hbuild]
  exact fills_last hflags rfl
    (.inr ⟨rfl, ⟨p, tl, hcurrent, hleads, rfl⟩, rfl⟩) hentry
    (fun _ _ => .cut (p := { p with value := r.valuePart }) hpos hlt)

theorem fetchLoop_fills {rounds : Nat} (hstands : r.Stands ps) (hps : ∀ p ∈ ps, Sendable p)
    (hrounds : ps.length ≤ rounds) (hroom : pre.length + 2 + body.length + 8 ≤ bufferSize) :
    Fills (pre.length + 2 + body.length + 1045 ≤ bufferSize) pre body n r ps
      (fetchLoop rounds r ⟨pre ++ littleEndian 2 n ++ body, bufferSize⟩ pre.length) := by
  induction rounds generalizing r ps body n with
  | zero =>
      obtain ⟨p, tl, -, -, rfl⟩ := hstands
      exact absurd hrounds (Nat.not_succ_le_zero _)
  | succ rounds ih =>
      obtain ⟨p, tl, hcurrent, hleads, rfl⟩ := hstands
      obtain ⟨⟨hkey, hvalue⟩, htl⟩ := List.forall_mem_cons.mp hps
      have hkey : p.key.length < maxKeySize := hkey
      have hvalue : r.valuePart.length < 65536 := hvalue
      have hmax : maxKeySize = 1024 := rfl
      have hbuffer : bufferSize = 8192 := rfl
      have hrequired := bytesRequired_eq hkey
      have havailable := @availableSpace_open pre body n (by omega)
      by_cases hfull : availableSpace ⟨pre ++ littleEndian 2 n ++ body, bufferSize⟩ ≤ bytesRequired p.key
      · rw [fetchLoop_full hcurrent hfull]
        exact fills_nothing (by omega) (.inr ⟨rfl, ⟨p, tl, hcurrent, hleads, rfl⟩, rfl⟩) hroom
      · by_cases hwhole : pre.length + 2 + body.length + (21 + p.key.length + r.valuePart.length) ≤ bufferSize
        · refine fills_whole hcurrent hleads hkey hvalue hwhole (by omega) fun body' r' hstands' hroom' => ?_
          exact ⟨_, ih hstands' htl (Nat.le_of_succ_le_succ hrounds) hroom'⟩
        · obtain ⟨size, hsize⟩ := Nat.exists_eq_add_of_le (Nat.le_of_not_le hfull)
          exact fills_cut hcurrent hleads hkey hvalue (show _ + (_ + size) = _ by omega) (by omega) (by omega)

end Loop

section Entries

variable {r : Reader} {ps : List Part} {b : Builder}

/-- What fetch_entries builds. -/
def dataTree (flags : Nat) (es : List Entry) : Tree :=
  .struct 3 (.add 0 (.list (.cons (.struct 4 (.add 1 (.list (treesOf es)) .done)) .nil)) (.set 0 flags .done))

theorem dataTree_size (flags : Nat) (es : List Entry) :
    (dataTree flags es).size structs (.one .template) = 15 + (treesOf es).size structs (.struct 5) := by
  have hsize : (dataTree flags es).size structs (.one .template) =
      5 + (2 + (6 + (2 + (treesOf es).size structs (.struct 5) + 0) + 0) + 0) := rfl
  omega

theorem dataTree_wellTyped {flags : Nat} {es : List Entry} (hflags : flags < 256) (hes : ∀ e ∈ es, e.flags < 256) :
    (dataTree flags es).WellTyped structs (.one .template) := by
  refine ⟨rfl, ⟨⟨rfl, treesOf_wellTyped hes, ?_, trivial⟩, trivial⟩, ?_, ⟨.scalar .uint8, rfl, hflags⟩, trivial⟩ <;>
    simp [Calls.added]

/-- The layouts of the two structs around the entries. -/
def openData (payload : List Byte) : Layout := { Layout.empty (structs 3) with offsets := [5], payload := payload }

def openCollection (content : List Byte) : Layout :=
  { Layout.empty (structs 4) with offsets := [0, 6], payload := content }

theorem length_openData : ((openData []).bytes 0).length = 5 := rfl

theorem length_openCollection : ((openCollection []).bytes 0).length = 6 := rfl

/-- The bytes before the entries; data has no flags yet. -/
def preamble (pre : List Byte) : List Byte :=
  pre ++ (openData []).bytes 0 ++ littleEndian 2 1 ++ (openCollection []).bytes 0

theorem length_preamble (pre : List Byte) : (preamble pre).length = pre.length + 13 := by
  rw [preamble, List.length_append, List.length_append, List.length_append, length_openData, length_openCollection,
    length_littleEndian]

theorem fetchEntries_eq (rounds : Nat) (r : Reader) (pre : List Byte) (maxSize : Nat) (hroom : pre.length + 15 ≤ maxSize) :
    fetchEntries rounds r ⟨pre, maxSize⟩ =
      fetchLoop rounds r ⟨preamble pre ++ littleEndian 2 0, maxSize⟩ (preamble pre).length >>= fun x =>
        (x.2.1.setStatic ⟨pre.length, structs 3⟩ 0 x.2.2).mapError .message >>= fun b =>
          .ok (decide (x.2.2 &&& 0x01 = 0x01), x.1,
            (b.finalize ⟨(pre ++ (openData []).bytes 0 ++ littleEndian 2 1).length, structs 4⟩).finalize
              ⟨pre.length, structs 3⟩) := by
  have hbegin := @beginStruct_eq (structs 3) ⟨pre, maxSize⟩
    (show pre.length + 5 ≤ maxSize by omega)
  have hoffset := setOffset_eq (Layout.fits_empty (structs 3)) (k := 0) rfl pre maxSize
  have hlist := @beginList_eq ⟨pre ++ (openData []).bytes 0, maxSize⟩
    (by
      rw [List.length_append, length_openData]
      change _ + 2 ≤ maxSize
      omega)
  have helement := addElement_eq (pre ++ (openData []).bytes 0) [] 0 maxSize
  rw [List.append_nil, List.append_nil] at helement
  have hbegin' := @beginStruct_eq (structs 4) ⟨pre ++ (openData []).bytes 0 ++ littleEndian 2 1, maxSize⟩
    (by
      rw [List.length_append, List.length_append, length_openData, length_littleEndian]
      change _ + 6 ≤ maxSize
      omega)
  have hoffset' := setOffset_eq (Layout.fits_empty (structs 4)) (k := 1) rfl
    (pre ++ (openData []).bytes 0 ++ littleEndian 2 1) maxSize
  have hlist' := @beginList_eq ⟨preamble pre, maxSize⟩
    (by
      rw [length_preamble]
      exact hroom)
  rw [fetchEntries, hbegin, mapError_ok, ok_bind]
  dsimp only
  rw [hoffset, mapError_ok, ok_bind]
  change ((Builder.beginList ⟨pre ++ (openData []).bytes 0, maxSize⟩).mapError _ >>= _) = _
  rw [hlist, mapError_ok, ok_bind]
  dsimp only
  rw [helement, hbegin', mapError_ok, ok_bind]
  dsimp only
  rw [hoffset', mapError_ok, ok_bind]
  change ((Builder.beginList ⟨preamble pre, maxSize⟩).mapError _ >>= _) = _
  rw [hlist', mapError_ok, ok_bind]
  rfl

/-- Data with its flags, around what stands behind its own bytes. -/
def flaggedData (flags : Nat) (payload : List Byte) : Layout := (openData payload).set (structs 3) 0 flags

def closedCollection (content : List Byte) : List Byte :=
  (openCollection content).bytes ((structs 4).minSize + content.length - 2)

theorem openCollection_fits (content : List Byte) : (openCollection content).Fits (structs 4) := ⟨rfl, rfl⟩

theorem flaggedData_fits (flags : Nat) (payload : List Byte) : (flaggedData flags payload).Fits (structs 3) :=
  Layout.Fits.set ⟨rfl, rfl⟩ 0 flags

theorem openData_bytes (payload : List Byte) : (openData payload).bytes 0 = (openData []).bytes 0 ++ payload :=
  (Layout.bytes_append (l := openData []) 0 payload).symm

theorem openCollection_bytes (content : List Byte) :
    (openCollection content).bytes 0 = (openCollection []).bytes 0 ++ content :=
  (Layout.bytes_append (l := openCollection []) 0 content).symm

theorem flaggedData_bytes (flags : Nat) (payload : List Byte) :
    (flaggedData flags payload).bytes 0 = (flaggedData flags []).bytes 0 ++ payload :=
  (Layout.bytes_append (l := flaggedData flags []) 0 payload).symm

theorem closed_eq (pre content : List Byte) (flags maxSize : Nat) :
    ∃ b, Builder.setStatic ⟨preamble pre ++ content, maxSize⟩ ⟨pre.length, structs 3⟩ 0 flags = .ok b ∧
      (b.finalize ⟨(pre ++ (openData []).bytes 0 ++ littleEndian 2 1).length, structs 4⟩).finalize
        ⟨pre.length, structs 3⟩ =
      ⟨pre ++ (flaggedData flags (littleEndian 2 1 ++ closedCollection content)).bytes
        ((structs 3).minSize + (littleEndian 2 1 ++ closedCollection content).length - 2), maxSize⟩ := by
  have hopen : preamble pre ++ content =
      pre ++ (openData (littleEndian 2 1 ++ (openCollection content).bytes 0)).bytes 0 := by
    rw [openData_bytes, openCollection_bytes, preamble]
    simp only [List.append_assoc]
  have hflags : ∀ payload, Builder.setStatic ⟨pre ++ (openData payload).bytes 0, maxSize⟩
      ⟨pre.length, structs 3⟩ 0 flags = .ok ⟨pre ++ (flaggedData flags payload).bytes 0, maxSize⟩ :=
    fun payload => setStatic_eq ⟨rfl, rfl⟩ rfl pre 0 flags maxSize
  have hplace : (pre ++ (openData []).bytes 0 ++ littleEndian 2 1).length =
      (pre ++ (flaggedData flags []).bytes 0 ++ littleEndian 2 1).length := by
    have hflagged := (flaggedData_fits flags []).length 0
    rw [List.length_append, List.length_append, List.length_append, List.length_append, hflagged,
      length_openData]
    rfl
  have hinner : Builder.finalize ⟨pre ++ (flaggedData flags (littleEndian 2 1 ++ (openCollection content).bytes 0)).bytes 0,
      maxSize⟩ ⟨(pre ++ (openData []).bytes 0 ++ littleEndian 2 1).length, structs 4⟩ =
      ⟨pre ++ (flaggedData flags (littleEndian 2 1 ++ closedCollection content)).bytes 0, maxSize⟩ := by
    have hcollection := finalize_eq (openCollection_fits content) (pre ++ (flaggedData flags []).bytes 0 ++
      littleEndian 2 1) maxSize
    rw [hplace, flaggedData_bytes, flaggedData_bytes flags (littleEndian 2 1 ++ closedCollection content)]
    simp only [← List.append_assoc] at hcollection ⊢
    exact hcollection
  have houter := finalize_eq (flaggedData_fits flags (littleEndian 2 1 ++ closedCollection content)) pre maxSize
  refine ⟨_, hopen ▸ hflags _, ?_⟩
  rw [hinner, houter]
  rfl

theorem encode_dataTree (flags : Nat) (es : List Entry) : (dataTree flags es).encode structs (.one .template) =
    (flaggedData flags (littleEndian 2 1 ++ closedCollection (littleEndian 2 es.length ++
      (treesOf es).encode structs (.struct 5)))).bytes ((structs 3).minSize + (littleEndian 2 1 ++ closedCollection
        (littleEndian 2 es.length ++ (treesOf es).encode structs (.struct 5))).length - 2) := by
  rw [← length_treesOf, dataTree, encode_struct]
  have hpayload : (Calls.encode structs (structs 3) (Layout.empty (structs 3))
      (.add 0 (.list (.cons (.struct 4 (.add 1 (.list (treesOf es)) .done)) .nil)) (.set 0 flags .done))) =
      flaggedData flags (littleEndian 2 1 ++ closedCollection (littleEndian 2 (treesOf es).length ++
        (treesOf es).encode structs (.struct 5))) := by
    have hone : (Trees.cons (Tree.struct 4 (.add 1 (.list (treesOf es)) .done)) .nil).encode structs (.struct 4) =
        closedCollection (littleEndian 2 (treesOf es).length ++ (treesOf es).encode structs (.struct 5)) := by
      rw [Trees.encode, Trees.encode, encode_struct, List.append_nil]
      rfl
    have hlist : (Tree.list (.cons (.struct 4 (.add 1 (.list (treesOf es)) .done)) .nil)).encode structs
        (.list (.struct 4)) = littleEndian 2 1 ++ closedCollection (littleEndian 2 (treesOf es).length ++
          (treesOf es).encode structs (.struct 5)) := by
      rw [Tree.encode, hone]
      rfl
    rw [← hlist]
    rfl
  rw [hpayload]
  rfl

theorem fetchEntries_spec {rounds : Nat} (hstands : r.Stands ps) (hps : ∀ p ∈ ps, Sendable p)
    (hrounds : ps.length ≤ rounds) (pre : List Byte) (hroom : pre.length + 1060 ≤ bufferSize) :
    ∃ es rest r' flags, fetchEntries rounds r ⟨pre, bufferSize⟩ = .ok (decide (flags &&& 0x01 = 0x01), r',
        ⟨pre ++ (dataTree flags es).encode structs (.one .template), bufferSize⟩) ∧
      pre.length + (dataTree flags es).size structs (.one .template) + 8 ≤ bufferSize ∧
      Sends ps es rest ∧ Remains r.address rest flags r' ∧ es ≠ [] := by
  have hpreamble := length_preamble pre
  have hloop := @fetchLoop_fills r ps (preamble pre) [] 0 rounds hstands hps hrounds
    (by rw [List.length_nil]; omega)
  obtain ⟨es, rest, r', flags, hfilled, hfits, hsends, hremains, hsome⟩ := hloop
  rw [List.append_nil, List.nil_append, Nat.zero_add, List.append_assoc] at hfilled
  rw [List.length_nil] at hfits
  refine ⟨es, rest, r', flags, ?_, ?_, hsends, hremains, hsome (by rw [List.length_nil]; omega)⟩
  · obtain ⟨b, hset, hclosed⟩ := closed_eq pre (littleEndian 2 es.length ++ (treesOf es).encode structs (.struct 5))
      flags bufferSize
    rw [fetchEntries_eq rounds r pre bufferSize (by omega), hfilled, ok_bind]
    dsimp only
    rw [hset, mapError_ok, ok_bind, hclosed, ← encode_dataTree]
  · rw [dataTree_size]
    omega

end Entries

section Responses

/-- What a response with data says: its entries, and whether they are the last ones. -/
structure Response where
  entries : List Entry
  ended : Bool

/-- The calls of the response builder; the handle stands behind the data. -/
def Response.calls (handle : Handle) (x : Response) : Calls :=
  .add 1 (dataTree (if x.ended then 1 else 0) x.entries)
    (if x.ended then .done else .add 0 (.scalar handle.val) .done)

/-- The bytes of a response fit in its buffer, and the parsers find in them what it says. -/
structure Carries (handle : Handle) (bytes : List Byte) (x : Response) : Prop where
  fits : bytes.length ≤ bufferSize
  shows_calls : (Tree.struct 0 (.add 1 (.struct 2 (x.calls handle)) .done)).Shows structs bytes (.one (.struct 0)) 0

/-- A response before there is data in it, and when data is added. -/
def opened : List Byte := [0, 0, 0, 0, 6, 0, 0, 0, 0, 0, 0, 0]

def withData : List Byte := [0, 0, 0, 0, 6, 0, 0, 0, 0, 0, 6, 0]

theorem structs_wide : structs.Wide := by
  intro name t ht
  match name with
  | 0 | 1 | 2 | 3 | 4 | 5 =>
      revert t
      decide
  | _ + 6 => exact absurd ht List.not_mem_nil

variable {x : Response} {handle : Handle}

theorem calls_size (handle : Handle) (x : Response) : (x.calls handle).size structs (structs 2) ≤
    (dataTree (if x.ended then 1 else 0) x.entries).size structs (.one .template) + 8 := by
  cases hended : x.ended <;> simp [Response.calls, Calls.size, hended, structs, StructDef.dynamics, Tree.size, Scalar.size]

theorem build_response (calls : Calls) :
    (Tree.struct 0 (.add 1 (.struct 2 calls) .done)).build structs ⟨[], bufferSize⟩ (.one (.struct 0)) =
      calls.build structs ⟨opened, bufferSize⟩ ⟨6, structs 2⟩ >>= fun b =>
        .ok ((b.finalize ⟨6, structs 2⟩).finalize ⟨0, structs 0⟩) := by
  have hbegin : Builder.beginStruct ⟨[], bufferSize⟩ (structs 0) =
      .ok (⟨[0, 0, 0, 0, 0, 0], bufferSize⟩, ⟨0, structs 0⟩) := rfl
  have hoffset : Builder.setOffset ⟨[0, 0, 0, 0, 0, 0], bufferSize⟩ ⟨0, structs 0⟩ 1 =
      .ok ⟨[0, 0, 0, 0, 6, 0], bufferSize⟩ := rfl
  have hbegin' : Builder.beginStruct ⟨[0, 0, 0, 0, 6, 0], bufferSize⟩ (structs 2) =
      .ok (⟨opened, bufferSize⟩, ⟨6, structs 2⟩) := rfl
  have hbuild : ∀ b, Calls.build structs b ⟨0, structs 0⟩ (.add 1 (.struct 2 calls) .done) =
      b.setOffset ⟨0, structs 0⟩ 1 >>= fun b => b.withStruct (structs 2) (fun b s => calls.build structs b s) := by
    intro b
    have hfield : (structs 0).dynamics[1]? = some (.one .template) := rfl
    rw [Calls.build]
    simp only [hfield]
    refine congrArg (b.setOffset ⟨0, structs 0⟩ 1 >>= ·) (funext (fun b => ?_))
    rw [build_struct rfl]
    cases b.withStruct (structs 2) (fun b s => calls.build structs b s) <;> rfl
  rw [build_struct rfl, Builder.withStruct, hbegin, ok_bind]
  simp only [hbuild, hoffset, ok_bind, Builder.withStruct, hbegin']
  cases calls.build structs ⟨opened, bufferSize⟩ ⟨6, structs 2⟩ <;> rfl

/-- What fetch_data builds behind its data. -/
def addRest (handle : Handle) (ended : Bool) (b : Builder) : Except Fault Builder :=
  if ended then .ok b else addHandle b ⟨6, structs 2⟩ handle

theorem calls_build {b : Builder} (hdata : (dataTree (if x.ended then 1 else 0) x.entries).build structs
      ⟨withData, bufferSize⟩ (.one .template) = .ok b) :
    addRest handle x.ended b =
      ((x.calls handle).build structs ⟨opened, bufferSize⟩ ⟨6, structs 2⟩).mapError .message := by
  have hoffset : Builder.setOffset ⟨opened, bufferSize⟩ ⟨6, structs 2⟩ 1 = .ok ⟨withData, bufferSize⟩ := rfl
  have hfield : (structs 2).dynamics[1]? = some (.one .template) := rfl
  have hhandle : (structs 2).dynamics[0]? = some (.one (.scalar .uint64)) := rfl
  rw [Response.calls, Calls.build, addRest]
  simp only [hfield]
  rw [hoffset, ok_bind, hdata, ok_bind]
  cases x.ended with
  | true => rfl
  | false =>
      simp only [Bool.false_eq_true, if_false, Calls.build, hhandle, addHandle, Tree.build]
      cases b.setOffset ⟨6, structs 2⟩ 0 with
      | error e => rfl
      | ok b =>
          simp only [mapError_ok, ok_bind]
          cases b.addScalar .uint64 handle.val <;> rfl

theorem addRest_carries (hspace : withData.length + (dataTree (if x.ended then 1 else 0) x.entries).size structs
      (.one .template) + 8 ≤ bufferSize) (hflags : ∀ e ∈ x.entries, e.flags < 256) :
    ∃ b, addRest handle x.ended ⟨withData ++ (dataTree (if x.ended then 1 else 0) x.entries).encode structs
        (.one .template), bufferSize⟩ = .ok b ∧
      Carries handle ((b.finalize ⟨6, structs 2⟩).finalize ⟨0, structs 0⟩).bytes x := by
  have hlen : withData.length = 12 := rfl
  have hbuffer : bufferSize = 8192 := rfl
  have hended : (if x.ended then 1 else 0) < 256 := by
    cases x.ended <;> decide
  have hdata := dataTree_wellTyped hended hflags
  have hsize : (Tree.struct 0 (.add 1 (.struct 2 (x.calls handle)) .done)).size structs (.one (.struct 0)) =
      6 + (6 + (x.calls handle).size structs (structs 2)) := rfl
  have hcalls := calls_size handle x
  have htyped : (Tree.struct 0 (.add 1 (.struct 2 (x.calls handle)) .done)).WellTyped structs (.one (.struct 0)) := by
    refine ⟨rfl, ⟨rfl, hdata, ?_, ?_⟩, by simp [Calls.added], trivial⟩
    · cases x.ended <;> simp [Calls.added]
    · cases x.ended
      · exact ⟨handle.isLt, by simp [Calls.added], trivial⟩
      · trivial
  obtain ⟨b, hbuild, hlength, hshows⟩ := message_round_trip structs structs_wide 0 _ bufferSize htyped (by decide)
    (by rw [hsize]; omega)
  have hput := Tree.build_eq (.one .template) _ ⟨withData, bufferSize⟩ hdata (show bufferSize < 65536 by decide)
    (show withData.length + _ ≤ bufferSize by omega)
  rw [build_response] at hbuild
  rw [Builder.put] at hput
  rw [calls_build hput]
  cases hcalled : (x.calls handle).build structs ⟨opened, bufferSize⟩ ⟨6, structs 2⟩ with
  | error e =>
      rw [hcalled] at hbuild
      cases hbuild
  | ok b' =>
      rw [hcalled, ok_bind] at hbuild
      obtain rfl := Except.ok.inj hbuild
      exact ⟨b', rfl, by rw [hlength, hsize]; omega, hshows⟩

end Responses

end Tyrdbs.Server.Fetch
