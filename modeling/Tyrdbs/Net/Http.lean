import Tyrdbs.Library.Regex
import Tyrdbs.Net.RpcServer

namespace Tyrdbs.Net

open Bytes Outcome

/-- How parsing a head ends without one; unfinished stands for a loop that is cut
off. -/
inductive HttpError
  | malformedMessage (what : String)
  | reader (stop : Stop)
  | assertion
  | unfinished
  deriving DecidableEq

def Reader.readByte (bufferSize : Nat) (r : Reader) : Except Stop (Byte × Reader) := do
  let r ← r.refill bufferSize
  match r.loaded[r.offset]? with
  | none => .error .overflow
  | some b => return (b, { r with offset := r.offset + 1 })

namespace Http

def space : Byte := 32

def colon : Byte := 58

def dot : Byte := 46

def carriageReturn : Byte := 13

def lineFeed : Byte := 10

def crlf : List Byte := [carriageReturn, lineFeed]

/-- The bytes of "HTTP/". -/
def protocol : List Byte := [72, 84, 84, 80, 47]

def isUpper (b : Byte) : Bool := 65 ≤ b.val && b.val ≤ 90

def isDigit (b : Byte) : Bool := 48 ≤ b.val && b.val ≤ 57

def isSpace (b : Byte) : Bool := b = space

def notSpace (b : Byte) : Bool := b ≠ space

def notColon (b : Byte) : Bool := b ≠ colon

def notReturn (b : Byte) : Bool := b ≠ carriageReturn

open Regex in
def versionNumber : Regex Byte := .seq (plus isDigit) (.seq (literal [dot]) (plus isDigit))

/- The expressions are matched against a whole line, which is what their anchors say
as well. -/

open Regex in
def requestLine : Regex Byte :=
  .seq (.group (plus isUpper)) (.seq (plus isSpace) (.seq (.group (plus notSpace)) (.seq (plus isSpace)
    (.seq (literal protocol) (.seq (.group versionNumber) (literal crlf))))))

open Regex in
def responseLine : Regex Byte :=
  .seq (literal protocol) (.seq (.group versionNumber) (.seq (plus isSpace) (.seq (.group (plus isDigit))
    (.seq (plus isSpace) (.seq (.group (plus notReturn)) (literal crlf))))))

open Regex in
/-- ([^:]+):[ ]*([^\r]*)\r\n -/
def headerLine : Regex Byte :=
  .seq (.group (plus notColon)) (.seq (literal [colon]) (.seq (.many isSpace)
    (.seq (.group (.many notReturn)) (literal crlf))))

/-- What regex_match leaves behind. -/
structure Match where
  line : List Byte
  groups : Regex.Groups

namespace Match

def size (m : Match) : Nat := m.groups.length + 1

/-- A group that there is not stands at the end of the line, and has no length. -/
def span (m : Match) (n : Nat) : Nat × Nat := m.groups.getD (n - 1) (m.line.length, m.line.length)

/-- The view at the first character of one group, with the length of another. -/
def view (m : Match) (n lengthOf : Nat) : List Byte :=
  slice m.line (m.span n).1 ((m.span lengthOf).2 - (m.span lengthOf).1)

end Match

def regexMatch (r : Regex Byte) (line : List Byte) (what : String) : Except HttpError Match :=
  match r.fullMatch line with
  | none => .error (.malformedMessage what)
  | some groups => .ok ⟨line, groups⟩

/-- An http::reader: the buffer up to m_offset, and where its bytes are read from.
As the buffer is written at its end only, a view of it is the bytes that it shows. -/
structure Reader where
  buffer : List Byte := []
  reader : Net.Reader

variable (bufferSize : Nat) (httpSize : UInt32)

/-- The loop of load_line, for as long as there is room in the buffer. -/
def Reader.loadLoop (start : Nat) : Nat → Reader → Except HttpError Reader
  | 0, r => .ok r
  | room + 1, r =>
      match r.reader.readByte bufferSize with
      | .error stop => .error (.reader stop)
      | .ok (b, reader) =>
          if b = lineFeed ∧ r.buffer.length ≠ start ∧ r.buffer[r.buffer.length - 1]? = some carriageReturn then
            .ok ⟨r.buffer ++ [b], reader⟩
          else loadLoop start room ⟨r.buffer ++ [b], reader⟩

/-- A line is a view of the buffer; that there is none is said by the empty one. -/
def Reader.loadLine (r : Reader) : Except HttpError (List Byte × Reader) := do
  let start := r.buffer.length
  let r ← r.loadLoop bufferSize start (httpSize.toNat - start)
  return (r.buffer.drop start, r)

abbrev Header := List Byte × List Byte

/-- The loop over the lines of a head after its first. The value of a header is a
view with the length of a group of its own. -/
def parseHeaders (valueLength : Nat) (ending : String) :
    Nat → Reader → List Header → Except HttpError (List Header × Reader)
  | 0, _, _ => .error .unfinished
  | rounds + 1, r, headers => do
      let (line, r) ← r.loadLine bufferSize httpSize
      check (line ≠ []) (.malformedMessage ending)
      if line = crlf then
        return (headers, r)
      else do
        let m ← regexMatch headerLine line "unable to parse header line"
        check (m.size = 3) .assertion
        parseHeaders valueLength ending rounds r (headers ++ [(m.view 1 1, m.view 2 valueLength)])

/-- The texts of the errors of a parse, and the group whose length the value of a
header gets. -/
structure Wording where
  empty : String
  unable : String
  ending : String
  valueLength : Nat

/-- A first line and the headers, each of which takes a byte of the buffer. -/
def parseHead (startLine : Regex Byte) (w : Wording) (reader : Net.Reader) :
    Except HttpError (Match × List Header × Net.Reader) := do
  let (line, r) ← Reader.loadLine bufferSize httpSize { reader := reader }
  check (line ≠ []) (.malformedMessage w.empty)
  let m ← regexMatch startLine line w.unable
  check (m.size = 4) .assertion
  let (headers, r) ← parseHeaders bufferSize httpSize w.valueLength w.ending (httpSize.toNat + 1) r []
  return (m, headers, r.reader)

structure Request where
  method : List Byte
  path : List Byte
  version : List Byte
  headers : List Header
  deriving DecidableEq

def Request.parse (reader : Net.Reader) : Except HttpError (Request × Net.Reader) := do
  let (m, headers, reader) ← parseHead bufferSize httpSize requestLine
    ⟨"request line empty", "unable to parse request line", "unexpected header ending", 2⟩ reader
  return (⟨m.view 1 1, m.view 2 2, m.view 3 3, headers⟩, reader)

structure Response where
  version : List Byte
  code : List Byte
  status : List Byte
  headers : List Header
  deriving DecidableEq

/-- The length of the value is that of the third group of a match that has two. -/
def Response.parse (reader : Net.Reader) : Except HttpError (Response × Net.Reader) := do
  let (m, headers, reader) ← parseHead bufferSize httpSize responseLine
    ⟨"response line empty", "unable to parse response line", "unexpected hader ending", 3⟩ reader
  return (⟨m.view 1 1, m.view 2 2, m.view 3 3, headers⟩, reader)

def spaces (n : Nat) : List Byte := List.replicate n space

structure Version where
  major : List Byte
  minor : List Byte
  major_digits : major ≠ [] ∧ ∀ b ∈ major, isDigit b
  minor_digits : minor ≠ [] ∧ ∀ b ∈ minor, isDigit b

def Version.text (v : Version) : List Byte := v.major ++ ([dot] ++ v.minor)

/-- The first line of a request; there may be more spaces than one. -/
structure RequestStart where
  method : List Byte
  path : List Byte
  version : Version
  gaps : Nat × Nat
  method_upper : method ≠ [] ∧ ∀ b ∈ method, isUpper b
  path_visible : path ≠ [] ∧ ∀ b ∈ path, b ≠ space ∧ b ≠ carriageReturn

def RequestStart.line (s : RequestStart) : List Byte :=
  s.method ++ (spaces (s.gaps.1 + 1) ++ (s.path ++ (spaces (s.gaps.2 + 1) ++ (protocol ++ s.version.text))))

structure ResponseStart where
  version : Version
  code : List Byte
  status : List Byte
  gaps : Nat × Nat
  code_digits : code ≠ [] ∧ ∀ b ∈ code, isDigit b
  status_visible : status ≠ [] ∧ (∀ b ∈ status.head?, b ≠ space) ∧ ∀ b ∈ status, b ≠ carriageReturn

def ResponseStart.line (s : ResponseStart) : List Byte :=
  protocol ++ (s.version.text ++ (spaces (s.gaps.1 + 1) ++ (s.code ++ (spaces (s.gaps.2 + 1) ++ s.status))))

def span (a x : List Byte) : Nat × Nat := (a.length, a.length + x.length)

def RequestStart.matched (s : RequestStart) : Match :=
  ⟨s.line ++ crlf, [span [] s.method, span (s.method ++ spaces (s.gaps.1 + 1)) s.path,
    span (s.method ++ spaces (s.gaps.1 + 1) ++ s.path ++ spaces (s.gaps.2 + 1) ++ protocol) s.version.text]⟩

def ResponseStart.matched (s : ResponseStart) : Match :=
  ⟨s.line ++ crlf, [span protocol s.version.text, span (protocol ++ s.version.text ++ spaces (s.gaps.1 + 1)) s.code,
    span (protocol ++ s.version.text ++ spaces (s.gaps.1 + 1) ++ s.code ++ spaces (s.gaps.2 + 1)) s.status]⟩

/-- A header field, with some spaces in front of its value. -/
structure Field where
  name : List Byte
  value : List Byte
  gap : Nat
  name_visible : name ≠ [] ∧ ∀ b ∈ name, b ≠ colon ∧ b ≠ carriageReturn
  value_visible : (∀ b ∈ value.head?, b ≠ space) ∧ ∀ b ∈ value, b ≠ carriageReturn

namespace Field

def line (f : Field) : List Byte := f.name ++ ([colon] ++ (spaces f.gap ++ f.value))

def header (f : Field) : Header := (f.name, f.value)

def matched (f : Field) : Match :=
  ⟨f.line ++ crlf, [span [] f.name, span (f.name ++ [colon] ++ spaces f.gap) f.value]⟩

end Field

def render (lines : List (List Byte)) : List Byte := lines.flatMap (fun line => line ++ crlf) ++ crlf

/-- A head parses back: the parse returns what was rendered, and leaves the body to
the reader. -/
def ParsesBack {α : Type} (parsed : Except HttpError (α × Net.Reader)) (message : α) (body : List Byte) : Prop :=
  ∃ reader, parsed = .ok (message, reader) ∧ reader.remaining = body

section Matches

open Regex

theorem slice_span {line : List Byte} (a x c : List Byte) (h : line = a ++ x ++ c) :
    slice line (span a x).1 ((span a x).2 - (span a x).1) = x := by
  rw [h, span, Nat.add_sub_cancel_left]
  refine (slice_middle (i := 0) (by omega)).trans ?_
  rw [slice_zero_length]

theorem takes_spaces (n : Nat) {rest : List Byte} (hrest : ∀ b ∈ rest.head?, b ≠ space) :
    Takes (.many isSpace) (spaces n) rest (fun _ => []) :=
  takes_many (fun b hb => by rw [List.eq_of_mem_replicate hb]; rfl)
    (fun b hb h => hrest b hb (of_decide_eq_true h))

theorem takes_gap (n : Nat) {rest : List Byte} (hrest : ∀ b ∈ rest.head?, b ≠ space) :
    Takes (plus isSpace) (spaces (n + 1)) rest (fun _ => []) :=
  takes_plus (by simp [spaces]) (fun b hb => by rw [List.eq_of_mem_replicate hb]; rfl)
    (fun b hb h => hrest b hb (of_decide_eq_true h))

theorem not_head {p : Byte → Bool} {b : Byte} (hb : p b = false) (rest : List Byte) :
    ∀ c ∈ (b :: rest).head?, ¬ p c := by
  intro c hc
  rw [← Option.some.inj hc, hb]
  exact Bool.false_ne_true

theorem takes_version (v : Version) {rest : List Byte} (hrest : ∀ b ∈ rest.head?, ¬ isDigit b) :
    Takes versionNumber v.text rest (fun _ => []) := by
  have hdot : ∀ b ∈ (([dot] ++ v.minor) ++ rest).head?, ¬ isDigit b := not_head rfl _
  exact (takes_plus v.major_digits.1 v.major_digits.2 hdot).seq
    ((takes_literal [dot] _).seq (takes_plus v.minor_digits.1 v.minor_digits.2 hrest))

theorem head_append {a b : List Byte} (hne : a ≠ []) (P : Byte → Prop) (h : ∀ c ∈ a.head?, P c) :
    ∀ c ∈ (a ++ b).head?, P c := by
  obtain ⟨x, a, rfl⟩ := List.exists_cons_of_ne_nil hne
  exact h

theorem mem_of_head {a : List Byte} {P : Byte → Prop} (h : ∀ b ∈ a, P b) : ∀ c ∈ a.head?, P c :=
  fun c hc => h c (List.mem_of_mem_head? hc)

theorem headerLine_matches (f : Field) : headerLine.fullMatch (f.line ++ crlf) = some f.matched.groups := by
  have hline : f.line ++ crlf = f.name ++ ([colon] ++ (spaces f.gap ++ (f.value ++ crlf))) := by
    simp only [Field.line, List.append_assoc]
  have hname : ∀ b ∈ f.name, notColon b := fun b hb => decide_eq_true (f.name_visible.2 b hb).1
  have hvalue : ∀ b ∈ f.value, notReturn b := fun b hb => decide_eq_true (f.value_visible.2 b hb)
  have hfirst : ∀ b ∈ ((f.value ++ crlf) ++ []).head?, b ≠ space := by
    rw [List.append_nil]
    by_cases hempty : f.value = []
    · rw [hempty]
      simp [crlf, carriageReturn, space]
    · exact head_append hempty _ f.value_visible.1
  rw [hline]
  refine (Takes.fullMatch (((takes_plus f.name_visible.1 hname (not_head rfl _)).group).seq
    ((takes_literal [colon] _).seq ((takes_spaces f.gap hfirst).seq
      (((takes_many hvalue (not_head rfl _)).group).seq (takes_literal crlf [])))))).trans ?_
  simp [Field.matched, span, spaces, Nat.add_assoc]
  omega

theorem requestLine_matches (s : RequestStart) :
    requestLine.fullMatch (s.line ++ crlf) = some s.matched.groups := by
  have hline : s.line ++ crlf = s.method ++ (spaces (s.gaps.1 + 1) ++ (s.path ++ (spaces (s.gaps.2 + 1) ++
      (protocol ++ (s.version.text ++ crlf))))) := by
    simp only [RequestStart.line, List.append_assoc]
  have hpath : ∀ b ∈ s.path, notSpace b := fun b hb => decide_eq_true (s.path_visible.2 b hb).1
  rw [hline]
  refine (Takes.fullMatch (((takes_plus s.method_upper.1 s.method_upper.2 ?_).group).seq
    ((takes_gap s.gaps.1 ?_).seq (((takes_plus s.path_visible.1 hpath ?_).group).seq
      ((takes_gap s.gaps.2 ?_).seq ((takes_literal protocol _).seq
        (((takes_version s.version ?_).group).seq (takes_literal crlf [])))))))).trans ?_
  · exact not_head rfl _
  · rw [List.append_assoc]
    exact head_append s.path_visible.1 _ (mem_of_head (fun b hb => (s.path_visible.2 b hb).1))
  · exact not_head rfl _
  · simp [protocol, space]
  · exact not_head rfl _
  · simp [RequestStart.matched, span, spaces, protocol, Nat.add_assoc]

theorem responseLine_matches (s : ResponseStart) :
    responseLine.fullMatch (s.line ++ crlf) = some s.matched.groups := by
  have hline : s.line ++ crlf = protocol ++ (s.version.text ++ (spaces (s.gaps.1 + 1) ++ (s.code ++
      (spaces (s.gaps.2 + 1) ++ (s.status ++ crlf))))) := by
    simp only [ResponseStart.line, List.append_assoc]
  have hstatus : ∀ b ∈ s.status, notReturn b := fun b hb => decide_eq_true (s.status_visible.2.2 b hb)
  have hcode : ∀ b ∈ s.code, b ≠ space := fun b hb h => by
    rw [h] at hb
    exact absurd (s.code_digits.2 space hb) (by decide)
  rw [hline]
  refine (Takes.fullMatch ((takes_literal protocol _).seq (((takes_version s.version ?_).group).seq
    ((takes_gap s.gaps.1 ?_).seq (((takes_plus s.code_digits.1 s.code_digits.2 ?_).group).seq
      ((takes_gap s.gaps.2 ?_).seq (((takes_plus s.status_visible.1 hstatus ?_).group).seq
        (takes_literal crlf [])))))))).trans ?_
  · exact not_head rfl _
  · rw [List.append_assoc]
    exact head_append s.code_digits.1 _ (mem_of_head hcode)
  · exact not_head rfl _
  · rw [List.append_assoc]
    exact head_append s.status_visible.1 _ s.status_visible.2.1
  · exact not_head rfl _
  · simp [ResponseStart.matched, span, spaces, protocol, Nat.add_assoc]
    omega

end Matches

section Lines

variable {bufferSize : Nat} {httpSize : UInt32} {rest : List Byte}

theorem readByte_spec {r : Net.Reader} {b : Byte} (h : r.Fed bufferSize) (hr : r.remaining = b :: rest) :
    ∃ r', r.readByte bufferSize = .ok (b, r') ∧ r'.Fed bufferSize ∧ r'.remaining = rest := by
  obtain ⟨r₁, hrefill, h₁, hr₁, hlt⟩ := refill_spec h (hr ▸ List.cons_ne_nil b rest)
  have hcons : r₁.loaded[r₁.offset] :: (r₁.loaded.drop (r₁.offset + 1) ++ r₁.source.flatten) = b :: rest := by
    rw [← hr, ← hr₁, Net.Reader.remaining, List.drop_eq_getElem_cons hlt, List.cons_append]
  obtain ⟨hb, hrest⟩ := List.cons.inj hcons
  refine ⟨{ r₁ with offset := r₁.offset + 1 }, ?_, ⟨hlt, h₁.chunks⟩, hrest⟩
  rw [Net.Reader.readByte, hrefill, ok_bind, List.getElem?_eq_getElem hlt, hb]
  rfl

theorem loadLoop_spec (before : List Byte) {line : List Byte} (hline : ∀ b ∈ line, b ≠ carriageReturn) :
    ∀ (room : Nat) (consumed : List Byte) {reader : Net.Reader}, (∀ b ∈ consumed, b ≠ carriageReturn) →
      line.length + 2 ≤ room → reader.Fed bufferSize → reader.remaining = line ++ (crlf ++ rest) →
      ∃ reader', Reader.loadLoop bufferSize before.length room ⟨before ++ consumed, reader⟩ =
          .ok ⟨before ++ consumed ++ (line ++ crlf), reader'⟩ ∧
        reader'.Fed bufferSize ∧ reader'.remaining = rest := by
  induction line with
  | nil =>
      intro room consumed reader hconsumed hroom hfed hrest
      obtain ⟨room, rfl⟩ := Nat.exists_eq_add_of_le hroom
      obtain ⟨reader₁, hread₁, hfed₁, hrest₁⟩ := readByte_spec hfed hrest
      obtain ⟨reader₂, hread₂, hfed₂, hrest₂⟩ := readByte_spec hfed₁ hrest₁
      refine ⟨reader₂, ?_, hfed₂, hrest₂⟩
      have hend : (before ++ consumed ++ [carriageReturn]).length ≠ before.length ∧
          (before ++ consumed ++ [carriageReturn])[(before ++ consumed ++ [carriageReturn]).length - 1]? =
            some carriageReturn := by
        simp
      rw [List.length_nil, Nat.zero_add, Nat.add_comm, Reader.loadLoop, hread₁]
      simp only [show ¬ carriageReturn = lineFeed by decide, false_and, if_false]
      rw [Reader.loadLoop, hread₂]
      simp only [hend, and_self, ne_eq, not_false_eq_true, if_true]
      simp [crlf]
  | cons b line ih =>
      intro room consumed reader hconsumed hroom hfed hrest
      obtain ⟨room, rfl⟩ := Nat.exists_eq_succ_of_ne_zero (show room ≠ 0 by omega)
      obtain ⟨reader₁, hread₁, hfed₁, hrest₁⟩ := readByte_spec hfed hrest
      have hinside : ¬ (b = lineFeed ∧ (before ++ consumed).length ≠ before.length ∧
          (before ++ consumed)[(before ++ consumed).length - 1]? = some carriageReturn) := by
        rintro ⟨-, hstart, hlast⟩
        rw [← List.getLast?_eq_getElem?] at hlast
        by_cases hempty : consumed = []
        · exact hstart (by rw [hempty, List.append_nil])
        · rw [List.getLast?_append_of_ne_nil before hempty] at hlast
          exact hconsumed _ (List.mem_of_getLast? hlast) rfl
      have hmore : ∀ c ∈ consumed ++ [b], c ≠ carriageReturn := by
        intro c hc
        rcases List.mem_append.mp hc with hc | hc
        · exact hconsumed c hc
        · exact hline c (List.mem_singleton.mp hc ▸ List.mem_cons_self ..)
      obtain ⟨reader₂, hloop, hfed₂, hrest₂⟩ := ih (fun c hc => hline c (List.mem_cons_of_mem _ hc)) room _
        hmore (by rw [List.length_cons] at hroom; omega) hfed₁ hrest₁
      refine ⟨reader₂, ?_, hfed₂, hrest₂⟩
      rw [Reader.loadLoop, hread₁]
      simp only [if_neg hinside]
      rw [List.append_assoc before consumed [b], hloop]
      simp [List.append_assoc]

theorem loadLine_spec {r : Reader} {line : List Byte} (hline : ∀ b ∈ line, b ≠ carriageReturn)
    (hroom : r.buffer.length + (line.length + 2) ≤ httpSize.toNat) (hfed : r.reader.Fed bufferSize)
    (hrest : r.reader.remaining = line ++ (crlf ++ rest)) :
    ∃ reader, r.loadLine bufferSize httpSize = .ok (line ++ crlf, ⟨r.buffer ++ (line ++ crlf), reader⟩) ∧
      reader.Fed bufferSize ∧ reader.remaining = rest := by
  obtain ⟨reader, hloop, hfed', hrest'⟩ := loadLoop_spec r.buffer hline (httpSize.toNat - r.buffer.length) []
    (fun b hb => absurd hb List.not_mem_nil) (by omega) hfed hrest
  rw [List.append_nil] at hloop
  refine ⟨reader, ?_, hfed', hrest'⟩
  rw [Reader.loadLine]
  change (Reader.loadLoop bufferSize r.buffer.length (httpSize.toNat - r.buffer.length) ⟨r.buffer, r.reader⟩ >>= _) = _
  rw [hloop, ok_bind, List.drop_left]
  rfl

theorem render_cons (line : List Byte) (lines : List (List Byte)) :
    render (line :: lines) = line ++ (crlf ++ render lines) := by
  rw [render, render, List.flatMap_cons, List.append_assoc, List.append_assoc]

theorem length_render_cons (line : List Byte) (lines : List (List Byte)) :
    (render (line :: lines)).length = line.length + 2 + (render lines).length := by
  rw [render_cons, List.length_append, List.length_append, Nat.add_assoc]
  rfl

theorem length_le_render (lines : List (List Byte)) : lines.length < (render lines).length := by
  induction lines with
  | nil => exact Nat.zero_lt_two
  | cons line lines ih =>
      rw [length_render_cons, List.length_cons]
      omega

theorem Field.line_visible (f : Field) : ∀ b ∈ f.line, b ≠ carriageReturn := by
  intro b hb
  rcases List.mem_append.mp hb with hb | hb
  · exact (f.name_visible.2 b hb).2
  rcases List.mem_append.mp hb with hb | hb
  · rw [List.mem_singleton.mp hb]
    decide
  rcases List.mem_append.mp hb with hb | hb
  · rw [List.eq_of_mem_replicate hb]
    decide
  · exact f.value_visible.2 b hb

theorem Field.line_ne_crlf (f : Field) : f.line ++ crlf ≠ crlf := by
  intro h
  have hlength := congrArg List.length h
  rw [List.length_append, Field.line, List.length_append] at hlength
  have hname := List.length_pos_iff.mpr f.name_visible.1
  omega

theorem parseHeaders_spec (valueLength : Nat) (ending : String) (fields : List Field) :
    ∀ (rounds : Nat) {r : Reader} (headers : List Header), fields.length < rounds → r.reader.Fed bufferSize →
      r.reader.remaining = render (fields.map Field.line) ++ rest →
      r.buffer.length + (render (fields.map Field.line)).length ≤ httpSize.toNat →
      ∃ r', parseHeaders bufferSize httpSize valueLength ending rounds r headers =
          .ok (headers ++ fields.map (fun f => (f.matched.view 1 1, f.matched.view 2 valueLength)), r') ∧
        r'.reader.remaining = rest := by
  induction fields with
  | nil =>
      intro rounds r headers hrounds hfed hrest hroom
      obtain ⟨rounds, rfl⟩ := Nat.exists_eq_succ_of_ne_zero (Nat.ne_of_gt hrounds)
      have hempty : ∀ b ∈ ([] : List Byte), b ≠ carriageReturn := fun b hb => absurd hb List.not_mem_nil
      obtain ⟨reader, hload, -, hrest'⟩ := loadLine_spec hempty hroom hfed hrest
      rw [List.nil_append] at hload
      refine ⟨⟨r.buffer ++ crlf, reader⟩, ?_, hrest'⟩
      rw [parseHeaders, hload, ok_bind]
      simp only [check_of (show crlf ≠ [] by decide), ok_bind, if_true]
      rw [List.map_nil, List.append_nil]
      rfl
  | cons f fields ih =>
      intro rounds r headers hrounds hfed hrest hroom
      obtain ⟨rounds, rfl⟩ := Nat.exists_eq_succ_of_ne_zero (Nat.ne_of_gt (Nat.lt_of_le_of_lt (Nat.zero_le _) hrounds))
      rw [List.map_cons, render_cons, List.append_assoc, List.append_assoc] at hrest
      rw [List.map_cons, length_render_cons, ← Nat.add_assoc] at hroom
      have hfirst : r.buffer.length + (f.line.length + 2) ≤ httpSize.toNat := by omega
      obtain ⟨reader, hload, hfed', hrest'⟩ := loadLine_spec f.line_visible hfirst hfed hrest
      obtain ⟨r', hparse, hend⟩ := ih rounds (r := ⟨r.buffer ++ (f.line ++ crlf), reader⟩)
        (headers ++ [(f.matched.view 1 1, f.matched.view 2 valueLength)]) (Nat.lt_of_succ_lt_succ hrounds) hfed' hrest'
        (by rw [List.length_append, List.length_append]; exact hroom)
      refine ⟨r', ?_, hend⟩
      have hne : f.line ++ crlf ≠ [] := fun h => absurd (List.append_eq_nil_iff.mp h).2 (by decide)
      have hmatch : regexMatch headerLine (f.line ++ crlf) "unable to parse header line" = .ok f.matched := by
        rw [regexMatch, headerLine_matches]
        rfl
      have hsize : f.matched.size = 3 := rfl
      rw [parseHeaders, hload, ok_bind]
      simp only [check_of hne, ok_bind, if_neg f.line_ne_crlf, hmatch, check_of hsize, hparse]
      rw [List.append_assoc, List.map_cons, List.singleton_append]

theorem parseHead_spec {startLine : Regex Byte} {line : List Byte} {groups : Regex.Groups} (w : Wording)
    (hmatch : startLine.fullMatch (line ++ crlf) = some groups) (hgroups : groups.length = 3)
    (hline : ∀ b ∈ line, b ≠ carriageReturn) (fields : List Field) {reader : Net.Reader}
    (hfed : reader.Fed bufferSize) (hrest : reader.remaining = render (line :: fields.map Field.line) ++ rest)
    (hroom : (render (line :: fields.map Field.line)).length ≤ httpSize.toNat) :
    ∃ reader', parseHead bufferSize httpSize startLine w reader = .ok (⟨line ++ crlf, groups⟩,
        fields.map (fun f => (f.matched.view 1 1, f.matched.view 2 w.valueLength)), reader') ∧
      reader'.remaining = rest := by
  have hmany := length_le_render (fields.map Field.line)
  rw [render_cons, List.append_assoc, List.append_assoc] at hrest
  rw [length_render_cons] at hroom
  rw [List.length_map] at hmany
  have hfirst : ([] : List Byte).length + (line.length + 2) ≤ httpSize.toNat := by
    rw [List.length_nil]
    omega
  obtain ⟨reader₁, hload, hfed₁, hrest₁⟩ := loadLine_spec (r := { reader := reader }) hline hfirst hfed hrest
  obtain ⟨r, hparse, hend⟩ := parseHeaders_spec w.valueLength w.ending fields (httpSize.toNat + 1)
    (r := ⟨line ++ crlf, reader₁⟩) [] (by omega) hfed₁ hrest₁ (by rw [List.length_append]; exact hroom)
  refine ⟨r.reader, ?_, hend⟩
  have hne : line ++ crlf ≠ [] := fun h => absurd (List.append_eq_nil_iff.mp h).2 (by decide)
  have hmatched : regexMatch startLine (line ++ crlf) w.unable = .ok ⟨line ++ crlf, groups⟩ := by
    rw [regexMatch, hmatch]
  have hsize : Match.size ⟨line ++ crlf, groups⟩ = 4 := congrArg (· + 1) hgroups
  rw [parseHead, hload, ok_bind]
  simp only [check_of hne, ok_bind, hmatched, check_of hsize, List.nil_append, hparse]
  rfl

end Lines

section Heads

variable {bufferSize : Nat} {httpSize : UInt32} {body : List Byte}

theorem visible_of_class {p : Byte → Bool} (hp : p carriageReturn = false) {a : List Byte} (h : ∀ b ∈ a, p b) :
    ∀ b ∈ a, b ≠ carriageReturn := by
  intro b hb heq
  rw [heq] at hb
  exact absurd (h _ hb) (by rw [hp]; exact Bool.false_ne_true)

theorem visible_append {a c : List Byte} (ha : ∀ b ∈ a, b ≠ carriageReturn) (hc : ∀ b ∈ c, b ≠ carriageReturn) :
    ∀ b ∈ a ++ c, b ≠ carriageReturn :=
  fun b hb => (List.mem_append.mp hb).elim (ha b) (hc b)

theorem visible_spaces (n : Nat) : ∀ b ∈ spaces n, b ≠ carriageReturn := by
  intro b hb
  rw [List.eq_of_mem_replicate hb]
  decide

theorem visible_protocol : ∀ b ∈ protocol, b ≠ carriageReturn := by
  simp [protocol, carriageReturn]

theorem Version.visible (v : Version) : ∀ b ∈ v.text, b ≠ carriageReturn :=
  visible_append (visible_of_class rfl v.major_digits.2)
    (visible_append (by simp [dot, carriageReturn]) (visible_of_class rfl v.minor_digits.2))

theorem RequestStart.visible (s : RequestStart) : ∀ b ∈ s.line, b ≠ carriageReturn :=
  visible_append (visible_of_class rfl s.method_upper.2) (visible_append (visible_spaces _)
    (visible_append (fun b hb => (s.path_visible.2 b hb).2) (visible_append (visible_spaces _)
      (visible_append visible_protocol s.version.visible))))

theorem ResponseStart.visible (s : ResponseStart) : ∀ b ∈ s.line, b ≠ carriageReturn :=
  visible_append visible_protocol (visible_append s.version.visible (visible_append (visible_spaces _)
    (visible_append (visible_of_class rfl s.code_digits.2) (visible_append (visible_spaces _) s.status_visible.2.2))))

theorem Field.view_name (f : Field) : f.matched.view 1 1 = f.name :=
  slice_span [] f.name ([colon] ++ (spaces f.gap ++ f.value) ++ crlf)
    (by simp only [matched, line, List.append_assoc, List.nil_append])

theorem Field.view_value (f : Field) : f.matched.view 2 2 = f.value :=
  slice_span (f.name ++ [colon] ++ spaces f.gap) f.value crlf (by simp only [matched, line, List.append_assoc])

theorem Field.view_none (f : Field) : f.matched.view 2 3 = [] := by
  simp [Match.view, Match.span, matched, slice]

theorem RequestStart.views (s : RequestStart) :
    s.matched.view 1 1 = s.method ∧ s.matched.view 2 2 = s.path ∧ s.matched.view 3 3 = s.version.text := by
  refine ⟨slice_span [] s.method (spaces (s.gaps.1 + 1) ++ s.path ++ spaces (s.gaps.2 + 1) ++ protocol ++
      s.version.text ++ crlf) ?_, slice_span (s.method ++ spaces (s.gaps.1 + 1)) s.path
      (spaces (s.gaps.2 + 1) ++ protocol ++ s.version.text ++ crlf) ?_, slice_span (s.method ++
      spaces (s.gaps.1 + 1) ++ s.path ++ spaces (s.gaps.2 + 1) ++ protocol) s.version.text crlf ?_⟩ <;>
    simp only [matched, line, List.append_assoc, List.nil_append]

theorem ResponseStart.views (s : ResponseStart) :
    s.matched.view 1 1 = s.version.text ∧ s.matched.view 2 2 = s.code ∧ s.matched.view 3 3 = s.status := by
  refine ⟨slice_span protocol s.version.text (spaces (s.gaps.1 + 1) ++ s.code ++ spaces (s.gaps.2 + 1) ++ s.status ++
      crlf) ?_, slice_span (protocol ++ s.version.text ++ spaces (s.gaps.1 + 1)) s.code (spaces (s.gaps.2 + 1) ++
      s.status ++ crlf) ?_, slice_span (protocol ++ s.version.text ++ spaces (s.gaps.1 + 1) ++ s.code ++
      spaces (s.gaps.2 + 1)) s.status crlf ?_⟩ <;>
    simp only [matched, line, List.append_assoc]

def RequestStart.request (s : RequestStart) (headers : List Header) : Request :=
  ⟨s.method, s.path, s.version.text, headers⟩

def ResponseStart.response (s : ResponseStart) (headers : List Header) : Response :=
  ⟨s.version.text, s.code, s.status, headers⟩

variable {reader : Net.Reader} {fields : List Field}

theorem request_parses (s : RequestStart) (hfed : reader.Fed bufferSize)
    (hrest : reader.remaining = render (s.line :: fields.map Field.line) ++ body)
    (hroom : (render (s.line :: fields.map Field.line)).length ≤ httpSize.toNat) :
    ParsesBack (Request.parse bufferSize httpSize reader) (s.request (fields.map Field.header)) body := by
  obtain ⟨reader', hparse, hend⟩ := parseHead_spec
    ⟨"request line empty", "unable to parse request line", "unexpected header ending", 2⟩ (requestLine_matches s) rfl
    s.visible fields hfed hrest hroom
  obtain ⟨hmethod, hpath, hversion⟩ := s.views
  have hheaders : fields.map (fun f => (f.matched.view 1 1, f.matched.view 2 2)) = fields.map Field.header :=
    List.map_congr_left (fun f _ => by rw [f.view_name, f.view_value]; rfl)
  refine ⟨reader', ?_, hend⟩
  rw [Request.parse, hparse, ok_bind]
  change Except.ok (Request.mk (s.matched.view 1 1) (s.matched.view 2 2) (s.matched.view 3 3) _, reader') = _
  rw [hmethod, hpath, hversion, hheaders]
  rfl

theorem response_parses (s : ResponseStart) (hfed : reader.Fed bufferSize)
    (hrest : reader.remaining = render (s.line :: fields.map Field.line) ++ body)
    (hroom : (render (s.line :: fields.map Field.line)).length ≤ httpSize.toNat) :
    ParsesBack (Response.parse bufferSize httpSize reader) (s.response (fields.map (fun f => (f.name, [])))) body := by
  obtain ⟨reader', hparse, hend⟩ := parseHead_spec
    ⟨"response line empty", "unable to parse response line", "unexpected hader ending", 3⟩ (responseLine_matches s) rfl
    s.visible fields hfed hrest hroom
  obtain ⟨hversion, hcode, hstatus⟩ := s.views
  have hheaders : fields.map (fun f => (f.matched.view 1 1, f.matched.view 2 3)) = fields.map (fun f => (f.name, [])) :=
    List.map_congr_left (fun f _ => by rw [f.view_name, f.view_none])
  refine ⟨reader', ?_, hend⟩
  rw [Response.parse, hparse, ok_bind]
  change Except.ok (Response.mk (s.matched.view 1 1) (s.matched.view 2 2) (s.matched.view 3 3) _, reader') = _
  rw [hversion, hcode, hstatus, hheaders]
  rfl

/-- Heads parse back, in a request and in a response, if and only if no header of
them has a value. -/
theorem heads_parse_back_iff {requestReader responseReader : Net.Reader} (s : RequestStart) (t : ResponseStart)
    (hrequest : requestReader.Fed bufferSize)
    (hrequestHead : requestReader.remaining = render (s.line :: fields.map Field.line) ++ body)
    (hrequestRoom : (render (s.line :: fields.map Field.line)).length ≤ httpSize.toNat)
    (hresponse : responseReader.Fed bufferSize)
    (hresponseHead : responseReader.remaining = render (t.line :: fields.map Field.line) ++ body)
    (hresponseRoom : (render (t.line :: fields.map Field.line)).length ≤ httpSize.toNat) :
    ParsesBack (Request.parse bufferSize httpSize requestReader) (s.request (fields.map Field.header)) body ∧
        ParsesBack (Response.parse bufferSize httpSize responseReader) (t.response (fields.map Field.header)) body ↔
      ∀ f ∈ fields, f.value = [] := by
  obtain ⟨reader, hparse, hbody⟩ := response_parses t hresponse hresponseHead hresponseRoom
  rw [and_iff_right (request_parses s hrequest hrequestHead hrequestRoom)]
  constructor
  · rintro ⟨reader', hparse', -⟩ f hf
    have hsame := (Prod.mk.inj (Except.ok.inj (hparse.symm.trans hparse'))).1
    have hheaders : fields.map (fun f => (f.name, [])) = fields.map Field.header := congrArg Response.headers hsame
    exact (congrArg Prod.snd (List.map_inj_left.mp hheaders f hf)).symm
  · intro hempty
    have hheaders : fields.map (fun f => (f.name, [])) = fields.map Field.header :=
      List.map_inj_left.mpr (fun f hf => by rw [Field.header, hempty f hf])
    exact ⟨reader, by rw [hparse, hheaders], hbody⟩

/-- "GET / HTTP/1.1" -/
def getRoot : RequestStart where
  method := [71, 69, 84]
  path := [47]
  version := ⟨[49], [49], ⟨by simp, List.all_eq_true.mp rfl⟩, ⟨by simp, List.all_eq_true.mp rfl⟩⟩
  gaps := (0, 0)
  method_upper := ⟨by simp, List.all_eq_true.mp rfl⟩
  path_visible := by simp [space, carriageReturn]

/-- "HTTP/1.1 200 OK" -/
def ok : ResponseStart where
  version := ⟨[49], [49], ⟨by simp, List.all_eq_true.mp rfl⟩, ⟨by simp, List.all_eq_true.mp rfl⟩⟩
  code := [50, 48, 48]
  status := [79, 75]
  gaps := (0, 0)
  code_digits := ⟨by simp, List.all_eq_true.mp rfl⟩
  status_visible := by simp [space, carriageReturn]

/-- "a: " -/
def emptyField : Field where
  name := [97]
  value := []
  gap := 1
  name_visible := by simp [colon, carriageReturn]
  value_visible := by simp

/-- "a: b" -/
def letterField : Field := { emptyField with value := [98], value_visible := by simp [space, carriageReturn] }

def receiving (chunks : List (List Byte)) : Net.Reader := { source := chunks }

theorem receiving_fed {chunks : List (List Byte)} (h : ∀ chunk ∈ chunks, chunk ≠ [] ∧ chunk.length ≤ bufferSize) :
    (receiving chunks).Fed bufferSize :=
  ⟨Nat.le_refl _, h⟩

theorem heads_parse_back_iff_empty :
    ParsesBack (Request.parse 64 64 (receiving [render [getRoot.line, emptyField.line], [1]]))
        (getRoot.request [([97], [])]) [1] ∧
      ParsesBack (Response.parse 64 64 (receiving [render [ok.line, emptyField.line], [1]]))
        (ok.response [([97], [])]) [1] := by
  let requestHead := render (getRoot.line :: [emptyField].map Field.line)
  let responseHead := render (ok.line :: [emptyField].map Field.line)
  have hrequest : (receiving [requestHead, [1]]).Fed 64 := receiving_fed (by decide)
  have hresponse : (receiving [responseHead, [1]]).Fed 64 := receiving_fed (by decide)
  have hrequestHead : (receiving [requestHead, [1]]).remaining = requestHead ++ [1] := rfl
  have hresponseHead : (receiving [responseHead, [1]]).remaining = responseHead ++ [1] := rfl
  refine (heads_parse_back_iff getRoot ok hrequest hrequestHead (by decide) hresponse hresponseHead (by decide)).mpr ?_
  intro f hf
  rw [List.mem_singleton.mp hf]
  rfl

/-- The value of a header of a response is lost. -/
theorem not_heads_parse_back :
    ¬ ParsesBack (Response.parse 64 64 (receiving [render [ok.line, letterField.line], [1]]))
      (ok.response [([97], [98])]) [1] := by
  rintro ⟨reader, hparse, -⟩
  have hempty : (Response.parse 64 64 (receiving [render [ok.line, letterField.line], [1]])).toOption.map
      (fun r => r.1.headers) = some [([97], [])] := by
    decide +kernel
  rw [hparse] at hempty
  exact absurd (Option.some.inj hempty) (by simp [ResponseStart.response])

end Heads

end Http

end Tyrdbs.Net
