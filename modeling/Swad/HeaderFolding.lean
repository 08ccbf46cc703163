import Swad.Httprequest

/-!
The headers of a request as its lines give them. A header is kept back until the line after
it shows that its value does not go on, so what the set will hold once the pending header is
added tells the progress of the block. A continuation line adds its text behind one space,
without the blanks at its start.
-/
namespace Swad.HeaderFolding

open Bytes Util Headerset Httprequest

/-- A text that neither ends a line nor a string. -/
structure Plain (s : Str) : Prop where
  cr : chr '\r' ∉ s
  lf : chr '\n' ∉ s
  nul : (0 : Byte) ∉ s

/-- A value and the part that a line adds to it. -/
def extend (value part : Str) : Str :=
  if value = [] then part else value ++ chr ' ' :: part

/-- Parts joined by one space, by none while there is nothing before. -/
def joined (parts : List Str) : Str := parts.foldl extend []

/-- A name that is sent before a colon. -/
structure Sent (name : Str) : Prop extends Plain name where
  colon : chr ':' ∉ name
  nonempty : name ≠ []
  length_le : name.length ≤ 255
  head : name.head?.any isBlank = false

/-- A continuation line: the blanks at its start, and its part of the value. -/
structure Continuation where
  blanks : Str
  part : Str
  nonempty : blanks ≠ []
  blank : ∀ c ∈ blanks, isBlank c = true
  head : part.head?.any isBlank = false
  plain : Plain part

def Continuation.line (self : Continuation) : Str := self.blanks ++ self.part ++ crlf

/-- A header whose value is split into lines. -/
structure Folded where
  name : Str
  spaces : Str
  first : Str
  more : List Continuation
  sent : Sent name
  space : ∀ c ∈ spaces, c = chr ' '
  head : first.head?.any (· == chr ' ') = false
  plain : Plain first
  length_le : (joined (first :: more.map Continuation.part)).length ≤ 8191

namespace Folded

def parts (self : Folded) : List Str := self.first :: self.more.map Continuation.part

def value (self : Folded) : Str := joined self.parts

def line (self : Folded) : Str := self.name ++ chr ':' :: (self.spaces ++ self.first ++ crlf)

def lines (self : Folded) : List Str := self.line :: self.more.map Continuation.line

theorem validate (self : Folded) : validate self.name self.value = true := by
  have hname := self.sent.length_le
  have hvalue : self.value.length ≤ 8191 := self.length_le
  simp only [Headerset.validate, Bool.and_eq_true, decide_eq_true_eq]
  unfold UINT16_MAX
  omega

def header (self : Folded) : Header := ⟨self.name, self.value, self.validate⟩

end Folded

/-- A header that is sent on one line. -/
structure OneLine (header : Header) : Prop where
  sent : Sent header.name
  head : header.value.head?.any (· == chr ' ') = false
  plain : Plain header.value
  length_le : header.value.length ≤ 8191

/-- After these lines and the blank one the request holds the headers, in their order. -/
def Reads (request : HttpRequest) (lines : List Str) (headers : List Header) : Prop :=
  ∃ result next, feed request (lines ++ [crlf]) = some result ∧ Leaves result next ∧
    next.headers = headers.foldl HeaderSet.add HeaderSet.create ∧
    ∀ name, next.headers.any name = headers.filter fun h => h.key == lowerstr name

/-- The values of a name in the request that is left. -/
def valuesOf (result : Option Received) (name : Str) : List Str :=
  match result with
  | some (.more request) | some (.received request) =>
    (request.headers.any name).map Header.value
  | _ => []

/-! ### Parts -/

theorem length_le_extend (value part : Str) : value.length ≤ (extend value part).length := by
  unfold extend
  split
  · next h => simp [h]
  · simp

theorem length_le_foldl (parts : List Str) (value : Str) :
    value.length ≤ (parts.foldl extend value).length := by
  induction parts generalizing value with
  | nil => exact le_refl _
  | cons part parts ih => exact (length_le_extend value part).trans (ih (extend value part))

/-! ### One line -/

section lines

variable {request : HttpRequest} {set : HeaderSet} {name value : Str}

theorem cstr_line {s : Str} (h : (0 : Byte) ∉ s) : cstr (s ++ crlf) = s ++ crlf := by
  apply cstr_eq_self
  intro hmem
  rcases List.mem_append.mp hmem with hmem | hmem
  · exact h hmem
  · exact absurd hmem (by decide)

theorem untilEol_line {s : Str} (h : Plain s) : untilEol (s ++ crlf) = some s := by
  have hmem : chr '\r' ∈ s ++ crlf := List.mem_append_right _ List.mem_cons_self
  rw [untilEol, if_pos hmem]
  exact congrArg some (takeWhile_until h.cr _)

/-- What a loop skips at the start of a text ends at the text. -/
theorem dropWhile_lead {p : Byte → Bool} {lead s : Str} (hlead : ∀ c ∈ lead, p c = true)
    (hs : s.head?.any p = false) (hcr : p (chr '\r') = false) :
    (lead ++ s ++ crlf).dropWhile p = s ++ crlf := by
  rw [List.append_assoc]
  cases s with
  | nil => exact dropWhile_stop hlead hcr _
  | cons c s => exact dropWhile_stop hlead hs _

theorem copy_text {size : ℕ} (buf : Buf size) : Buf.copy size buf.text = some buf :=
  dif_pos buf.fits

theorem newHeader_of {line : Str} {hdrnm : Buf 256} {hdrval : Buf 8192} (hcolon : chr ':' ∈ line)
    (hname : line.takeWhile (· != chr ':') = hdrnm.text) (hne : hdrnm.text ≠ [])
    (hvalue : untilEol (((line.dropWhile (· != chr ':')).drop 1).dropWhile (· == chr ' ')) =
      some hdrval.text) :
    newHeader request line = some { request with hdrnm := hdrnm, hdrval := hdrval } := by
  unfold newHeader
  rw [hname, hvalue]
  simp [hcolon, hne, copy_text]

theorem continueHeader_of {line part : Str} {hdrval : Buf 8192} (hname : request.hdrnm.text ≠ [])
    (hpart : untilEol (line.dropWhile isBlank) = some part)
    (hvalue : (if request.hdrval.text = [] then part
      else request.hdrval.text ++ chr ' ' :: part) = hdrval.text) :
    continueHeader request line = some { request with hdrval := hdrval } := by
  unfold continueHeader
  rw [hpart]
  simp [hname, hvalue, copy_text]

/-- A header that is not in the set yet. -/
structure Pending (request : HttpRequest) (set : HeaderSet) (name value : Str) : Prop where
  state : request.recvState = .headers
  headers : request.headers = set
  name : request.hdrnm.text = name
  value : request.hdrval.text = value

/-- The set once the pending header is added. -/
structure Progress (request : HttpRequest) (set : HeaderSet) : Prop where
  state : request.recvState = .headers
  stored : (storeHeader request).headers = set

theorem Pending.progress {f : Folded} (h : Pending request set f.name f.value) :
    Progress request (set.add f.header) where
  state := h.state
  stored := by
    have hcreate : Header.create request.hdrnm.text request.hdrval.text = some f.header := by
      rw [h.name, h.value]
      exact dif_pos f.validate
    have hname : request.hdrnm.text ≠ [] := by
      rw [h.name]
      exact f.sent.nonempty
    rw [storeHeader, if_neg hname, hcreate]
    exact congrArg (HeaderSet.add · f.header) h.headers

theorem Folded.nul_notMem (f : Folded) :
    (0 : Byte) ∉ f.name ++ chr ':' :: (f.spaces ++ f.first) := by
  have hspaces : (0 : Byte) ∉ f.spaces := fun h => absurd (f.space _ h) (by decide)
  rw [List.mem_append, List.mem_cons, List.mem_append]
  rintro (h | h | h | h)
  · exact f.sent.nul h
  · exact absurd h (by decide)
  · exact hspaces h
  · exact f.plain.nul h

theorem Folded.cstr_line (f : Folded) : cstr f.line = f.line := by
  have hsplit : f.line = (f.name ++ chr ':' :: (f.spaces ++ f.first)) ++ crlf := by
    simp only [Folded.line, List.append_assoc, List.cons_append]
  rw [hsplit]
  exact Swad.HeaderFolding.cstr_line f.nul_notMem

/-- A line with a name has no blank at its start, and is not the blank line. -/
theorem Folded.head_line (f : Folded) :
    f.line.head?.any isBlank = false ∧ startsWithEol f.line = false := by
  obtain ⟨c, rest, hname⟩ := List.exists_cons_of_ne_nil f.sent.nonempty
  have hhead : f.line.head? = some c := by
    rw [Folded.line, hname]
    rfl
  have hmem : c ∈ f.name := by
    rw [hname]
    exact List.mem_cons_self
  have hblank := f.sent.head
  rw [hname] at hblank
  have hcr : c ≠ chr '\r' := fun h => f.sent.cr (h ▸ hmem)
  have hlf : c ≠ chr '\n' := fun h => f.sent.lf (h ▸ hmem)
  constructor
  · rw [hhead]
    exact hblank
  · rw [startsWithEol, hhead]
    simp [hcr, hlf]

/-- A line with a name stores the header before it, and is pending itself. -/
theorem Progress.line (h : Progress request set) (f : Folded) :
    ∃ next, dataReceived request f.line = .more next ∧ Pending next set f.name f.first := by
  obtain ⟨hblank, heol⟩ := f.head_line
  have hfirst : f.first.length < 8192 := by
    have hle := length_le_foldl (f.more.map Continuation.part) (extend [] f.first)
    exact Nat.lt_succ_of_le (hle.trans f.length_le)
  have hname : f.line.takeWhile (· != chr ':') = f.name := takeWhile_until f.sent.colon _
  have hrest : (f.line.dropWhile (· != chr ':')).drop 1 = f.spaces ++ f.first ++ crlf := by
    rw [Folded.line, dropWhile_until f.sent.colon]
    rfl
  have hnew := @newHeader_of (storeHeader request) f.line
    ⟨f.name, Nat.lt_succ_of_le f.sent.length_le⟩ ⟨f.first, hfirst⟩
    (List.mem_append_right _ List.mem_cons_self) hname f.sent.nonempty
    (by rw [hrest, dropWhile_lead (fun c hc => beq_iff_eq.mpr (f.space c hc)) f.head rfl,
      untilEol_line f.plain])
  have hdata : dataReceived request f.line = orError (newHeader (storeHeader request) f.line) := by
    rw [dataReceived, h.state]
    show headerLine request (cstr f.line) = _
    rw [f.cstr_line, headerLine, hblank, heol]
    rfl
  refine ⟨_, hdata.trans (orError_eq_more.mpr hnew), ?_, h.stored, rfl, rfl⟩
  obtain ⟨headers, hdrnm, hdrval, hstore⟩ := storeHeader_eq request
  show (storeHeader request).recvState = _
  rw [hstore]
  exact h.state

theorem Continuation.cstr_line (c : Continuation) : cstr c.line = c.line := by
  apply Swad.HeaderFolding.cstr_line
  intro h
  rcases List.mem_append.mp h with h | h
  · exact absurd (c.blank _ h) (by decide)
  · exact c.plain.nul h

/-- A continuation line adds its part to the value of the pending header. -/
theorem Pending.continuation (h : Pending request set name value) (hname : name ≠ [])
    (c : Continuation) (hlength : (extend value c.part).length ≤ 8191) :
    ∃ next, dataReceived request c.line = .more next ∧
      Pending next set name (extend value c.part) := by
  obtain ⟨b, rest, hblanks⟩ := List.exists_cons_of_ne_nil c.nonempty
  have hblank : c.line.head?.any isBlank = true := by
    rw [Continuation.line, hblanks]
    exact c.blank b (hblanks ▸ List.mem_cons_self)
  have hpart : untilEol (c.line.dropWhile isBlank) = some c.part := by
    rw [Continuation.line, dropWhile_lead c.blank c.head rfl, untilEol_line c.plain]
  have hmore := @continueHeader_of request c.line c.part
    ⟨extend value c.part, Nat.lt_succ_of_le hlength⟩ (by rwa [h.name]) hpart
    (by rw [h.value]; rfl)
  have hdata : dataReceived request c.line = orError (continueHeader request c.line) := by
    rw [dataReceived, h.state]
    show headerLine request (cstr c.line) = _
    rw [c.cstr_line, headerLine, if_pos hblank]
  exact ⟨_, hdata.trans (orError_eq_more.mpr hmore), h.state, h.headers, h.name, rfl⟩

end lines

/-! ### All lines -/

section block

variable {request : HttpRequest} {set : HeaderSet} {name value : Str}

theorem Pending.continuations (cs : List Continuation) (h : Pending request set name value)
    (hname : name ≠ [])
    (hlength : ((cs.map Continuation.part).foldl extend value).length ≤ 8191) :
    ∃ next, (∀ rest, feed request (cs.map Continuation.line ++ rest) = feed next rest) ∧
      Pending next set name ((cs.map Continuation.part).foldl extend value) := by
  induction cs generalizing request value with
  | nil => exact ⟨request, fun _ => rfl, h⟩
  | cons c cs ih =>
    have hle := length_le_foldl (cs.map Continuation.part) (extend value c.part)
    obtain ⟨mid, hdata, hmid⟩ := h.continuation hname c (hle.trans hlength)
    obtain ⟨next, hfeed, hnext⟩ := ih hmid hlength
    exact ⟨next, fun rest => (feed_cons_more hdata _).trans (hfeed rest), hnext⟩

theorem Progress.field (h : Progress request set) (f : Folded) :
    ∃ next, (∀ rest, feed request (f.lines ++ rest) = feed next rest) ∧
      Progress next (set.add f.header) := by
  obtain ⟨mid, hdata, hmid⟩ := h.line f
  obtain ⟨next, hfeed, hnext⟩ := hmid.continuations f.more f.sent.nonempty f.length_le
  exact ⟨next, fun rest => (feed_cons_more hdata _).trans (hfeed rest), hnext.progress⟩

theorem Progress.fields (fields : List Folded) (h : Progress request set) :
    ∃ next, (∀ rest, feed request (fields.flatMap Folded.lines ++ rest) = feed next rest) ∧
      Progress next ((fields.map Folded.header).foldl HeaderSet.add set) := by
  induction fields generalizing request set with
  | nil => exact ⟨request, fun _ => rfl, h⟩
  | cons f fields ih =>
    obtain ⟨mid, hfirst, hmid⟩ := h.field f
    obtain ⟨next, hfeed, hnext⟩ := ih hmid
    refine ⟨next, fun rest => ?_, hnext⟩
    rw [List.flatMap_cons, List.append_assoc, hfirst, hfeed]

/-- The blank line stores the last header; the set stays what it is then. -/
theorem Progress.blank (h : Progress request set) :
    ∃ result next, feed request [crlf] = some result ∧ Leaves result next ∧
      next.headers = set := by
  have hdata : dataReceived request crlf = blankLine (storeHeader request) := by
    rw [dataReceived, h.state]
    rfl
  obtain ⟨next, hnext⟩ := blankLine_leaves (storeHeader request)
  have hheaders : next.headers = set := (blankLine_headers hnext).trans h.stored
  rcases hnext with hmore | hreceived
  · exact ⟨_, next, feed_cons_more (hdata.trans hmore) [], Or.inl rfl, hheaders⟩
  · refine ⟨.received next, next, ?_, Or.inr rfl, hheaders⟩
    rw [feed, hdata, hreceived]
    rfl

theorem reads_fields (h : Progress request HeaderSet.create) (fields : List Folded) :
    Reads request (fields.flatMap Folded.lines) (fields.map Folded.header) := by
  obtain ⟨mid, hfeed, hmid⟩ := h.fields fields
  obtain ⟨result, next, hblank, hleaves, hheaders⟩ := hmid.blank
  refine ⟨result, next, (hfeed [crlf]).trans hblank, hleaves, hheaders, fun name => ?_⟩
  rw [hheaders]
  exact HeaderSet.any_foldl _ name

/-- Nothing is pending after the request line. -/
theorem progress_requestLine {line : Str} (h : requestLine HttpRequest.create line = some request) :
    Progress request HeaderSet.create := by
  obtain ⟨meth, path, version, rfl⟩ := requestLine_eq_some h
  exact ⟨rfl, rfl⟩

def OneLine.folded {header : Header} (h : OneLine header) : Folded where
  name := header.name
  spaces := str " "
  first := header.value
  more := []
  sent := h.sent
  space := List.forall_mem_singleton.mpr rfl
  head := h.head
  plain := h.plain
  length_le := h.length_le

theorem OneLine.header_folded {header : Header} (h : OneLine header) :
    h.folded.header = header := rfl

theorem OneLine.lines_folded {header : Header} (h : OneLine header) :
    h.folded.lines = [header.writeTo] := by
  show [header.name ++ chr ':' :: (str " " ++ header.value ++ crlf)] = _
  rw [Header.writeTo]
  simp [str]

/-- The headers on one line each are folded headers without continuation lines. -/
theorem exists_folded {headers : List Header} (h : ∀ x ∈ headers, OneLine x) :
    ∃ fields : List Folded, fields.map Folded.header = headers ∧
      fields.flatMap Folded.lines = headers.map Header.writeTo := by
  induction headers with
  | nil => exact ⟨[], rfl, rfl⟩
  | cons x headers ih =>
    obtain ⟨fields, hheaders, hlines⟩ := ih fun y hy => h y (List.mem_cons_of_mem x hy)
    have hx := h x List.mem_cons_self
    refine ⟨hx.folded :: fields, ?_, ?_⟩
    · rw [List.map_cons, hx.header_folded, hheaders]
    · rw [List.flatMap_cons, hx.lines_folded, hlines]
      rfl

/-- Once the request line is read, header lines are read to the headers whose values they
split, and lines without continuation to the headers they were written from. -/
theorem folded_headers_read {line : List Byte}
    (h : requestLine HttpRequest.create (cstr line) = some request) :
    (∀ fields : List Folded,
      Reads request (fields.flatMap Folded.lines) (fields.map Folded.header)) ∧
    ∀ headers : List Header, (∀ x ∈ headers, OneLine x) →
      Reads request (headers.map Header.writeTo) headers := by
  have hstart := progress_requestLine h
  refine ⟨reads_fields hstart, fun headers hheaders => ?_⟩
  obtain ⟨fields, hfields, hlines⟩ := exists_folded hheaders
  have hreads := reads_fields hstart fields
  rwa [hfields, hlines] at hreads

/-! ### A request -/

def rootLine : Str := str "GET / HTTP/1.1" ++ crlf

def rootRequest : HttpRequest :=
  { HttpRequest.create with
    meth := ⟨str "GET", by decide⟩
    path := ⟨str "/", Buf.root_fits⟩
    version := .http11
    recvState := .headers }

def foldedWords : Folded where
  name := str "X"
  spaces := str " "
  first := str "a"
  more := [⟨str "\t", str "b", by decide, List.forall_mem_singleton.mpr rfl, by decide,
    ⟨by decide, by decide, by decide⟩⟩]
  sent := ⟨⟨by decide, by decide, by decide⟩, by decide, by decide, by decide, by decide⟩
  space := List.forall_mem_singleton.mpr rfl
  head := by decide
  plain := ⟨by decide, by decide, by decide⟩
  length_le := by decide

theorem oneLine_words : OneLine foldedWords.header where
  sent := foldedWords.sent
  head := by decide
  plain := ⟨by decide, by decide, by decide⟩
  length_le := by decide

def hostHeader : Header := ⟨str "Host", str "a.b", by decide +kernel⟩

theorem oneLine_host : OneLine hostHeader where
  sent := ⟨⟨by decide, by decide, by decide⟩, by decide, by decide, by decide, by decide⟩
  head := by decide
  plain := ⟨by decide, by decide, by decide⟩
  length_le := by decide

/-- A value in two lines behind another header, and the same value in one. -/
theorem folded_headers_read_words :
    requestLine HttpRequest.create (cstr rootLine) = some rootRequest ∧
      Reads rootRequest [str "Host: a.b" ++ crlf, str "X: a" ++ crlf, str "\tb" ++ crlf]
        [hostHeader, foldedWords.header] ∧
      Reads rootRequest [str "Host: a.b" ++ crlf, str "X: a b" ++ crlf]
        [hostHeader, foldedWords.header] := by
  have hline : requestLine HttpRequest.create (cstr rootLine) = some rootRequest := rfl
  obtain ⟨hfolded, hsingle⟩ := folded_headers_read hline
  refine ⟨hline, hfolded [oneLine_host.folded, foldedWords],
    hsingle [hostHeader, foldedWords.header] fun x hx => ?_⟩
  rcases List.mem_cons.mp hx with rfl | hx
  · exact oneLine_host
  · exact List.mem_singleton.mp hx ▸ oneLine_words

/-- A value that is split between two spaces loses the second one. -/
theorem split_value_lost :
    joined [str "a", str " b"] = str "a  b" ∧
      valuesOf (feed HttpRequest.create
        [rootLine, str "X: a" ++ crlf, str " " ++ str " b" ++ crlf, crlf]) (str "X") =
          [str "a b"] := by
  decide +kernel

end block

end Swad.HeaderFolding
