import Mathlib.Data.Option.Basic
import Swad.Headerset
import Swad.Http

/-!
The incremental parser of a request. The connection delivers the request line and
the header lines one by one and then the body in arbitrary chunks; each delivery
either leaves the parser waiting, completes the request or is a protocol error.
-/
namespace Swad.Httprequest

open Bytes Util Headerset Http

def MAXBODY : ℕ := 1024 * 1024

/-- A string in a character array of the given size. -/
structure Buf (size : ℕ) where
  text : Str
  fits : text.length < size

def Buf.empty (size : ℕ) (h : 0 < size) : Buf size := ⟨[], h⟩

theorem Buf.root_fits : (str "/").length < 8192 := by decide

def Buf.copy (size : ℕ) (text : Str) : Option (Buf size) :=
  if h : text.length < size then some ⟨text, h⟩ else none

inductive ReqRecvState
  | method | headers | body
  deriving DecidableEq

/-- The memory of the body is uninitialised where it is `none`. The length of a
header value under construction is the length of its text. -/
structure HttpRequest where
  bodySize : ℕ
  bodypos : ℕ
  headers : HeaderSet
  body : List (Option Byte)
  method : HttpMethod
  status : HttpStatus
  version : HttpVersion
  recvState : ReqRecvState
  path : Buf 8192
  hdrval : Buf 8192
  hdrnm : Buf 256
  meth : Buf 16

def HttpRequest.create : HttpRequest where
  bodySize := 0
  bodypos := 0
  headers := HeaderSet.create
  body := []
  method := .invalm
  status := .ok
  version := .http10
  recvState := .method
  path := Buf.empty 8192 (by decide)
  hdrval := Buf.empty 8192 (by decide)
  hdrnm := Buf.empty 256 (by decide)
  meth := Buf.empty 16 (by decide)

/-- The effect of one delivery. -/
inductive Received
  | more (self : HttpRequest)
  | received (self : HttpRequest)
  | error

def isPath (c : Byte) : Bool := 0x20 < c && c < 0x7f

def isBlank (c : Byte) : Bool := c == chr ' ' || c == chr '\t'

def startsWithEol (line : Str) : Bool :=
  line.head? == some (chr '\r') || line.head? == some (chr '\n')

/-- The text before the first CR, or before the first LF if there is no CR. -/
def untilEol (line : Str) : Option Str :=
  if chr '\r' ∈ line then some (line.takeWhile (· != chr '\r'))
  else if chr '\n' ∈ line then some (line.takeWhile (· != chr '\n'))
  else none

def protocolVersion (line : Str) : Option (HttpVersion × Str) :=
  match line with
  | c :: line =>
    if c = chr '1' then some (.http11, line)
    else if c = chr '0' then some (.http10, line)
    else none
  | [] => none

def requestLine (self : HttpRequest) (line : Str) : Option HttpRequest := do
  let word := line.takeWhile (· != chr ' ')
  let line := line.dropWhile (· != chr ' ')
  guard (word.all isupper ∧ line ≠ [] ∧ word ≠ [])
  let meth ← Buf.copy 16 word
  let line := line.dropWhile (· == chr ' ')
  let word := line.takeWhile isPath
  let line := line.dropWhile isPath
  guard (line.head? = some (chr ' '))
  let path ← Buf.copy 8192 word
  let line := line.dropWhile (· == chr ' ')
  guard (line.take 7 = str "HTTP/1.")
  let (version, line) ← protocolVersion (line.drop 7)
  guard (startsWithEol (line.dropWhile (· == chr ' ')))
  return { self with meth, path, version, recvState := .headers }

/-- A line that continues the value of the header before it. -/
def continueHeader (self : HttpRequest) (line : Str) : Option HttpRequest := do
  guard (self.hdrnm.text ≠ [])
  let part ← untilEol (line.dropWhile isBlank)
  let hdrval ← Buf.copy 8192
    (if self.hdrval.text = [] then part else self.hdrval.text ++ chr ' ' :: part)
  return { self with hdrval }

/-- A complete header is added to the set; the buffers always fit a field. -/
def storeHeader (self : HttpRequest) : HttpRequest :=
  if self.hdrnm.text = [] then self
  else
    match Header.create self.hdrnm.text self.hdrval.text with
    | some header =>
      { self with
        headers := self.headers.add header
        hdrnm := Buf.empty 256 (by decide)
        hdrval := Buf.empty 8192 (by decide) }
    | none => self

def newHeader (self : HttpRequest) (line : Str) : Option HttpRequest := do
  guard (chr ':' ∈ line)
  let name := line.takeWhile (· != chr ':')
  guard (name ≠ [])
  let hdrnm ← Buf.copy 256 name
  let value ← untilEol (((line.dropWhile (· != chr ':')).drop 1).dropWhile (· == chr ' '))
  let hdrval ← Buf.copy 8192 value
  return { self with hdrnm, hdrval }

def methodOf (meth : Str) : HttpMethod :=
  if meth = str "OPTIONS" then .options
  else if meth = str "GET" then .get
  else if meth = str "HEAD" then .head
  else if meth = str "POST" then .post
  else if meth = str "PUT" then .put
  else if meth = str "DELETE" then .delete
  else if meth = str "TRACE" then .trace
  else if meth = str "CONNECT" then .connect
  else .invalm

/-- The status of a request whose header lines were in order. -/
def checkBody (method : HttpMethod) (bodySize : ℕ) : HttpStatus :=
  match method with
  | .get | .head | .delete | .connect => if bodySize ≠ 0 then .badRequest else .ok
  | .post | .put => if bodySize = 0 then .badRequest else .ok
  | _ => .ok

def finish (self : HttpRequest) : HttpRequest :=
  { self with
    method := methodOf self.meth.text
    status :=
      if self.status = .ok then checkBody (methodOf self.meth.text) self.bodySize
      else self.status }

/-- The end of the headers: the body is announced by the first Content-Length. -/
def blankLine (self : HttpRequest) : Received :=
  match self.headers.first (str "Content-Length") with
  | none =>
    if self.meth.text = str "POST" ∨ self.meth.text = str "PUT" then
      .received (finish { self with status := .lengthRequired })
    else .received (finish self)
  | some contentLength =>
    let (length, endp) := strtoll contentLength.value
    if endp ≠ [] ∨ length ≤ 0 ∨ MAXBODY < length then
      .received (finish { self with
        status := if MAXBODY < length then .requestEntityTooLarge else .badRequest })
    else
      .more { self with
        bodySize := length.toNat
        body := List.replicate length.toNat none
        recvState := .body }

/-- `memcpy` to the start of a block of memory. -/
def overwrite (dest : List (Option Byte)) (src : List Byte) : List (Option Byte) :=
  src.map some ++ dest.drop src.length

def bodyChunk (self : HttpRequest) (buf : List Byte) : Received :=
  let chunk := buf.take (self.bodySize - self.bodypos)
  let self := { self with
    body := overwrite self.body chunk
    bodypos := self.bodypos + chunk.length }
  if self.bodypos < self.bodySize then .more self else .received (finish self)

def orError : Option HttpRequest → Received
  | some self => .more self
  | none => .error

def headerLine (self : HttpRequest) (line : Str) : Received :=
  if line.head?.any isBlank then orError (continueHeader self line)
  else
    let self := storeHeader self
    if startsWithEol line then blankLine self else orError (newHeader self line)

def dataReceived (self : HttpRequest) (buf : List Byte) : Received :=
  match self.recvState with
  | .method => orError (requestLine self (cstr buf))
  | .headers => headerLine self (cstr buf)
  | .body => bodyChunk self buf

/-- The deliveries to one request, none of them after it is complete. -/
def feed (self : HttpRequest) : List (List Byte) → Option Received
  | [] => some (.more self)
  | buf :: bufs =>
    match dataReceived self buf with
    | .more self => feed self bufs
    | result => if bufs = [] then some result else none

theorem requestLine_eq_some {self self' : HttpRequest} {line : Str}
    (h : requestLine self line = some self') :
    ∃ meth path version,
      self' = { self with meth := meth, path := path, version := version, recvState := .headers } := by
  simp only [requestLine, Option.bind_eq_bind, Option.bind_eq_some_iff, Option.pure_def,
    Option.some.injEq] at h
  obtain ⟨_, _, meth, _, _, _, path, _, _, _, ⟨version, _⟩, _, _, _, rfl⟩ := h
  exact ⟨meth, path, version, rfl⟩

theorem Buf.text_of_copy {size : ℕ} {text : Str} {buf : Buf size}
    (h : Buf.copy size text = some buf) : buf.text = text := by
  unfold Buf.copy at h
  split at h
  · obtain rfl := Option.some.inj h
    rfl
  · cases h

theorem continueHeader_eq_some {self self' : HttpRequest} {line : Str}
    (h : continueHeader self line = some self') :
    self.hdrnm.text ≠ [] ∧ ∃ part hdrval, untilEol (line.dropWhile isBlank) = some part ∧
      hdrval.text = (if self.hdrval.text = [] then part
        else self.hdrval.text ++ chr ' ' :: part) ∧
      self' = { self with hdrval := hdrval } := by
  simp only [continueHeader, Option.bind_eq_bind, Option.bind_eq_some_iff, Option.pure_def,
    Option.some.injEq, Option.guard_eq_some'] at h
  obtain ⟨_, hname, part, hpart, hdrval, hcopy, rfl⟩ := h
  exact ⟨hname, part, hdrval, hpart, Buf.text_of_copy hcopy, rfl⟩

theorem newHeader_eq_some {self self' : HttpRequest} {line : Str}
    (h : newHeader self line = some self') :
    ∃ hdrnm hdrval, hdrnm.text = line.takeWhile (· != chr ':') ∧ hdrnm.text ≠ [] ∧
      untilEol (((line.dropWhile (· != chr ':')).drop 1).dropWhile (· == chr ' ')) =
        some hdrval.text ∧
      self' = { self with hdrnm := hdrnm, hdrval := hdrval } := by
  simp only [newHeader, Option.bind_eq_bind, Option.bind_eq_some_iff, Option.pure_def,
    Option.some.injEq, Option.guard_eq_some'] at h
  obtain ⟨_, _, _, hne, hdrnm, hname, value, hvalue, hdrval, hcopy, rfl⟩ := h
  have hname := Buf.text_of_copy hname
  refine ⟨hdrnm, hdrval, hname, ?_, ?_, rfl⟩
  · rw [hname]
    exact hne
  · rw [Buf.text_of_copy hcopy]
    exact hvalue

/-- The two buffers of a header are small enough for a field. -/
theorem validate_bufs (name : Buf 256) (value : Buf 8192) :
    validate name.text value.text = true := by
  have hn := name.fits
  have hv := value.fits
  simp only [validate, Bool.and_eq_true, decide_eq_true_eq]
  unfold UINT16_MAX
  omega

/-- Storing the pending header changes the set of headers only. -/
theorem storeHeader_eq (self : HttpRequest) :
    ∃ headers hdrnm hdrval,
      storeHeader self = { self with headers := headers, hdrnm := hdrnm, hdrval := hdrval } := by
  unfold storeHeader Header.create
  rw [dif_pos (validate_bufs self.hdrnm self.hdrval)]
  split
  · exact ⟨self.headers, self.hdrnm, self.hdrval, rfl⟩
  · exact ⟨_, _, _, rfl⟩

theorem orError_eq_more {result : Option HttpRequest} {self : HttpRequest} :
    orError result = .more self ↔ result = some self := by
  cases result <;> simp [orError]

theorem orError_ne_received (result : Option HttpRequest) (self : HttpRequest) :
    orError result ≠ .received self := by
  cases result <;> simp [orError]

/-- The request that a delivery leaves, complete or not. -/
def Leaves (result : Received) (next : HttpRequest) : Prop :=
  result = .more next ∨ result = .received next

theorem leaves_orError {result : Option HttpRequest} {next : HttpRequest}
    (h : Leaves (orError result) next) : result = some next :=
  h.elim orError_eq_more.mp fun heq => absurd heq (orError_ne_received _ _)

theorem blankLine_headers {request next : HttpRequest} (h : Leaves (blankLine request) next) :
    next.headers = request.headers := by
  unfold blankLine Leaves at h
  split at h
  · split at h
    · obtain rfl : finish _ = next := by simpa using h
      rfl
    · obtain rfl : finish _ = next := by simpa using h
      rfl
  · dsimp only at h
    split at h
    · obtain rfl : finish _ = next := by simpa using h
      rfl
    · obtain rfl : _ = next := by simpa using h
      rfl

/-- The blank line is never an error. -/
theorem blankLine_leaves (request : HttpRequest) : ∃ next, Leaves (blankLine request) next := by
  unfold blankLine
  split
  · split
    · exact ⟨_, Or.inr rfl⟩
    · exact ⟨_, Or.inr rfl⟩
  · dsimp only
    split
    · exact ⟨_, Or.inr rfl⟩
    · exact ⟨_, Or.inl rfl⟩

theorem feed_cons_more {self self' : HttpRequest} {buf : List Byte}
    (h : dataReceived self buf = .more self') (bufs : List (List Byte)) :
    feed self (buf :: bufs) = feed self' bufs := by
  rw [feed, h]

end Swad.Httprequest
