import Swad.HeaderFolding
import Swad.Numerals
import Swad.RequestBody

/-!
Requests as they are written and as they are read. A line is taken for a request line exactly
if it has the three parts of one. A message that is written with a request line, folded headers
and a body that its first Content-Length announces is received once the last byte is there, and
the request has the parts of the message.
-/
namespace Swad.RequestMessages

open Bytes Util Headerset Http Httprequest HeaderFolding RequestBody

/-! ### Request lines -/

def spaces (n : ℕ) : Str := List.replicate n (chr ' ')

def versionDigit : HttpVersion → Byte
  | .http10 => chr '0'
  | .http11 => chr '1'

/-- A method in capital letters, a path in printable characters and the version. After the end
of the line anything may follow. -/
structure RequestLine where
  meth : Buf 16
  path : Buf 8192
  version : HttpVersion
  gap : ℕ
  gap' : ℕ
  trail : ℕ
  rest : Str
  upper : ∀ c ∈ meth.text, isupper c = true
  meth_ne : meth.text ≠ []
  printable : ∀ c ∈ path.text, isPath c = true
  path_ne : path.text ≠ []
  ends : startsWithEol rest = true

namespace RequestLine

def protocol (self : RequestLine) : Str :=
  str "HTTP/1." ++ versionDigit self.version :: (spaces self.trail ++ self.rest)

def text (self : RequestLine) : Str :=
  self.meth.text ++ (spaces (self.gap + 1) ++ (self.path.text ++ (spaces (self.gap' + 1) ++ self.protocol)))

/-- The request that a line leaves. -/
def enter (self : RequestLine) (request : HttpRequest) : HttpRequest :=
  { request with meth := self.meth, path := self.path, version := self.version, recvState := .headers }

end RequestLine

section lines

variable {s : Str} {request next : HttpRequest}

theorem mem_spaces {n : ℕ} {c : Byte} (h : c ∈ spaces n) : (c == chr ' ') = true :=
  beq_iff_eq.mpr (List.eq_of_mem_replicate h)

/-- A text starts with some spaces, and what follows does not start with one. -/
theorem spaces_split (s : Str) : ∃ n, s = spaces n ++ s.dropWhile (· == chr ' ') := by
  refine ⟨(s.takeWhile (· == chr ' ')).length, ?_⟩
  have hall : s.takeWhile (· == chr ' ') = spaces (s.takeWhile (· == chr ' ')).length :=
    List.eq_replicate_iff.mpr ⟨rfl, fun c hc => beq_iff_eq.mp (List.mem_takeWhile_imp hc :)⟩
  rw [← hall, List.takeWhile_append_dropWhile]

theorem spaces_split_succ (h : s.head? = some (chr ' ')) :
    ∃ n, s = spaces (n + 1) ++ s.dropWhile (· == chr ' ') := by
  cases s with
  | nil => cases h
  | cons c t =>
    obtain rfl : c = chr ' ' := Option.some.inj h
    obtain ⟨n, hn⟩ := spaces_split t
    refine ⟨n, ?_⟩
    have hskip : (chr ' ' :: t).dropWhile (· == chr ' ') = t.dropWhile (· == chr ' ') :=
      List.dropWhile_cons_of_pos (p := (· == chr ' ')) (beq_self_eq_true _)
    rw [hskip, spaces, List.replicate_succ, List.cons_append]
    exact congrArg (chr ' ' :: ·) hn

theorem head?_dropWhile_ne (s : Str) : (s.dropWhile (· == chr ' ')).head? ≠ some (chr ' ') := by
  intro h
  have hnot := List.head?_dropWhile_not (· == chr ' ') s
  rw [h] at hnot
  exact absurd hnot (by decide)

theorem dropWhile_spaces (n : ℕ) (h : s.head? ≠ some (chr ' ')) :
    (spaces n ++ s).dropWhile (· == chr ' ') = s := by
  rw [List.dropWhile_append_of_pos fun c hc => mem_spaces hc]
  cases s with
  | nil => rfl
  | cons c t =>
    have hc : ¬ (c == chr ' ') = true := fun heq => h (congrArg some (beq_iff_eq.mp heq))
    exact List.dropWhile_cons_of_neg (p := (· == chr ' ')) hc

theorem protocolVersion_eq_some {version : HttpVersion} {rest : Str} :
    protocolVersion s = some (version, rest) ↔ s = versionDigit version :: rest := by
  cases s with
  | nil => simp [protocolVersion]
  | cons c t =>
    have hdigits : chr '1' ≠ chr '0' := by decide
    simp only [protocolVersion]
    by_cases hone : c = chr '1'
    · rw [if_pos hone, hone]
      cases version <;> simp [versionDigit, hdigits]
    · rw [if_neg hone]
      by_cases hzero : c = chr '0'
      · rw [if_pos hzero, hzero]
        cases version <;> simp [versionDigit, hdigits.symm]
      · rw [if_neg hzero]
        cases version <;> simp [versionDigit, hone, hzero]

/-- The first byte is not a space, where a word of the line begins. -/
theorem head?_append_ne {word rest : Str} (hne : word ≠ []) (h : chr ' ' ∉ word) :
    (word ++ rest).head? ≠ some (chr ' ') := by
  cases word with
  | nil => exact absurd rfl hne
  | cons c t =>
    intro heq
    obtain rfl := Option.some.inj heq
    exact h (List.mem_cons_self ..)

theorem requestLine_text (request : HttpRequest) (l : RequestLine) :
    requestLine request l.text = some (l.enter request) := by
  have hspace : isupper (chr ' ') = false := by decide
  have hupper : chr ' ' ∉ l.meth.text := fun hmem => by
    rw [l.upper _ hmem] at hspace
    cases hspace
  have hpath : chr ' ' ∉ l.path.text := fun hmem => absurd (l.printable _ hmem) (by decide)
  have hword : l.text.takeWhile (· != chr ' ') = l.meth.text := takeWhile_until hupper _
  have hrest : l.text.dropWhile (· != chr ' ') =
      spaces (l.gap + 1) ++ (l.path.text ++ (spaces (l.gap' + 1) ++ l.protocol)) :=
    dropWhile_until hupper _
  have hskip : (spaces (l.gap + 1) ++ (l.path.text ++ (spaces (l.gap' + 1) ++ l.protocol))).dropWhile
      (· == chr ' ') = l.path.text ++ (spaces (l.gap' + 1) ++ l.protocol) :=
    dropWhile_spaces _ (head?_append_ne l.path_ne hpath)
  have hpathWord : (l.path.text ++ (spaces (l.gap' + 1) ++ l.protocol)).takeWhile isPath =
      l.path.text := takeWhile_stop l.printable (by decide) _
  have hpathRest : (l.path.text ++ (spaces (l.gap' + 1) ++ l.protocol)).dropWhile isPath =
      spaces (l.gap' + 1) ++ l.protocol := dropWhile_stop l.printable (by decide) _
  have hskip' : (spaces (l.gap' + 1) ++ l.protocol).dropWhile (· == chr ' ') = l.protocol :=
    dropWhile_spaces _ fun heq => absurd (Option.some.inj heq) (by decide)
  have hversion : protocolVersion (l.protocol.drop 7) = some (l.version, spaces l.trail ++ l.rest) :=
    protocolVersion_eq_some.mpr rfl
  have hends : (spaces l.trail ++ l.rest).dropWhile (· == chr ' ') = l.rest := by
    refine dropWhile_spaces _ fun heq => ?_
    have hrest := l.ends
    rw [startsWithEol, heq] at hrest
    exact absurd hrest (by decide)
  have hall : l.meth.text.all isupper = true := List.all_eq_true.mpr l.upper
  simp only [requestLine]
  rw [hword, hrest, hskip, hpathWord, hpathRest, hskip', hversion]
  simp only [hall, copy_text, hends, l.ends, ne_eq, l.meth_ne, Option.bind_eq_bind, Option.bind_some]
  rfl

theorem requestLine_inv {line : Str} (h : requestLine request line = some next) :
    ∃ l : RequestLine, l.text = line ∧ next = l.enter request := by
  simp only [requestLine, Option.bind_eq_bind, Option.bind_eq_some_iff, Option.pure_def,
    Option.some.injEq, Option.guard_eq_some'] at h
  obtain ⟨_, ⟨hupper, hrest, hne⟩, meth, hmeth, _, hhead, path, hpath, _, hprotocol,
    ⟨version, tail⟩, hversion, _, hends, rfl⟩ := h
  have hmeth := Buf.text_of_copy hmeth
  have hpath := Buf.text_of_copy hpath
  generalize hword : line.takeWhile (· != chr ' ') = word at hupper hne hmeth
  generalize hafter : line.dropWhile (· != chr ' ') = after at hrest hhead hpath hprotocol hversion
  have hline : line = word ++ after := by rw [← hword, ← hafter, List.takeWhile_append_dropWhile]
  have hspace : after.head? = some (chr ' ') := by
    obtain ⟨c, t, rfl⟩ := List.exists_cons_of_ne_nil hrest
    obtain ⟨_, hc⟩ := split_of_dropWhile hafter
    rw [List.head?_cons]
    exact congrArg some (by simpa using hc)
  obtain ⟨gap, hgap⟩ := spaces_split_succ hspace
  have hfirst := head?_dropWhile_ne after
  generalize after.dropWhile (· == chr ' ') = target at hhead hpath hprotocol hversion hgap hfirst
  have htarget : target = target.takeWhile isPath ++ target.dropWhile isPath :=
    List.takeWhile_append_dropWhile.symm
  obtain ⟨gap', hgap'⟩ := spaces_split_succ hhead
  generalize (target.dropWhile isPath).dropWhile (· == chr ' ') = protocol
    at hprotocol hversion hgap'
  obtain ⟨trail, htrail⟩ := spaces_split tail
  have hdigit : protocol = str "HTTP/1." ++ versionDigit version :: tail := by
    rw [← protocolVersion_eq_some.mp hversion, ← hprotocol, List.take_append_drop]
  have hpathNe : path.text ≠ [] := by
    rw [hpath]
    intro hnil
    rw [hnil, List.nil_append] at htarget
    rw [← htarget] at hhead
    exact hfirst hhead
  refine ⟨⟨meth, path, version, gap, gap', trail, tail.dropWhile (· == chr ' '), ?_, ?_, ?_, hpathNe,
    hends⟩, ?_, rfl⟩
  · rw [hmeth]
    exact List.all_eq_true.mp hupper
  · rw [hmeth]
    exact hne
  · rw [hpath]
    exact fun c hc => List.mem_takeWhile_imp hc
  · show meth.text ++ (spaces (gap + 1) ++ (path.text ++ (spaces (gap' + 1) ++ (str "HTTP/1." ++
      versionDigit version :: (spaces trail ++ tail.dropWhile (· == chr ' ')))))) = line
    rw [← htrail, ← hdigit, ← hgap', hpath, ← htarget, ← hgap, hmeth, ← hline]

/-- A line is accepted as the first one exactly if it is a method of 1 to 15 capital letters, a
path of 1 to 8191 printable characters and the version 1.0 or 1.1, separated by spaces, up to a
CR or LF; the request then has these three, and nothing else changes. -/
theorem requestLine_iff (request next : HttpRequest) (line : Str) :
    requestLine request line = some next ↔
      ∃ l : RequestLine, l.text = line ∧ next = l.enter request := by
  constructor
  · exact requestLine_inv
  · rintro ⟨l, rfl, rfl⟩
    exact requestLine_text request l

end lines

/-! ### Messages -/

def contentLength (headers : List Header) : Option Header :=
  headers.find? fun h => h.key == lowerstr (str "Content-Length")

/-- A body has the length that the first Content-Length says, and none has no Content-Length. -/
def Announces (headers : List Header) (body : List Byte) : Prop :=
  (body = [] ∧ contentLength headers = none) ∨
    (body ≠ [] ∧ body.length ≤ MAXBODY ∧
      ∃ h, contentLength headers = some h ∧ strtoll h.value = (↑body.length, []))

structure Message where
  line : RequestLine
  fields : List Folded
  body : List Byte
  ended : line.rest = crlf
  announces : Announces (fields.map Folded.header) body

namespace Message

def headers (self : Message) : List Header := self.fields.map Folded.header

/-- The lines before the body. -/
def lines (self : Message) : List Str :=
  self.line.text :: (self.fields.flatMap Folded.lines ++ [crlf])

/-- The status with which the message is received. -/
def status (self : Message) : HttpStatus :=
  if self.body = [] ∧ (self.line.meth.text = str "POST" ∨ self.line.meth.text = str "PUT") then
    .lengthRequired
  else checkBody (methodOf self.line.meth.text) self.body.length

/-- The chunks reach the end of the body, and only the last one does. -/
def Split (self : Message) (chunks : List (List Byte)) : Prop :=
  self.body <+: chunks.flatten ∧ (chunks = [] ∨ chunks.dropLast.flatten.length < self.body.length)

end Message

/-- The request has the parts of the message. Its body is in place unless it came in pieces. -/
structure Matches (message : Message) (chunks : List (List Byte)) (request : HttpRequest) : Prop where
  meth : request.meth = message.line.meth
  method : request.method = methodOf message.line.meth.text
  path : request.path = message.line.path
  version : request.version = message.line.version
  headers : ∀ name, request.headers.any name = message.headers.filter fun h => h.key == lowerstr name
  bodySize : request.bodySize = message.body.length
  body : request.body = message.body.map some ↔
    message.body = [] ∨ InOneChunk message.body.length chunks
  status : request.status = message.status

/-- A request that has read its first line and nothing of its body. -/
structure Begun (l : RequestLine) (request : HttpRequest) : Prop where
  meth : request.meth = l.meth
  path : request.path = l.path
  version : request.version = l.version
  status : request.status = .ok
  state : request.recvState ≠ .method
  clear : request.recvState = .headers → request.bodySize = 0 ∧ request.body = []

section messages

variable {l : RequestLine} {request next : HttpRequest} {buf : List Byte}

theorem Begun.store (h : Begun l request) : Begun l (storeHeader request) := by
  obtain ⟨headers, hdrnm, hdrval, hstore⟩ := storeHeader_eq request
  rw [hstore]
  exact ⟨h.meth, h.path, h.version, h.status, h.state, h.clear⟩

theorem Begun.more (h : Begun l request) (hdata : dataReceived request buf = .more next) :
    Begun l next := by
  unfold dataReceived at hdata
  cases hstate : request.recvState with
  | method => exact absurd hstate h.state
  | headers =>
    simp only [hstate, headerLine] at hdata
    have hstore := h.store
    generalize storeHeader request = stored at hdata hstore
    split at hdata
    · obtain ⟨_, _, _, _, _, rfl⟩ := continueHeader_eq_some (orError_eq_more.mp hdata)
      exact ⟨h.meth, h.path, h.version, h.status, h.state, h.clear⟩
    · split at hdata
      · unfold blankLine at hdata
        split at hdata
        · split at hdata <;> cases hdata
        · dsimp only at hdata
          split at hdata
          · cases hdata
          · cases hdata
            refine ⟨hstore.meth, hstore.path, hstore.version, hstore.status, ?_, ?_⟩
            · exact fun heq => by cases heq
            · exact fun heq => by cases heq
      · obtain ⟨_, _, _, _, _, rfl⟩ := newHeader_eq_some (orError_eq_more.mp hdata)
        exact ⟨hstore.meth, hstore.path, hstore.version, hstore.status, hstore.state, hstore.clear⟩
  | body =>
    simp only [hstate, bodyChunk] at hdata
    split at hdata
    · cases hdata
      refine ⟨h.meth, h.path, h.version, h.status, ?_, ?_⟩
      · exact fun heq => by cases heq
      · exact fun heq => by cases heq
    · cases hdata

theorem Begun.feed (bufs : List (List Byte)) (h : Begun l request)
    (hfeed : feed request bufs = some (.more next)) : Begun l next := by
  induction bufs generalizing request with
  | nil =>
    obtain rfl := (Received.more.inj (Option.some.inj hfeed))
    exact h
  | cons buf bufs ih =>
    rw [Httprequest.feed] at hfeed
    cases hdata : dataReceived request buf with
    | more mid =>
      rw [hdata] at hfeed
      exact ih (h.more hdata) hfeed
    | received mid => simp [hdata] at hfeed
    | error => simp [hdata] at hfeed

/-- The chunks of the body leave the rest of the request alone. -/
theorem Begun.received (bufs : List (List Byte)) (h : Begun l request)
    (hstate : request.recvState = .body) (hfeed : Httprequest.feed request bufs = some (.received next)) :
    next.meth = l.meth ∧ next.path = l.path ∧ next.version = l.version ∧
      next.headers = request.headers ∧ next.bodySize = request.bodySize ∧
      next.method = methodOf l.meth.text ∧
      next.status = checkBody (methodOf l.meth.text) request.bodySize := by
  induction bufs generalizing request with
  | nil => cases hfeed
  | cons buf bufs ih =>
    rw [Httprequest.feed] at hfeed
    cases hdata : dataReceived request buf with
    | more mid =>
      rw [hdata] at hfeed
      have hmid := h.more hdata
      simp only [dataReceived, hstate, bodyChunk] at hdata
      split at hdata
      · obtain rfl := Received.more.inj hdata
        have hrest := ih hmid rfl hfeed
        exact hrest
      · cases hdata
    | received mid =>
      rw [hdata] at hfeed
      simp only [dataReceived, hstate, bodyChunk] at hdata
      split at hdata
      · cases hdata
      · have hmid := Received.received.inj hdata
        obtain rfl : mid = next := by
          dsimp only at hfeed
          split at hfeed
          · exact Received.received.inj (Option.some.inj hfeed)
          · cases hfeed
        rw [← hmid]
        refine ⟨h.meth, h.path, h.version, rfl, rfl, ?_, ?_⟩
        · show methodOf request.meth.text = _
          rw [h.meth]
        · show (if request.status = .ok then checkBody (methodOf request.meth.text) request.bodySize
            else request.status) = _
          rw [if_pos h.status, h.meth]
    | error => simp [hdata] at hfeed

theorem RequestLine.zero_notMem (l : RequestLine) (hended : l.rest = crlf) : (0 : Byte) ∉ l.text := by
  have hspaces : ∀ n, (0 : Byte) ∉ spaces n := fun n h => absurd (mem_spaces h) (by decide)
  have hdigit : (0 : Byte) ≠ versionDigit l.version := by cases l.version <;> decide
  simp only [RequestLine.text, RequestLine.protocol, List.mem_append, List.mem_cons, not_or, hended]
  refine ⟨?_, hspaces _, ?_, hspaces _, by decide, hdigit, hspaces _, by decide⟩
  · exact fun h => absurd (l.upper _ h) (by decide)
  · exact fun h => absurd (l.printable _ h) (by decide)

theorem first_foldl (headers : List Header) :
    (headers.foldl HeaderSet.add HeaderSet.create).first (str "Content-Length") =
      contentLength headers := by
  have hany := HeaderSet.any_foldl headers (str "Content-Length")
  rw [contentLength, ← List.head?_filter, ← hany, HeaderSet.any, List.head?_filter]
  rfl

/-- The first line is read, and the lines of the headers after it. -/
theorem Message.begun (m : Message) :
    ∃ mid, (∀ rest, feed HttpRequest.create (m.line.text :: (m.fields.flatMap Folded.lines ++ rest)) =
        feed mid rest) ∧ Begun m.line mid ∧
      Progress mid (m.headers.foldl HeaderSet.add HeaderSet.create) := by
  have hnul := m.line.zero_notMem m.ended
  have hfirst : dataReceived HttpRequest.create m.line.text =
      .more (m.line.enter HttpRequest.create) := by
    show orError (requestLine HttpRequest.create (cstr m.line.text)) = _
    rw [cstr_eq_self hnul, requestLine_text]
    rfl
  have hstart : Begun m.line (m.line.enter HttpRequest.create) :=
    ⟨rfl, rfl, rfl, rfl, nofun, fun _ => ⟨rfl, rfl⟩⟩
  have hprogress : Progress (m.line.enter HttpRequest.create) HeaderSet.create :=
    progress_requestLine (requestLine_text _ m.line)
  obtain ⟨mid, hfeed, hmid⟩ := hprogress.fields m.fields
  refine ⟨mid, fun rest => (feed_cons_more hfirst _).trans (hfeed rest), ?_, hmid⟩
  exact hstart.feed (m.fields.flatMap Folded.lines) (by simpa [feed] using hfeed [])

theorem blank_of_progress {set : HeaderSet} (h : Progress request set) :
    dataReceived request crlf = blankLine (storeHeader request) := by
  rw [dataReceived, h.state]
  rfl

/-- Without a body the blank line is the last one. -/
theorem Message.received_empty (m : Message) {mid : HttpRequest} (hbegun : Begun m.line mid)
    (hprogress : Progress mid (m.headers.foldl HeaderSet.add HeaderSet.create)) (hbody : m.body = [])
    (hnone : contentLength m.headers = none) :
    ∃ request, feed mid [crlf] = some (.received request) ∧ Matches m [] request := by
  have hstore := hbegun.store
  have hheaders := hprogress.stored
  obtain ⟨hsize, hclear⟩ := hbegun.clear hprogress.state
  obtain ⟨headers, hdrnm, hdrval, hstored⟩ := storeHeader_eq mid
  have hblank := blank_of_progress hprogress
  have hfirst : (storeHeader mid).headers.first (str "Content-Length") = none := by
    rw [hheaders, first_foldl, hnone]
  rw [blankLine, hfirst] at hblank
  have hany : ∀ name, (storeHeader mid).headers.any name =
      m.headers.filter fun h => h.key == lowerstr name := by
    rw [hheaders]
    exact HeaderSet.any_foldl m.headers
  have hsize' : (storeHeader mid).bodySize = m.body.length := by rw [hstored, hbody]; exact hsize
  have hbody' : (storeHeader mid).body = m.body.map some := by rw [hstored, hbody]; exact hclear
  generalize storeHeader mid = stored at hstore hblank hany hsize' hbody'
  have hmatch : ∀ status, (if status = .ok then checkBody (methodOf stored.meth.text) stored.bodySize
      else status) = m.status → Matches m [] (finish { stored with status }) := by
    intro status hstatus
    refine ⟨hstore.meth, ?_, hstore.path, hstore.version, hany, hsize', ?_, hstatus⟩
    · show methodOf stored.meth.text = _
      rw [hstore.meth]
    · exact iff_of_true hbody' (.inl hbody)
  dsimp only at hblank
  split at hblank
  · next hpost =>
    rw [hstore.meth] at hpost
    have hstatus : m.status = .lengthRequired := if_pos ⟨hbody, hpost⟩
    exact ⟨_, by rw [feed, hblank]; rfl, hmatch .lengthRequired hstatus.symm⟩
  · next hpost =>
    rw [hstore.meth] at hpost
    have hstatus : m.status = checkBody (methodOf m.line.meth.text) m.body.length :=
      if_neg fun hboth => hpost hboth.2
    refine ⟨_, by rw [feed, hblank]; rfl, hmatch stored.status ?_⟩
    rw [hstatus, if_pos hstore.status, hstore.meth, hsize']

/-- With a body the last chunk completes the message. -/
theorem Message.received_body (m : Message) {mid : HttpRequest} {lines chunks : List (List Byte)}
    (hlines : feed HttpRequest.create lines = some (.more mid)) (hbegun : Begun m.line mid)
    (hprogress : Progress mid (m.headers.foldl HeaderSet.add HeaderSet.create)) (hne : m.body ≠ [])
    (hlength : ContentLength (m.headers.foldl HeaderSet.add HeaderSet.create) m.body.length)
    (hsplit : m.Split chunks) :
    ∃ request, feed mid (crlf :: chunks) = some (.received request) ∧ Matches m chunks request := by
  have hheaders := hprogress.stored
  have hdelivers : Delivers m.body.length chunks := by
    refine ⟨hsplit.1.length_le, ?_⟩
    rcases hsplit.2 with rfl | hshort
    · exact List.length_pos_iff.mpr hne
    · exact hshort
  rw [← hheaders] at hlength
  have hblank : startsWithEol (cstr crlf) = true := rfl
  obtain ⟨started, hdata, hfilling⟩ :=
    blankLine_filling (feed_unfilled lines (fun _ => rfl) hlines) hprogress.state hblank hlength
  obtain ⟨request, hrest, hsize, hbody⟩ := feed_chunks [] chunks hfilling (by simpa using hdelivers)
  rw [List.nil_append] at hbody
  have hstarted : started.headers = (storeHeader mid).headers :=
    blankLine_headers (.inl ((blank_of_progress hprogress).symm.trans hdata))
  have hfeed : feed mid (crlf :: chunks) = some (.received request) :=
    (feed_cons_more hdata chunks).trans hrest
  obtain ⟨hmeth, hpath, hversion, hsame, _, hmethod, hstatus⟩ :=
    (hbegun.more hdata).received chunks hfilling.state hrest
  have htake : chunks.flatten.take m.body.length = m.body := (List.prefix_iff_eq_take.mp hsplit.1).symm
  refine ⟨request, hfeed, hmeth, hmethod, hpath, hversion, ?_, hsize, ?_, ?_⟩
  · rw [hsame, hstarted, hheaders]
    exact HeaderSet.any_foldl m.headers
  · rw [htake] at hbody
    rw [hbody, or_iff_right hne]
  · rw [hstatus, hfilling.size, Message.status, if_neg fun hboth => hne hboth.1]

/-- Every message that is written is received with its last byte, and read as it was written. -/
theorem message_received (m : Message) (chunks : List (List Byte)) (hsplit : m.Split chunks) :
    ∃ request, feed HttpRequest.create (m.lines ++ chunks) = some (.received request) ∧
      Matches m chunks request := by
  obtain ⟨mid, hfeed, hbegun, hprogress⟩ := m.begun
  have hall : m.lines ++ chunks =
      m.line.text :: (m.fields.flatMap Folded.lines ++ crlf :: chunks) := by
    simp [Message.lines]
  rw [hall, hfeed]
  rcases m.announces with ⟨hbody, hnone⟩ | ⟨hne, hmax, h, hfound, hvalue⟩
  · obtain rfl : chunks = [] := hsplit.2.resolve_right (by simp [hbody])
    exact m.received_empty hbegun hprogress hbody hnone
  · have hlines : feed HttpRequest.create (m.line.text :: m.fields.flatMap Folded.lines) =
        some (.more mid) := by simpa [feed] using hfeed []
    have hpos : 1 ≤ m.body.length := List.length_pos_iff.mpr hne
    refine m.received_body hlines hbegun hprogress hne ⟨h, ?_, hvalue, hpos, hmax⟩ hsplit
    rw [first_foldl]
    exact hfound

/-- A number that is written as a Content-Length is read as itself. -/
theorem strtoll_decimal {n : ℕ} (h : n ≤ MAXBODY) : strtoll (decimal n) = (↑n, []) := by
  obtain ⟨hvalue, hdigits⟩ := @Numerals.printed_spec 10 (by decide) (by decide) n
  have hdigit : ∀ c : Byte, digitVal c < 10 → isdigit c = true ∧ isspace c = false ∧
      digitVal c = (c - chr '0').toNat ∧ c ≠ chr '-' ∧ c ≠ chr '+' := by decide +kernel
  have hne : decimal n ≠ [] := fun hnil => Nat.toDigits_ne_nil (List.map_eq_nil_iff.mp hnil)
  have hall : ∀ c ∈ decimal n, isdigit c = true := fun c hc => (hdigit c (hdigits c hc)).1
  have hsum : ∀ (s : Str) (v : ℕ), (∀ c ∈ s, digitVal c < 10) →
      s.foldl (fun (v : ℤ) c => v * 10 + ((c - chr '0').toNat : ℤ)) (v : ℤ) =
        ((s.foldl (fun v c => v * 10 + digitVal c) v : ℕ) : ℤ) := by
    intro s
    induction s with
    | nil => exact fun _ _ => rfl
    | cons c s ih =>
      intro v hs
      have hc := (hdigit c (hs c (List.mem_cons_self ..))).2.2.1
      rw [List.foldl_cons, List.foldl_cons, ← ih _ fun d hd => hs d (List.mem_cons_of_mem c hd), hc]
      push_cast
      rfl
  have htotal : (decimal n).foldl (fun (v : ℤ) c => v * 10 + ((c - chr '0').toNat : ℤ)) 0 = (n : ℤ) := by
    have hfold := hsum (decimal n) 0 hdigits
    have hnat : (decimal n).foldl (fun v c => v * 10 + digitVal c) 0 = n := hvalue
    rw [hnat] at hfold
    exact hfold
  have hsign : sign ((decimal n).dropWhile isspace) = (false, decimal n) := by
    obtain ⟨c, s, hs⟩ := List.exists_cons_of_ne_nil hne
    have hmem : c ∈ decimal n := by
      rw [hs]
      exact List.mem_cons_self ..
    obtain ⟨_, hspace, _, hminus, hplus⟩ := hdigit c (hdigits c hmem)
    rw [hs, List.dropWhile_cons_of_neg (by rw [hspace]; decide), sign, if_neg hminus, if_neg hplus]
  have hmax : (n : ℤ) ≤ LLONG_MAX := by
    have hbound : (MAXBODY : ℤ) ≤ LLONG_MAX := by decide
    omega
  have hmin : LLONG_MIN ≤ (n : ℤ) := by
    have hbound : LLONG_MIN ≤ 0 := by decide
    omega
  rw [strtoll, hsign]
  simp only [List.takeWhile_eq_self_iff.mpr hall, List.dropWhile_eq_nil_iff.mpr hall, if_neg hne, htotal,
    Bool.false_eq_true, if_false, min_eq_right hmax, max_eq_right hmin]

theorem decimal_plain (n : ℕ) : Plain (decimal n) ∧ (decimal n).head?.any (· == chr ' ') = false := by
  obtain ⟨_, hdigits⟩ := @Numerals.printed_spec 10 (by decide) (by decide) n
  have hdigit : ∀ c ∈ decimal n, digitVal c < 10 := hdigits
  refine ⟨⟨fun h => absurd (hdigit _ h) (by decide), fun h => absurd (hdigit _ h) (by decide),
    fun h => absurd (hdigit _ h) (by decide)⟩, ?_⟩
  cases hs : decimal n with
  | nil => rfl
  | cons c s =>
    refine Bool.eq_false_iff.mpr fun heq => ?_
    obtain rfl : c = chr ' ' := beq_iff_eq.mp heq
    have hmem : chr ' ' ∈ decimal n := by
      rw [hs]
      exact List.mem_cons_self ..
    exact absurd (hdigit _ hmem) (by decide)

theorem lengthField_sent : Sent (str "Content-Length") :=
  ⟨⟨by decide, by decide, by decide⟩, by decide, by decide, by decide, by decide⟩

theorem lengthField_space : ∀ c ∈ str " ", c = chr ' ' := List.forall_mem_singleton.mpr rfl

theorem lengthField_fits {n : ℕ} (h : n ≤ MAXBODY) : (joined [decimal n]).length ≤ 8191 := by
  have hlt : n < 10 ^ 7 := lt_of_le_of_lt h (by decide)
  have hdigits := Numerals.printed_length (by decide) (k := 7) (by decide) hlt
  exact le_trans hdigits (by decide)

/-- The header of a body's length. -/
def lengthField (body : List Byte) (h : body.length ≤ MAXBODY) : Folded where
  name := str "Content-Length"
  spaces := str " "
  first := decimal body.length
  more := []
  sent := lengthField_sent
  space := lengthField_space
  head := (decimal_plain body.length).2
  plain := (decimal_plain body.length).1
  length_le := lengthField_fits h

/-- A body that is sent behind its length is announced by it. -/
theorem announces_lengthField (headers : List Header) {body : List Byte} (hne : body ≠ [])
    (hmax : body.length ≤ MAXBODY) (hnone : contentLength headers = none) :
    Announces (headers ++ [(lengthField body hmax).header]) body := by
  refine .inr ⟨hne, hmax, (lengthField body hmax).header, ?_, strtoll_decimal hmax⟩
  have hkey : ((lengthField body hmax).header.key == lowerstr (str "Content-Length")) = true :=
    beq_self_eq_true (lowerstr (str "Content-Length"))
  rw [contentLength] at hnone
  rw [contentLength, List.find?_append, hnone, Option.none_or]
  exact List.find?_cons_of_pos (p := fun h : Header => h.key == lowerstr (str "Content-Length")) hkey

def postLine : RequestLine where
  meth := ⟨str "POST", by decide⟩
  path := ⟨str "/login", by decide⟩
  version := .http11
  gap := 0
  gap' := 0
  trail := 0
  rest := crlf
  upper := by decide +kernel
  meth_ne := by decide
  printable := by decide +kernel
  path_ne := by decide
  ends := rfl

def postMessage : Message where
  line := postLine
  fields := [foldedWords, lengthField (str "a=b") (by decide)]
  body := str "a=b"
  ended := rfl
  announces := announces_lengthField [foldedWords.header] (by decide) (by decide) rfl

/-- A header is folded, and the body arrives in two parts. -/
theorem message_received_post : ∃ request, feed HttpRequest.create
      (postMessage.lines ++ [str "a=", str "b"]) = some (.received request) ∧
    Matches postMessage [str "a=", str "b"] request := by
  have hsplit : postMessage.Split [str "a=", str "b"] :=
    ⟨List.prefix_rfl, .inr (by decide)⟩
  exact message_received postMessage [str "a=", str "b"] hsplit

end messages

end Swad.RequestMessages
