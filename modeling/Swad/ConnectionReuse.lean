import Swad.Httpserver
import Swad.LabelledRuns

/-!
One connection over all its requests. The messages of the stream are defined on
its bytes alone; in every run without the listed inputs, a kept connection starts
the next request at the first byte after the message before it.
-/
namespace Swad.ConnectionReuse

open Bytes Util Headerset Http Httprequest Httpresponse Httpserver LabelledRuns

/-! ### Messages of a stream -/

/-- The complete lines at the start of a stream. -/
def lines : Str → List Str
  | [] => []
  | c :: s =>
    if c = chr '\n' then [c] :: lines s
    else
      match lines s with
      | [] => []
      | line :: rest => (c :: line) :: rest

def IsLine (line : Str) : Prop := ∃ text, chr '\n' ∉ text ∧ line = text ++ [chr '\n']

def isBlankLine (line : Str) : Bool := line == crlf || line == [chr '\n']

abbrev Field := Str × Str

/-- A header line either starts a field or continues the last one. -/
def addLine (fields : List Field) (line : Str) : List Field :=
  let text := cstr line
  if text.head?.any isBlank then
    let part := (untilEol (text.dropWhile isBlank)).getD []
    match fields.getLast? with
    | some f => fields.dropLast ++ [(f.1, if f.2 = [] then part else f.2 ++ chr ' ' :: part)]
    | none => []
  else
    let value := ((text.dropWhile (· != chr ':')).drop 1).dropWhile (· == chr ' ')
    fields ++ [(text.takeWhile (· != chr ':'), (untilEol value).getD [])]

def isContentLength (f : Field) : Bool := lowerstr f.1 == lowerstr (str "Content-Length")

/-- The number of body bytes that the header lines announce. -/
def announced (headerLines : List Str) : ℕ :=
  match (headerLines.foldl addLine []).find? isContentLength with
  | some f => (strtoll f.2).1.toNat
  | none => 0

/-- The length of the message at the start of a stream: the request line, the
header lines to the blank line, and the announced body. -/
def messageLength (stream : Str) : Option ℕ :=
  match lines stream with
  | [] => none
  | request :: rest =>
    let headerLines := rest.takeWhile (fun line => !isBlankLine line)
    match rest.dropWhile (fun line => !isBlankLine line) with
    | [] => none
    | blank :: _ =>
      some (request.length + headerLines.flatten.length + blank.length + announced headerLines)

theorem lines_append {line : Str} (h : IsLine line) (rest : Str) :
    lines (line ++ rest) = line :: lines rest := by
  obtain ⟨text, htext, rfl⟩ := h
  induction text with
  | nil => simp [lines]
  | cons c text ih =>
    rw [List.mem_cons, not_or] at htext
    have hne : c ≠ chr '\n' := fun heq => htext.1 heq.symm
    simp only [List.cons_append, lines, if_neg hne]
    rw [ih htext.2]

theorem lines_flatten_append {ls : List Str} (h : ∀ line ∈ ls, IsLine line) (rest : Str) :
    lines (ls.flatten ++ rest) = ls ++ lines rest := by
  induction ls with
  | nil => rfl
  | cons line ls ih =>
    rw [List.forall_mem_cons] at h
    rw [List.flatten_cons, List.append_assoc, lines_append h.1, ih h.2, List.cons_append]

/-- The parts of one message. -/
structure IsMessage (message : Str) : Prop where
  parts : ∃ request headerLines blank body,
    message = request ++ headerLines.flatten ++ blank ++ body ∧ IsLine request ∧
      (∀ line ∈ headerLines, IsLine line ∧ isBlankLine line = false) ∧
      IsLine blank ∧ isBlankLine blank = true ∧ body.length = announced headerLines

/-- A message ends where it does, whatever follows it in the stream. -/
theorem IsMessage.messageLength {message : Str} (h : IsMessage message) (rest : Str) :
    messageLength (message ++ rest) = some message.length := by
  obtain ⟨request, headerLines, blank, body, rfl, hrequest, hheaders, hblank, his, hbody⟩ := h
  have hlines : lines (request ++ headerLines.flatten ++ blank ++ body ++ rest) =
      request :: (headerLines ++ blank :: lines (body ++ rest)) := by
    simp only [List.append_assoc]
    rw [lines_append hrequest, lines_flatten_append (fun line hl => (hheaders line hl).1),
      lines_append hblank]
  have hnot : ∀ line ∈ headerLines, (!isBlankLine line) = true := by
    intro line hl
    simp [(hheaders line hl).2]
  unfold ConnectionReuse.messageLength
  rw [hlines]
  simp only [List.takeWhile_append_of_pos hnot, List.dropWhile_append_of_pos hnot,
    List.takeWhile_cons, List.dropWhile_cons, his, Bool.not_true, Bool.false_eq_true, if_false,
    List.append_nil, List.length_append, hbody]

/-! ### The connection -/

inductive Phase
  | reading (request : HttpRequest)
  | serving (request : HttpRequest)
  | closed

/-- Data arrives, or the pipeline ends with the response it has set, if any. -/
inductive Event
  | data (buf : List Byte)
  | done (response : Option HttpResponse) (timedOut : Bool)

inductive Outcome
  | waiting | received | ignored | reuse | close
  deriving DecidableEq

def answer (request : HttpRequest) (response : Option HttpResponse) (timedOut : Bool) :
    HttpResponse × Bool :=
  if request.status ≠ .ok then pipelineJobDone (errorContext request) false
  else
    match response with
    | some response => pipelineJobDone ((HttpContext.create request).setResponse response) timedOut
    | none => pipelineJobDone (HttpContext.create request) timedOut

/-- Lines are delivered whole, with the line end. -/
instance (line : Str) : Decidable (IsLine line) :=
  decidable_of_iff (line ≠ [] ∧ line.getLast? = some (chr '\n') ∧ chr '\n' ∉ line.dropLast) (by
    constructor
    · rintro ⟨_, hlast, hnot⟩
      refine ⟨line.dropLast, hnot, ?_⟩
      exact (List.dropLast_append_getLast? _ hlast).symm
    · rintro ⟨text, hnot, rfl⟩
      simpa using hnot)

def step (phase : Phase) (event : Event) : Option (Phase × Outcome) :=
  match phase, event with
  | .reading request, .data buf =>
    if request.recvState = .body ∨ IsLine buf then
      match dataReceived request buf with
      | .more request => some (.reading request, .waiting)
      | .received request => some (.serving request, .received)
      | .error => some (.closed, .close)
    else none
  -- while a request is served, nobody takes the data
  | .serving request, .data _ => some (.serving request, .ignored)
  | .serving request, .done response timedOut =>
    if (answer request response timedOut).2 then
      some (.reading HttpRequest.create, .reuse)
    else some (.closed, .close)
  | _, _ => none

def start : Phase := .reading HttpRequest.create

abbrev Label := Event × Outcome

def Event.bytes : Event → Str
  | .data buf => buf
  | .done _ _ => []

/-- All bytes the connection has delivered. -/
def stream (trace : List Label) : Str := trace.flatMap (fun l => l.1.bytes)

/-- The bytes delivered since the current request was created. -/
def message (trace : List Label) : Str :=
  trace.foldl (fun bytes l => if l.2 = .reuse then [] else bytes ++ l.1.bytes) []

/-- Where the current request starts in the stream. -/
def startOf (trace : List Label) : ℕ := (stream trace).length - (message trace).length

/-- Every request that gets the kept connection starts right after the message
before it. -/
def InStep (trace : List Label) : Prop :=
  ∀ pre event post, trace = pre ++ (event, .reuse) :: post →
    messageLength ((stream trace).drop (startOf pre)) =
      some (startOf (pre ++ [(event, .reuse)]) - startOf pre)

/-- The inputs that do not lose the end of a message: a body too large is not
announced on a connection that is kept, no chunk reaches beyond its body, only
the blank line starts with CR, and nothing arrives while a request is served. -/
def Regular (phase : Phase) (event : Event) : Prop :=
  match phase, event with
  | .reading request, .data buf =>
    match request.recvState with
    | .method => True
    | .headers => buf.head? = some (chr '\r') → buf = crlf
    | .body => buf.length ≤ request.bodySize - request.bodypos
  | .serving _, .data buf => buf = []
  | .serving request, .done _ _ =>
    request.status = .requestEntityTooLarge → keepsAlive request = false
  | _, _ => True

def regularStep (phase : Phase) (l : Label) (phase' : Phase) : Prop :=
  stepOf step phase l phase' ∧ Regular phase l.1

/-! ### The parser follows the definition of a message -/

def pending (request : HttpRequest) : List Field :=
  if request.hdrnm.text = [] then [] else [(request.hdrnm.text, request.hdrval.text)]

/-- The set of headers and the pending header are the fields of the lines. -/
structure Parsed (request : HttpRequest) (headerLines : List Str) : Prop where
  fields : ∃ stored, headerLines.foldl addLine [] = stored ++ pending request ∧
    (request.headers.first (str "Content-Length")).map Header.value =
      (stored.find? isContentLength).map Prod.snd

theorem storeHeader_parsed {request : HttpRequest} {headerLines : List Str}
    (h : Parsed request headerLines) :
    Parsed (storeHeader request) headerLines ∧ (storeHeader request).hdrnm.text = [] := by
  obtain ⟨stored, hfields, hfirst⟩ := h
  unfold storeHeader
  by_cases hempty : request.hdrnm.text = []
  · rw [if_pos hempty]
    exact ⟨⟨stored, hfields, hfirst⟩, hempty⟩
  · rw [if_neg hempty, Header.create, dif_pos (validate_bufs _ _)]
    refine ⟨⟨stored ++ pending request, ?_, ?_⟩, rfl⟩
    · simpa [pending, Buf.empty] using hfields
    · dsimp only
      rw [HeaderSet.first_add, List.find?_append, Option.map_or, Option.map_or, hfirst, pending,
        if_neg hempty]
      congr 1
      by_cases hkey : lowerstr request.hdrnm.text = lowerstr (str "Content-Length")
      · simp [Header.key, isContentLength, hkey]
      · simp [Header.key, isContentLength, hkey]

theorem announced_of_parsed {request : HttpRequest} {headerLines : List Str}
    (h : Parsed request headerLines) (hempty : request.hdrnm.text = []) :
    announced headerLines =
      ((request.headers.first (str "Content-Length")).map
        (fun header => (strtoll header.value).1.toNat)).getD 0 := by
  obtain ⟨stored, hfields, hfirst⟩ := h
  rw [pending, if_pos hempty, List.append_nil] at hfields
  have hlength := congrArg (fun value => (value.map (fun v => (strtoll v).1.toNat)).getD 0) hfirst
  simp only [Option.map_map] at hlength
  rw [announced, hfields]
  cases hfind : stored.find? isContentLength with
  | none =>
    rw [hfind] at hlength
    exact hlength.symm
  | some f =>
    rw [hfind] at hlength
    exact hlength.symm

theorem continueHeader_parsed {request request' : HttpRequest} {headerLines : List Str}
    {line : Str} (h : Parsed request headerLines) (hblank : (cstr line).head?.any isBlank = true)
    (hcont : continueHeader request (cstr line) = some request') :
    Parsed request' (headerLines ++ [line]) := by
  obtain ⟨stored, hfields, hfirst⟩ := h
  obtain ⟨hname, part, hdrval, hpart, htext, rfl⟩ := continueHeader_eq_some hcont
  refine ⟨stored, ?_, hfirst⟩
  rw [List.foldl_append, hfields, List.foldl_cons, List.foldl_nil, addLine]
  simp [hblank, hpart, htext, pending, hname]

theorem newHeader_parsed {request request' : HttpRequest} {headerLines : List Str}
    {line : Str} (h : Parsed request headerLines) (hempty : request.hdrnm.text = [])
    (hblank : (cstr line).head?.any isBlank = false)
    (hnew : newHeader request (cstr line) = some request') :
    Parsed request' (headerLines ++ [line]) := by
  obtain ⟨stored, hfields, hfirst⟩ := h
  obtain ⟨hdrnm, hdrval, hname, hne, hvalue, rfl⟩ := newHeader_eq_some hnew
  rw [pending, if_pos hempty, List.append_nil] at hfields
  refine ⟨stored, ?_, hfirst⟩
  rw [List.foldl_append, hfields, List.foldl_cons, List.foldl_nil, addLine]
  rw [hname] at hne
  simp only [hblank, Bool.false_eq_true, if_false, hvalue, Option.getD_some, pending,
    hname, if_neg hne]

/-! ### The invariant of the connection -/

/-- A whole head has been read. -/
structure Head (bytes : Str) (headerLines : List Str) : Prop where
  parts : ∃ request blank, bytes = request ++ headerLines.flatten ++ blank ∧ IsLine request ∧
    (∀ line ∈ headerLines, IsLine line ∧ isBlankLine line = false) ∧
    IsLine blank ∧ isBlankLine blank = true

theorem Head.isMessage {bytes body : Str} {headerLines : List Str} (h : Head bytes headerLines)
    (hbody : body.length = announced headerLines) : IsMessage (bytes ++ body) := by
  obtain ⟨request, blank, rfl, hrequest, hheaders, hblank, his⟩ := h
  exact ⟨request, headerLines, blank, body, rfl, hrequest, hheaders, hblank, his, hbody⟩

/-- How the bytes since the start of the request fit the state of its parser. -/
def Reading (request : HttpRequest) (bytes : Str) : Prop :=
  match request.recvState with
  | .method => request = HttpRequest.create ∧ bytes = []
  | .headers =>
    request.bodypos = 0 ∧ ∃ requestLine headerLines,
      bytes = requestLine ++ headerLines.flatten ∧ IsLine requestLine ∧
        (∀ line ∈ headerLines, IsLine line ∧ isBlankLine line = false) ∧
        Parsed request headerLines
  | .body =>
    ∃ head headerLines part, bytes = head ++ part ∧ Head head headerLines ∧
      announced headerLines = request.bodySize ∧ part.length = request.bodypos ∧
      request.bodypos < request.bodySize

/-- A request that is served has read its message, or was refused. -/
def Serving (request : HttpRequest) (bytes : Str) : Prop :=
  request.status = .badRequest ∨ request.status = .requestEntityTooLarge ∨ IsMessage bytes

def Synced (phase : Phase) (bytes : Str) : Prop :=
  match phase with
  | .reading request => Reading request bytes
  | .serving request => Serving request bytes
  | .closed => True

theorem start_synced : Synced start [] := ⟨rfl, rfl⟩

theorem head_of_isLine {line : Str} (h : IsLine line) (hlf : line.head? = some (chr '\n')) :
    line = [chr '\n'] := by
  obtain ⟨text, htext, rfl⟩ := h
  cases text with
  | nil => rfl
  | cons c text =>
    simp only [List.cons_append, List.head?_cons, Option.some.injEq] at hlf
    simp [hlf] at htext

/-- Only the blank line starts like the end of a line. -/
theorem blankLine_of_startsWithEol {line : Str} (h : IsLine line)
    (hcr : line.head? = some (chr '\r') → line = crlf)
    (heol : startsWithEol (cstr line) = true) : isBlankLine line = true := by
  have hhead : ∀ c : Byte, (cstr line).head? = some c → line.head? = some c := by
    intro c hc
    cases line with
    | nil => simp [cstr] at hc
    | cons d line =>
      simp only [cstr, List.takeWhile_cons] at hc
      split at hc
      · simpa using hc
      · simp at hc
  simp only [startsWithEol, Bool.or_eq_true, beq_iff_eq] at heol
  rcases heol with hc | hc
  · rw [hcr (hhead _ hc)]
    rfl
  · rw [head_of_isLine h (hhead _ hc)]
    rfl

theorem not_blankLine_of_head {line : Str} (h : startsWithEol (cstr line) = false) :
    isBlankLine line = false := by
  by_contra hblank
  simp only [isBlankLine, Bool.not_eq_false, Bool.or_eq_true, beq_iff_eq] at hblank
  rcases hblank with rfl | rfl <;> exact absurd h (by decide)

theorem not_eol_of_isBlank {line : Str} (h : line.head?.any isBlank = true) :
    startsWithEol line = false := by
  cases hhead : line.head? with
  | none => simp [startsWithEol, hhead]
  | some c =>
    rw [hhead] at h
    simp only [Option.any_some, isBlank, Bool.or_eq_true, beq_iff_eq] at h
    rcases h with rfl | rfl <;> simp only [startsWithEol, hhead] <;> decide

/-- What the end of the headers does with a parsed request. -/
theorem blankLine_serving {request served : HttpRequest} {headerLines : List Str} {head : Str}
    (hhead : Head head headerLines) (hparsed : Parsed request headerLines)
    (hempty : request.hdrnm.text = []) (h : blankLine request = .received served) :
    Serving served head := by
  have hlength := announced_of_parsed hparsed hempty
  unfold blankLine at h
  cases hfirst : request.headers.first (str "Content-Length") with
  | none =>
    rw [hfirst] at hlength
    have hmessage : IsMessage (head ++ []) := hhead.isMessage hlength.symm
    rw [List.append_nil] at hmessage
    exact Or.inr (Or.inr hmessage)
  | some contentLength =>
    simp only [hfirst] at h
    split at h
    · obtain rfl := Received.received.inj h
      simp only [Serving, finish]
      by_cases hbig : (MAXBODY : ℤ) < (strtoll contentLength.value).1
      · right
        left
        simp [hbig]
      · left
        simp [hbig]
    · cases h

theorem blankLine_reading {request next : HttpRequest} {headerLines : List Str} {head : Str}
    (hhead : Head head headerLines) (hparsed : Parsed request headerLines)
    (hempty : request.hdrnm.text = []) (hpos : request.bodypos = 0)
    (h : blankLine request = .more next) : Reading next head := by
  have hlength := announced_of_parsed hparsed hempty
  unfold blankLine at h
  cases hfirst : request.headers.first (str "Content-Length") with
  | none =>
    simp only [hfirst] at h
    split at h <;> cases h
  | some contentLength =>
    simp only [hfirst] at h
    split at h
    · cases h
    · next hvalid =>
      obtain rfl := Received.more.inj h
      rw [hfirst] at hlength
      refine ⟨head, headerLines, [], (List.append_nil head).symm, hhead, hlength, hpos.symm, ?_⟩
      simp only [not_or] at hvalid
      change request.bodypos < (strtoll contentLength.value).1.toNat
      omega

/-- The phase after data for the parser. -/
def phaseOf : Received → Phase
  | .more request => .reading request
  | .received request => .serving request
  | .error => .closed

theorem requestLine_synced {line : Str} (hline : IsLine line) :
    Synced (phaseOf (dataReceived HttpRequest.create line)) line := by
  change Synced (phaseOf (orError (requestLine HttpRequest.create (cstr line)))) line
  cases hrequest : requestLine HttpRequest.create (cstr line) with
  | none => trivial
  | some request =>
    obtain ⟨meth, path, version, rfl⟩ := requestLine_eq_some hrequest
    exact ⟨rfl, line, [], by simp, hline, by simp, ⟨[], rfl, rfl⟩⟩

theorem headerLine_synced {request : HttpRequest} {bytes line : Str}
    (hstate : request.recvState = .headers) (h : Reading request bytes) (hline : IsLine line)
    (hcr : line.head? = some (chr '\r') → line = crlf) :
    Synced (phaseOf (dataReceived request line)) (bytes ++ line) := by
  simp only [Reading, hstate] at h
  obtain ⟨hpos, requestLine, headerLines, rfl, hrequest, hheaders, hparsed⟩ := h
  have hmore : ∀ next, next.recvState = .headers → next.bodypos = 0 →
      startsWithEol (cstr line) = false → Parsed next (headerLines ++ [line]) →
        Reading next (requestLine ++ headerLines.flatten ++ line) := by
    intro next hnext hzero heol hparsed'
    simp only [Reading, hnext]
    refine ⟨hzero, requestLine, headerLines ++ [line], by simp, hrequest, ?_, hparsed'⟩
    intro l hl
    rcases List.mem_append.mp hl with hl | hl
    · exact hheaders l hl
    · rw [List.mem_singleton.mp hl]
      exact ⟨hline, not_blankLine_of_head heol⟩
  simp only [dataReceived, hstate, headerLine]
  by_cases hcont : (cstr line).head?.any isBlank = true
  · rw [if_pos hcont]
    cases hnext : continueHeader request (cstr line) with
    | none => trivial
    | some next =>
      have hparsed' := continueHeader_parsed hparsed hcont hnext
      obtain ⟨_, _, _, _, _, rfl⟩ := continueHeader_eq_some hnext
      exact hmore _ hstate hpos (not_eol_of_isBlank hcont) hparsed'
  · rw [if_neg hcont]
    obtain ⟨hstored, hempty⟩ := storeHeader_parsed hparsed
    obtain ⟨headers, hdrnm, hdrval, hstore⟩ := storeHeader_eq request
    have hzero : (storeHeader request).bodypos = 0 := by rw [hstore]; exact hpos
    by_cases heol : startsWithEol (cstr line) = true
    · rw [if_pos heol]
      have hhead : Head (requestLine ++ headerLines.flatten ++ line) headerLines :=
        ⟨requestLine, line, rfl, hrequest, hheaders, hline,
          blankLine_of_startsWithEol hline hcr heol⟩
      cases hblank : blankLine (storeHeader request) with
      | more next => exact blankLine_reading hhead hstored hempty hzero hblank
      | received served => exact blankLine_serving hhead hstored hempty hblank
      | error => trivial
    · rw [if_neg heol]
      cases hnext : newHeader (storeHeader request) (cstr line) with
      | none => trivial
      | some next =>
        have hparsed' := newHeader_parsed hstored hempty (Bool.eq_false_iff.mpr hcont) hnext
        have hstate' : (storeHeader request).recvState = .headers := by rw [hstore]; exact hstate
        obtain ⟨_, _, _, _, _, rfl⟩ := newHeader_eq_some hnext
        exact hmore _ hstate' hzero (Bool.eq_false_iff.mpr heol) hparsed'

theorem bodyChunk_synced {request : HttpRequest} {bytes buf : Str}
    (hstate : request.recvState = .body) (h : Reading request bytes)
    (hshort : buf.length ≤ request.bodySize - request.bodypos) :
    Synced (phaseOf (dataReceived request buf)) (bytes ++ buf) := by
  simp only [Reading, hstate] at h
  obtain ⟨head, headerLines, part, rfl, hhead, hannounced, hpart, hlt⟩ := h
  simp only [dataReceived, hstate, bodyChunk, List.take_of_length_le hshort]
  rw [List.append_assoc]
  split
  · next hmore =>
    refine ⟨head, headerLines, part ++ buf, rfl, hhead, hannounced, ?_, hmore⟩
    rw [List.length_append, hpart]
  · next hdone =>
    refine Or.inr (Or.inr (hhead.isMessage ?_))
    rw [List.length_append, hpart, hannounced]
    omega

/-- The connection is kept after a request only if its message was read. -/
theorem isMessage_of_answer {request : HttpRequest} {response : Option HttpResponse}
    {timedOut : Bool} {bytes : Str} (h : Serving request bytes)
    (hlarge : request.status = .requestEntityTooLarge → keepsAlive request = false)
    (hreuse : (answer request response timedOut).2 = true) : IsMessage bytes := by
  rcases h with hbad | hbig | hmessage
  · have hanswer : (answer request response timedOut).2 = false := by
      unfold answer
      rw [if_pos (by simp [hbad])]
      exact errorContext_badRequest hbad
    simp [hanswer] at hreuse
  · have hclosed : (errorContext request).reuse = false := by
      simp [errorContext, HttpContext.setResponse, HttpContext.create, hlarge hbig]
    unfold answer at hreuse
    rw [if_pos (by simp [hbig]), pipelineJobDone_reuse] at hreuse
    simp [reusable, hclosed] at hreuse
  · exact hmessage

/-- What one step does to the bytes of the current request. -/
theorem step_synced {phase phase' : Phase} {bytes : Str} {event : Event} {outcome : Outcome}
    (h : Synced phase bytes) (hstep : regularStep phase (event, outcome) phase') :
    (outcome = .reuse ∧ event.bytes = [] ∧ IsMessage bytes ∧ Synced phase' []) ∨
      (outcome ≠ .reuse ∧ Synced phase' (bytes ++ event.bytes)) := by
  obtain ⟨hstep, hregular⟩ := hstep
  change step phase event = some (phase', outcome) at hstep
  cases phase with
  | closed => cases event <;> simp [step] at hstep
  | reading request =>
    cases event with
    | done => simp [step] at hstep
    | data buf =>
      right
      simp only [step] at hstep
      split at hstep
      · next hdelivered =>
        have hsynced : Synced (phaseOf (dataReceived request buf)) (bytes ++ buf) := by
          cases hstate : request.recvState with
          | method =>
            have hline : IsLine buf := hdelivered.resolve_left (by simp [hstate])
            have hreading : Reading request bytes := h
            simp only [Reading, hstate] at hreading
            obtain ⟨rfl, rfl⟩ := hreading
            exact requestLine_synced hline
          | headers =>
            have hline : IsLine buf := hdelivered.resolve_left (by simp [hstate])
            simp only [Regular, hstate] at hregular
            exact headerLine_synced hstate h hline hregular
          | body =>
            simp only [Regular, hstate] at hregular
            exact bodyChunk_synced hstate h hregular
        cases hdata : dataReceived request buf with
        | more next =>
          simp only [hdata, Option.some.injEq, Prod.mk.injEq] at hstep hsynced
          obtain ⟨rfl, rfl⟩ := hstep
          exact ⟨by decide, hsynced⟩
        | received served =>
          simp only [hdata, Option.some.injEq, Prod.mk.injEq] at hstep hsynced
          obtain ⟨rfl, rfl⟩ := hstep
          exact ⟨by decide, hsynced⟩
        | error =>
          simp only [hdata, Option.some.injEq, Prod.mk.injEq] at hstep
          obtain ⟨rfl, rfl⟩ := hstep
          exact ⟨by decide, trivial⟩
      · cases hstep
  | serving request =>
    cases event with
    | data buf =>
      right
      obtain rfl : buf = [] := hregular
      simp only [step, Option.some.injEq, Prod.mk.injEq] at hstep
      obtain ⟨rfl, rfl⟩ := hstep
      exact ⟨by decide, by simpa [Event.bytes] using h⟩
    | done response timedOut =>
      simp only [step] at hstep
      split at hstep
      · next hreuse =>
        obtain ⟨rfl, rfl⟩ := Prod.mk.inj (Option.some.inj hstep)
        exact Or.inl ⟨rfl, rfl, isMessage_of_answer h hregular hreuse, start_synced⟩
      · obtain ⟨rfl, rfl⟩ := Prod.mk.inj (Option.some.inj hstep)
        exact Or.inr ⟨by decide, trivial⟩

/-! ### Runs -/

theorem message_snoc (trace : List Label) (l : Label) :
    message (trace ++ [l]) = if l.2 = .reuse then [] else message trace ++ l.1.bytes := by
  simp [message, List.foldl_append]

theorem stream_snoc (trace : List Label) (l : Label) :
    stream (trace ++ [l]) = stream trace ++ l.1.bytes := by
  simp [stream]

theorem run_synced {trace : List Label} {phase : Phase} (h : Run regularStep start trace phase) :
    Synced phase (message trace) := by
  induction h with
  | nil => exact start_synced
  | @snoc trace phase phase' l _ hstep ih =>
    obtain ⟨event, outcome⟩ := l
    rw [message_snoc]
    rcases step_synced ih hstep with ⟨rfl, _, _, hsynced⟩ | ⟨hne, hsynced⟩
    · exact hsynced
    · rw [if_neg hne]
      exact hsynced

/-- The current request holds the last bytes of the stream. -/
theorem stream_eq (trace : List Label) : ∃ front, stream trace = front ++ message trace := by
  induction trace using List.reverseRecOn with
  | nil => exact ⟨[], rfl⟩
  | append_singleton trace l ih =>
    obtain ⟨front, hfront⟩ := ih
    rw [stream_snoc, message_snoc]
    split
    · exact ⟨stream trace ++ l.1.bytes, (List.append_nil _).symm⟩
    · exact ⟨front, by rw [hfront, List.append_assoc]⟩

theorem drop_startOf (trace : List Label) (rest : Str) :
    (stream trace ++ rest).drop (startOf trace) = message trace ++ rest := by
  obtain ⟨front, hfront⟩ := stream_eq trace
  have hstart : startOf trace = front.length := by
    unfold startOf
    rw [hfront, List.length_append]
    omega
  rw [hstart, hfront, List.append_assoc, List.drop_left]

/-- In every run without the listed inputs, every request that gets the kept
connection starts right after the message before it. -/
theorem inStep_of_regular {trace : List Label} {phase : Phase}
    (h : Run regularStep start trace phase) : InStep trace := by
  intro pre event post heq
  subst heq
  obtain ⟨before, after, hpre, hstep, _⟩ := h.at
  rcases step_synced (run_synced hpre) hstep with ⟨_, hnone, hmessage, _⟩ | ⟨hne, _⟩
  · have hstream : stream (pre ++ (event, .reuse) :: post) = stream pre ++ stream post := by
      simp [stream, hnone]
    have hnext : startOf (pre ++ [(event, .reuse)]) = (stream pre).length := by
      simp [startOf, stream_snoc, message_snoc, hnone]
    obtain ⟨front, hfront⟩ := stream_eq pre
    rw [hstream, drop_startOf, hmessage.messageLength, hnext, startOf, hfront,
      List.length_append]
    congr 1
    omega
  · exact absurd rfl hne

theorem step_reuse {request : HttpRequest} {response : Option HttpResponse} {timedOut : Bool}
    (h : (answer request response timedOut).2 = true) :
    step (.serving request) (.done response timedOut) = some (start, .reuse) := by
  simp only [step, h, if_true, start]

/-- A form that arrives in two parts and is answered with a page, and a request after it. -/
def twoRequests : List Label :=
  [(.data (str "POST /login HTTP/1.1" ++ crlf), .waiting),
    (.data (str "Content-Length: 8" ++ crlf), .waiting), (.data crlf, .waiting),
    (.data (str "user"), .waiting), (.data (str "=abc"), .received),
    (.done (some (HttpResponse.createError .notFound none)) false, .reuse),
    (.data (str "GET / HTTP/1.1" ++ crlf), .waiting), (.data crlf, .received),
    (.done (some (HttpResponse.createError .notFound none)) false, .reuse)]

/-- The second request starts behind the body of the first one. -/
theorem inStep_of_regular_kept : InStep twoRequests ∧ startOf (twoRequests.take 8) = 51 := by
  have hline : Run regularStep start (twoRequests.take 1) _ := Run.single ⟨rfl, trivial⟩
  have hlength : Run regularStep start (twoRequests.take 2) _ :=
    Run.snoc hline ⟨rfl, fun h => by cases h⟩
  have hblank : Run regularStep start (twoRequests.take 3) _ := Run.snoc hlength ⟨rfl, fun _ => rfl⟩
  have hpart : Run regularStep start (twoRequests.take 4) _ := Run.snoc hblank
    ⟨rfl, Nat.le_of_ble_eq_true rfl⟩
  have hbody : Run regularStep start (twoRequests.take 5) _ := Run.snoc hpart
    ⟨rfl, Nat.le_of_ble_eq_true rfl⟩
  have hkept : Run regularStep start (twoRequests.take 6) start := Run.snoc hbody
    ⟨step_reuse (by decide +kernel), fun h => by cases h⟩
  have hnext : Run regularStep start (twoRequests.take 7) _ := Run.snoc hkept ⟨rfl, trivial⟩
  have hend : Run regularStep start (twoRequests.take 8) _ := Run.snoc hnext ⟨rfl, fun _ => rfl⟩
  have hdone : Run regularStep start twoRequests start := Run.snoc hend
    ⟨step_reuse (by decide +kernel), fun h => by cases h⟩
  exact ⟨inStep_of_regular hdone, by decide⟩

/-- A request whose body is too large for the server. -/
def largeTrace : List Label :=
  [(.data (str "POST / HTTP/1.1" ++ crlf), .waiting),
    (.data (str "Content-Length: 1048577" ++ crlf), .waiting), (.data crlf, .received),
    (.done none false, .reuse)]

/-- The error 413 leaves the body on the connection, which is kept: the body is
read as the next request. -/
theorem body_read_as_request :
    ¬ ∀ trace phase, Run (stepOf step) start trace phase → InStep trace := by
  intro h
  have hline : Run (stepOf step) start (largeTrace.take 1) _ := Run.single rfl
  have hheader : Run (stepOf step) start (largeTrace.take 2) _ := Run.snoc hline rfl
  have hblank : Run (stepOf step) start (largeTrace.take 3) _ := Run.snoc hheader rfl
  have hdone : Run (stepOf step) start largeTrace start :=
    Run.snoc hblank (step_reuse (by decide +kernel))
  have hnext := h _ _ hdone (largeTrace.take 3) (.done none false) [] rfl
  revert hnext
  decide +kernel

end Swad.ConnectionReuse
