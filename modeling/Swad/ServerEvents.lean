import Swad.DeferredDeletion
import Swad.Pipeline

/-!
The callbacks of the server around one connection. Requests, responses and contexts are
objects that are created, used, handed on and deleted by callbacks, and every callback
is a handler of an event: data was received or sent, the connection was closed, a job is
finished, a response was sent, all events are done. Handlers of an event are called in
the order in which they were registered; one that another has removed is not called.
What uses an object that is not there is undefined.
-/
namespace Swad.ServerEvents

open Bytes Headerset Http Httprequest Httpresponse Httpserver DeferredDeletion

inductive SentHandler
  | httpResponseSentReuse (context : ℕ)
  | httpResponseSentSingle
  deriving DecidableEq

inductive FinishedHandler
  | pipelineJobDone
  | pipelineCanceledJobDone
  deriving DecidableEq

inductive ClosedHandler
  | connClosed
  | connectionLost (request : ℕ)
  | connectionClosed (context : ℕ)
  | pipelineJobCanceled
  | abortSending (response : ℕ)
  deriving DecidableEq

inductive DataSentHandler
  | connActive
  | sendBody (response : ℕ)
  deriving DecidableEq

structure Response where
  value : HttpResponse
  sendPos : ℕ
  sent : List SentHandler

/-- The connection will be kept. -/
def Response.keepAlive (c : ℕ) (self : Response) : Response :=
  { self with
    value := { self.value with
      headers := (self.value.headers.set (connectionHeader (str "keep-alive") keepAlive_fits)).set
        keepAliveHeader }
    sent := self.sent ++ [.httpResponseSentReuse c] }

/-- The connection will be closed. -/
def Response.close (self : Response) : Response :=
  { self with
    value := { self.value with
      headers := self.value.headers.set (connectionHeader (str "close") close_fits) } }

structure Context where
  request : ℕ
  response : Option ℕ
  conn : Bool
  reuse : Bool

structure Job where
  context : ℕ
  finished : List FinishedHandler

/-- The objects, the request that is being read, the job that was enqueued, and the
handlers of the connection. Beside them is written down which requests were received,
with which status they were logged, and which status was sent for them. -/
structure State where
  requests : Pool HttpRequest
  responses : Pool Response
  contexts : Pool Context
  reading : Option ℕ
  job : Option Job
  isOpen : Bool
  closing : Bool
  closed : List ClosedHandler
  dataSent : List DataSentHandler
  received : List ℕ
  logged : List (ℕ × HttpStatus)
  sent : List (ℕ × HttpStatus)

/-- A request is received, and its job, if any, can be enqueued or not; the pipeline sets a
response, which has the version of every response; the job ends, completed or not; the
connection is closed; data was sent; all events are done. -/
inductive Event
  | received (request : HttpRequest) (enqueued : Bool)
  | responds (response : HttpResponse) (h : response.version = .http11)
  | finished (completed : Bool)
  | closed
  | dataSent
  | eventsDone

namespace State

/-- The client has connected. -/
def init : State where
  requests := Pool.empty.create HttpRequest.create
  responses := Pool.empty
  contexts := Pool.empty
  reading := some 0
  job := none
  isOpen := true
  closing := false
  closed := [.connClosed, .connectionLost 0]
  dataSent := [.connActive]
  received := []
  logged := []
  sent := []

def createRequest (self : State) : State :=
  { self with
    requests := self.requests.create HttpRequest.create
    reading := some self.requests.created
    closed := self.closed ++ [.connectionLost self.requests.created] }

def createResponse (self : State) (value : HttpResponse) : State × ℕ :=
  ({ self with responses := self.responses.create ⟨value, 0, []⟩ }, self.responses.created)

def destroyResponse (self : State) : Option ℕ → Option State
  | none => some self
  | some p => (self.responses.destroy p).map fun responses => { self with responses }

def deleteLaterResponse (self : State) (p : ℕ) : Option State :=
  (self.responses.deleteLater p).map fun responses => { self with responses }

def deleteLaterRequest (self : State) (r : ℕ) : Option State :=
  (self.requests.deleteLater r).map fun requests => { self with requests }

def modifyResponse (self : State) (p : ℕ) (g : Response → Response) : Option State :=
  (self.responses.modify p g).map fun responses => { self with responses }

def createContext (self : State) (r : ℕ) : State × ℕ :=
  ({ self with
    contexts := self.contexts.create ⟨r, none, true, false⟩
    closed := self.closed ++ [.connectionClosed self.contexts.created] }, self.contexts.created)

def destroyContext (self : State) (c : ℕ) : Option State := do
  let context ← self.contexts.get c
  let contexts ← self.contexts.destroy c
  return { self with
    contexts
    closed := if context.conn then self.closed.erase (.connectionClosed c) else self.closed }

def setResponse (self : State) (c p : ℕ) : Option State := do
  let context ← self.contexts.get c
  let self ← self.destroyResponse context.response
  let request ← self.requests.get context.request
  let response ← self.responses.get p
  let value := response.value.setVersion request.version
  let self ← self.modifyResponse p fun r => { r with value }
  let contexts ← self.contexts.modify c fun x =>
    { x with response := some p, reuse := value.bodySize != 0 && keepsAlive request }
  return { self with contexts }

def httpResponseSentSingle (self : State) (p : ℕ) (conn : Bool) : Option State :=
  (self.deleteLaterResponse p).map fun self => { self with closing := self.closing || conn }

def httpResponseSentReuse (self : State) (c p : ℕ) (conn : Bool) : Option State := do
  let context ← self.contexts.get c
  let self := if conn then self.createRequest else self
  let self ← self.deleteLaterResponse p
  let self ← self.deleteLaterRequest context.request
  self.destroyContext c

def raiseSent (self : State) (p : ℕ) (conn : Bool) : Option State := do
  let response ← self.responses.get p
  response.sent.foldlM (fun self handler =>
    match handler with
    | .httpResponseSentReuse c => self.httpResponseSentReuse c p conn
    | .httpResponseSentSingle => self.httpResponseSentSingle p conn) self

/-- The response of the context is used here, whatever is sent. -/
def logRequest (self : State) (c : ℕ) : Option State := do
  let context ← self.contexts.get c
  let _ ← self.requests.get context.request
  let p ← context.response
  let response ← self.responses.get p
  return { self with logged := self.logged ++ [(context.request, response.value.status)] }

/-- The header is handed to the connection, for the request with this number. -/
def send (self : State) (p : ℕ) (conn : Bool) (r : ℕ) : Option State := do
  let response ← self.responses.get p
  let self ← self.modifyResponse p fun x => { x with value := x.value.prepare, sendPos := 0 }
  if conn then
    return { self with
      dataSent := self.dataSent ++ [.sendBody p]
      closed := self.closed ++ [.abortSending p]
      sent := self.sent ++ [(r, response.value.prepare.status)] }
  else none

/-- The end of the pipeline, with a job or without one. -/
def pipelineJobDone (self : State) (job : Option Bool) (c : ℕ) : Option State := do
  let context ← self.contexts.get c
  let (self, response) ← match job with
    | none => some (self, context.response)
    | some completed =>
      if context.conn then
        let self := { self with closed := self.closed.erase .pipelineJobCanceled }
        if completed then some (self, context.response)
        else (self.destroyResponse context.response).map fun self =>
          let created := self.createResponse
            (HttpResponse.createError .serviceUnavailable (some (str "Request timed out.")))
          (created.1, some created.2)
      else none
  let (self, p) := match response with
    | some p => (self, p)
    | none => self.createResponse (HttpResponse.createError .internalServerError none)
  let self ← self.logRequest c
  let response ← self.responses.get p
  let status := response.value.status
  if context.conn && context.reuse && status != .badRequest && status != .tooManyRequests &&
      status.code < HttpStatus.internalServerError.code then
    let self ← self.modifyResponse p (Response.keepAlive c)
    self.send p context.conn context.request
  else
    let self ← self.modifyResponse p Response.close
    let self ← if context.conn then
        self.modifyResponse p fun x => { x with sent := x.sent ++ [.httpResponseSentSingle] }
      else self.httpResponseSentSingle p false
    let self ← self.destroyContext c
    let self ← self.deleteLaterRequest context.request
    self.send p context.conn context.request

def pipelineCanceledJobDone (self : State) (c : ℕ) : Option State := do
  let context ← self.contexts.get c
  let self ← self.deleteLaterRequest context.request
  let self ← self.destroyResponse context.response
  self.destroyContext c

/-- The response with which a request is refused, if it is. -/
def refusal (request : HttpRequest) : Option (Option HttpResponse) :=
  if request.status ≠ .ok then some (some (HttpResponse.createError request.status none))
  else
    match Pipeline.findRoute request.path.text with
    | none => some (some (HttpResponse.createError .notFound none))
    | some target =>
      if request.method.code &&& Pipeline.routeMask target = 0 then
        ((HttpResponse.createError .methodNotAllowed none).setAllowHeader
          (Pipeline.routeMask target)).map some
      else some none

/-- A response without a job. -/
def answer (self : State) (c : ℕ) (value : HttpResponse) : Option State := do
  let (self, p) := self.createResponse value
  let self ← self.setResponse c p
  self.pipelineJobDone none c

/-- The request with this number has been read to its end. -/
def requestReceived (self : State) (r : ℕ) (request : HttpRequest) (enqueued : Bool) :
    Option State := do
  let requests ← self.requests.modify r fun _ => request
  let self := { self with
    requests
    reading := none
    closed := self.closed.erase (.connectionLost r)
    received := self.received ++ [r] }
  let response ← refusal request
  let (self, c) := self.createContext r
  match response with
  | some response => self.answer c response
  | none =>
    let self := { self with
      job := some ⟨c, [.pipelineJobDone]⟩
      closed := self.closed ++ [.pipelineJobCanceled] }
    if enqueued then some self
    else
      answer { self with job := none, closed := self.closed.erase .pipelineJobCanceled } c
        (HttpResponse.createError .serviceUnavailable none)

def raiseFinished (self : State) (job : Job) (completed : Bool) : Option State :=
  job.finished.foldlM (fun self handler =>
    match handler with
    | .pipelineJobDone => self.pipelineJobDone (some completed) job.context
    | .pipelineCanceledJobDone => self.pipelineCanceledJobDone job.context)
    { self with job := none }

def UINT16_MAX : ℕ := 65535

/-- Send what is left of the body, or say that the response was sent. -/
def sendBody (self : State) (p : ℕ) : Option State := do
  let response ← self.responses.get p
  let remaining := response.value.bodySize - response.sendPos
  if remaining = 0 then
    raiseSent { self with
      closed := self.closed.erase (.abortSending p)
      dataSent := self.dataSent.erase (.sendBody p) } p true
  else self.modifyResponse p fun x => { x with sendPos := x.sendPos + min remaining UINT16_MAX }

def abortSending (self : State) (p : ℕ) : Option State := do
  let self ← self.modifyResponse p fun x => { x with sendPos := 0 }
  raiseSent { self with
    closed := self.closed.erase (.abortSending p)
    dataSent := self.dataSent.erase (.sendBody p) } p false

def callClosed (self : State) : ClosedHandler → Option State
  -- what it unregisters has no receiver, and the handlers of the connection have the server
  | .connClosed => some self
  | .connectionLost r => deleteLaterRequest { self with
      reading := none
      closed := self.closed.erase (.connectionLost r) } r
  | .connectionClosed c =>
    (self.contexts.modify c fun x => { x with conn := false }).map
      fun contexts => { self with contexts }
  | .pipelineJobCanceled =>
    self.job.map fun job => { self with
      job := some { job with
        finished := job.finished.erase .pipelineJobDone ++ [.pipelineCanceledJobDone] }
      closed := self.closed.erase .pipelineJobCanceled }
  | .abortSending p => self.abortSending p

def raiseClosed (self : State) : Option State :=
  self.closed.foldlM (fun self handler =>
    if handler ∈ self.closed then self.callClosed handler else some self)
    { self with isOpen := false }

def raiseDataSent (self : State) : Option State :=
  self.dataSent.foldlM (fun self handler =>
    if handler ∈ self.dataSent then
      match handler with
      | .connActive => some self
      | .sendBody p => self.sendBody p
    else some self) self

/-- An event that cannot happen now does nothing. -/
def exec (self : State) : Event → Option State
  | .received request enqueued =>
    match self.reading with
    | some r => if self.isOpen then self.requestReceived r request enqueued else some self
    | none => some self
  | .responds value _ =>
    match self.job with
    | some job =>
      let created := self.createResponse value
      created.1.setResponse job.context created.2
    | none => some self
  | .finished completed =>
    match self.job with
    | some job => self.raiseFinished job completed
    | none => some self
  | .closed => if self.isOpen then self.raiseClosed else some self
  | .dataSent => if self.isOpen then self.raiseDataSent else some self
  | .eventsDone => do
    let requests ← self.requests.collect
    let responses ← self.responses.collect
    return { self with requests, responses }

end State

end Swad.ServerEvents
