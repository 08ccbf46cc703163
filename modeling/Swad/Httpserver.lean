import Swad.Httprequest
import Swad.Httpresponse

/-!
The context of one request, and how the server ends it: the response is completed
and sent, and the connection is either closed or kept for another request.
-/
namespace Swad.Httpserver

open Bytes Headerset Http Httprequest Httpresponse

structure HttpContext where
  request : HttpRequest
  response : Option HttpResponse
  reuse : Bool

def HttpContext.create (request : HttpRequest) : HttpContext := ⟨request, none, false⟩

/-- Whether the client leaves the connection open. -/
def keepsAlive (request : HttpRequest) : Bool :=
  let connection := request.headers.first (str "Connection")
  match request.version with
  | .http10 => connection.any (fun h => h.value == str "keep-alive")
  | .http11 => !connection.any (fun h => h.value == str "close")

def HttpContext.setResponse (self : HttpContext) (response : HttpResponse) : HttpContext :=
  let response := response.setVersion self.request.version
  { self with
    response := some response
    reuse := response.bodySize != 0 && keepsAlive self.request }

def connectionHeader (value : Str) (h : value.length ≤ 10000) : Header :=
  ⟨str "Connection", value, validate_of_short (by decide) h⟩

theorem keepAlive_fits : (str "keep-alive").length ≤ 10000 := by decide

theorem close_fits : (str "close").length ≤ 10000 := by decide

def keepAliveHeader : Header :=
  ⟨str "Keep-Alive", str "timeout=10, max=1000", by decide⟩

/-- The response that the job leaves behind; one that did not complete in time gets
a response of its own. -/
def jobResponse (context : HttpContext) (timedOut : Bool) : HttpResponse :=
  if timedOut then HttpResponse.createError .serviceUnavailable (some (str "Request timed out."))
  else context.response.getD (HttpResponse.createError .internalServerError none)

def reusable (context : HttpContext) (status : HttpStatus) : Bool :=
  context.reuse && status != .badRequest && status != .tooManyRequests &&
    status.code < HttpStatus.internalServerError.code

/-- The response that is sent and whether the connection is kept. -/
def pipelineJobDone (context : HttpContext) (timedOut : Bool) : HttpResponse × Bool :=
  let response := jobResponse context timedOut
  if reusable context response.status then
    ({ response with
      headers := (response.headers.set (connectionHeader (str "keep-alive") keepAlive_fits)).set
        keepAliveHeader }, true)
  else
    ({ response with
      headers := response.headers.set (connectionHeader (str "close") close_fits) }, false)

/-- A request with an error of its own never reaches the pipeline. -/
def errorContext (request : HttpRequest) : HttpContext :=
  (HttpContext.create request).setResponse (HttpResponse.createError request.status none)

theorem pipelineJobDone_reuse (context : HttpContext) (timedOut : Bool) :
    (pipelineJobDone context timedOut).2 =
      reusable context (jobResponse context timedOut).status := by
  unfold pipelineJobDone
  dsimp only
  split
  · next h => exact h.symm
  · next h => exact (Bool.eq_false_iff.mpr h).symm

theorem pipelineJobDone_status (context : HttpContext) (timedOut : Bool) :
    (pipelineJobDone context timedOut).1.status = (jobResponse context timedOut).status := by
  unfold pipelineJobDone
  dsimp only
  split <;> rfl

/-- The connection is not kept after a bad request. -/
theorem errorContext_badRequest {request : HttpRequest} (h : request.status = .badRequest) :
    (pipelineJobDone (errorContext request) false).2 = false := by
  rw [pipelineJobDone_reuse]
  have hstatus : (jobResponse (errorContext request) false).status = .badRequest := by
    simp only [jobResponse, errorContext, HttpContext.setResponse, HttpContext.create, h,
      HttpResponse.setVersion]
    cases request.version <;> rfl
  rw [hstatus]
  simp [reusable]

end Swad.Httpserver
