import Swad.Headerset
import Swad.Http
import Swad.TextCodecs

/-!
Responses: their construction by the handlers, and the bytes in which they are
sent. The announced size of a body is always the length of the body.
-/
namespace Swad.Httpresponse

open Bytes Util Headerset Http TextCodecs

inductive MediaType
  | none | text | html | css | png | gif
  deriving DecidableEq, Repr

def MediaType.str : MediaType → Str
  | text => Bytes.str "text/plain; charset=utf-8"
  | html => Bytes.str "text/html; charset=utf-8"
  | css => Bytes.str "text/css; charset=utf-8"
  | png => Bytes.str "image/png"
  | gif => Bytes.str "image/gif"
  | none => Bytes.str "application/octet-stream"

def methodStr : HttpMethod → Option Str
  | .options => some (str "OPTIONS")
  | .get => some (str "GET")
  | .head => some (str "HEAD")
  | .post => some (str "POST")
  | .put => some (str "PUT")
  | .delete => some (str "DELETE")
  | .trace => some (str "TRACE")
  | .connect => some (str "CONNECT")
  | .invalm => none

/-- The methods in the order of their bits. -/
def methods : List HttpMethod := [.options, .get, .head, .post, .put, .delete, .trace, .connect]

def methodsStr (mask : ℕ) : Option Str :=
  match (methods.filter (fun m => mask &&& m.code != 0)).filterMap methodStr with
  | [] => none
  | names => some (joinstr (str ", ") names)

def versionStr : HttpVersion → Str
  | .http10 => str "HTTP/1.0"
  | .http11 => str "HTTP/1.1"

def statusStr : HttpStatus → Str
  | .ok => str "200 OK"
  | .created => str "201 Created"
  | .found => str "302 Found"
  | .seeOther => str "303 See Other"
  | .badRequest => str "400 Bad Request"
  | .unauthorized => str "401 Unauthorized"
  | .forbidden => str "403 Forbidden"
  | .notFound => str "404 Not Found"
  | .methodNotAllowed => str "405 Method Not Allowed"
  | .lengthRequired => str "411 Length Required"
  | .requestEntityTooLarge => str "413 Request Entity Too Large"
  | .tooManyRequests => str "429 Too Many Requests"
  | .internalServerError => str "500 Internal Server Error"
  | .serviceUnavailable => str "503 Service Unavailable"

def statusMsg : HttpStatus → Str
  | .badRequest => str "Uhm, no."
  | .forbidden => str "No, no!"
  | .notFound => str "Nothing here."
  | .methodNotAllowed => str "No, no."
  | .lengthRequired => str "No streams."
  | .requestEntityTooLarge => str "Don't exaggerate."
  | .tooManyRequests => str "Gimme a break."
  | .serviceUnavailable => str "Sorry, too busy, try later."
  | _ => str "Oops."

structure HttpResponse where
  headers : HeaderSet
  body : Str
  status : HttpStatus
  version : HttpVersion

def HttpResponse.bodySize (self : HttpResponse) : ℕ := self.body.length

def contentType (bodyType : MediaType) : Header :=
  ⟨str "Content-Type", bodyType.str, by cases bodyType <;> decide⟩

/-- The number is written to a buffer of 64 bytes. -/
def sizeStr (size : ℕ) : Str := (decimal size).take 63

theorem sizeStr_length (size : ℕ) : (sizeStr size).length ≤ 63 := by
  simp only [sizeStr, List.length_take]
  omega

theorem validate_of_short {name value : Str} (hn : name.length ≤ 64)
    (hv : value.length ≤ 10000) : validate name value = true := by
  simp only [validate, Bool.and_eq_true, decide_eq_true_eq]
  unfold UINT16_MAX
  omega

theorem formType_valid :
    validate (str "Content-Type") (str "application/x-www-form-urlencoded") = true :=
  validate_of_short (by decide) (by decide)

def contentLength (size : ℕ) : Header :=
  ⟨str "Content-Length", sizeStr size,
    validate_of_short (by decide) ((sizeStr_length size).trans (by decide))⟩

def HttpResponse.create (status : HttpStatus) (bodyType : MediaType) : HttpResponse where
  headers := HeaderSet.create.add (contentType bodyType)
  body := []
  status := status
  version := .http11

def HttpResponse.passBody (self : HttpResponse) (body : Str) : HttpResponse :=
  { self with body, headers := self.headers.set (contentLength body.length) }

def errorBody (ststr message : Str) : Str :=
  str "<html><head><title>" ++ ststr ++ str "</title></head><body><h1>" ++ ststr ++
    str "</h1><p>" ++ message ++ str "</p></body></html>"

def HttpResponse.createError (status : HttpStatus) (message : Option Str) : HttpResponse :=
  (HttpResponse.create status .html).passBody
    (errorBody (statusStr status) (message.getD (statusMsg status)))

def redirectBody (ststr contentloc : Str) : Str :=
  str "<html><head><title>" ++ ststr ++
    str "</title><meta http-equiv=\"refresh\" content=\"0; URL=" ++ contentloc ++
    str "\"></head><body><a href=\"" ++ contentloc ++ str "\">" ++ contentloc ++
    str "</a></body></html>"

/-- There is no response if the location does not fit a header. -/
def HttpResponse.createRedirect (status : HttpStatus) (location : Str) :
    Option HttpResponse := do
  let self := (HttpResponse.create status .html).passBody
    (redirectBody (statusStr status) (htmlescape location false))
  if status.code ≤ 300 ∧ status.code < 400 then
    let header ← Header.create (str "Location") location
    return { self with headers := self.headers.set header }
  else return self

theorem HttpResponse.createRedirect_status {status : HttpStatus} {location : Str}
    {response : HttpResponse} (h : HttpResponse.createRedirect status location = some response) :
    response.status = status := by
  unfold HttpResponse.createRedirect at h
  split at h
  · obtain ⟨header, _, heq⟩ := Option.bind_eq_some_iff.mp h
    obtain rfl := Option.some.inj heq
    rfl
  · obtain rfl := Option.some.inj h
    rfl

def HttpResponse.setAllowHeader (self : HttpResponse) (mask : ℕ) : Option HttpResponse := do
  let methods ← methodsStr mask
  let header ← Header.create (str "Allow") methods
  return { self with headers := self.headers.set header }

theorem HttpResponse.setAllowHeader_status {self response : HttpResponse} {mask : ℕ}
    (h : self.setAllowHeader mask = some response) : response.status = self.status := by
  simp only [HttpResponse.setAllowHeader, Option.bind_eq_bind, Option.bind_eq_some_iff] at h
  obtain ⟨_, _, _, _, heq⟩ := h
  obtain rfl := Option.some.inj heq
  rfl

def HttpResponse.setVersion (self : HttpResponse) (version : HttpVersion) : HttpResponse :=
  { self with status := self.status.downgrade version }

def cacheControl : Header :=
  ⟨str "Cache-Control", str "no-cache, no-store, must-revalidate", by decide⟩

/-- The changes made to a response when it is sent. -/
def HttpResponse.prepare (self : HttpResponse) : HttpResponse :=
  let status := match self.version, self.status with
    | .http10, .seeOther => .found
    | .http10, .requestEntityTooLarge => .badRequest
    | _, status => status
  let headers :=
    if (self.headers.first (str "Cache-Control")).isNone then self.headers.add cacheControl
    else self.headers
  { self with status, headers }

def HttpResponse.statusLine (self : HttpResponse) : Str :=
  versionStr self.version ++ str " " ++ statusStr self.status

/-- The header block that is written into its buffer, and the 16-bit number of
bytes that are sent from it; there is none if the buffer is too small. -/
def HttpResponse.headerBuf (self : HttpResponse) : Option Str :=
  let self := self.prepare
  let size := self.headers.size.toNat + (statusStr self.status).length + 13
  let block := self.statusLine ++ crlf ++ self.headers.all.flatMap Header.writeTo ++ crlf
  if block.length ≤ size then some (block.take (size % 65536)) else none

end Swad.Httpresponse
