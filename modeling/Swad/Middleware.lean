import Swad.Httprequest
import Swad.Httpresponse
import Swad.Tables

/-!
The middlewares that read one request each: the cookies it sends, the parameters of
its query, the parameters of a form in its body, and the encodings it accepts.
-/
namespace Swad.Middleware

open Bytes Headerset Httprequest Httpresponse Tables TextCodecs

/-! ### Cookies -/

structure Cookies where
  received : Table Str Str
  out : Table Str Str

/-- The loop over the pairs of a cookie header, for at most as many rounds as it has
bytes. -/
def cookieLoop : ℕ → Str → Table Str Str → Table Str Str
  | rounds + 1, c :: rest, cookies =>
    let pair := (c :: rest).takeWhile (· != chr ';')
    if pair = [] then cookies
    else
      let name := pair.takeWhile (· != chr '=')
      let cookies :=
        if name ≠ [] ∧ name.length < 2048 ∧ name.length < pair.length then
          cookies.insert name (pair.drop (name.length + 1))
        else cookies
      cookieLoop rounds
        ((((c :: rest).drop pair.length).drop 1).dropWhile (· == chr ' ')) cookies
  | _, _, cookies => cookies

def Cookies.create (headers : HeaderSet) : Cookies where
  received :=
    match headers.first (str "Cookie") with
    | none => ∅
    | some cookie =>
      let cl := cookie.value.dropWhile (· == chr ' ')
      cookieLoop cl.length cl ∅
  out := ∅

def Cookies.getCookie (self : Cookies) (name : Str) : Option Str := self.received.lookup name

def Cookies.setCookie (self : Cookies) (name value : Str) : Cookies :=
  { self with out := self.out.insert name value }

def cookieValue (name value : Str) : Str :=
  (name ++ str "=" ++ value ++ str "; Path=/; HttpOnly").take 1023

def setCookieHeader (name value : Str) : Header :=
  ⟨str "Set-Cookie", cookieValue name value, validate_of_short (by decide) (by
    rw [cookieValue, List.length_take]
    omega)⟩

/-- The values are written to a buffer of 1024 bytes; a longer one than 4095 bytes is
left out. -/
def Cookies.addTo (self : Cookies) (headers : HeaderSet) : HeaderSet :=
  self.out.entries.foldl (fun headers cookie =>
    if (cookie.1 ++ str "=" ++ cookie.2 ++ str "; Path=/; HttpOnly").length < 4096 then
      headers.add (setCookieHeader cookie.1 cookie.2)
    else headers) headers

/-! ### The query -/

/-- A parameter without an equals sign has no value. -/
structure QueryParam where
  name : Str
  value : Option Str

/-- One parameter of a query or a form, before and after the equals sign. -/
def splitParam (part : List Byte) : Str × Option Str :=
  if chr '=' ∈ part then
    (urldecode (part.takeWhile (· != chr '=')),
      some (urldecode ((part.dropWhile (· != chr '=')).drop 1)))
  else (urldecode part, none)

structure PathParser where
  path : Str
  params : List QueryParam

def PathParser.create (reqPath : Str) : PathParser where
  path := urldecode (reqPath.takeWhile (· != chr '?'))
  params :=
    match reqPath.dropWhile (· != chr '?') with
    | [] => []
    | _ :: query =>
      ((query.splitOn (chr '&')).take 32).map fun part =>
        ⟨(splitParam part).1, (splitParam part).2⟩

def PathParser.param (self : PathParser) (name : Str) : Option QueryParam :=
  self.params.find? fun p => p.name == name

/-! ### Forms -/

structure FormParam where
  name : Str
  value : Option Str
  namelen : ℕ
  valuelen : ℕ
  namevalid : Bool
  valuevalid : Bool

structure FormData where
  params : List FormParam
  valid : Bool

/-- With the configured validation, malformed text is replaced and counted in
characters. -/
def formParam (part : List Byte) : FormParam :=
  let name := utf8Sanitize (splitParam part).1
  match (splitParam part).2 with
  | none => ⟨name.text, none, name.len, 0, name.valid, false⟩
  | some value =>
    let value := utf8Sanitize value
    ⟨name.text, some value.text, name.len, value.len, name.valid, value.valid⟩

/-- The parts between the separators; after a final separator comes nothing. -/
def formParts (body : List Byte) : List (List Byte) :=
  if (body.splitOn (chr '&')).getLast? = some [] then (body.splitOn (chr '&')).dropLast
  else body.splitOn (chr '&')

def FormData.parse (body : List Byte) : FormData :=
  let params := ((formParts body).take 64).map formParam
  ⟨params, params.all fun p => p.namevalid && (p.value.isNone || p.valuevalid)⟩

/-- The value, and its number of characters, of a parameter that occurs once. -/
def FormData.single (self : FormData) (name : Str) : Option (Str × ℕ) :=
  match self.params.filter fun p => p.name == name with
  | [param] => param.value.map fun value => (value, param.valuelen)
  | _ => none

/-- The body as the program reads it; `memory` tells what bytes hold that were never
written. -/
def bodyBytes (request : HttpRequest) (memory : ℕ → Byte) : List Byte :=
  request.body.mapIdx fun i b => b.getD (memory i)

def FormData.get (request : HttpRequest) (memory : ℕ → Byte) : Option FormData :=
  if request.bodySize = 0 then none
  else
    match request.headers.first (str "Content-Type") with
    | none => none
    | some reqType =>
      if reqType.value = str "application/x-www-form-urlencoded" then
        some (FormData.parse (bodyBytes request memory))
      else none

/-! ### Compression -/

/-- The two compressors; a result that is not shorter than the body is dropped. -/
structure Zlib where
  gzip : Str → Str
  deflate : Str → Str

def accepts (acceptVal coding : Str) : Bool :=
  (acceptVal.splitOnP fun c => c == chr ' ' || c == chr ',').contains coding

def contentEncoding (coding : Str) (h : coding.length ≤ 10000) : Header :=
  ⟨str "Content-Encoding", coding, validate_of_short (by decide) h⟩

def compressWith (response : HttpResponse) (compressed : Str) (coding : Header) : HttpResponse :=
  if compressed.length < response.bodySize then
    let response := response.passBody compressed
    { response with headers := response.headers.set coding }
  else response

def compress (zlib : Zlib) (headers : HeaderSet) (response : HttpResponse) : HttpResponse :=
  if response.bodySize = 0 then response
  else
    match headers.first (str "Accept-Encoding") with
    | none => response
    | some accept =>
      if accepts accept.value (str "gzip") then
        compressWith response (zlib.gzip response.body)
          (contentEncoding (str "gzip") (by decide))
      else if accepts accept.value (str "deflate") then
        compressWith response (zlib.deflate response.body)
          (contentEncoding (str "deflate") (by decide))
      else response

theorem compress_status (zlib : Zlib) (headers : HeaderSet) (response : HttpResponse) :
    (compress zlib headers response).status = response.status := by
  have hwith : ∀ compressed coding,
      (compressWith response compressed coding).status = response.status := by
    intro compressed coding
    unfold compressWith
    split <;> rfl
  unfold compress
  split
  · rfl
  · split
    · rfl
    · split
      · exact hwith _ _
      · split
        · exact hwith _ _
        · rfl

end Swad.Middleware
