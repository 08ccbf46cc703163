import Swad.FormattedText
import Swad.Httpresponse
import Swad.TemplateEngine

/-!
The pages of a redirect. The length of a page is computed from its parts, a block of that
length is allocated, and the page is printed there. The location is given in a field as well
if the status allows for it; the test is for a status of at most 300, so that it fails for
every status that redirects.
-/
namespace Swad.RedirectPages

open Bytes Util GrowingBuffer FormattedText Headerset Http Httpresponse TextOutput
open TemplateEngine (CString)

def REDIRECT_FORMAT : Str :=
  str "<html><head><title>%s</title>" ++
    str "<meta http-equiv=\"refresh\" content=\"0; URL=%s\"></head>" ++
    str "<body><a href=\"%s\">%s</a></body></html>"

/-- The size of the format counts its NUL. -/
def REDIRECT_SIZE : ℕ := REDIRECT_FORMAT.length + 1 - 9

def SIZE_MAX : ℕ := 2 ^ 64 - 1

/-- The text is stored with a NUL behind it. -/
def sprintf (fmt : Str) (args : List Str) (buf : Buffer Byte) : Option (Buffer Byte) :=
  (format (chr '%') (chr 's') fmt args).bind fun text => buf.write (text ++ [0])

structure Redirect where
  status : HttpStatus
  contentSize : ℕ
  rdrContent : Buffer Byte
  headers : HeaderSet

/-- A field that is not valid is not created, and must not be put into the set. -/
def createRedirect (status : HttpStatus) (location : Str) : Option Redirect := do
  let self := HttpResponse.create status .html
  let ststr := statusStr status
  let contentloc ← (htmlescape location false).bind fun out => readUntil 0 out.cells
  let contentSize := REDIRECT_SIZE + ststr.length + 3 * contentloc.length
  let rdrContent ← sprintf REDIRECT_FORMAT [ststr, contentloc, contentloc, contentloc]
    (.alloc (contentSize + 1))
  let headers := self.headers.set (contentLength contentSize)
  if status.code ≤ 300 ∧ status.code < 400 then
    let header ← Header.create (str "Location") location
    return ⟨status, contentSize, rdrContent, headers.set header⟩
  else return ⟨status, contentSize, rdrContent, headers⟩

/-! ### The page -/

/-- The parts of the format before its four conversions. -/
def redirectPieces : List Str :=
  [str "<html><head><title>", str "</title><meta http-equiv=\"refresh\" content=\"0; URL=",
    str "\"></head><body><a href=\"", str "\">"]

/-- The part behind them. -/
def redirectEnd : Str := str "</a></body></html>"

theorem format_redirect (ststr contentloc : Str) :
    format (chr '%') (chr 's') REDIRECT_FORMAT [ststr, contentloc, contentloc, contentloc] =
        some (redirectBody ststr contentloc) ∧
      (redirectBody ststr contentloc).length =
        REDIRECT_SIZE + ststr.length + 3 * contentloc.length := by
  have hformat : conversions (chr '%') (chr 's') redirectPieces ++ redirectEnd = REDIRECT_FORMAT := by
    decide +kernel
  have hpieces : ∀ p ∈ redirectPieces, chr '%' ∉ p := by decide +kernel
  have hlast : chr '%' ∉ redirectEnd := by decide +kernel
  have hlength : redirectPieces.length = [ststr, contentloc, contentloc, contentloc].length := rfl
  have htext := format_conversions (chr 's') hpieces hlength hlast
  have hsize := length_format hpieces hlength hlast htext
  have hbody : (redirectPieces.zip [ststr, contentloc, contentloc, contentloc]).flatMap
      (fun p => p.1 ++ p.2) ++ redirectEnd = redirectBody ststr contentloc := by
    simp [redirectPieces, redirectEnd, redirectBody]
  rw [hformat, hbody] at htext
  rw [hformat, hbody] at hsize
  refine ⟨htext, ?_⟩
  have hall : [ststr, contentloc, contentloc, contentloc].flatten.length =
      ststr.length + 3 * contentloc.length := by
    simp only [List.flatten_cons, List.flatten_nil, List.append_nil, List.length_append]
    omega
  have hfour : [ststr, contentloc, contentloc, contentloc].length = 4 := rfl
  have hlong : 8 ≤ REDIRECT_FORMAT.length := by
    rw [← hformat]
    simp only [conversions, redirectPieces, List.flatMap_cons, List.flatMap_nil, List.length_append,
      List.length_cons]
    omega
  rw [hall, hfour] at hsize
  unfold REDIRECT_SIZE
  omega

/-- The page with the escaped location fills the block that is allocated for it. -/
theorem print_redirect (ststr contentloc : Str) :
    sprintf REDIRECT_FORMAT [ststr, contentloc, contentloc, contentloc]
        (.alloc (REDIRECT_SIZE + ststr.length + 3 * contentloc.length + 1)) =
      some ⟨(redirectBody ststr contentloc ++ [0]).map some,
        REDIRECT_SIZE + ststr.length + 3 * contentloc.length + 1,
        REDIRECT_SIZE + ststr.length + 3 * contentloc.length + 1⟩ := by
  obtain ⟨htext, hsize⟩ := format_redirect ststr contentloc
  have hlength : (redirectBody ststr contentloc ++ [0]).length =
      REDIRECT_SIZE + ststr.length + 3 * contentloc.length + 1 := by
    rw [List.length_append, hsize, List.length_singleton]
  rw [sprintf, htext, Option.bind_some, ← hlength]
  exact Buffer.write_alloc _

theorem read_htmlescape {location : Str} (h : (0 : Byte) ∉ location) :
    ((htmlescape location false).bind fun out => readUntil 0 out.cells) =
      some (TextCodecs.htmlescape location false) := by
  have hcells := htmlescape_cells location false
  obtain ⟨out, hout, hsame⟩ := Option.map_eq_some_iff.mp hcells
  rw [hout, Option.bind_some, hsame, List.map_append]
  exact readUntil_append (zero_notMem_htmlescape h false) []

theorem sizeStr_eq {size : ℕ} (h : size ≤ SIZE_MAX) : sizeStr size = decimal size := by
  have hlt : size < 10 ^ 63 := by
    unfold SIZE_MAX at h
    omega
  have hlength := (Nat.length_toDigits_le_iff (by decide) (by decide)).mpr hlt
  rw [sizeStr]
  apply List.take_of_length_le
  rwa [decimal, List.length_map]

/-! ### The fields -/

/-- The fields of a redirect before its location. -/
def pageHeaders (status : HttpStatus) (size : ℕ) : HeaderSet :=
  (HttpResponse.create status .html).headers.set (contentLength size)

theorem pageHeaders_contentLength (status : HttpStatus) (size : ℕ) :
    (pageHeaders status size).any (str "Content-Length") = [contentLength size] := by
  rw [pageHeaders, HeaderSet.any_set]
  exact if_pos rfl

theorem pageHeaders_location (status : HttpStatus) (size : ℕ) :
    (pageHeaders status size).any (str "Location") = [] := by
  have hother : (contentLength size).key ≠ lowerstr (str "Location") := by
    change lowerstr (str "Content-Length") ≠ lowerstr (str "Location")
    decide
  rw [pageHeaders, HeaderSet.any_set, if_neg hother]
  rfl

/-- What a redirect is without the question whether it has a location. -/
theorem createRedirect_eq (status : HttpStatus) {location : Str} (h : (0 : Byte) ∉ location) :
    createRedirect status location =
      let contentloc := TextCodecs.htmlescape location false
      let contentSize := REDIRECT_SIZE + (statusStr status).length + 3 * contentloc.length
      let page : Buffer Byte :=
        ⟨(redirectBody (statusStr status) contentloc ++ [0]).map some, contentSize + 1,
          contentSize + 1⟩
      if status.code ≤ 300 ∧ status.code < 400 then
        (Header.create (str "Location") location).bind fun header =>
          some ⟨status, contentSize, page, (pageHeaders status contentSize).set header⟩
      else some ⟨status, contentSize, page, pageHeaders status contentSize⟩ := by
  dsimp only
  rw [createRedirect, read_htmlescape h]
  dsimp only [Option.bind_eq_bind, Option.bind_some]
  rw [print_redirect]
  rfl

/-- The response of the handlers has the fields and the page of the redirect. -/
theorem createRedirect_response (status : HttpStatus) {location : Str}
    (h : (0 : Byte) ∉ location) :
    (createRedirect status location).map
        (fun r => (r.status, r.headers, r.contentSize, r.rdrContent.cells)) =
      (HttpResponse.createRedirect status location).map
        (fun r => (r.status, r.headers, r.bodySize, (r.body ++ [0]).map some)) := by
  have hsize := (format_redirect (statusStr status)
    (TextCodecs.htmlescape location false)).2
  rw [createRedirect_eq status h, HttpResponse.createRedirect]
  dsimp only
  rw [← hsize]
  by_cases hstatus : status.code ≤ 300 ∧ status.code < 400
  · rw [if_pos hstatus, if_pos hstatus]
    cases Header.create (str "Location") location <;> rfl
  · rw [if_neg hstatus, if_neg hstatus]
    rfl

/-- A redirect as it is meant to be: the page has the location only in its escaped form, it
fills its block, its length is announced, and the field with the location is there exactly for
the statuses that redirect. -/
structure Redirects (status : HttpStatus) (location : Str) (r : Redirect) : Prop where
  page : r.rdrContent.cells =
    (redirectBody (statusStr status) (TextCodecs.htmlescape location false) ++ [0]).map some
  escaped : Escaped (TextCodecs.htmlescape location false)
  unescaped : unescape (TextCodecs.htmlescape location false) = location
  length : (redirectBody (statusStr status) (TextCodecs.htmlescape location false)).length =
    r.contentSize
  allocated : r.rdrContent.size = r.contentSize + 1
  announced : (r.headers.any (str "Content-Length")).map Header.value = [decimal r.contentSize]
  located : (∃ header ∈ r.headers.any (str "Location"), header.value = location) ↔
    300 ≤ status.code ∧ status.code < 400

/-- Below the statuses for errors there are none that the test accepts and that redirect. -/
theorem code_cases (status : HttpStatus) :
    status.code < 300 ∨ 300 < status.code ∧ status.code < 400 ∨ 400 ≤ status.code := by
  cases status <;> decide

theorem located_set {headers : HeaderSet} {location : Str} {header : Header}
    (h : Header.create (str "Location") location = some header) :
    ∃ found ∈ (headers.set header).any (str "Location"), found.value = location := by
  obtain ⟨_, hname, hvalue⟩ := Header.create_eq_some.mp h
  have hkey : header.key = lowerstr (str "Location") := by rw [Header.key, hname]
  refine ⟨header, ?_, hvalue⟩
  rw [HeaderSet.any_set, if_pos hkey]
  exact List.mem_singleton_self header

/-- The redirect is as it is meant to be exactly if its status is one for errors. -/
theorem createRedirect_redirects_iff (status : HttpStatus) (location : CString)
    (hfits : (redirectBody (statusStr status)
      (TextCodecs.htmlescape location.1 false)).length ≤ SIZE_MAX) :
    (∃ r, createRedirect status location.1 = some r ∧ Redirects status location.1 r) ↔
      400 ≤ status.code := by
  have hsize := (format_redirect (statusStr status)
    (TextCodecs.htmlescape location.1 false)).2
  rw [createRedirect_eq status location.2]
  dsimp only
  rw [← hsize]
  constructor
  · rintro ⟨r, hr, hmeant⟩
    rcases code_cases status with hlow | hredirect | herror
    · rw [if_pos (by omega)] at hr
      obtain ⟨header, hheader, heq⟩ := Option.bind_eq_some_iff.mp hr
      obtain rfl := Option.some.inj heq
      have hthere := hmeant.located.mp (located_set hheader)
      omega
    · rw [if_neg (by omega)] at hr
      obtain rfl := Option.some.inj hr
      obtain ⟨header, hmem, -⟩ := hmeant.located.mpr ⟨hredirect.1.le, hredirect.2⟩
      rw [pageHeaders_location] at hmem
      cases hmem
    · exact herror
  · intro herror
    refine ⟨_, if_neg (by omega), ?_⟩
    refine ⟨rfl, escaped_htmlescape _, unescape_htmlescape _, rfl, rfl, ?_, ?_⟩
    · dsimp only
      rw [pageHeaders_contentLength, List.map_singleton]
      exact congrArg (fun value => [value]) (sizeStr_eq hfits)
    · dsimp only
      rw [pageHeaders_location]
      constructor
      · rintro ⟨header, hmem, -⟩
        cases hmem
      · intro hcode
        omega

/-- The refusal of the user page leads to the login form. -/
theorem createRedirect_redirects_forbidden :
    ∃ r, createRedirect .forbidden (str "/login?a&b") = some r ∧
      Redirects .forbidden (str "/login?a&b") r :=
  (createRedirect_redirects_iff .forbidden ⟨str "/login?a&b", by decide⟩ (by decide +kernel)).mpr
    (by decide)

/-- After a failed login there is a page but no field with the location. -/
theorem seeOther_without_location :
    (createRedirect .seeOther (str "/login")).map (fun r => r.headers.any (str "Location")) =
      some [] ∧
    ¬ ∃ r, createRedirect .seeOther (str "/login") = some r ∧
      Redirects .seeOther (str "/login") r := by
  have hnul : (0 : Byte) ∉ str "/login" := by decide
  have hnone : (createRedirect .seeOther (str "/login")).map
      (fun r => r.headers.any (str "Location")) = some [] := by
    rw [createRedirect_eq _ hnul]
    dsimp only
    rw [if_neg (by decide), Option.map_some, pageHeaders_location]
  refine ⟨hnone, ?_⟩
  rintro ⟨r, hr, hmeant⟩
  obtain ⟨header, hmem, -⟩ := hmeant.located.mpr (by decide)
  rw [hr, Option.map_some] at hnone
  rw [Option.some.inj hnone] at hmem
  cases hmem

end Swad.RedirectPages
