import Swad.HeaderBlock

/-!
The strings of a client in the headers of a response. The only one is the target of a
redirect that ends a login: it is kept in the session between requests, and every other
field is fixed, a number, or the id of a session.
-/
namespace Swad.RedirectTargets

open Bytes Util Headerset Http Httprequest Httpresponse Httpserver Middleware SessionStore
  Handlers Pipeline LabelledRuns Ratelimit TextCodecs HeaderBlock Authenticator

variable {W : Type}

/-! ### The length of what a client sends -/

theorem decodeBytes_length (s : List Byte) : (decodeBytes s).length ≤ s.length := by
  induction s using decodeBytes.induct with
  | case1 c d e s hhex ih =>
    rw [decodeBytes, if_pos hhex]
    simp only [List.length_cons]
    omega
  | case2 c d e s hhex ih =>
    rw [decodeBytes, if_neg hhex]
    simpa only [List.length_cons, Nat.add_le_add_iff_right] using ih
  | case3 c s hshort ih =>
    rw [decodeBytes]
    · simpa only [List.length_cons, Nat.add_le_add_iff_right] using ih
    · exact hshort
  | case4 => exact Nat.le_refl _

theorem urldecode_length (s : List Byte) : (urldecode s).length ≤ s.length :=
  (List.takeWhile_sublist _).length_le.trans (decodeBytes_length s)

theorem length_le_of_mem_splitOn {s part : List Byte} {c : Byte} (h : part ∈ s.splitOn c) :
    part.length ≤ s.length := by
  induction s generalizing part with
  | nil =>
    rw [List.splitOn_nil, List.mem_singleton] at h
    rw [h]
  | cons x s ih =>
    rw [List.splitOn_cons_eq_if_modifyHead] at h
    split at h
    · rcases List.mem_cons.mp h with rfl | hmem
      · exact Nat.zero_le _
      · have hle := ih hmem
        rw [List.length_cons]
        omega
    · cases hparts : s.splitOn c with
      | nil => exact absurd hparts (List.splitOn_ne_nil c s)
      | cons first rest =>
        rw [hparts, List.modifyHead_cons] at h
        rcases List.mem_cons.mp h with rfl | hmem
        · have hle : first.length ≤ s.length := ih (by rw [hparts]; exact List.mem_cons_self ..)
          simp only [List.length_cons]
          omega
        · have hle : part.length ≤ s.length :=
            ih (by rw [hparts]; exact List.mem_cons_of_mem _ hmem)
          rw [List.length_cons]
          omega

theorem splitParam_length {part : List Byte} {value : Str}
    (h : (splitParam part).2 = some value) : value.length ≤ part.length := by
  unfold splitParam at h
  split at h
  · obtain rfl := Option.some.inj h
    refine (urldecode_length _).trans ?_
    rw [List.length_drop]
    have hdrop := (List.dropWhile_sublist (· != chr '=') (l := part)).length_le
    omega
  · cases h

theorem param_length {path name value : Str}
    (h : ((PathParser.create path).param name).bind QueryParam.value = some value) :
    value.length ≤ path.length := by
  obtain ⟨param, hparam, hvalue⟩ := Option.bind_eq_some_iff.mp h
  have hmem := List.mem_of_find?_eq_some hparam
  simp only [PathParser.create] at hmem
  have hdrop := (List.dropWhile_sublist (· != chr '?') (l := path)).length_le
  split at hmem
  · cases hmem
  · next c query hquery =>
    obtain ⟨part, hpart, rfl⟩ := List.mem_map.mp hmem
    have hlength := length_le_of_mem_splitOn (List.mem_of_mem_take hpart)
    have hsplit := splitParam_length hvalue
    rw [hquery, List.length_cons] at hdrop
    omega

/-- A request that the parser has received from a connection. -/
def FromConnection (request : HttpRequest) : Prop :=
  ∃ bufs, feed HttpRequest.create bufs = some (.received request)

/-- The values of the fields fit the buffer that they were read into. -/
def FieldsFit (request : HttpRequest) : Prop := ∀ h ∈ request.headers.all, h.value.length < 8192

theorem fieldsFit_storeHeader {request : HttpRequest} (h : FieldsFit request) :
    FieldsFit (storeHeader request) := by
  unfold storeHeader
  split
  · exact h
  · split
    · next header hheader =>
      intro x hx
      rcases mem_all_add.mp hx with hold | rfl
      · exact h x hold
      · rw [(Header.create_eq_some.mp hheader).2.2]
        exact request.hdrval.fits
    · exact h

theorem bodyChunk_headers {request next : HttpRequest} {buf : List Byte}
    (h : Leaves (bodyChunk request buf) next) : next.headers = request.headers := by
  unfold bodyChunk Leaves at h
  dsimp only at h
  split at h
  · obtain rfl : _ = next := by simpa using h
    rfl
  · obtain rfl : finish _ = next := by simpa using h
    rfl

theorem fieldsFit_dataReceived {request next : HttpRequest} (h : FieldsFit request)
    {buf : List Byte} (hnext : Leaves (dataReceived request buf) next) : FieldsFit next := by
  have hof : ∀ {request : HttpRequest}, FieldsFit request → next.headers = request.headers →
      FieldsFit next := fun h heq => by rw [FieldsFit, heq]; exact h
  unfold dataReceived at hnext
  split at hnext
  · obtain ⟨_, _, _, rfl⟩ := requestLine_eq_some (leaves_orError hnext)
    exact h
  · unfold headerLine at hnext
    split at hnext
    · obtain ⟨_, _, _, _, _, rfl⟩ := continueHeader_eq_some (leaves_orError hnext)
      exact h
    · have hstored := fieldsFit_storeHeader h
      dsimp only at hnext
      split at hnext
      · exact hof hstored (blankLine_headers hnext)
      · obtain ⟨_, _, _, _, _, rfl⟩ := newHeader_eq_some (leaves_orError hnext)
        exact hstored
  · exact hof h (bodyChunk_headers hnext)

theorem fieldsFit_of_feed {bufs : List (List Byte)} {request received : HttpRequest}
    (h : FieldsFit request) (hfeed : feed request bufs = some (.received received)) :
    FieldsFit received := by
  induction bufs generalizing request with
  | nil => cases hfeed
  | cons buf bufs ih =>
    unfold feed at hfeed
    split at hfeed
    · next next hnext => exact ih (fieldsFit_dataReceived h (.inl hnext)) hfeed
    · split at hfeed
      · exact fieldsFit_dataReceived h (.inr (Option.some.inj hfeed))
      · cases hfeed

theorem mem_of_single {self : HeaderSet} {name : Str} {header : Header}
    (h : self.single name = some header) : header ∈ self.all := by
  unfold HeaderSet.single at h
  split at h
  · next found hfilter =>
    obtain rfl := Option.some.inj h
    have hmem : found ∈ [found] := List.mem_singleton_self _
    rw [← hfilter] at hmem
    exact mem_all.mpr ⟨_, List.mem_of_mem_filter hmem⟩
  · cases h

theorem fieldsFit_of_fromConnection {request : HttpRequest} (h : FromConnection request) :
    FieldsFit request := by
  obtain ⟨bufs, hfeed⟩ := h
  refine fieldsFit_of_feed (fun header hmem => ?_) hfeed
  obtain ⟨b, hb⟩ := mem_all.mp hmem
  cases hb

/-- Whatever a client asks to be redirected to came in one field or in the path. -/
theorem loginHandlerRdr_length {input : Input} (h : FromConnection input.request) :
    (loginHandlerRdr input).length < 8192 := by
  have hgiven : ∀ value, given input (str "X-SWAD-Rdr") (str "rdr") = some value →
      value.length < 8192 := by
    intro value hvalue
    unfold given at hvalue
    split at hvalue
    · next header hheader =>
      obtain rfl := Option.some.inj hvalue
      exact fieldsFit_of_fromConnection h header (mem_of_single hheader)
    · exact Nat.lt_of_le_of_lt (param_length hvalue) input.request.path.fits
  unfold loginHandlerRdr orDefault
  split
  · decide
  · cases hvalue : given input (str "X-SWAD-Rdr") (str "rdr") with
    | none => decide
    | some value => exact hgiven value hvalue

/-! ### The fields of the responses -/

/-- A header set of at most `n` bytes in which the only text of a client is the location,
if there is one. -/
structure Built (location : Option Str) (n : ℕ) (headers : HeaderSet) : Prop where
  counted : Counted headers
  total_le : total headers ≤ n
  field : ∀ h ∈ headers.all, ¬ crlf <:+: Header.line h ∨
    (h.name = str "Location" ∧ location = some h.value)
  located : ∀ target, location = some target →
    ∃ h ∈ headers.all, h.name = str "Location" ∧ h.value = target

/-- A field that is not the location and does not contain the end of a line. -/
structure Harmless (header : Header) (n : ℕ) : Prop where
  key : lowerstr (str "Location") ≠ lowerstr header.name
  noCrlf : ¬ crlf <:+: Header.line header
  length_le : header.writeTo.length ≤ n

section built

variable {location : Option Str} {n m : ℕ} {headers : HeaderSet} {header : Header}

theorem built_create : Built none 0 HeaderSet.create where
  counted := by simp [Counted, total, size, HeaderSet.create]
  total_le := by simp [total, size, HeaderSet.create]
  field h hmem := by
    obtain ⟨b, hb⟩ := mem_all.mp hmem
    cases hb
  located target heq := by cases heq

theorem built_mono {n' : ℕ} (h : Built location n headers) (hle : n ≤ n') :
    Built location n' headers := ⟨h.counted, h.total_le.trans hle, h.field, h.located⟩

theorem built_add (h : Built location n headers) (hheader : Harmless header m) :
    Built location (n + m) (headers.add header) where
  counted := counted_add h.counted header
  total_le := by
    rw [total_add]
    exact Nat.add_le_add h.total_le hheader.length_le
  field x hmem := by
    rcases mem_all_add.mp hmem with hold | rfl
    · exact h.field x hold
    · exact .inl hheader.noCrlf
  located target heq := by
    obtain ⟨x, hx, hname⟩ := h.located target heq
    exact ⟨x, mem_all_add.mpr (.inl hx), hname⟩

theorem built_set (h : Built location n headers) (hheader : Harmless header m) :
    Built location (n + m) (headers.set header) where
  counted := counted_set h.counted header
  total_le := (total_set_le headers header).trans (Nat.add_le_add h.total_le hheader.length_le)
  field x hmem := by
    rcases mem_all_add.mp hmem with hold | rfl
    · exact h.field x (mem_of_mem_removeAll hold)
    · exact .inl hheader.noCrlf
  located target heq := by
    obtain ⟨x, hx, hname, hvalue⟩ := h.located target heq
    have hkey : x.key ≠ lowerstr header.name := by
      rw [Header.key, hname]
      exact hheader.key
    exact ⟨x, mem_all_add.mpr (.inl (mem_removeAll_of_ne hx hkey)), hname, hvalue⟩

/-- What does not begin in the first part is in the second one. -/
theorem infix_of_infix_append {A : Type*} {c : A} {s x y : List A} (hc : c ∉ x)
    (h : c :: s <:+: x ++ y) : c :: s <:+: y := by
  induction x with
  | nil => exact h
  | cons a x ih =>
    rw [List.mem_cons, not_or] at hc
    rcases List.infix_cons_iff.mp h with hlead | hinfix
    · exact absurd (List.cons_prefix_cons.mp hlead).1 hc.1
    · exact ih hc.2 hinfix

/-- The value of a field decides whether the field contains the end of a line. -/
theorem noCrlf_line (hname : chr '\r' ∉ header.name) :
    ¬ crlf <:+: Header.line header ↔ ¬ crlf <:+: header.value := by
  have hpre : chr '\r' ∉ header.name ++ str ": " := by
    rw [List.mem_append, not_or]
    exact ⟨hname, by decide⟩
  rw [not_iff_not]
  exact ⟨infix_of_infix_append hpre, fun h => h.trans (List.suffix_append ..).isInfix⟩

theorem harmless_of (hkey : lowerstr (str "Location") ≠ lowerstr header.name)
    (hname : chr '\r' ∉ header.name) (hvalue : chr '\r' ∉ header.value)
    (hlength : header.name.length + header.value.length + 4 ≤ n) : Harmless header n where
  key := hkey
  noCrlf := (noCrlf_line hname).mpr fun h => hvalue (h.subset (by simp [crlf]))
  length_le := by rwa [Header.writeTo_length]

/-- The block of a built response reads back unless its location contains the end of a
line. -/
theorem readsBack_of_built {response : HttpResponse} (h : Built location n response.headers)
    (hn : n ≤ 65000) :
    ReadsBack response ↔ ∀ target, location = some target → ¬ crlf <:+: target := by
  have hplain : ∀ x : Header, x.name = str "Location" →
      (¬ crlf <:+: Header.line x ↔ ¬ crlf <:+: x.value) := by
    intro x hname
    refine noCrlf_line ?_
    rw [hname]
    decide
  rw [readsBack_iff ⟨h.counted, h.total_le.trans hn⟩]
  constructor
  · intro hall target htarget
    obtain ⟨x, hx, hname, rfl⟩ := h.located target htarget
    exact (hplain x hname).mp (hall x hx)
  · intro htarget x hx
    rcases h.field x hx with hclean | ⟨hname, hlocation⟩
    · exact hclean
    · exact (hplain x hname).mpr (htarget _ hlocation)

end built

theorem harmless_contentType (bodyType : MediaType) : Harmless (contentType bodyType) 60 := by
  cases bodyType <;> exact harmless_of (by decide) (by decide) (by decide) (by decide)

theorem harmless_contentLength (size : ℕ) : Harmless (contentLength size) 90 := by
  have hlength := sizeStr_length size
  refine harmless_of ?_ ?_ ?_ ?_
  · show lowerstr (str "Location") ≠ lowerstr (str "Content-Length")
    decide
  · show chr '\r' ∉ str "Content-Length"
    decide
  · intro hmem
    have hdigit := isdigit_of_mem_decimal size (List.mem_of_mem_take hmem)
    simp [isdigit, chr] at hdigit
  · show (str "Content-Length").length + (sizeStr size).length + 4 ≤ 90
    have hname : (str "Content-Length").length = 14 := rfl
    omega

theorem enc1_ne (v : Byte) : enc1 v ≠ chr '\r' := by
  have hall : ∀ n : Fin 256, enc1 (UInt8.ofNat n) ≠ chr '\r' := by decide +kernel
  have hv := hall ⟨v.toNat, v.toNat_lt⟩
  rwa [UInt8.ofNat_toNat] at hv

theorem notMem_base64enc (data : List Byte) : chr '\r' ∉ base64enc data := by
  induction data using base64enc.induct with
  | case1 a b c data ih =>
    simp only [base64enc, List.mem_cons, not_or]
    exact ⟨(enc1_ne _).symm, (enc1_ne _).symm, (enc1_ne _).symm, (enc1_ne _).symm, ih⟩
  | case2 a b =>
    simp only [base64enc, List.mem_cons, List.not_mem_nil, or_false, not_or]
    exact ⟨(enc1_ne _).symm, (enc1_ne _).symm, (enc1_ne _).symm⟩
  | case3 a =>
    simp only [base64enc, List.mem_cons, List.not_mem_nil, or_false, not_or]
    exact ⟨(enc1_ne _).symm, (enc1_ne _).symm⟩
  | case4 => simp [base64enc]

theorem harmless_setCookie (draw : List Byte) :
    Harmless (setCookieHeader COOKIENAME (rndStr draw)) 1100 := by
  refine harmless_of ?_ ?_ ?_ ?_
  · show lowerstr (str "Location") ≠ lowerstr (str "Set-Cookie")
    decide
  · show chr '\r' ∉ str "Set-Cookie"
    decide
  · intro hmem
    have hvalue := List.mem_of_mem_take hmem
    simp only [List.mem_append] at hvalue
    rcases hvalue with ((hname | heq) | hdraw) | hrest
    · exact absurd hname (by decide)
    · exact absurd heq (by decide)
    · exact notMem_base64enc draw hdraw
    · exact absurd hrest (by decide)
  · show (str "Set-Cookie").length + (cookieValue COOKIENAME (rndStr draw)).length + 4 ≤ 1100
    have hname : (str "Set-Cookie").length = 10 := rfl
    rw [cookieValue, List.length_take]
    omega

/-! ### The responses -/

section responses

variable {location : Option Str} {n : ℕ} {response : HttpResponse}

theorem built_passBody (h : Built location n response.headers) (body : Str) :
    Built location (n + 90) (response.passBody body).headers :=
  built_set h (harmless_contentLength _)

theorem built_page (status : HttpStatus) (bodyType : MediaType) (body : Str) :
    Built none 150 ((HttpResponse.create status bodyType).passBody body).headers :=
  built_passBody (built_add built_create (harmless_contentType bodyType)) body

theorem built_setLocation {headers : HeaderSet} {header : Header} (h : Built none n headers)
    (hname : header.name = str "Location") :
    Built (some header.value) (n + header.writeTo.length) (headers.set header) where
  counted := counted_set h.counted header
  total_le := (total_set_le headers header).trans (Nat.add_le_add_right h.total_le _)
  field x hmem := by
    rcases mem_all_add.mp hmem with hold | rfl
    · rcases h.field x (mem_of_mem_removeAll hold) with hclean | ⟨_, hnone⟩
      · exact .inl hclean
      · cases hnone
    · exact .inr ⟨hname, rfl⟩
  located target heq := by
    obtain rfl := Option.some.inj heq
    exact ⟨header, mem_all_add.mpr (.inr rfl), hname, rfl⟩

/-- Only a redirect with a status of at most 300 carries its target in a field. -/
theorem built_redirect {target : Str}
    (h : HttpResponse.createRedirect .ok target = some response) (ht : target.length < 8192) :
    Built (some target) 8400 response.headers := by
  unfold HttpResponse.createRedirect at h
  rw [if_pos (by decide)] at h
  obtain ⟨header, hheader, heq⟩ := Option.bind_eq_some_iff.mp h
  obtain rfl := Option.some.inj heq
  obtain ⟨_, hname, hvalue⟩ := Header.create_eq_some.mp hheader
  have hpage := built_page .ok .html (redirectBody (statusStr .ok) (htmlescape target false))
  have hbuilt := built_setLocation hpage hname
  rw [Header.writeTo_length, hname, hvalue] at hbuilt
  refine built_mono hbuilt ?_
  have hlength : (str "Location").length = 8 := rfl
  omega

theorem redirect_located {target : Str}
    (h : HttpResponse.createRedirect .ok target = some response) :
    ∃ header ∈ response.headers.all, header.name = str "Location" ∧ header.value = target := by
  unfold HttpResponse.createRedirect at h
  rw [if_pos (by decide)] at h
  obtain ⟨header, hheader, heq⟩ := Option.bind_eq_some_iff.mp h
  obtain rfl := Option.some.inj heq
  obtain ⟨_, hname, hvalue⟩ := Header.create_eq_some.mp hheader
  exact ⟨header, mem_all_add.mpr (.inr rfl), hname, hvalue⟩

theorem built_redirect_other {status : HttpStatus} {target : Str} (hstatus : 300 < status.code)
    (h : HttpResponse.createRedirect status target = some response) :
    Built none 150 response.headers := by
  unfold HttpResponse.createRedirect at h
  rw [if_neg (by omega)] at h
  obtain rfl := Option.some.inj h
  exact built_page status .html _

theorem built_refusal {input : Input} (h : Refusal input response) :
    Built none 300 response.headers := by
  cases h with
  | error hstatus => exact built_mono (built_page _ _ _) (by decide)
  | notFound => exact built_mono (built_page _ _ _) (by decide)
  | methodNotAllowed hresponse =>
    rename_i target
    simp only [HttpResponse.setAllowHeader, Option.bind_eq_bind, Option.bind_eq_some_iff]
      at hresponse
    obtain ⟨names, hnames, header, hheader, heq⟩ := hresponse
    obtain rfl := Option.some.inj heq
    obtain ⟨_, hname, hvalue⟩ := Header.create_eq_some.mp hheader
    have hshort : chr '\r' ∉ names ∧ names.length ≤ 100 := by
      cases target
      · obtain rfl : str "GET, POST" = names := Option.some.inj hnames
        decide
      · obtain rfl : str "GET" = names := Option.some.inj hnames
        decide
    refine built_mono (built_set (m := 110) (built_page .methodNotAllowed .html _) ?_) (by decide)
    refine harmless_of ?_ ?_ ?_ ?_
    · rw [hname]
      decide
    · rw [hname]
      decide
    · rw [hvalue]
      exact hshort.1
    · have hlength : (str "Allow").length = 5 := rfl
      have hle := hshort.2
      rw [hname, hvalue]
      omega

theorem built_compress (zlib : Zlib) (headers : HeaderSet)
    (h : Built location n response.headers) :
    Built location (n + 200) (compress zlib headers response).headers := by
  have hwith : ∀ compressed coding, Harmless coding 100 →
      Built location (n + 200) (compressWith response compressed coding).headers := by
    intro compressed coding hcoding
    unfold compressWith
    split
    · exact built_mono (built_set (built_passBody h compressed) hcoding) (by omega)
    · exact built_mono h (by omega)
  unfold compress
  split
  · exact built_mono h (by omega)
  · split
    · exact built_mono h (by omega)
    · split
      · exact hwith _ _ (harmless_of (by decide) (by decide) (by decide) (by decide))
      · split
        · exact hwith _ _ (harmless_of (by decide) (by decide) (by decide) (by decide))
        · exact built_mono h (by omega)

theorem built_addTo {input : Input} {cookies : Cookies} {headers : HeaderSet}
    (hsent : Sent input cookies) (h : Built location n headers) :
    Built location (n + 1100) (cookies.addTo headers) := by
  rcases hsent with rfl | ⟨draw, rfl⟩
  · exact built_mono h (by omega)
  · have hout : ((Cookies.create input.headers).setCookie COOKIENAME (rndStr draw)).out.entries =
        [⟨COOKIENAME, rndStr draw⟩] := rfl
    rw [Cookies.addTo, hout, List.foldl_cons, List.foldl_nil]
    split
    · exact built_add h (harmless_setCookie draw)
    · exact built_mono h (by omega)

theorem built_jobDone (context : HttpContext)
    (h : Built location n (jobResponse context false).headers) :
    Built location (n + 200) (pipelineJobDone context false).1.headers := by
  have hconnection : ∀ value (hvalue : value.length ≤ 10000), value.length ≤ 20 →
      chr '\r' ∉ value → Harmless (connectionHeader value hvalue) 100 := by
    intro value hvalue hshort hclean
    refine harmless_of ?_ ?_ hclean ?_
    · show lowerstr (str "Location") ≠ lowerstr (str "Connection")
      decide
    · show chr '\r' ∉ str "Connection"
      decide
    · show (str "Connection").length + value.length + 4 ≤ 100
      have hname : (str "Connection").length = 10 := rfl
      omega
  unfold pipelineJobDone
  dsimp only
  split
  · have hkeep : Harmless keepAliveHeader 100 :=
      harmless_of (by decide) (by decide) (by decide) (by decide)
    have halive := built_set h (hconnection (str "keep-alive") (by decide) (by decide) (by decide))
    exact built_mono (built_set halive hkeep) (by omega)
  · have hclose := built_set h (hconnection (str "close") (by decide) (by decide) (by decide))
    exact built_mono hclose (by omega)

theorem built_answer (config : Config W) {input : Input} {cookies : Cookies}
    (hsent : Sent input cookies) (h : Built location n response.headers) :
    Built location (n + 1500)
      (pipelineJobDone (answer config input cookies response) false).1.headers := by
  refine built_mono (built_jobDone (n := n + 1300) _ ?_) (by omega)
  exact built_mono (built_compress _ _ (built_addTo hsent h)) (by omega)

end responses

/-! ### The targets that a session keeps -/

def Targets (C : Str → Prop) (session : Session) : Prop :=
  (∀ target, session.loginRdr = some target → C target) ∧
    ∀ target, session.authRdr = some target → C target

section handlers

variable {config : Config W} {input : Input} {session : Session} {w : W} {work : Work W}
  {C : Str → Prop}

theorem getD_of (hroot : C (str "/")) {value : Option Str}
    (h : ∀ target, value = some target → C target) : C (value.getD (str "/")) := by
  cases value with
  | none => exact hroot
  | some target => exact h target rfl

theorem updateSession_targets (hinput : C (loginHandlerRdr input)) (h : Targets C session)
    {updated : Session} {realm : Str} (hupdated : updateSession input session = (updated, realm)) :
    Targets C updated := by
  rw [← (Prod.mk.inj hupdated).1]
  refine ⟨fun target htarget => ?_, fun target htarget => by cases htarget⟩
  obtain rfl := Option.some.inj htarget
  cases hauth : session.authRdr with
  | none => exact hinput
  | some rdr => exact h.2 rdr hauth

theorem handled_targets (hroot : C (str "/")) (hinput : C (loginHandlerRdr input))
    (h : Targets C session) (hhandled : Handled config input session w work) :
    Targets C work.session := by
  cases hhandled with
  | loginFailed hpost hform hresult hverdict hresponse =>
    refine ⟨h.1, fun target htarget => ?_⟩
    obtain rfl := Option.some.inj htarget
    exact getD_of hroot h.1
  | silent hmethod hupdated huser hsilent hresponse =>
    have htargets := updateSession_targets hinput h hupdated
    exact htargets
  | shown hmethod hupdated =>
    have htargets := updateSession_targets hinput h hupdated
    exact htargets
  | denied hpath huser hresponse =>
    refine ⟨h.1, fun target htarget => ?_⟩
    obtain rfl := Option.some.inj htarget
    exact hinput
  | _ => exact h

theorem served_targets (hroot : C (str "/")) (hinput : C (loginHandlerRdr input))
    (h : Targets C session) (hserved : Served config input session w work) :
    Targets C work.session := by
  cases hserved with
  | plain hform hhandled => exact handled_targets hroot hinput h hhandled
  | accepted hform htoken hsingle hhandled =>
    have htargets : Targets C { session with csrfProtect := none } := h
    have htargets' := handled_targets hroot hinput htargets hhandled
    exact htargets'
  | rejected hform => exact h

/-- A handler that puts a text of a client in a field redirects with status 200. -/
theorem handled_built (hroot : C (str "/")) (hC : ∀ target, C target → target.length < 8192)
    (hinput : C (loginHandlerRdr input)) (h : Targets C session)
    (hhandled : Handled config input session w work) :
    ∃ location, Built location 8400 work.response.headers ∧ ∀ target, location = some target →
      C target ∧ HttpResponse.createRedirect .ok target = some work.response := by
  have hok : ∀ {value : Option Str} {response : HttpResponse},
      (∀ target, value = some target → C target) →
      HttpResponse.createRedirect .ok (value.getD (str "/")) = some response →
      ∃ location, Built location 8400 response.headers ∧ ∀ target, location = some target →
        C target ∧ HttpResponse.createRedirect .ok target = some response := by
    intro value response hvalue hresponse
    have hctarget := getD_of hroot hvalue
    refine ⟨_, built_redirect hresponse (hC _ hctarget), fun target htarget => ?_⟩
    obtain rfl := Option.some.inj htarget
    exact ⟨hctarget, hresponse⟩
  have hnone : ∀ {response : HttpResponse}, Built none 150 response.headers →
      ∃ location, Built location 8400 response.headers ∧ ∀ target, location = some target →
        C target ∧ HttpResponse.createRedirect .ok target = some response :=
    fun hbuilt => ⟨none, built_mono hbuilt (by decide), fun _ heq => by cases heq⟩
  cases hhandled with
  | notFound => exact hnone (built_page _ _ _)
  | stayed hrdr hresponse => exact hnone (built_redirect_other (by decide) hresponse)
  | loggedIn hpost hform hresult hverdict hresponse => exact hok h.1 hresponse
  | loginFailed hpost hform hresult hverdict hresponse =>
    exact hnone (built_redirect_other (by decide) hresponse)
  | loggedOut hpost hform hresponse => exact hok h.1 hresponse
  | silent hmethod hupdated huser hsilent hresponse =>
    exact hok (updateSession_targets hinput h hupdated).1 hresponse
  | shown hmethod hupdated => exact hnone (built_page _ _ _)
  | answered hpath huser => exact hnone (built_page _ _ _)
  | denied hpath huser hresponse => exact hnone (built_redirect_other (by decide) hresponse)

theorem served_built (hroot : C (str "/")) (hC : ∀ target, C target → target.length < 8192)
    (hinput : C (loginHandlerRdr input)) (h : Targets C session)
    (hserved : Served config input session w work) :
    ∃ location, Built location 8400 work.response.headers ∧ ∀ target, location = some target →
      C target ∧ HttpResponse.createRedirect .ok target = some work.response := by
  cases hserved with
  | plain hform hhandled => exact handled_built hroot hC hinput h hhandled
  | accepted hform htoken hsingle hhandled =>
    have htargets : Targets C { session with csrfProtect := none } := h
    have hbuilt := handled_built hroot hC hinput htargets hhandled
    exact hbuilt
  | rejected hform =>
    exact ⟨none, built_mono (built_page .forbidden .html _) (by decide), fun _ heq => by cases heq⟩

end handlers

theorem targets_kept (config : Config W) {C : Str → Prop} (hroot : C (str "/")) :
    Kept config (fun input => C (loginHandlerRdr input)) (fun _ => Targets C) where
  fresh _ _ _ := by
    refine ⟨fun target heq => ?_, fun target heq => ?_⟩
    · cases heq
    · cases heq
  atime _ _ _ h := h
  referrer _ _ _ h := h
  served _ _ _ _ _ hinput h hserved := served_targets hroot hinput h hserved

section runs

variable {config : Config W} {opts : Option RateLimitOpts} {start : ℤ} {w : W} {trace : Trace}
  {server server' : Server W} {input : Input} {outcome : Outcome} {C : Str → Prop}

/-- Every response of a run has at most one text of a client in its fields, the target of
a redirect with status 200, which has every property that all targets of the requests
have. -/
theorem outcome_built (hroot : C (str "/")) (hC : ∀ target, C target → target.length < 8192)
    (hrun : Runs config opts start w trace server)
    (hstep : requestReceived config server input = some (server', outcome))
    (htrace : ∀ l ∈ trace, C (loginHandlerRdr l.1)) (hinput : C (loginHandlerRdr input)) :
    ∃ location, Built location 10000 outcome.response.headers ∧
      ∀ target, location = some target → C target ∧
        ∃ session cookies work, Worked config server server' input outcome session cookies work ∧
          HttpResponse.createRedirect .ok target = some work.response := by
  rcases requestReceived_cases (numbered_run hrun).1 hstep with hpassed |
    ⟨session, cookies, work, hworked⟩
  · refine ⟨none, ?_, fun _ heq => by cases heq⟩
    rcases hpassed.response with ⟨refusal, hrefusal, hresponse⟩ | hresponse
    · rw [hresponse]
      have hrefused := built_refusal hrefusal
      have hbuilt : Built none 300 (jobResponse
        ((HttpContext.create input.request).setResponse refusal) false).headers := hrefused
      exact built_mono (built_jobDone _ hbuilt) (by decide)
    · rw [hresponse]
      exact built_mono (built_answer config (.inl rfl) (built_page _ _ _)) (by decide)
  · have htargets : Targets C session := kept_opened (targets_kept config hroot) hrun
      (kept_run (targets_kept config hroot) hrun htrace) hworked.opened
    obtain ⟨location, hbuilt, hlocation⟩ :=
      served_built hroot hC hinput htargets hworked.served
    refine ⟨location, ?_, fun target htarget => ?_⟩
    · rw [hworked.response]
      exact built_mono (built_answer config hworked.sent hbuilt) (by decide)
    · obtain ⟨hctarget, hredirect⟩ := hlocation target htarget
      exact ⟨hctarget, session, cookies, work, hworked, hredirect⟩

/-- The header block of every response fits 16 bits, so that all of it is sent. -/
theorem outcome_fits (hrun : Runs config opts start w trace server)
    (hstep : requestReceived config server input = some (server', outcome))
    (htrace : ∀ l ∈ trace, FromConnection l.1.request) (hinput : FromConnection input.request) :
    Counted outcome.response.headers ∧ (headerBlock outcome.response).length ≤ 65535 := by
  have hshort : ∀ l ∈ trace, (loginHandlerRdr l.1).length < 8192 :=
    fun l hl => loginHandlerRdr_length (htrace l hl)
  obtain ⟨location, hbuilt, -⟩ :=
    outcome_built (C := fun t => t.length < 8192) (by decide) (fun _ h => h) hrun hstep hshort
      (loginHandlerRdr_length hinput)
  have htotal : total outcome.response.headers ≤ 65000 := hbuilt.total_le.trans (by decide)
  exact ⟨hbuilt.counted, length_headerBlock_le ⟨hbuilt.counted, htotal⟩⟩

/-- The header block of a response reads back as its header set in every run in which no
client asks to be redirected to a target with the end of a line in it; in any run a
response fails to do so only when it redirects with status 200 to such a target. -/
theorem readsBack_iff_redirect (hrun : Runs config opts start w trace server)
    (hstep : requestReceived config server input = some (server', outcome))
    (htrace : ∀ l ∈ trace, FromConnection l.1.request) (hinput : FromConnection input.request) :
    ((∀ l ∈ trace, ¬ crlf <:+: loginHandlerRdr l.1) → ¬ crlf <:+: loginHandlerRdr input →
      ReadsBack outcome.response) ∧
    (ReadsBack outcome.response ↔ ∀ session cookies work target,
      Worked config server server' input outcome session cookies work →
        HttpResponse.createRedirect .ok target = some work.response → ¬ crlf <:+: target) := by
  have hshort : ∀ l ∈ trace, (loginHandlerRdr l.1).length < 8192 :=
    fun l hl => loginHandlerRdr_length (htrace l hl)
  have hlength := loginHandlerRdr_length hinput
  refine ⟨fun hclean hcleanInput => ?_, fun hreads session cookies work target hworked hredirect =>
    ?_, fun hall => ?_⟩
  · obtain ⟨location, hbuilt, hlocation⟩ :=
      outcome_built (C := fun t => t.length < 8192 ∧ ¬ crlf <:+: t) (by decide) (fun _ h => h.1)
        hrun hstep (fun l hl => ⟨hshort l hl, hclean l hl⟩) ⟨hlength, hcleanInput⟩
    refine (readsBack_of_built hbuilt (by decide)).mpr fun target htarget => ?_
    exact (hlocation target htarget).1.2
  · have hkept := targets_kept config (C := fun t => t.length < 8192) (by decide)
    have htargets : Targets (fun t => t.length < 8192) session :=
      kept_opened hkept hrun (kept_run hkept hrun hshort) hworked.opened
    obtain ⟨location, hbuilt, hlocation⟩ :=
      served_built (by decide) (fun _ h => h) hlength htargets hworked.served
    obtain ⟨header, hmem, hname, rfl⟩ := redirect_located hredirect
    rcases hbuilt.field header hmem with hclean | ⟨_, heq⟩
    · refine (noCrlf_line ?_).mp hclean
      rw [hname]
      decide
    · have hfinal := built_answer config hworked.sent hbuilt
      rw [← hworked.response] at hfinal
      exact (readsBack_of_built hfinal (by decide)).mp hreads _ heq
  · obtain ⟨location, hbuilt, hlocation⟩ :=
      outcome_built (C := fun t => t.length < 8192) (by decide) (fun _ h => h) hrun hstep
        hshort hlength
    refine (readsBack_of_built hbuilt (by decide)).mpr fun target htarget => ?_
    obtain ⟨_, session, cookies, work, hworked, hredirect⟩ := hlocation target htarget
    exact hall session cookies work target hworked hredirect

end runs

/-! ### A target with the end of a line -/

def receivedRequest (bufs : List (List Byte)) : HttpRequest :=
  match feed HttpRequest.create bufs with
  | some (.received request) => request
  | _ => HttpRequest.create

def isReceived : Option Received → Bool
  | some (.received _) => true
  | _ => false

theorem fromConnection_received {bufs : List (List Byte)}
    (h : isReceived (feed HttpRequest.create bufs) = true) :
    FromConnection (receivedRequest bufs) := by
  refine ⟨bufs, ?_⟩
  unfold receivedRequest
  split
  · next request hfeed => exact hfeed
  · next hother =>
    cases hfeed : feed HttpRequest.create bufs with
    | none =>
      rw [hfeed] at h
      cases h
    | some result =>
      rw [hfeed] at h
      cases result with
      | received request => exact absurd hfeed (hother request)
      | _ => cases h

/-- A request that arrives in these deliveries. -/
def clientInput (bufs : List (List Byte)) : Input :=
  { sampleForm with request := receivedRequest bufs }

theorem fromConnection_clientInput {bufs : List (List Byte)}
    (h : isReceived (feed HttpRequest.create bufs) = true) :
    FromConnection (clientInput bufs).request := fromConnection_received h

/-- The form is asked for with a target, and then sent. -/
def asksForm (rdr : Str) : List (List Byte) :=
  [str "GET /login?rdr=" ++ rdr ++ str " HTTP/1.1" ++ crlf, crlf]

def sendsForm : List (List Byte) :=
  let body := PROPNAME ++ str "=" ++ rndStr (List.replicate 32 0) ++ str "&login=1&user=u&pw=p"
  [str "POST /login HTTP/1.1" ++ crlf, str "Cookie: " ++ sampleCookie.value ++ crlf,
    str "Content-Type: application/x-www-form-urlencoded" ++ crlf,
    str "Content-Length: " ++ decimal body.length ++ crlf, crlf, body]

theorem sendsForm_received : isReceived (feed HttpRequest.create sendsForm) = true := by
  decide +kernel

/-- The login is the last of two requests that come from connections. -/
theorem login_of_exec {rdr : Str} {server' : Server Unit} {full : Trace}
    (hfeed : isReceived (feed HttpRequest.create (asksForm rdr)) = true)
    (h : exec (requestReceived sampleConfig) (Server.create none 0 ())
      ([clientInput (asksForm rdr)] ++ [clientInput sendsForm]) = some (server', full)) :
    ∃ trace server outcome, Runs sampleConfig none 0 () trace server ∧
      requestReceived sampleConfig server (clientInput sendsForm) = some (server', outcome) ∧
        trace.map Prod.fst = [clientInput (asksForm rdr)] ∧
          (∀ l ∈ trace, FromConnection l.1.request) ∧
            full = trace ++ [(clientInput sendsForm, outcome)] := by
  obtain ⟨_, hinputs⟩ := run_of_exec _ h
  obtain ⟨trace, server, outcome, hrun, hstep, rfl⟩ := last_of_exec h
  rw [List.map_append] at hinputs
  have htrace : trace.map Prod.fst = [clientInput (asksForm rdr)] :=
    List.append_inj_left' hinputs rfl
  refine ⟨trace, server, outcome, hrun, hstep, htrace, fun l hl => ?_, rfl⟩
  have hmem : l.1 ∈ trace.map Prod.fst := List.mem_map_of_mem hl
  rw [htrace, List.mem_singleton] at hmem
  rw [hmem]
  exact fromConnection_clientInput hfeed

/-- The target that was stored is where the login leads. -/
theorem readsBack_iff_redirect_plain : ∃ trace server server' outcome,
    Runs sampleConfig none 0 () trace server ∧
      requestReceived sampleConfig server (clientInput sendsForm) = some (server', outcome) ∧
        (outcome.response.headers.first (str "Location")).map Header.value = some (str "/wiki") ∧
          ReadsBack outcome.response := by
  have hexec : ((exec (requestReceived sampleConfig) (Server.create none 0 ())
      ([clientInput (asksForm (str "%2Fwiki"))] ++ [clientInput sendsForm])).map fun r =>
        r.2.getLast?.map fun l => (l.2.response.headers.first (str "Location")).map
          Header.value) = some (some (some (str "/wiki"))) := by
    decide +kernel
  obtain ⟨⟨server', full⟩, hsome, hlast⟩ := Option.map_eq_some_iff.mp hexec
  have hfeed : isReceived (feed HttpRequest.create (asksForm (str "%2Fwiki"))) = true := by
    decide +kernel
  obtain ⟨trace, server, outcome, hrun, hstep, hinputs, htrace, rfl⟩ := login_of_exec hfeed hsome
  rw [List.getLast?_concat, Option.map_some, Option.some.injEq] at hlast
  refine ⟨trace, server, server', outcome, hrun, hstep, hlast, ?_⟩
  have hclean : ∀ l ∈ trace, ¬ crlf <:+: loginHandlerRdr l.1 := by
    intro l hl
    have hmem : l.1 ∈ trace.map Prod.fst := List.mem_map_of_mem hl
    rw [hinputs, List.mem_singleton] at hmem
    rw [hmem]
    decide +kernel
  have hcleanInput : ¬ crlf <:+: loginHandlerRdr (clientInput sendsForm) := by decide +kernel
  exact (readsBack_iff_redirect hrun hstep htrace
    (fromConnection_clientInput sendsForm_received)).1 hclean hcleanInput

/-- The client asked to be redirected to a target with the end of a line: the login is answered
with a header block of one line too many. -/
theorem login_splits_block :
    ¬ ∀ (trace : Trace) (server server' : Server Unit) (input : Input) (outcome : Outcome),
      Runs sampleConfig none 0 () trace server →
        requestReceived sampleConfig server input = some (server', outcome) →
          (∀ l ∈ trace, FromConnection l.1.request) → FromConnection input.request →
            ReadsBack outcome.response := by
  intro h
  have hexec : ((exec (requestReceived sampleConfig) (Server.create none 0 ())
      ([clientInput (asksForm (str "%0D%0AX:1"))] ++ [clientInput sendsForm])).map fun r =>
        r.2.getLast?.map fun l =>
          (l.2.response.headerBuf.map fun block =>
            (PairSplitting.splitPair (chr '\r') (chr '\n') block).length,
            l.2.response.prepare.headers.all.length)) = some (some (some 10, 6)) := by
    decide +kernel
  obtain ⟨⟨server', full⟩, hsome, hlast⟩ := Option.map_eq_some_iff.mp hexec
  have hfeed : isReceived (feed HttpRequest.create (asksForm (str "%0D%0AX:1"))) = true := by
    decide +kernel
  obtain ⟨trace, server, outcome, hrun, hstep, -, htrace, rfl⟩ := login_of_exec hfeed hsome
  obtain ⟨block, hblock, hsplit⟩ := h trace server server' _ outcome hrun hstep htrace
    (fromConnection_clientInput sendsForm_received)
  simp only [List.getLast?_append, List.getLast?_singleton, Option.some_or, Option.map_some,
    Option.some.injEq, Prod.mk.injEq, hblock] at hlast
  have hlength := congrArg List.length hsplit
  simp only [List.length_cons, List.length_append, List.length_map, List.length_nil] at hlength
  omega

end Swad.RedirectTargets
