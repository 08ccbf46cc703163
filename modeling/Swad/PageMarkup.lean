import Swad.Base64
import Swad.LoginProvenance
import Swad.TemplateEngine

/-!
What a client can put into a page. Of the characters that make up tags and quoted values,
every page has those of its template, in the same order, and none besides: no text of a
client, of a session or of a checker adds one. The pages are the two forms, the page of a
redirect and the page of an error.
-/
namespace Swad.PageMarkup

open Bytes Headerset Http Httprequest Httpresponse Httpserver Middleware Authenticator SessionStore
  Template Handlers Pipeline LoginProvenance
open LabelledRuns (exec last_of_exec)
open TextCodecs (htmlescape)
open TextOutput (entities escaped_htmlescape)
open TemplateEngine (processLoop_plain processLoop_open processLoop_name)

variable {W : Type}

/-- The characters that begin or end tags and quoted values. -/
def isMarkup (c : Byte) : Bool :=
  c == chr '<' || c == chr '>' || c == chr '"' || c == chr '\''

def markup (s : Str) : Str := s.filter isMarkup

theorem markup_append (s t : Str) : markup (s ++ t) = markup s ++ markup t := List.filter_append ..

theorem markup_cons (c : Byte) (s : Str) : markup (c :: s) = markup [c] ++ markup s :=
  markup_append [c] s

theorem markup_eq_nil {s : Str} : markup s = [] ↔ ∀ c ∈ s, isMarkup c = false := by
  simp only [markup, List.filter_eq_nil_iff, Bool.not_eq_true]

theorem markup_cstr {s : Str} (h : markup s = []) : markup (cstr s) = [] :=
  markup_eq_nil.mpr fun c hc => markup_eq_nil.mp h c (cstr_subset s hc)

/-- An escaped text has no markup. -/
theorem markup_htmlescape (s : Str) : markup (htmlescape s false) = [] := by
  refine markup_eq_nil.mpr fun c hc => Bool.eq_false_iff.mpr fun hmarkup => ?_
  simp only [isMarkup, Bool.or_eq_true, beq_iff_eq] at hmarkup
  have habsent := (escaped_htmlescape s).absent c hc
  rcases hmarkup with ((rfl | rfl) | rfl) | rfl <;> exact absurd (habsent (by decide)) (by decide)

theorem markup_rndStr (bytes : List Byte) : markup (rndStr bytes) = [] := by
  have hnone : markup Base64.alphabet = [] := by decide +kernel
  exact markup_eq_nil.mpr fun c hc => markup_eq_nil.mp hnone c (Base64.mem_alphabet bytes c hc)

/-! ### Templates -/

section templates

variable {vars : Vars}

/-- No variable adds markup. -/
def Plain (vars : Vars) : Prop := ∀ v ∈ vars, markup (processVar v.2) = []

theorem Plain.value (h : Plain vars) (name : Str) :
    markup ((findVar vars name).elim [] processVar) = [] := by
  cases hfind : findVar vars name with
  | none => rfl
  | some var =>
    have hmem : (name, var) ∈ vars.reverse := by
      obtain ⟨l, r, hsplit, _⟩ := List.lookup_eq_some_iff.mp hfind
      rw [hsplit]
      exact List.mem_append_right _ (List.mem_cons_self ..)
    exact h (name, var) (List.mem_reverse.mp hmem)

/-- The loop with variables that have no markup, compared with the loop without variables:
a variable may at most end the text. -/
theorem markup_processLoop (h : Plain vars) (rounds : ℕ) (s : Str) :
    markup (cstr (processLoop vars rounds s)) <+: markup (cstr (processLoop [] rounds s)) := by
  have hchar : ∀ (c : Byte) (t u : Str), markup (cstr t) <+: markup (cstr u) →
      markup (cstr (c :: t)) <+: markup (cstr (c :: u)) := by
    intro c t u htu
    unfold cstr at htu ⊢
    rw [List.takeWhile_cons, List.takeWhile_cons]
    split
    · rw [markup_cons c (t.takeWhile _), markup_cons c (u.takeWhile _)]
      exact (List.prefix_append_right_inj _).mpr htu
    · exact List.prefix_refl _
  induction rounds generalizing s with
  | zero => cases s <;> exact List.prefix_refl _
  | succ rounds ih =>
    cases s with
    | nil => exact List.prefix_refl _
    | cons c rest =>
      cases hopens : opens (c :: rest) with
      | none =>
        rw [processLoop_plain hopens, processLoop_plain hopens]
        exact hchar c _ _ (ih rest)
      | some body =>
        cases hname : varName 63 body with
        | none =>
          rw [processLoop_open hopens hname, processLoop_open hopens hname]
          exact hchar _ _ _ (hchar _ _ _ (ih body))
        | some found =>
          obtain ⟨name, after⟩ := found
          have hvalue := h.value (cstr name)
          have hempty : (findVar [] (cstr name)).elim [] processVar = [] := rfl
          rw [processLoop_name hopens hname, processLoop_name hopens hname, hempty, List.nil_append]
          generalize (findVar vars (cstr name)).elim [] processVar = value at hvalue
          by_cases hnul : (0 : Byte) ∈ value
          · have hcut : cstr (value ++ processLoop vars rounds after) = cstr value := by
              obtain ⟨before, later, rfl, hbefore⟩ := List.eq_append_cons_of_mem hnul
              rw [List.append_assoc, List.cons_append, cstr, cstr, takeWhile_until hbefore,
                takeWhile_until hbefore]
            rw [hcut, markup_cstr hvalue]
            exact List.nil_prefix
          · have hwhole : cstr (value ++ processLoop vars rounds after) =
                value ++ cstr (processLoop vars rounds after) := by
              rw [cstr, cstr, List.takeWhile_append_of_pos (bne_of_notMem hnul)]
            rw [hwhole, markup_append, hvalue, List.nil_append]
            exact ih after

theorem markup_process (h : Plain vars) (tmpl : Str) :
    markup (process tmpl vars) <+: markup (process tmpl []) :=
  markup_processLoop h tmpl.length tmpl

end templates

/-! ### Pages -/

/-- The pages as they are without any text from outside. -/
inductive Fixed (config : Config W) : Str → Prop
  | login : Fixed config (process config.loginHtml [])
  | logout : Fixed config (process config.logoutHtml [])
  | redirect : Fixed config (redirectBody [] [])
  | error (status : HttpStatus) : Fixed config (errorBody (statusStr status) (statusMsg status))
  | tampering : Fixed config Handlers.tampering.body

/-- A page that has no more markup than one of the fixed pages. -/
def Clean (config : Config W) (body : Str) : Prop :=
  ∃ page, Fixed config page ∧ markup body <+: markup page

section pages

variable {config : Config W} {input : Input} {session : Session} {w : W} {work : Work W}

theorem createRedirect_body {status : HttpStatus} {location : Str} {response : HttpResponse}
    (h : HttpResponse.createRedirect status location = some response) :
    response.body = redirectBody (statusStr status) (htmlescape location false) := by
  unfold HttpResponse.createRedirect at h
  split at h
  · obtain ⟨header, _, heq⟩ := Option.bind_eq_some_iff.mp h
    obtain rfl := Option.some.inj heq
    rfl
  · obtain rfl := Option.some.inj h
    rfl

theorem markup_statusStr (status : HttpStatus) : markup (statusStr status) = [] := by
  cases status <;> decide +kernel

theorem redirect_clean {status : HttpStatus} {location : Str} {response : HttpResponse}
    (h : HttpResponse.createRedirect status location = some response) :
    Clean config response.body := by
  refine ⟨_, .redirect, ?_⟩
  rw [createRedirect_body h]
  simp only [redirectBody, markup_append, markup_htmlescape, markup_statusStr, List.append_nil]
  exact List.prefix_refl _

theorem error_clean (status : HttpStatus) :
    Clean config (HttpResponse.createError status none).body :=
  ⟨_, .error status, List.prefix_refl _⟩

/-- The variables that both forms have. -/
theorem page_clean (updated : Session) {vars : Vars} (hvars : Plain vars) {tmpl : Str}
    (hfixed : Fixed config (process tmpl [])) (realm : Str) :
    Clean config (page input updated w tmpl vars realm route).response.body := by
  refine ⟨_, hfixed, markup_process ?_ tmpl⟩
  intro v hv
  rcases List.mem_append.mp hv with hold | hnew
  · exact hvars v hold
  · simp only [List.mem_cons, List.not_mem_nil, or_false] at hnew
    rcases hnew with rfl | rfl | rfl | rfl
    · decide +kernel
    · exact markup_rndStr input.tokenDraw
    · exact markup_htmlescape realm
    · decide +kernel

theorem plain_logoutVars (user : User) : Plain (logoutVars user) := by
  intro v hv
  simp only [logoutVars, List.mem_cons, List.not_mem_nil, or_false] at hv
  rcases hv with rfl | rfl <;> exact markup_htmlescape _

theorem plain_loginVars (session : Session) : Plain (loginVars session) := by
  intro v hv
  rcases List.mem_append.mp hv with herror | huser
  · obtain ⟨le, _, rfl⟩ := List.mem_map.mp herror
    exact markup_htmlescape le
  · obtain ⟨lu, _, rfl⟩ := List.mem_map.mp huser
    exact markup_htmlescape lu

theorem showForm_clean {realm : Str} (h : showForm config input session w realm route = some work) :
    Clean config work.response.body := by
  unfold showForm at h
  split at h
  · next user _ =>
    obtain rfl := Option.some.inj h
    exact page_clean session (plain_logoutVars user) .logout realm
  · dsimp only at h
    split at h
    · obtain ⟨response, hresponse, rfl⟩ := redirect_eq_some h
      exact redirect_clean hresponse
    · obtain rfl := Option.some.inj h
      exact page_clean session (plain_loginVars session) .login realm

/-- A POST to the login route is answered with a redirect. -/
theorem doLogin_clean (hpost : input.request.method = .post) (hpath : input.pathParser.path = route)
    (h : doLogin config input session w = some work) : Clean config work.response.body := by
  have hroot : input.pathParser.path ≠ str "/" := by
    rw [hpath]
    decide +kernel
  cases doLogin_cases hpost h with
  | notFound => exact error_clean .notFound
  | stayed hrdr hresponse => exact redirect_clean hresponse
  | loggedIn _ _ _ _ hresponse _ => exact redirect_clean hresponse
  | loginFailed _ _ _ _ hresponse _ => exact redirect_clean hresponse
  | loggedOut _ _ hresponse => exact redirect_clean hresponse
  | silent hmethod => exact absurd hpost hmethod
  | shown hmethod => exact absurd hpost hmethod
  | answered hslash => exact absurd hslash hroot
  | denied hslash => exact absurd hslash hroot

/-- A handler answers with the name of a user as plain text, or with a page. -/
theorem handler_clean {target : Route} (h : target.handler config input session w = some work) :
    (∃ u, work.response = (HttpResponse.create .ok .text).passBody (rootBody u)) ∨
      Clean config work.response.body := by
  cases target with
  | login =>
    right
    simp only [Route.handler, loginHandler] at h
    split at h
    · next hpath =>
      split at h
      · next hpost => exact doLogin_clean hpost hpath h
      · rw [hpath] at h
        exact showForm_clean h
    · obtain rfl := Option.some.inj h
      exact error_clean .notFound
  | root =>
    simp only [Route.handler, rootHandler] at h
    split at h
    · split at h
      · next user _ =>
        obtain rfl := Option.some.inj h
        exact .inl ⟨user, rfl⟩
      · obtain ⟨response, hresponse, rfl⟩ := redirect_eq_some h
        exact .inr (redirect_clean hresponse)
    · obtain rfl := Option.some.inj h
      exact .inr (error_clean .notFound)

theorem serve_clean {target : Route} (h : serve config input target session w = some work) :
    (∃ u, work.response = (HttpResponse.create .ok .text).passBody (rootBody u)) ∨
      Clean config work.response.body := by
  have htampering : Clean config Handlers.tampering.body := ⟨_, .tampering, List.prefix_refl _⟩
  unfold serve csrfProtect at h
  split at h
  · exact handler_clean h
  · split at h
    · split at h
      · obtain ⟨inner, hinner, rfl⟩ := Option.map_eq_some_iff.mp h
        have hclean := handler_clean hinner
        exact hclean
      · obtain rfl := Option.some.inj h
        exact .inr htampering
    · obtain rfl := Option.some.inj h
      exact .inr htampering

/-- The body as it is, or compressed. -/
def Sends (zlib : Zlib) (body sent : Str) : Prop :=
  sent = body ∨ sent = zlib.gzip body ∨ sent = zlib.deflate body

theorem compress_sends (zlib : Zlib) (headers : HeaderSet) (response : HttpResponse) :
    Sends zlib response.body (compress zlib headers response).body := by
  have hwith : ∀ compressed coding, (compressWith response compressed coding).body = response.body ∨
      (compressWith response compressed coding).body = compressed := by
    intro compressed coding
    unfold compressWith
    split
    · exact .inr rfl
    · exact .inl rfl
  unfold compress
  split
  · exact .inl rfl
  · split
    · exact .inl rfl
    · split
      · exact (hwith _ _).imp_right .inl
      · split
        · exact (hwith _ _).imp_right .inr
        · exact .inl rfl

theorem pipelineJobDone_body (context : HttpContext) (timedOut : Bool) :
    (pipelineJobDone context timedOut).1.body = (jobResponse context timedOut).body := by
  unfold pipelineJobDone
  dsimp only
  split <;> rfl

theorem refuse_sends (config : Config W) (self : Server W) (input : Input)
    (response : HttpResponse) :
    Sends config.zlib response.body (refuse self input response).2.response.body :=
  .inl (pipelineJobDone_body _ false)

theorem setAllowHeader_body {response allowed : HttpResponse} {mask : ℕ}
    (h : response.setAllowHeader mask = some allowed) : allowed.body = response.body := by
  simp only [HttpResponse.setAllowHeader, Option.bind_eq_bind, Option.bind_eq_some_iff] at h
  obtain ⟨_, _, _, _, heq⟩ := h
  rw [← Option.some.inj heq]

theorem answer_sends (config : Config W) (input : Input) (cookies : Cookies)
    (response : HttpResponse) :
    Sends config.zlib response.body (pipelineJobDone (answer config input cookies response) false).1.body := by
  rw [pipelineJobDone_body]
  exact compress_sends _ _ _

end pages

/-- Whatever a request and its session are, the answer is the name of a user as plain text,
or a page, perhaps compressed, whose markup is that of one of the fixed pages, of which it
may at most lack the end. -/
theorem pages_keep_markup {config : Config W} {self next : Server W} {input : Input}
    {outcome : Outcome} (h : requestReceived config self input = some (next, outcome)) :
    (∃ u, Answers config input outcome u) ∨
      ∃ body, Clean config body ∧ Sends config.zlib body outcome.response.body := by
  have hrefuse : ∀ response, Clean config response.body →
      refuse self input response = (next, outcome) →
      ∃ body, Clean config body ∧ Sends config.zlib body outcome.response.body := by
    intro response hclean heq
    have hsends := refuse_sends config self input response
    rw [heq] at hsends
    exact ⟨_, hclean, hsends⟩
  unfold requestReceived at h
  split at h
  · exact .inr (hrefuse _ (error_clean _) (Option.some.inj h))
  · split at h
    · exact .inr (hrefuse _ (error_clean _) (Option.some.inj h))
    · split at h
      · obtain ⟨response, hresponse, heq⟩ := Option.map_eq_some_iff.mp h
        have hclean : Clean config response.body := by
          rw [setAllowHeader_body hresponse]
          exact error_clean _
        exact .inr (hrefuse response hclean heq)
      · simp only [callNext, Option.bind_eq_bind, Option.bind_eq_some_iff] at h
        obtain ⟨⟨middle, opened⟩, _, h⟩ := h
        cases opened with
        | none =>
          obtain ⟨_, rfl⟩ := Prod.mk.inj (Option.some.inj h)
          have hclean : Clean config (HttpResponse.createError .tooManyRequests none).body :=
            error_clean _
          have hsends := answer_sends config input
            (Cookies.create input.headers) (HttpResponse.createError .tooManyRequests none)
          generalize HttpResponse.createError .tooManyRequests none = response at hclean hsends
          exact .inr ⟨_, hclean, hsends⟩
        | some opened =>
          simp only [Option.bind_eq_some_iff] at h
          obtain ⟨work, hserve, h⟩ := h
          obtain ⟨_, rfl⟩ := Prod.mk.inj (Option.some.inj h)
          rcases serve_clean hserve with ⟨u, hanswer⟩ | hclean
          · exact .inl ⟨u, _, by rw [← hanswer]⟩
          · exact .inr ⟨_, hclean, answer_sends _ _ _ _⟩

/-- The page for a user shows the name. -/
def markupConfig : Config Unit := { sampleConfig with logoutHtml := str "<p>%%USER%%</p>" }

/-- A login with a name that is markup. -/
def markupLogin : Input :=
  sampleInput .post ⟨str "/login", login_fits⟩
    [sampleCookie, ⟨str "Content-Type", str "application/x-www-form-urlencoded", formType_valid⟩]
    (PROPNAME ++ str "=" ++ rndStr (List.replicate 32 0) ++ str "&login=1&user=<b>&pw=p")

/-- The form is asked for again by the client. -/
def markupForm : Input := sampleInput .get ⟨str "/login", login_fits⟩ [sampleCookie] []

/-- The name is shown, and the markup is that of the page. -/
theorem pages_keep_markup_sample : ∃ server next outcome,
    requestReceived markupConfig server markupForm = some (next, outcome) ∧
      outcome.response.body = str "<p>&lt;b&gt;</p>" ∧
        ((∃ u, Answers markupConfig markupForm outcome u) ∨ ∃ body, Clean markupConfig body ∧
          Sends markupConfig.zlib body outcome.response.body) := by
  have hexec : (exec (requestReceived markupConfig) (Server.create none 0 ())
      ([sampleForm, markupLogin] ++ [markupForm])).map (fun r =>
        r.2.getLast?.map fun l => l.2.response.body) = some (some (str "<p>&lt;b&gt;</p>")) := by
    decide +kernel
  obtain ⟨⟨next, full⟩, hsome, hlast⟩ := Option.map_eq_some_iff.mp hexec
  obtain ⟨trace, server, outcome, -, hstep, rfl⟩ := last_of_exec hsome
  rw [List.getLast?_concat, Option.map_some, Option.some.injEq] at hlast
  exact ⟨server, next, outcome, hstep, hlast, pages_keep_markup hstep⟩

end Swad.PageMarkup
