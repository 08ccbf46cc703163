import Swad.Middleware
import Swad.Proxylist
import Swad.SessionStore
import Swad.Template

/-!
The handlers of the two routes, and the check of the token that protects forms. They
work on the session of the request and report what they did to it. A response cannot
be created when a location does not fit its header; then there is no result.
-/
namespace Swad.Handlers

open Bytes Tables Headerset Http Httprequest Httpresponse Middleware Authenticator SessionStore
  Ratelimit Proxylist Template

variable {W : Type}

def DEFAULT_REALM : Str := str "SWAD"

/-- The name of the token in the session and in a form. -/
def PROPNAME : Str := str "_CSRFPROTECT"

def route : Str := str "/login"

/-- What is fixed while the server runs. The order is that of a hash table iterator. -/
structure Config (W : Type) where
  registry : Registry W
  order : Iteration Str AuthInfo
  trusted : TrustConfig
  loginHtml : Str
  logoutHtml : Str
  zlib : Zlib

/-- A request that was received, with what the server finds while it handles it: the
unwritten memory of the body, the peer, the clocks and the random draws. -/
structure Input where
  request : HttpRequest
  memory : ℕ → Byte
  peer : RemoteEntry
  now : ℤ
  sessionClock : Option Timespec
  idDraws : List (List Byte)
  tokenDraw : List Byte
  lifting : Option Timespec
  counting : Option Timespec

def Input.headers (self : Input) : HeaderSet := self.request.headers

def Input.pathParser (self : Input) : PathParser := PathParser.create self.request.path.text

def Input.form (self : Input) : Option FormData := FormData.get self.request self.memory

/-- What happens to the authentication state or the token of a session. -/
inductive Event
  | attempted (realm user : Str) (inquiries : List Inquiry)
  | loggedIn (realm : Str) (user : User)
  | silentlyLoggedIn (realm : Str) (user : User)
  | loggedOut (realm : Str)
  | issued (token : Str)
  | accepted (token : Str)
  | rejected
  | answered (realm : Str) (user : Option User)
  deriving DecidableEq

/-- The result of a handler. -/
structure Work (W : Type) where
  session : Session
  world : W
  response : HttpResponse
  events : List Event

/-- The value of a header that occurs once, or of the first parameter of the query. -/
def given (input : Input) (headerName paramName : Str) : Option Str :=
  match input.headers.single headerName with
  | some header => some header.value
  | none => (input.pathParser.param paramName).bind QueryParam.value

def orDefault (value : Option Str) (default : Str) : Str :=
  if value.getD [] = [] then default else value.getD []

def loginHandlerRealm (input : Input) : Str :=
  orDefault (given input (str "X-SWAD-Realm") (str "realm")) DEFAULT_REALM

def loginHandlerRdr (input : Input) : Str :=
  orDefault (given input (str "X-SWAD-Rdr") (str "rdr")) (str "/")

/-- The redirect that ends a request; without a target it leads to the root. -/
def redirect (session : Session) (w : W) (status : HttpStatus) (rdr : Option Str)
    (events : List Event) : Option (Work W) :=
  (HttpResponse.createRedirect status (rdr.getD (str "/"))).map fun response =>
    ⟨session, w, response, events⟩

/-- User name and password of a form, of 1 to 32 characters each. -/
def credentials (form : FormData) : Option (Str × Str) := do
  let (user, len) ← form.single (str "user")
  guard (1 ≤ len ∧ len ≤ 32)
  let (pw, len) ← form.single (str "pw")
  guard (1 ≤ len ∧ len ≤ 32)
  return (user, pw)

def failureMsg (verdict : Verdict) : Str :=
  if verdict = .blocked then str "Too many failed attempts, try again later"
  else str "Invalid credentials"

def loginEvents (realm user : Str) (result : LoginResult W) : List Event :=
  .attempted realm user result.inquiries ::
    if result.verdict = .accepted then
      (Authenticator.user result.authInfos realm).toList.map (.loggedIn realm)
    else []

/-- A login with the credentials of a form. -/
def tryLogin (config : Config W) (input : Input) (session : Session) (w : W)
    (realm rdr user pw : Str) : Option (Work W) :=
  let authrdr := session.loginRdr.getD (str "/")
  let result := login config.registry session.authInfos realm
    ⟨user, pw, input.lifting, input.counting⟩ w
  let session := { session with authInfos := result.authInfos, loginUser := some user }
  if result.verdict = .accepted then
    redirect { session with loginError := none } result.world .ok (some authrdr)
      (loginEvents realm user result)
  else
    redirect { session with
      authRealm := some realm
      authRdr := some authrdr
      loginError := some (failureMsg result.verdict) } result.world .seeOther (some rdr)
      (loginEvents realm user result)

def tryLogout (session : Session) (w : W) (realm rdr : Str) : Option (Work W) :=
  if (Authenticator.user session.authInfos realm).isSome then
    redirect { session with authInfos := logout session.authInfos realm } w .ok
      session.loginRdr [.loggedOut realm]
  else redirect session w .seeOther (some rdr) []

/-- A form does nothing unless it was shown before in the session. -/
def doLogin (config : Config W) (input : Input) (session : Session) (w : W) :
    Option (Work W) :=
  match input.form with
  | none => redirect session w .seeOther none []
  | some form =>
    if form.valid = false then redirect session w .seeOther none []
    else
      match session.loginRealm, session.loginForm with
      | some realm, some rdr =>
        if (form.single (str "login")).isSome then
          match credentials form with
          | none => redirect session w .seeOther (some rdr) []
          | some (user, pw) => tryLogin config input session w realm rdr user pw
        else if (form.single (str "logout")).isSome then tryLogout session w realm rdr
        else redirect session w .seeOther (some rdr) []
      | _, rdr => redirect session w .seeOther rdr []

def logoutVars (user : User) : Vars :=
  [(str "USER", ⟨user.username, .html⟩),
    (str "REALNAME", ⟨orDefault user.realname (str "<Unknown name>"), .html⟩)]

def loginVars (session : Session) : Vars :=
  (session.loginError.toList.map fun le => (str "ERRMSG", ⟨le, .html⟩)) ++
    session.loginUser.toList.map fun lu => (str "USER", ⟨lu, .html⟩)

/-- A page with a form, which gets a new token. -/
def page (input : Input) (session : Session) (w : W) (tmpl : Str) (vars : Vars)
    (realm path : Str) : Work W :=
  let token := rndStr input.tokenDraw
  let vars := vars ++ [(str "CSRFNAME", ⟨PROPNAME, .none⟩), (str "CSRFTOKEN", ⟨token, .none⟩),
    (str "REALM", ⟨realm, .html⟩), (str "SELF", ⟨path, .none⟩)]
  ⟨{ session with csrfProtect := some token }, w,
    (HttpResponse.create .ok .html).passBody (process tmpl vars), [.issued token]⟩

def showForm (config : Config W) (input : Input) (session : Session) (w : W)
    (realm path : Str) : Option (Work W) :=
  match Authenticator.user session.authInfos realm with
  | some user => some (page input session w config.logoutHtml (logoutVars user) realm path)
  | none =>
    let (authInfos, ok) := silentLogin config.registry config.order session.authInfos realm
    if ok then
      redirect { session with authInfos, loginError := none } w .ok session.loginRdr
        ((Authenticator.user authInfos realm).toList.map (.silentlyLoggedIn realm))
    else some (page input session w config.loginHtml (loginVars session) realm path)

/-- A request for the form takes over what the session wants to be authenticated. -/
def updateSession (input : Input) (session : Session) : Session × Str :=
  let realm := session.authRealm.getD (loginHandlerRealm input)
  let other := session.loginRealm.any fun lr => lr != realm
  ({ session with
    loginForm := some input.request.path.text
    loginUser := if other then none else session.loginUser
    loginError := if other then none else session.loginError
    loginRealm := some realm
    authRealm := none
    loginRdr := some (session.authRdr.getD (loginHandlerRdr input))
    authRdr := none }, realm)

def notFound (session : Session) (w : W) : Work W :=
  ⟨session, w, HttpResponse.createError .notFound none, []⟩

def loginHandler (config : Config W) (input : Input) (session : Session) (w : W) :
    Option (Work W) :=
  if input.pathParser.path = route then
    if input.request.method = .post then doLogin config input session w
    else
      let (session, realm) := updateSession input session
      showForm config input session w realm input.pathParser.path
  else some (notFound session w)

/-- The answer is cut off at the end of its buffer. -/
def rootBody (user : User) : Str :=
  match user.realname with
  | some realname => (user.username ++ str "\n" ++ realname ++ str "\n").take 4095
  | none => (user.username ++ str "\n").take 4095

def rootHandler (input : Input) (session : Session) (w : W) : Option (Work W) :=
  if input.pathParser.path = str "/" then
    let realm := loginHandlerRealm input
    match Authenticator.user session.authInfos realm with
    | some user =>
      some ⟨session, w, (HttpResponse.create .ok .text).passBody (rootBody user),
        [.answered realm (some user)]⟩
    | none =>
      let loginRoute :=
        orDefault ((input.headers.single (str "X-SWAD-Login")).map Header.value) route
      redirect { session with
        authRealm := some realm
        authRdr := some (loginHandlerRdr input) } w .forbidden (some loginRoute)
        [.answered realm none]
  else some (notFound session w)

def tampering : HttpResponse :=
  HttpResponse.createError .forbidden (some (str "Request tampering detected. Not here, man."))

/-- A form is let through only with the current token, which is used up. -/
def csrfProtect (input : Input) (session : Session) (w : W)
    (callNext : Session → Option (Work W)) : Option (Work W) :=
  match input.form with
  | none => callNext session
  | some form =>
    match session.csrfProtect, form.single PROPNAME with
    | some token, some (tokenVal, _) =>
      if token = tokenVal then
        (callNext { session with csrfProtect := none }).map fun work =>
          { work with events := .accepted token :: work.events }
      else some ⟨session, w, tampering, [.rejected]⟩
    | _, _ => some ⟨session, w, tampering, [.rejected]⟩

inductive Route
  | login
  | root
  deriving DecidableEq

def Route.handler (config : Config W) (input : Input) :
    Route → Session → W → Option (Work W)
  | .login => loginHandler config input
  | .root => rootHandler input

/-- The middlewares behind the session, and the handler. -/
def serve (config : Config W) (input : Input) (target : Route) (session : Session) (w : W) :
    Option (Work W) :=
  csrfProtect input session w fun session => target.handler config input session w

/-! ### What a handler can do -/

/-- Every result of the handlers, with the condition under which it comes about. -/
inductive Handled (config : Config W) (input : Input) (session : Session) (w : W) :
    Work W → Prop
  | notFound : Handled config input session w (notFound session w)
  | stayed {rdr : Option Str} {response : HttpResponse}
      (hrdr : rdr = none ∨ rdr = session.loginForm)
      (hresponse : HttpResponse.createRedirect .seeOther (rdr.getD (str "/")) = some response) :
      Handled config input session w ⟨session, w, response, []⟩
  | loggedIn {form : FormData} {realm user pw : Str} {result : LoginResult W}
      {response : HttpResponse} (hpost : input.request.method = .post)
      (hform : input.form = some form)
      (hresult : login config.registry session.authInfos realm
        ⟨user, pw, input.lifting, input.counting⟩ w = result)
      (hverdict : result.verdict = .accepted)
      (hresponse : HttpResponse.createRedirect .ok (session.loginRdr.getD (str "/")) =
        some response) (hrealm : session.loginRealm = some realm)
      (hcredentials : credentials form = some (user, pw)) :
      Handled config input session w
        ⟨{ session with
          authInfos := result.authInfos
          loginUser := some user
          loginError := none }, result.world, response, loginEvents realm user result⟩
  | loginFailed {form : FormData} {realm rdr user pw : Str} {result : LoginResult W}
      {response : HttpResponse} (hpost : input.request.method = .post)
      (hform : input.form = some form)
      (hresult : login config.registry session.authInfos realm
        ⟨user, pw, input.lifting, input.counting⟩ w = result)
      (hverdict : result.verdict ≠ .accepted)
      (hresponse : HttpResponse.createRedirect .seeOther rdr = some response)
      (hrealm : session.loginRealm = some realm) :
      Handled config input session w
        ⟨{ session with
          authInfos := result.authInfos
          loginUser := some user
          authRealm := some realm
          authRdr := some (session.loginRdr.getD (str "/"))
          loginError := some (failureMsg result.verdict) }, result.world, response,
          loginEvents realm user result⟩
  | loggedOut {form : FormData} {realm : Str} {response : HttpResponse}
      (hpost : input.request.method = .post) (hform : input.form = some form)
      (hresponse : HttpResponse.createRedirect .ok (session.loginRdr.getD (str "/")) =
        some response) :
      Handled config input session w
        ⟨{ session with authInfos := logout session.authInfos realm }, w, response,
          [.loggedOut realm]⟩
  | silent {updated : Session} {realm : Str} {authInfos : AuthInfos} {response : HttpResponse}
      (hmethod : input.request.method ≠ .post)
      (hupdated : updateSession input session = (updated, realm))
      (huser : Authenticator.user session.authInfos realm = none)
      (hsilent : silentLogin config.registry config.order session.authInfos realm =
        (authInfos, true))
      (hresponse : HttpResponse.createRedirect .ok (updated.loginRdr.getD (str "/")) =
        some response) :
      Handled config input session w
        ⟨{ updated with authInfos := authInfos, loginError := none }, w, response,
          (Authenticator.user authInfos realm).toList.map (.silentlyLoggedIn realm)⟩
  | shown {updated : Session} {realm path tmpl : Str} {vars : Vars}
      (hmethod : input.request.method ≠ .post)
      (hupdated : updateSession input session = (updated, realm)) :
      Handled config input session w (page input updated w tmpl vars realm path)
  | answered {user : User} (hpath : input.pathParser.path = str "/")
      (huser : Authenticator.user session.authInfos (loginHandlerRealm input) = some user) :
      Handled config input session w
        ⟨session, w, (HttpResponse.create .ok .text).passBody (rootBody user),
          [.answered (loginHandlerRealm input) (some user)]⟩
  | denied {loginRoute : Str} {response : HttpResponse}
      (hpath : input.pathParser.path = str "/")
      (huser : Authenticator.user session.authInfos (loginHandlerRealm input) = none)
      (hresponse : HttpResponse.createRedirect .forbidden loginRoute = some response) :
      Handled config input session w
        ⟨{ session with
          authRealm := some (loginHandlerRealm input)
          authRdr := some (loginHandlerRdr input) }, w, response,
          [.answered (loginHandlerRealm input) none]⟩

section cases

variable {config : Config W} {input : Input} {session : Session} {w : W} {work : Work W}

theorem redirect_eq_some {status : HttpStatus} {rdr : Option Str} {events : List Event}
    (h : redirect session w status rdr events = some work) :
    ∃ response, HttpResponse.createRedirect status (rdr.getD (str "/")) = some response ∧
      work = ⟨session, w, response, events⟩ := by
  obtain ⟨response, hresponse, rfl⟩ := Option.map_eq_some_iff.mp h
  exact ⟨response, hresponse, rfl⟩

theorem tryLogin_cases {form : FormData} {realm rdr user pw : Str}
    (hpost : input.request.method = .post) (hform : input.form = some form)
    (hrealm : session.loginRealm = some realm) (hcredentials : credentials form = some (user, pw))
    (h : tryLogin config input session w realm rdr user pw = some work) :
    Handled config input session w work := by
  simp only [tryLogin] at h
  split at h
  · next hverdict =>
    obtain ⟨response, hresponse, rfl⟩ := redirect_eq_some h
    exact .loggedIn hpost hform rfl hverdict hresponse hrealm hcredentials
  · next hverdict =>
    obtain ⟨response, hresponse, rfl⟩ := redirect_eq_some h
    exact .loginFailed hpost hform rfl hverdict hresponse hrealm

theorem stayed_of_redirect {rdr : Option Str} (hrdr : rdr = none ∨ rdr = session.loginForm)
    (h : redirect session w .seeOther rdr [] = some work) :
    Handled config input session w work := by
  obtain ⟨response, hresponse, rfl⟩ := redirect_eq_some h
  exact .stayed hrdr hresponse

theorem doLogin_cases (hpost : input.request.method = .post)
    (h : doLogin config input session w = some work) : Handled config input session w work := by
  unfold doLogin at h
  split at h
  · exact stayed_of_redirect (.inl rfl) h
  · next form hform =>
    split at h
    · exact stayed_of_redirect (.inl rfl) h
    · split at h
      · next realm rdr hrealm hrdr =>
        have hstay : some rdr = none ∨ some rdr = session.loginForm := .inr hrdr.symm
        split at h
        · split at h
          · exact stayed_of_redirect hstay h
          · next user pw hcredentials =>
            exact tryLogin_cases hpost hform hrealm hcredentials h
        · split at h
          · unfold tryLogout at h
            split at h
            · obtain ⟨response, hresponse, rfl⟩ := redirect_eq_some h
              exact .loggedOut hpost hform hresponse
            · exact stayed_of_redirect hstay h
          · exact stayed_of_redirect hstay h
      · exact stayed_of_redirect (.inr rfl) h

theorem showForm_cases {updated : Session} {realm path : Str}
    (hmethod : input.request.method ≠ .post)
    (hupdated : updateSession input session = (updated, realm))
    (h : showForm config input updated w realm path = some work) :
    Handled config input session w work := by
  have hinfos : updated.authInfos = session.authInfos := by
    rw [← (Prod.mk.inj hupdated).1]
  unfold showForm at h
  rw [hinfos] at h
  split at h
  · obtain rfl := Option.some.inj h
    exact .shown hmethod hupdated
  · next huser =>
    generalize hsilent : silentLogin config.registry config.order session.authInfos realm =
      result at h
    obtain ⟨authInfos, ok⟩ := result
    cases ok with
    | true =>
      obtain ⟨response, hresponse, rfl⟩ := redirect_eq_some h
      exact .silent hmethod hupdated huser hsilent hresponse
    | false =>
      obtain rfl := Option.some.inj h
      exact .shown hmethod hupdated

theorem loginHandler_cases (h : loginHandler config input session w = some work) :
    Handled config input session w work := by
  unfold loginHandler at h
  split at h
  · split at h
    · next hpost => exact doLogin_cases hpost h
    · next hmethod => exact showForm_cases hmethod rfl h
  · obtain rfl := Option.some.inj h
    exact .notFound

theorem rootHandler_cases (h : rootHandler input session w = some work) :
    Handled config input session w work := by
  unfold rootHandler at h
  split at h
  · next hpath =>
    dsimp only at h
    split at h
    · next user huser =>
      obtain rfl := Option.some.inj h
      exact .answered hpath huser
    · next huser =>
      obtain ⟨response, hresponse, rfl⟩ := redirect_eq_some h
      exact .denied hpath huser hresponse
  · obtain rfl := Option.some.inj h
    exact .notFound

theorem handler_cases {target : Route} (h : target.handler config input session w = some work) :
    Handled config input session w work := by
  cases target with
  | login => exact loginHandler_cases h
  | root => exact rootHandler_cases h

/-- What the handler and the check of the token can do together. -/
inductive Served (config : Config W) (input : Input) (session : Session) (w : W) :
    Work W → Prop
  | plain {work : Work W} (hform : input.form = none)
      (h : Handled config input session w work) : Served config input session w work
  | accepted {form : FormData} {token : Str} {len : ℕ} {work : Work W}
      (hform : input.form = some form) (htoken : session.csrfProtect = some token)
      (hsingle : form.single PROPNAME = some (token, len))
      (h : Handled config input { session with csrfProtect := none } w work) :
      Served config input session w { work with events := .accepted token :: work.events }
  | rejected {form : FormData} (hform : input.form = some form) :
      Served config input session w ⟨session, w, tampering, [.rejected]⟩

theorem serve_cases {target : Route} (h : serve config input target session w = some work) :
    Served config input session w work := by
  unfold serve csrfProtect at h
  split at h
  · next hform => exact .plain hform (handler_cases h)
  · next form hform =>
    split at h
    · next token tokenVal len htoken hsingle =>
      split at h
      · next heq =>
        subst heq
        obtain ⟨inner, hinner, rfl⟩ := Option.map_eq_some_iff.mp h
        exact .accepted hform htoken hsingle (handler_cases hinner)
      · obtain rfl := Option.some.inj h
        exact .rejected hform
    · obtain rfl := Option.some.inj h
      exact .rejected hform

end cases

end Swad.Handlers
