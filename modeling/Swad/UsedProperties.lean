import Swad.OwnedSlots
import Swad.Pipeline

/-!
The handlers as they work on the memory of a session. A property holds a copy that is freed
when the property is set again, while the handlers go on using the pointers they fetched
before. In every run they only follow pointers to live blocks, do what is done with the
values, and leave nothing behind when the session is deleted.
-/
namespace Swad.UsedProperties

open Bytes Http Httprequest Httpresponse Middleware Authenticator SessionStore Handlers Pipeline
  LabelledRuns Ratelimit Template OwnedSlots

variable {W : Type}

/-- The properties that the handlers use, each of them under a name of its own. -/
inductive Key
  | loginForm
  | loginRdr
  | authRdr
  | loginRealm
  | authRealm
  | loginUser
  | loginError
  | csrfProtect
  deriving DecidableEq

abbrev Props := Memory Key Str

def values (s : Session) : Key → Option Str
  | .loginForm => s.loginForm
  | .loginRdr => s.loginRdr
  | .authRdr => s.authRdr
  | .loginRealm => s.loginRealm
  | .authRealm => s.authRealm
  | .loginUser => s.loginUser
  | .loginError => s.loginError
  | .csrfProtect => s.csrfProtect

/-- What a request leads to, besides the properties. The response cannot be created when a
location does not fit. -/
structure Reply (W : Type) where
  authInfos : AuthInfos
  world : W
  response : Option HttpResponse
  events : List Event

section handlers

variable (config : Config W) (input : Input)

def redirect (self : Props) (infos : AuthInfos) (w : W) (status : HttpStatus)
    (rdr : Option (Ptr Str)) (events : List Event) : Option (Props × Reply W) := do
  let location ← self.read (rdr.getD (.fixed (str "/")))
  return (self, ⟨infos, w, HttpResponse.createRedirect status location, events⟩)

/-- The realm is read again for the log. -/
def tryLogin (self : Props) (infos : AuthInfos) (w : W) (realm rdr : Ptr Str)
    (user pw : Str) : Option (Props × Reply W) := do
  let authrdr := (self.slots .loginRdr).getD (.fixed (str "/"))
  let name ← self.read realm
  let result := login config.registry infos name ⟨user, pw, input.lifting, input.counting⟩ w
  if result.verdict = .accepted then do
    let self ← self.clear .loginError
    let _ ← self.read realm
    let self ← self.setCopy .loginUser (.fixed user)
    redirect self result.authInfos result.world .ok (some authrdr) (loginEvents name user result)
  else do
    let self ← self.setCopy .authRealm realm
    let self ← self.setCopy .authRdr authrdr
    let self ← self.set .loginError (some (.fixed (failureMsg result.verdict))) false
    let _ ← self.read realm
    let self ← self.setCopy .loginUser (.fixed user)
    redirect self result.authInfos result.world .seeOther (some rdr)
      (loginEvents name user result)

def tryLogout (self : Props) (infos : AuthInfos) (w : W) (realm rdr : Ptr Str) :
    Option (Props × Reply W) := do
  let name ← self.read realm
  if (Authenticator.user infos name).isSome then
    redirect self (logout infos name) w .ok (self.slots .loginRdr) [.loggedOut name]
  else redirect self infos w .seeOther (some rdr) []

def doLogin (self : Props) (infos : AuthInfos) (w : W) : Option (Props × Reply W) :=
  match input.form with
  | none => redirect self infos w .seeOther none []
  | some form =>
    if form.valid = false then redirect self infos w .seeOther none []
    else
      match self.slots .loginRealm, self.slots .loginForm with
      | some realm, some rdr =>
        if (form.single (str "login")).isSome then
          match credentials form with
          | none => redirect self infos w .seeOther (some rdr) []
          | some (user, pw) => tryLogin config input self infos w realm rdr user pw
        else if (form.single (str "logout")).isSome then tryLogout self infos w realm rdr
        else redirect self infos w .seeOther (some rdr) []
      | _, rdr => redirect self infos w .seeOther rdr []

/-- The pointers of a template are followed when it is processed. -/
def followVars (self : Props) (vars : List (Str × Ptr Str × TmplFilter)) : Option Vars :=
  vars.mapM fun var => (self.read var.2.1).map fun text => (var.1, ⟨text, var.2.2⟩)

def page (self : Props) (infos : AuthInfos) (w : W) (tmpl : Str)
    (vars : List (Str × Ptr Str × TmplFilter)) (realm : Ptr Str) (path : Str) :
    Option (Props × Reply W) := do
  let self ← self.setCopy .csrfProtect (.fixed (rndStr input.tokenDraw))
  let token ← self.slots .csrfProtect
  let vars ← followVars self (vars ++ [(str "CSRFNAME", .fixed PROPNAME, .none),
    (str "CSRFTOKEN", token, .none), (str "REALM", realm, .html),
    (str "SELF", .fixed path, .none)])
  return (self, ⟨infos, w, some ((HttpResponse.create .ok .html).passBody (process tmpl vars)),
    [.issued (rndStr input.tokenDraw)]⟩)

/-- Texts that the properties do not own. -/
def fixedVars (vars : Vars) : List (Str × Ptr Str × TmplFilter) :=
  vars.map fun var => (var.1, .fixed var.2.val, var.2.filter)

def loginVars (self : Props) : List (Str × Ptr Str × TmplFilter) :=
  ((self.slots .loginError).toList.map fun le => (str "ERRMSG", le, .html)) ++
    (self.slots .loginUser).toList.map fun lu => (str "USER", lu, .html)

def showForm (self : Props) (infos : AuthInfos) (w : W) (realm : Ptr Str) (path : Str) :
    Option (Props × Reply W) := do
  let name ← self.read realm
  match Authenticator.user infos name with
  | some user =>
    page input self infos w config.logoutHtml (fixedVars (logoutVars user)) realm path
  | none =>
    let (authInfos, ok) := silentLogin config.registry config.order infos name
    if ok then do
      let self ← self.clear .loginError
      let name ← self.read realm
      redirect self authInfos w .ok (self.slots .loginRdr)
        ((Authenticator.user authInfos name).toList.map (.silentlyLoggedIn name))
    else page input self infos w config.loginHtml (loginVars self) realm path

/-- A form for another realm does not show the last user and error. -/
def dropOther (self : Props) (realm : Ptr Str) : Option Props :=
  match self.slots .loginRealm with
  | none => some self
  | some lr => do
    let lr ← self.read lr
    let name ← self.read realm
    if lr = name then some self
    else do
      let self ← self.clear .loginUser
      self.clear .loginError

/-- The result is the copy that the property of the realm gets. -/
def updateSession (self : Props) : Option (Props × Ptr Str) := do
  let self ← self.setCopy .loginForm (.fixed input.request.path.text)
  let realm := (self.slots .authRealm).getD (.fixed (loginHandlerRealm input))
  let self ← dropOther self realm
  let self ← self.setCopy .loginRealm realm
  let loginrealm ← self.slots .loginRealm
  let self ← self.clear .authRealm
  let rdr := (self.slots .authRdr).getD (.fixed (loginHandlerRdr input))
  let self ← self.setCopy .loginRdr rdr
  let self ← self.clear .authRdr
  return (self, loginrealm)

def notFound (self : Props) (infos : AuthInfos) (w : W) : Props × Reply W :=
  (self, ⟨infos, w, some (HttpResponse.createError .notFound none), []⟩)

def loginHandler (self : Props) (infos : AuthInfos) (w : W) : Option (Props × Reply W) :=
  if input.pathParser.path = Handlers.route then
    if input.request.method = .post then doLogin config input self infos w
    else do
      let (self, realm) ← updateSession input self
      showForm config input self infos w realm input.pathParser.path
  else some (notFound self infos w)

def rootHandler (self : Props) (infos : AuthInfos) (w : W) : Option (Props × Reply W) :=
  if input.pathParser.path = str "/" then
    let realm := loginHandlerRealm input
    match Authenticator.user infos realm with
    | some user => some (self, ⟨infos, w,
        some ((HttpResponse.create .ok .text).passBody (rootBody user)),
        [.answered realm (some user)]⟩)
    | none => do
      let loginRoute :=
        orDefault ((input.headers.single (str "X-SWAD-Login")).map Headerset.Header.value)
          Handlers.route
      let self ← self.setCopy .authRealm (.fixed realm)
      let self ← self.setCopy .authRdr (.fixed (loginHandlerRdr input))
      redirect self infos w .forbidden (some (.fixed loginRoute)) [.answered realm none]
  else some (notFound self infos w)

def csrfProtect (self : Props) (infos : AuthInfos) (w : W)
    (callNext : Props → Option (Props × Reply W)) : Option (Props × Reply W) :=
  match input.form with
  | none => callNext self
  | some form =>
    match self.slots .csrfProtect, form.single PROPNAME with
    | some token, some (tokenVal, _) => do
      let token ← self.read token
      if token = tokenVal then do
        let self ← self.clear .csrfProtect
        let (self, reply) ← callNext self
        return (self, { reply with events := .accepted token :: reply.events })
      else return (self, ⟨infos, w, some tampering, [.rejected]⟩)
    | _, _ => some (self, ⟨infos, w, some tampering, [.rejected]⟩)

def handler (self : Props) (infos : AuthInfos) (w : W) : Route → Option (Props × Reply W)
  | .login => loginHandler config input self infos w
  | .root => rootHandler input self infos w

def serve (target : Route) (self : Props) (infos : AuthInfos) (w : W) :
    Option (Props × Reply W) :=
  csrfProtect input self infos w fun self => handler config input self infos w target

end handlers

/-! ### The handlers do what is done with the values -/

/-- The result of a handler, and the memory it leaves for the session. -/
inductive Agrees : Option (Work W) → Props × Reply W → Prop
  | failed {self : Props} {reply : Reply W} (h : reply.response = none) :
      Agrees none (self, reply)
  | done {self : Props} {work : Work W} (h : Holds self (values work.session)) :
      Agrees (some work)
        (self, ⟨work.session.authInfos, work.world, some work.response, work.events⟩)

/-- No dead block is touched on the way. -/
def Does (computed : Option (Props × Reply W)) (work : Option (Work W)) : Prop :=
  ∃ result, computed = some result ∧ Agrees work result

section agreement

variable {config : Config W} {input : Input} {self : Props} {session : Session} {w : W}

theorem holds_values {v : Key → Option Str} (h : Holds self v)
    (hv : ∀ k, v k = values session k) : Holds self (values session) :=
  funext hv ▸ h

theorem read_slot {v : Key → Option Str} (h : Holds self v) (k : Key) {p : Ptr Str} {t : Str}
    (hp : self.slots k = some p) (hv : v k = some t) : self.read p = some t := by
  obtain ⟨t', hread, hv'⟩ := h.toSlotted.get hp
  rw [hread, ← hv', hv]

theorem read_slotD {v : Key → Option Str} (h : Holds self v) (k : Key) (default : Str) :
    self.read ((self.slots k).getD (.fixed default)) = some ((v k).getD default) := by
  cases hv : v k with
  | none =>
    rw [h.toSlotted.null k hv]
    rfl
  | some t =>
    obtain ⟨p, hp, hread⟩ := h.toSlotted.slot k hv
    rw [hp]
    exact hread

theorem redirect_does (h : Holds self (values session)) {infos : AuthInfos}
    (hinfos : session.authInfos = infos) (status : HttpStatus)
    {rdr : Option (Ptr Str)} {target : Option Str}
    (hrdr : self.read (rdr.getD (.fixed (str "/"))) = some (target.getD (str "/")))
    (events : List Event) :
    Does (redirect self infos w status rdr events)
      (Handlers.redirect session w status target events) := by
  subst hinfos
  refine ⟨(self, ⟨session.authInfos, w,
    HttpResponse.createRedirect status (target.getD (str "/")), events⟩), ?_, ?_⟩
  · rw [redirect, hrdr]
    rfl
  · rw [Handlers.redirect]
    cases HttpResponse.createRedirect status (target.getD (str "/")) with
    | none => exact .failed rfl
    | some response => exact .done h

theorem redirect_to (h : Holds self (values session)) {infos : AuthInfos}
    (hinfos : session.authInfos = infos) (status : HttpStatus) {rdr : Ptr Str} {target : Str}
    (hrdr : self.read rdr = some target) (events : List Event) :
    Does (redirect self infos w status (some rdr) events)
      (Handlers.redirect session w status (some target) events) := by
  refine redirect_does h hinfos status ?_ events
  exact hrdr

theorem tryLogin_does (h : Holds self (values session)) {realm rdr : Ptr Str} {name back : Str}
    (hrealm : self.slots .loginRealm = some realm) (hname : session.loginRealm = some name)
    (hrdr : self.slots .loginForm = some rdr) (hback : session.loginForm = some back)
    (user pw : Str) :
    Does (tryLogin config input self session.authInfos w realm rdr user pw)
      (Handlers.tryLogin config input session w name back user pw) := by
  unfold tryLogin Handlers.tryLogin
  rw [read_slot h .loginRealm hrealm hname]
  dsimp only [Option.bind_eq_bind, Option.bind_some]
  split
  · obtain ⟨m₁, hclear, h₁, hothers₁⟩ := h.clear .loginError
    obtain ⟨m₂, hset, h₂, hothers₂⟩ :=
      h₁.setCopy .loginUser (p := .fixed user) (t := user) rfl
    have hread : m₁.read realm = some name :=
      read_slot h₁ .loginRealm ((hothers₁ .loginRealm (by decide)).trans hrealm) hname
    have hslot : m₂.slots .loginRdr = self.slots .loginRdr :=
      (hothers₂ .loginRdr (by decide)).trans (hothers₁ .loginRdr (by decide))
    rw [hclear, Option.bind_some, hread, Option.bind_some, hset, Option.bind_some]
    refine redirect_does (holds_values h₂ ?_) ?_ .ok ?_ _
    · intro k
      cases k <;> rfl
    · rfl
    · rw [← hslot]
      exact read_slotD h₂ .loginRdr (str "/")
  · obtain ⟨m₁, hset₁, h₁, hothers₁⟩ := h.setCopy .authRealm (read_slot h .loginRealm hrealm hname)
    have hauthrdr : m₁.read ((self.slots .loginRdr).getD (.fixed (str "/"))) =
        some (session.loginRdr.getD (str "/")) := by
      rw [← hothers₁ .loginRdr (by decide)]
      exact read_slotD h₁ .loginRdr (str "/")
    obtain ⟨m₂, hset₂, h₂, hothers₂⟩ := h₁.setCopy .authRdr hauthrdr
    obtain ⟨m₃, hset₃, h₃, hothers₃⟩ := h₂.setFixed .loginError
      (some (failureMsg (login config.registry session.authInfos name
        ⟨user, pw, input.lifting, input.counting⟩ w).verdict))
    obtain ⟨m₄, hset₄, h₄, hothers₄⟩ :=
      h₃.setCopy .loginUser (p := .fixed user) (t := user) rfl
    have hkept : m₃.slots .loginRealm = some realm := by
      rw [hothers₃ .loginRealm (by decide), hothers₂ .loginRealm (by decide),
        hothers₁ .loginRealm (by decide), hrealm]
    have hform : m₄.slots .loginForm = some rdr := by
      rw [hothers₄ .loginForm (by decide), hothers₃ .loginForm (by decide),
        hothers₂ .loginForm (by decide), hothers₁ .loginForm (by decide), hrdr]
    rw [hset₁, Option.bind_some, hset₂, Option.bind_some]
    rw [Option.map_some] at hset₃
    rw [hset₃, Option.bind_some, read_slot h₃ .loginRealm hkept hname, Option.bind_some, hset₄,
      Option.bind_some]
    refine redirect_to (holds_values h₄ ?_) ?_ .seeOther
      (read_slot h₄ .loginForm hform hback) _
    · intro k
      cases k <;> rfl
    · rfl

theorem tryLogout_does (h : Holds self (values session)) {realm rdr : Ptr Str} {name back : Str}
    (hrealm : self.slots .loginRealm = some realm) (hname : session.loginRealm = some name)
    (hrdr : self.slots .loginForm = some rdr) (hback : session.loginForm = some back) :
    Does (tryLogout self session.authInfos w realm rdr)
      (Handlers.tryLogout session w name back) := by
  unfold tryLogout Handlers.tryLogout
  rw [read_slot h .loginRealm hrealm hname]
  dsimp only [Option.bind_eq_bind, Option.bind_some]
  split
  · refine redirect_does (holds_values h ?_) ?_ .ok (read_slotD h .loginRdr (str "/")) _
    · intro k
      cases k <;> rfl
    · rfl
  · exact redirect_to h rfl .seeOther (read_slot h .loginForm hrdr hback) _

theorem doLogin_does (h : Holds self (values session)) :
    Does (doLogin config input self session.authInfos w)
      (Handlers.doLogin config input session w) := by
  have hback := read_slotD h .loginForm (str "/")
  unfold doLogin Handlers.doLogin
  cases input.form with
  | none => exact redirect_does h rfl .seeOther rfl []
  | some form =>
    dsimp only
    split
    · exact redirect_does h rfl .seeOther rfl []
    · cases hname : session.loginRealm with
      | none =>
        rw [h.toSlotted.null .loginRealm hname]
        exact redirect_does h rfl .seeOther hback []
      | some name =>
        obtain ⟨realm, hrealm, _⟩ := h.toSlotted.slot .loginRealm hname
        rw [hrealm]
        cases hform : session.loginForm with
        | none =>
          rw [h.toSlotted.null .loginForm hform]
          exact redirect_does h rfl .seeOther rfl []
        | some back =>
          obtain ⟨rdr, hrdr, hread⟩ := h.toSlotted.slot .loginForm hform
          rw [hrdr]
          dsimp only
          split
          · cases credentials form with
            | none => exact redirect_to h rfl .seeOther hread []
            | some given => exact tryLogin_does h hrealm hname hrdr hform given.1 given.2
          · split
            · exact tryLogout_does h hrealm hname hrdr hform
            · exact redirect_to h rfl .seeOther hread []

theorem follow_append {vars vars' : List (Str × Ptr Str × TmplFilter)} {known known' : Vars}
    (h : followVars self vars = some known) (h' : followVars self vars' = some known') :
    followVars self (vars ++ vars') = some (known ++ known') := by
  unfold followVars at h h' ⊢
  rw [List.mapM_append, h, h']
  rfl

theorem follow_fixed (self : Props) (vars : Vars) :
    followVars self (fixedVars vars) = some vars := by
  induction vars with
  | nil => rfl
  | cons var vars ih =>
    unfold followVars fixedVars at ih ⊢
    rw [List.map_cons, List.mapM_cons, ih]
    rfl

/-- The variables of a page are followed after the token was set. -/
theorem page_does (h : Holds self (values session)) {tmpl name path : Str}
    {vars : List (Str × Ptr Str × TmplFilter)} {known : Vars} {realm : Ptr Str}
    (hrealm : self.slots .loginRealm = some realm) (hname : session.loginRealm = some name)
    (hvars : ∀ m, Holds m (values { session with csrfProtect := some (rndStr input.tokenDraw) }) →
      (∀ k ≠ .csrfProtect, m.slots k = self.slots k) → followVars m vars = some known) :
    Does (page input self session.authInfos w tmpl vars realm path)
      (some (Handlers.page input session w tmpl known name path)) := by
  obtain ⟨m, hset, h₁, hothers⟩ := h.setCopy .csrfProtect (p := .fixed (rndStr input.tokenDraw))
    (t := rndStr input.tokenDraw) rfl
  have hheld : Holds m (values { session with csrfProtect := some (rndStr input.tokenDraw) }) := by
    refine holds_values h₁ fun k => ?_
    cases k <;> rfl
  obtain ⟨token, hslot, htoken⟩ := hheld.toSlotted.slot .csrfProtect rfl
  have hread : m.read realm = some name :=
    read_slot hheld .loginRealm ((hothers .loginRealm (by decide)).trans hrealm) hname
  have hown : followVars m [(str "CSRFNAME", .fixed PROPNAME, .none),
      (str "CSRFTOKEN", token, .none), (str "REALM", realm, .html),
      (str "SELF", .fixed path, .none)] =
      some [(str "CSRFNAME", ⟨PROPNAME, .none⟩),
        (str "CSRFTOKEN", ⟨rndStr input.tokenDraw, .none⟩), (str "REALM", ⟨name, .html⟩),
        (str "SELF", ⟨path, .none⟩)] := by
    unfold followVars
    simp only [List.mapM_cons, List.mapM_nil, htoken, hread, Option.map_some]
    rfl
  refine ⟨_, ?_, .done hheld⟩
  unfold page
  rw [hset]
  dsimp only [Option.bind_eq_bind, Option.bind_some]
  rw [hslot, Option.bind_some, follow_append (hvars m hheld hothers) hown]
  rfl

theorem follow_loginVars (h : Holds self (values session)) {m : Props} {s : Session}
    (hm : Holds m (values s)) (herror : m.slots .loginError = self.slots .loginError)
    (huser : m.slots .loginUser = self.slots .loginUser)
    (herror' : s.loginError = session.loginError) (huser' : s.loginUser = session.loginUser) :
    followVars m (loginVars self) = some (Handlers.loginVars session) := by
  refine follow_append ?_ ?_
  · cases hle : session.loginError with
    | none =>
      rw [h.toSlotted.null .loginError hle]
      rfl
    | some le =>
      obtain ⟨p, hp, hread⟩ := hm.toSlotted.slot .loginError (herror'.trans hle)
      rw [← herror, hp]
      simp only [followVars, Option.toList_some, List.map_cons, List.map_nil, List.mapM_cons,
        List.mapM_nil, hread]
      rfl
  · cases hlu : session.loginUser with
    | none =>
      rw [h.toSlotted.null .loginUser hlu]
      rfl
    | some lu =>
      obtain ⟨p, hp, hread⟩ := hm.toSlotted.slot .loginUser (huser'.trans hlu)
      rw [← huser, hp]
      simp only [followVars, Option.toList_some, List.map_cons, List.map_nil, List.mapM_cons,
        List.mapM_nil, hread]
      rfl

theorem showForm_does (h : Holds self (values session)) {realm : Ptr Str} {name path : Str}
    (hrealm : self.slots .loginRealm = some realm) (hname : session.loginRealm = some name) :
    Does (showForm config input self session.authInfos w realm path)
      (Handlers.showForm config input session w name path) := by
  unfold showForm Handlers.showForm
  rw [read_slot h .loginRealm hrealm hname]
  dsimp only [Option.bind_eq_bind, Option.bind_some]
  cases Authenticator.user session.authInfos name with
  | some user => exact page_does h hrealm hname fun m _ _ => follow_fixed m _
  | none =>
    dsimp only
    split
    · obtain ⟨m, hclear, h₁, hothers⟩ := h.clear .loginError
      have hread : m.read realm = some name :=
        read_slot h₁ .loginRealm ((hothers .loginRealm (by decide)).trans hrealm) hname
      rw [hclear, Option.bind_some, hread, Option.bind_some]
      refine redirect_does (holds_values h₁ ?_) ?_ .ok (read_slotD h₁ .loginRdr (str "/")) _
      · intro k
        cases k <;> rfl
      · rfl
    · exact page_does h hrealm hname fun m hm hothers =>
        follow_loginVars h hm (hothers .loginError (by decide)) (hothers .loginUser (by decide))
          rfl rfl

theorem dropOther_does (h : Holds self (values session)) {realm : Ptr Str} {name : Str}
    (hread : self.read realm = some name) :
    ∃ m, dropOther self realm = some m ∧
      Holds m (values { session with
        loginUser := if session.loginRealm.any fun lr => lr != name then none
          else session.loginUser
        loginError := if session.loginRealm.any fun lr => lr != name then none
          else session.loginError }) ∧
      ∀ k, k ≠ .loginUser → k ≠ .loginError → m.slots k = self.slots k := by
  unfold dropOther
  cases hlr : session.loginRealm with
  | none =>
    rw [h.toSlotted.null .loginRealm hlr]
    refine ⟨self, rfl, holds_values h fun k => ?_, fun _ _ _ => rfl⟩
    cases k <;> first | rfl | exact hlr
  | some lr =>
    obtain ⟨p, hp, hlr'⟩ := h.toSlotted.slot .loginRealm hlr
    rw [hp]
    dsimp only [Option.bind_eq_bind]
    rw [hlr', hread, Option.bind_some, Option.bind_some]
    by_cases heq : lr = name
    · have hsame : (some lr).any (fun lr => lr != name) = false := by simp [heq]
      rw [if_pos heq, hsame]
      refine ⟨self, rfl, holds_values h fun k => ?_, fun _ _ _ => rfl⟩
      cases k <;> first | rfl | exact hlr
    · have hother : (some lr).any (fun lr => lr != name) = true := by simp [heq]
      obtain ⟨m₁, hclear₁, h₁, hothers₁⟩ := h.clear .loginUser
      obtain ⟨m₂, hclear₂, h₂, hothers₂⟩ := h₁.clear .loginError
      rw [if_neg heq, hother, hclear₁, Option.bind_some, hclear₂]
      refine ⟨m₂, rfl, holds_values h₂ fun k => ?_, fun k huser herror =>
        (hothers₂ k herror).trans (hothers₁ k huser)⟩
      cases k <;> first | rfl | exact hlr

/-- The realm of the session is copied while the property it comes from is still set. -/
theorem updateSession_does (h : Holds self (values session)) :
    ∃ m realm, updateSession input self = some (m, realm) ∧
      Holds m (values (Handlers.updateSession input session).1) ∧
      m.slots .loginRealm = some realm := by
  obtain ⟨m₁, hset₁, h₁, hothers₁⟩ := h.setCopy .loginForm
    (p := .fixed input.request.path.text) (t := input.request.path.text) rfl
  have hform : Holds m₁ (values { session with loginForm := some input.request.path.text }) := by
    refine holds_values h₁ fun k => ?_
    cases k <;> rfl
  have hrealm : m₁.read ((m₁.slots .authRealm).getD (.fixed (loginHandlerRealm input))) =
      some (session.authRealm.getD (loginHandlerRealm input)) :=
    read_slotD hform .authRealm _
  obtain ⟨m₂, hdrop, h₂, hothers₂⟩ := dropOther_does hform hrealm
  have hrealm₂ : m₂.read ((m₁.slots .authRealm).getD (.fixed (loginHandlerRealm input))) =
      some (session.authRealm.getD (loginHandlerRealm input)) := by
    rw [← hothers₂ .authRealm (by decide) (by decide)]
    exact read_slotD h₂ .authRealm _
  obtain ⟨m₃, hset₃, h₃, hothers₃⟩ := h₂.setCopy .loginRealm hrealm₂
  obtain ⟨realm, hslot, _⟩ := h₃.toSlotted.slot .loginRealm (Function.update_self _ _ _)
  obtain ⟨m₄, hclear₄, h₄, hothers₄⟩ := h₃.clear .authRealm
  have hrdr : m₄.read ((m₄.slots .authRdr).getD (.fixed (loginHandlerRdr input))) =
      some (session.authRdr.getD (loginHandlerRdr input)) :=
    read_slotD h₄ .authRdr _
  obtain ⟨m₅, hset₅, h₅, hothers₅⟩ := h₄.setCopy .loginRdr hrdr
  obtain ⟨m₆, hclear₆, h₆, hothers₆⟩ := h₅.clear .authRdr
  refine ⟨m₆, realm, ?_, holds_values h₆ fun k => ?_, ?_⟩
  · unfold updateSession
    dsimp only [Option.bind_eq_bind]
    rw [hset₁, Option.bind_some, hdrop, Option.bind_some, hset₃, Option.bind_some, hslot,
      Option.bind_some, hclear₄, Option.bind_some, hset₅, Option.bind_some, hclear₆]
    rfl
  · cases k <;> rfl
  · rw [hothers₆ .loginRealm (by decide), hothers₅ .loginRealm (by decide),
      hothers₄ .loginRealm (by decide), hslot]

theorem loginHandler_does (h : Holds self (values session)) :
    Does (loginHandler config input self session.authInfos w)
      (Handlers.loginHandler config input session w) := by
  unfold loginHandler Handlers.loginHandler
  split
  · split
    · exact doLogin_does h
    · obtain ⟨m, realm, hupdated, hm, hrealm⟩ := updateSession_does h
      dsimp only [Option.bind_eq_bind]
      rw [hupdated, Option.bind_some]
      exact showForm_does hm hrealm rfl
  · exact ⟨_, rfl, .done h⟩

theorem rootHandler_does (h : Holds self (values session)) :
    Does (rootHandler input self session.authInfos w) (Handlers.rootHandler input session w) := by
  unfold rootHandler Handlers.rootHandler
  split
  · dsimp only
    cases Authenticator.user session.authInfos (loginHandlerRealm input) with
    | some user => exact ⟨_, rfl, .done h⟩
    | none =>
      dsimp only [Option.bind_eq_bind]
      obtain ⟨m₁, hset₁, h₁, _⟩ := h.setCopy .authRealm
        (p := .fixed (loginHandlerRealm input)) (t := loginHandlerRealm input) rfl
      obtain ⟨m₂, hset₂, h₂, _⟩ := h₁.setCopy .authRdr
        (p := .fixed (loginHandlerRdr input)) (t := loginHandlerRdr input) rfl
      rw [hset₁, Option.bind_some, hset₂, Option.bind_some]
      refine redirect_to (holds_values h₂ ?_) ?_ .forbidden rfl _
      · intro k
        cases k <;> rfl
      · rfl
  · exact ⟨_, rfl, .done h⟩

theorem handler_does (h : Holds self (values session)) (target : Route) :
    Does (handler config input self session.authInfos w target)
      (target.handler config input session w) := by
  cases target with
  | login => exact loginHandler_does h
  | root => exact rootHandler_does h

theorem serve_does (h : Holds self (values session)) (target : Route) :
    Does (serve config input target self session.authInfos w)
      (Handlers.serve config input target session w) := by
  unfold serve Handlers.serve csrfProtect Handlers.csrfProtect
  cases input.form with
  | none => exact handler_does h target
  | some form =>
    dsimp only
    cases htoken : session.csrfProtect with
    | none =>
      rw [h.toSlotted.null .csrfProtect htoken]
      exact ⟨_, rfl, .done h⟩
    | some token =>
      obtain ⟨p, hp, hread⟩ := h.toSlotted.slot .csrfProtect htoken
      rw [hp]
      cases form.single PROPNAME with
      | none => exact ⟨_, rfl, .done h⟩
      | some given =>
        dsimp only [Option.bind_eq_bind]
        rw [hread, Option.bind_some]
        split
        · obtain ⟨m, hclear, h₁, _⟩ := h.clear .csrfProtect
          have hheld : Holds m (values { session with csrfProtect := none }) := by
            refine holds_values h₁ fun k => ?_
            cases k <;> rfl
          have hdoes : Does (handler config input m session.authInfos w target)
              (target.handler config input { session with csrfProtect := none } w) :=
            handler_does hheld target
          obtain ⟨result, hresult, hagrees⟩ := hdoes
          rw [hclear, Option.bind_some, hresult, Option.bind_some]
          generalize target.handler config input { session with csrfProtect := none } w = inner
            at hagrees ⊢
          cases hagrees with
          | failed hnone => exact ⟨_, rfl, .failed hnone⟩
          | done hm => exact ⟨_, rfl, .done hm⟩
        · exact ⟨_, rfl, .done h⟩

end agreement

/-! ### In every run -/

/-- A session, and a memory that its properties can have when the requests that led to it
were served. -/
inductive Reached (config : Config W) : Session → Props → Prop
  | fresh (ref : ℕ) (id : Str) (now : ℤ) : Reached config (newSession ref id now) Memory.init
  | atime {s : Session} {m : Props} (now : ℤ) (h : Reached config s m) :
      Reached config { s with atime := now } m
  | referrer {s : Session} {m : Props} (path : Option Str) (h : Reached config s m) :
      Reached config { s with referrer := path } m
  | served {s : Session} {m m' : Props} {input : Input} {target : Route} {w : W}
      {work : Work W} {reply : Reply W} (h : Reached config s m)
      (hmemory : serve config input target m s.authInfos w = some (m', reply))
      (hwork : Handlers.serve config input target s w = some work) :
      Reached config work.session m'

section runs

variable {config : Config W} {opts : Option RateLimitOpts} {start : ℤ} {w : W} {trace : Trace}
  {server : Server W} {s : Session} {m : Props}

theorem reached_holds (h : Reached config s m) : Holds m (values s) := by
  induction h with
  | fresh ref id now =>
    refine holds_values Holds.init fun k => ?_
    cases k <;> rfl
  | atime now _ ih =>
    refine holds_values ih fun k => ?_
    cases k <;> rfl
  | referrer path _ ih =>
    refine holds_values ih fun k => ?_
    cases k <;> rfl
  | @served s m m' input target w work reply _ hmemory hwork ih =>
    have hdoes : Does (serve config input target m s.authInfos w)
        (Handlers.serve config input target s w) := serve_does ih target
    obtain ⟨result, hresult, hagrees⟩ := hdoes
    rw [hmemory] at hresult
    obtain rfl := Option.some.inj hresult
    rw [hwork] at hagrees
    cases hagrees with
    | done hm => exact hm

/-- The memory goes on with every request. -/
theorem Reached.next (h : Reached config s m) {input : Input} {target : Route} {work : Work W}
    (hwork : Handlers.serve config input target s w = some work) :
    ∃ m', Reached config work.session m' := by
  obtain ⟨⟨m', reply⟩, hresult, _⟩ := serve_does (reached_holds h) target
  exact ⟨m', h.served hresult hwork⟩

end runs

end Swad.UsedProperties
