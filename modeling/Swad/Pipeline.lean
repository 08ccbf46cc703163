import Swad.Handlers
import Swad.Httpserver
import Swad.LabelledRuns

/-!
The server handling requests one at a time: the route, the middlewares in their order,
the handler, and on the way back the changes that the middlewares make to the
response. A step is undefined only where the program would not go on.
-/
namespace Swad.Pipeline

open Bytes Headerset Http Httprequest Httpresponse Httpserver Middleware SessionStore Ratelimit
  Proxylist Handlers

variable {W : Type}

def COOKIENAME : Str := str "PSW_SID"

structure Server (W : Type) where
  store : Store
  createLimit : RateLimit
  world : W

/-- At most 3 new sessions in 5 seconds, 5 in a minute and 25 in an hour. -/
def defaultSessionLimits : RateLimitOpts :=
  ((RateLimitOpts.create.addLimit 5 3).addLimit 60 5).addLimit 3600 25

def Server.create (opts : Option RateLimitOpts) (now : ℤ) (w : W) : Server W :=
  ⟨Store.create now, RateLimit.create (opts.getD defaultSessionLimits), w⟩

/-- What one request did: its session, the response with which it was answered,
whether the connection is kept, and what happened in the session. -/
structure Outcome where
  session : Option ℕ
  response : HttpResponse
  kept : Bool
  events : List Event

/-- The session of the cookie, with its time of access, if there is one. -/
def currentSession (store : Store) (cookies : Cookies) (now : ℤ) : Store × Option Session :=
  match cookies.getCookie COOKIENAME with
  | none => (store, none)
  | some sid =>
    let (store, session) := store.find sid now
    (store, session.map fun s => { s with atime := now })

/-- A client that has used up its limit gets no session. -/
def openSession (config : Config W) (self : Server W) (input : Input) :
    Option (Server W × Option (Session × Cookies)) :=
  let cookies := Cookies.create input.headers
  match currentSession (self.store.clean input.now) cookies input.now with
  | (store, some session) => some ({ self with store }, some (session, cookies))
  | (store, none) => do
    let id ← clientAddr input.headers config.trusted input.peer
    let (createLimit, ok) := self.createLimit.check input.sessionClock id
    if ok then
      let (store, session) ← store.createSession input.now input.idDraws
      return ({ self with store, createLimit },
        some (session, cookies.setCookie COOKIENAME session.id))
    else return ({ self with store, createLimit }, none)

/-- The path of a page is remembered. -/
def noteReferrer (input : Input) (response : HttpResponse) (session : Session) : Session :=
  if input.request.method = .get ∧ (response.status = .ok ∨ response.status = .unauthorized) ∧
      (response.headers.first (str "Content-Type")).any
        (fun ct => ct.value.take 9 == str "text/html") then
    { session with referrer := some input.request.path.text }
  else session

/-- The response as the middlewares before the session leave it. -/
def finishResponse (config : Config W) (input : Input) (cookies : Cookies)
    (response : HttpResponse) : HttpResponse :=
  compress config.zlib input.headers
    { response with headers := cookies.addTo response.headers }

/-- The context of a request whose handler has set a response. -/
def answer (config : Config W) (input : Input) (cookies : Cookies) (response : HttpResponse) :
    HttpContext :=
  let context := (HttpContext.create input.request).setResponse response
  { context with response := context.response.map (finishResponse config input cookies) }

theorem answer_status (config : Config W) (input : Input) (cookies : Cookies)
    (response : HttpResponse) :
    (pipelineJobDone (answer config input cookies response) false).1.status =
      response.status.downgrade input.request.version := by
  rw [pipelineJobDone_status]
  exact compress_status _ _ _

/-- The pipeline for a request that has a route. -/
def callNext (config : Config W) (target : Route) (self : Server W) (input : Input) :
    Option (Server W × Outcome) := do
  match ← openSession config self input with
  | (self, none) =>
    let context := answer config input (Cookies.create input.headers)
      (HttpResponse.createError .tooManyRequests none)
    let done := pipelineJobDone context false
    return (self, ⟨none, done.1, done.2, []⟩)
  | (self, some (session, cookies)) =>
    let work ← serve config input target session self.world
    let session := noteReferrer input (work.response.setVersion input.request.version)
      work.session
    let context := answer config input cookies work.response
    let done := pipelineJobDone context false
    return ({ self with store := self.store.put session, world := work.world },
      ⟨some session.ref, done.1, done.2, work.events⟩)

def routePrefix : Route → Str
  | .login => str "/login"
  | .root => str "/"

/-- The methods that a route allows. -/
def routeMask : Route → ℕ
  | .login => HttpMethod.get.code ||| HttpMethod.post.code
  | .root => HttpMethod.get.code

def findRoute (path : Str) : Option Route :=
  [Route.login, Route.root].find? fun r => (routePrefix r).isPrefixOf path

/-- A request that does not reach the pipeline. -/
def refuse (self : Server W) (input : Input) (response : HttpResponse) : Server W × Outcome :=
  let done := pipelineJobDone ((HttpContext.create input.request).setResponse response) false
  (self, ⟨none, done.1, done.2, []⟩)

def requestReceived (config : Config W) (self : Server W) (input : Input) :
    Option (Server W × Outcome) :=
  if input.request.status ≠ .ok then
    some (refuse self input (HttpResponse.createError input.request.status none))
  else
    match findRoute input.request.path.text with
    | none => some (refuse self input (HttpResponse.createError .notFound none))
    | some target =>
      if input.request.method.code &&& routeMask target = 0 then
        ((HttpResponse.createError .methodNotAllowed none).setAllowHeader (routeMask target)).map
          (refuse self input)
      else callNext config target self input

/-! ### What a request can do -/

section cases

variable {config : Config W} {self self' : Server W} {input : Input} {outcome : Outcome}

/-- The session that a request works on: one of the store, or a new one. -/
def Opened (server : Server W) (input : Input) (session : Session) : Prop :=
  (∃ s, server.store.Mem s ∧ session = { s with atime := input.now }) ∨
    ∃ draw, session = newSession server.store.created (rndStr draw) input.now

/-- The answers to requests that do not reach the pipeline. -/
inductive Refusal (input : Input) : HttpResponse → Prop
  | error (hstatus : input.request.status ≠ .ok) :
      Refusal input (HttpResponse.createError input.request.status none)
  | notFound : Refusal input (HttpResponse.createError .notFound none)
  | methodNotAllowed {target : Route} {response : HttpResponse}
      (hresponse : (HttpResponse.createError .methodNotAllowed none).setAllowHeader
        (routeMask target) = some response) : Refusal input response

/-- The cookies of a request: a new session sends its id. -/
def Sent (input : Input) (cookies : Cookies) : Prop :=
  cookies = Cookies.create input.headers ∨
    ∃ draw, cookies = (Cookies.create input.headers).setCookie COOKIENAME (rndStr draw)

/-- A request that gets no session changes no session, and has no event. -/
structure Passed (config : Config W) (server server' : Server W) (input : Input)
    (outcome : Outcome) : Prop where
  response : (∃ refusal, Refusal input refusal ∧ outcome.response =
      (pipelineJobDone ((HttpContext.create input.request).setResponse refusal) false).1) ∨
    outcome.response = (pipelineJobDone (answer config input (Cookies.create input.headers)
      (HttpResponse.createError .tooManyRequests none)) false).1
  unnamed : outcome.session = none
  events : outcome.events = []
  world : server'.world = server.world
  created : server'.store.created = server.store.created
  kept : ∀ s, server'.store.Mem s → server.store.Mem s

/-- A request with a session works on that session alone. -/
structure Worked (config : Config W) (server server' : Server W) (input : Input)
    (outcome : Outcome) (session : Session) (cookies : Cookies) (work : Work W) : Prop where
  opened : Opened server input session
  sent : Sent input cookies
  routed : ∃ target, findRoute input.request.path.text = some target ∧
    serve config input target session server.world = some work
  served : Served config input session server.world work
  named : outcome.session = some session.ref
  events : outcome.events = work.events
  world : server'.world = work.world
  response : outcome.response = (pipelineJobDone (answer config input cookies work.response)
    false).1
  ref_lt : session.ref < server'.store.created
  created : server.store.created ≤ server'.store.created
  kept : ∀ s, server'.store.Mem s →
    s = noteReferrer input (work.response.setVersion input.request.version) work.session ∨
      (server.store.Mem s ∧ s.ref ≠ session.ref)

/-- A handler keeps the identity of its session. -/
theorem handled_ref {session : Session} {w : W} {work : Work W}
    (h : Handled config input session w work) : work.session.ref = session.ref := by
  cases h with
  | silent hmethod hupdated huser hsilent hresponse => rw [← (Prod.mk.inj hupdated).1]
  | shown hmethod hupdated =>
    simp only [page]
    rw [← (Prod.mk.inj hupdated).1]
  | _ => rfl

theorem served_ref {session : Session} {w : W} {work : Work W}
    (h : Served config input session w work) : work.session.ref = session.ref := by
  cases h with
  | plain hform h => exact handled_ref h
  | accepted hform htoken hsingle h =>
    have href := handled_ref h
    exact href
  | rejected hform => rfl

theorem noteReferrer_ref (response : HttpResponse) (session : Session) :
    (noteReferrer input response session).ref = session.ref := by
  unfold noteReferrer
  split <;> rfl

/-- The numbers of the sessions were given to them when they were created. -/
def Numbered (self : Server W) : Prop := ∀ s, self.store.Mem s → s.ref < self.store.created

theorem currentSession_spec {store store' : Store} {cookies : Cookies} {now : ℤ}
    {found : Option Session} (h : currentSession store cookies now = (store', found)) :
    store'.created = store.created ∧ (∀ s, store'.Mem s → store.Mem s) ∧
      ∀ session, found = some session → ∃ s, store.Mem s ∧ session = { s with atime := now } := by
  unfold currentSession at h
  split at h
  · obtain ⟨rfl, rfl⟩ := Prod.mk.inj h
    exact ⟨rfl, fun s hs => hs, by simp⟩
  · next sid _ =>
    obtain ⟨rfl, rfl⟩ := Prod.mk.inj h
    refine ⟨created_find, fun s hs => mem_find hs, fun session hsession => ?_⟩
    obtain ⟨s, hs, rfl⟩ := Option.map_eq_some_iff.mp hsession
    exact ⟨s, find_mem hs, rfl⟩

/-- The store and the session after the beginning of a request. -/
theorem openSession_cases {opened : Option (Session × Cookies)} {middle : Server W}
    (h : openSession config self input = some (middle, opened)) (hnum : Numbered self) :
    middle.world = self.world ∧ self.store.created ≤ middle.store.created ∧
      (opened = none → middle.store.created = self.store.created ∧
        ∀ s, middle.store.Mem s → self.store.Mem s) ∧
      ∀ session cookies, opened = some (session, cookies) →
        Opened self input session ∧ Sent input cookies ∧ session.ref < middle.store.created ∧
          ∀ s, middle.store.Mem s → self.store.Mem s ∨ s = session := by
  rcases hcurrent : currentSession (self.store.clean input.now)
    (Cookies.create input.headers) input.now with ⟨store, found⟩
  obtain ⟨hcreated, hmem, hfound⟩ := currentSession_spec hcurrent
  rw [created_clean] at hcreated
  have hkept : ∀ s, store.Mem s → self.store.Mem s := fun s hs => mem_clean (hmem s hs)
  cases found with
  | some session =>
    simp only [openSession, hcurrent, Option.some.injEq, Prod.mk.injEq] at h
    obtain ⟨rfl, rfl⟩ := h
    refine ⟨rfl, Nat.le_of_eq hcreated.symm, nofun, ?_⟩
    intro session' cookies heq
    obtain ⟨rfl, rfl⟩ := Prod.mk.inj (Option.some.inj heq)
    obtain ⟨s, hs, rfl⟩ := hfound session rfl
    have hs := mem_clean hs
    refine ⟨.inl ⟨s, hs, rfl⟩, .inl rfl, ?_, fun x hx => .inl (hkept x hx)⟩
    have hlt := hnum s hs
    dsimp only
    omega
  | none =>
    simp only [openSession, hcurrent, Option.bind_eq_bind, Option.bind_eq_some_iff] at h
    obtain ⟨id, _, h⟩ := h
    split at h
    · simp only [Option.bind_eq_some_iff, Option.pure_def, Option.some.injEq,
        Prod.mk.injEq] at h
      obtain ⟨⟨store', session⟩, hcreate, rfl, rfl⟩ := h
      obtain ⟨hmem', hcreated', draw, _, rfl⟩ := createSession_spec hcreate
      refine ⟨rfl, by simp only; omega, nofun, ?_⟩
      intro session' cookies heq
      obtain ⟨rfl, rfl⟩ := Prod.mk.inj (Option.some.inj heq)
      refine ⟨.inr ⟨draw, by rw [hcreated]⟩, .inr ⟨draw, rfl⟩, ?_, fun x hx => ?_⟩
      · simp only [newSession]
        omega
      · rcases hmem' x hx with hold | hnew
        · exact .inl (hkept x hold)
        · exact .inr hnew
    · obtain ⟨rfl, rfl⟩ := Prod.mk.inj (Option.some.inj h)
      refine ⟨?_, ?_, fun _ => ⟨?_, ?_⟩, ?_⟩
      · dsimp only
      · dsimp only
        omega
      · exact hcreated
      · exact hkept
      · intro session cookies heq
        cases heq

/-- What is stored after a piece of work, up to the referrer. -/
theorem stored_of_worked {A : Type*} {f : Session → A}
    (hreferrer : ∀ s path, f { s with referrer := path } = f s) {session : Session}
    {cookies : Cookies} {work : Work W}
    (hworked : Worked config self self' input outcome session cookies work) {s : Session}
    (hs : self'.store.Mem s) :
    (s.ref = session.ref ∧ f s = f work.session) ∨ (self.store.Mem s ∧ s.ref ≠ session.ref) := by
  rcases hworked.kept s hs with rfl | hold
  · refine .inl ⟨(noteReferrer_ref _ _).trans (served_ref hworked.served), ?_⟩
    unfold noteReferrer
    split
    · exact hreferrer _ _
    · rfl
  · exact .inr hold

theorem callNext_cases {target : Route} (hnum : Numbered self)
    (hroute : findRoute input.request.path.text = some target)
    (h : callNext config target self input = some (self', outcome)) :
    Passed config self self' input outcome ∨
      ∃ session cookies work, Worked config self self' input outcome session cookies work := by
  unfold callNext at h
  simp only [Option.bind_eq_bind, Option.bind_eq_some_iff] at h
  obtain ⟨⟨middle, opened⟩, hopen, h⟩ := h
  obtain ⟨hworld, hle, hnone, hsome⟩ := openSession_cases hopen hnum
  cases opened with
  | none =>
    simp only [Option.pure_def, Option.some.injEq, Prod.mk.injEq] at h
    obtain ⟨rfl, rfl⟩ := h
    obtain ⟨hcreated, hkept⟩ := hnone rfl
    exact .inl ⟨.inr (by dsimp only), by rfl, by rfl, hworld, hcreated, hkept⟩
  | some opened =>
    obtain ⟨session, cookies⟩ := opened
    simp only [Option.bind_eq_some_iff] at h
    obtain ⟨work, hserve, h⟩ := h
    obtain ⟨rfl, rfl⟩ := Prod.mk.inj (Option.some.inj h)
    obtain ⟨hopened, hsent, hlt, hkept⟩ := hsome session cookies rfl
    rw [hworld] at hserve
    have hserved := serve_cases hserve
    have href : (noteReferrer input (work.response.setVersion input.request.version)
        work.session).ref = session.ref := (noteReferrer_ref _ _).trans (served_ref hserved)
    refine .inr ⟨session, cookies, work, hopened, hsent, ⟨target, hroute, hserve⟩, hserved, ?_,
      rfl, rfl, rfl, hlt, hle, ?_⟩
    · simp only [href]
    · intro s hs
      rcases mem_put hs with hnew | ⟨hold, hne⟩
      · exact .inl hnew
      · rw [href] at hne
        rcases hkept s hold with hold | rfl
        · exact .inr ⟨hold, hne⟩
        · exact absurd rfl hne

/-- Every request either gets no session and changes none, or works on one. -/
theorem requestReceived_cases (hnum : Numbered self)
    (h : requestReceived config self input = some (self', outcome)) :
    Passed config self self' input outcome ∨
      ∃ session cookies work, Worked config self self' input outcome session cookies work := by
  have hrefuse : ∀ response, Refusal input response →
      refuse self input response = (self', outcome) → Passed config self self' input outcome := by
    intro response hrefusal heq
    obtain ⟨rfl, rfl⟩ := Prod.mk.inj heq
    exact ⟨.inl ⟨response, hrefusal, rfl⟩, rfl, rfl, rfl, rfl, fun s hs => hs⟩
  unfold requestReceived at h
  split at h
  · next hstatus => exact .inl (hrefuse _ (.error hstatus) (Option.some.inj h))
  · split at h
    · exact .inl (hrefuse _ .notFound (Option.some.inj h))
    · next target hroute =>
      split at h
      · obtain ⟨response, hresponse, heq⟩ := Option.map_eq_some_iff.mp h
        exact .inl (hrefuse _ (.methodNotAllowed hresponse) heq)
      · exact callNext_cases hnum hroute h

end cases

/-! ### Runs -/

/-- A request and what it did. -/
abbrev Trace := List (Input × Outcome)

/-- The runs of a server from its start. -/
def Runs (config : Config W) (opts : Option RateLimitOpts) (start : ℤ) (w : W) :
    Trace → Server W → Prop :=
  LabelledRuns.Run (LabelledRuns.stepOf (requestReceived config)) (Server.create opts start w)

/-- What happened in one session, in the order of the requests. -/
def history (trace : Trace) (ref : ℕ) : List Event :=
  trace.flatMap fun l => if l.2.session = some ref then l.2.events else []

theorem history_snoc (trace : Trace) (l : Input × Outcome) (ref : ℕ) :
    history (trace ++ [l]) ref =
      history trace ref ++ if l.2.session = some ref then l.2.events else [] := by
  simp [history]

/-- A property of a session and its history. It is kept by a server when it holds for
every new session, does not depend on the times and the referrer, and is kept by every
piece of work on a request that meets a condition. -/
structure Kept (config : Config W) (Q : Input → Prop) (P : List Event → Session → Prop) :
    Prop where
  fresh : ∀ ref id now, P [] (newSession ref id now)
  atime : ∀ events s now, P events s → P events { s with atime := now }
  referrer : ∀ events s path, P events s → P events { s with referrer := path }
  served : ∀ events s input (w : W) work, Q input → P events s →
    Served config input s w work → P (events ++ work.events) work.session

section runs

variable {config : Config W} {opts : Option RateLimitOpts} {start : ℤ} {w : W} {trace : Trace}
  {self : Server W}

theorem numbered_run (h : Runs config opts start w trace self) :
    Numbered self ∧ ∀ ref, self.store.created ≤ ref → history trace ref = [] := by
  induction h with
  | nil =>
    refine ⟨?_, fun ref _ => rfl⟩
    rintro s ⟨b, hs⟩
    simp [Server.create, Store.create] at hs
  | @snoc trace m m' l hrun hstep ih =>
    obtain ⟨hnum, hfresh⟩ := ih
    rcases requestReceived_cases hnum hstep with hpassed | ⟨session, cookies, work, hworked⟩
    · refine ⟨fun s hs => ?_, fun ref href => ?_⟩
      · rw [hpassed.created]
        exact hnum s (hpassed.kept s hs)
      · rw [hpassed.created] at href
        rw [history_snoc, hfresh ref href, hpassed.events, ite_self, List.append_nil]
    · refine ⟨fun s hs => ?_, fun ref href => ?_⟩
      · rcases hworked.kept s hs with rfl | ⟨hold, _⟩
        · rw [noteReferrer_ref, served_ref hworked.served]
          exact hworked.ref_lt
        · exact Nat.lt_of_lt_of_le (hnum s hold) hworked.created
      · have hne : ¬ l.2.session = some ref := by
          rw [hworked.named]
          intro heq
          have hlt := hworked.ref_lt
          rw [Option.some.inj heq] at hlt
          omega
        rw [history_snoc, hfresh ref (hworked.created.trans href), if_neg hne, List.append_nil]

/-- The session of a request has the property with the history before the request. -/
theorem kept_opened {Q : Input → Prop} {P : List Event → Session → Prop} (hP : Kept config Q P)
    (h : Runs config opts start w trace self)
    (hall : ∀ s, self.store.Mem s → P (history trace s.ref) s) {input : Input}
    {session : Session} (hopened : Opened self input session) :
    P (history trace session.ref) session := by
  rcases hopened with ⟨s, hs, rfl⟩ | ⟨draw, rfl⟩
  · exact hP.atime _ _ _ (hall s hs)
  · have hnone := (numbered_run h).2 self.store.created (Nat.le_refl _)
    simp only [newSession] at hnone ⊢
    rw [hnone]
    exact hP.fresh _ _ _

/-- A kept property holds of every session after every run of such requests. -/
theorem kept_run {Q : Input → Prop} {P : List Event → Session → Prop} (hP : Kept config Q P)
    (h : Runs config opts start w trace self) (hQ : ∀ l ∈ trace, Q l.1) :
    ∀ s, self.store.Mem s → P (history trace s.ref) s := by
  induction h with
  | nil =>
    rintro s ⟨b, hs⟩
    simp [Server.create, Store.create] at hs
  | @snoc trace m m' l hrun hstep ih =>
    have ih := ih fun k hk => hQ k (List.mem_append_left _ hk)
    intro s hs
    rcases requestReceived_cases (numbered_run hrun).1 hstep with hpassed |
      ⟨session, cookies, work, hworked⟩
    · rw [history_snoc, hpassed.events, ite_self, List.append_nil]
      exact ih s (hpassed.kept s hs)
    · rcases hworked.kept s hs with rfl | ⟨hold, hne⟩
      · have hopened := kept_opened hP hrun ih hworked.opened
        have hserved := hP.served _ _ _ _ _ (hQ l (by simp)) hopened hworked.served
        have href : work.session.ref = session.ref := served_ref hworked.served
        rw [noteReferrer_ref, href, history_snoc, hworked.named, if_pos rfl, hworked.events]
        unfold noteReferrer
        split
        · exact hP.referrer _ _ _ hserved
        · exact hserved
      · have hnot : ¬ l.2.session = some s.ref := by
          rw [hworked.named]
          intro heq
          exact hne (Option.some.inj heq).symm
        rw [history_snoc, if_neg hnot, List.append_nil]
        exact ih s hold

/-- What every event of a piece of work has to do with the events before it holds along
every history. -/
theorem along_history {P : List Event → Session → Prop} (hP : Kept config (fun _ => True) P)
    {Q : List Event → Event → Prop}
    (hQ : ∀ events s input (w : W) work, P events s → Served config input s w work →
      ∀ before e after, work.events = before ++ e :: after → Q (events ++ before) e)
    (h : Runs config opts start w trace self) (ref : ℕ) :
    LabelledRuns.Along Q (history trace ref) := by
  induction h with
  | nil => exact LabelledRuns.along_nil Q
  | @snoc trace m m' l hrun hstep ih =>
    rw [history_snoc]
    rcases requestReceived_cases (numbered_run hrun).1 hstep with hpassed |
      ⟨session, cookies, work, hworked⟩
    · rw [hpassed.events, ite_self, List.append_nil]
      exact ih
    · have hopened := kept_opened hP hrun (kept_run hP hrun fun _ _ => trivial) hworked.opened
      rw [hworked.named, hworked.events]
      by_cases href : session.ref = ref
      · subst href
        rw [if_pos rfl]
        exact LabelledRuns.along_append ih (hQ _ _ _ _ _ hopened hworked.served)
      · rw [if_neg fun heq => href (Option.some.inj heq), List.append_nil]
        exact ih

end runs

/-! ### A server with one realm -/

/-- The only checker accepts everyone. -/
def sampleConfig : Config Unit where
  registry := ⟨AList.insert (str "any") (fun w _ _ => ((true, none), w)) ∅,
    AList.insert DEFAULT_REALM ⟨[str "any"], none⟩ ∅, none⟩
  order := Tables.Iteration.entries
  trusted := ⟨0, ⟨false, false, false⟩⟩
  loginHtml := str "%%CSRFTOKEN%%"
  logoutHtml := str "%%CSRFTOKEN%%"
  zlib := ⟨id, id⟩

/-- A request whose random draws are all zero. -/
def sampleInput (method : HttpMethod) (path : Buf 8192) (headers : List Header) (body : Str) :
    Input where
  request := { HttpRequest.create with
    method
    path
    version := .http11
    headers := headers.foldl HeaderSet.add HeaderSet.create
    bodySize := body.length
    bodypos := body.length
    body := body.map some }
  memory _ := 0
  peer := ⟨str "127.0.0.1", none⟩
  now := 0
  sessionClock := some ⟨0, 0, Ratelimit.Timespec.zero_lt_second⟩
  idDraws := [List.replicate 32 0]
  tokenDraw := List.replicate 32 0
  lifting := none
  counting := none

/-- The cookie of the first session. -/
def sampleCookie : Header :=
  ⟨str "Cookie", COOKIENAME ++ str "=" ++ rndStr (List.replicate 32 0), by decide +kernel⟩

theorem login_fits : (str "/login").length < 8192 := by decide

def sampleForm : Input := sampleInput .get ⟨str "/login", login_fits⟩ [] []

/-- The form that was shown, sent with a user and a password. -/
def sampleLogin : Input :=
  sampleInput .post ⟨str "/login", login_fits⟩
    [sampleCookie, ⟨str "Content-Type", str "application/x-www-form-urlencoded", formType_valid⟩]
    (PROPNAME ++ str "=" ++ rndStr (List.replicate 32 0) ++ str "&login=1&user=u&pw=p")

def sampleRoot : Input := sampleInput .get ⟨str "/", Buf.root_fits⟩ [sampleCookie] []

end Swad.Pipeline
