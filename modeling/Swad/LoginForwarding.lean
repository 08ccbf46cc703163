import Swad.CsrfTokens
import Swad.LoginProvenance
import Swad.PendingValue

/-!
The realm and the target that a session hands on from a denied request to the login
form, and from a failed login back to the form. Both are values that wait until a form
takes them over; a form that is fetched again finds nothing waiting.
-/
namespace Swad.LoginForwarding

open Bytes Http Httprequest Httpresponse Httpserver Middleware Authenticator SessionStore Handlers
  Pipeline PendingValue LabelledRuns Ratelimit CsrfTokens

variable {W : Type}

def realmPlaces (s : Session) : Places Str := ⟨s.authRealm, s.loginRealm⟩

def rdrPlaces (s : Session) : Places Str := ⟨s.authRdr, s.loginRdr⟩

def places (s : Session) : Places Str × Places Str := (realmPlaces s, rdrPlaces s)

/-- A request for the login form that names neither a realm nor a target. -/
structure Reload (input : Input) : Prop where
  method : input.request.method = .get
  form : input.form = none
  routed : findRoute input.request.path.text = some .login
  path : input.pathParser.path = Handlers.route
  realm : given input (str "X-SWAD-Realm") (str "realm") = none
  rdr : given input (str "X-SWAD-Rdr") (str "rdr") = none

/-- A login that was tried and did not succeed. -/
def Fails (l : Input × Outcome) : Prop :=
  (∃ realm name inquiries, .attempted realm name inquiries ∈ l.2.events) ∧
    ∀ realm u, .loggedIn realm u ∉ l.2.events

/-- A POST to the login route that did not even try to log in. -/
structure Idles (l : Input × Outcome) : Prop where
  method : l.1.request.method = .post
  routed : findRoute l.1.request.path.text = some .login
  idle : ∀ e ∈ l.2.events, actsOnLogin e = false

/-- The requests of a session are such forms and failed logins, in this order. -/
inductive Follows (ref : ℕ) : Trace → List Move → Prop
  | nil : Follows ref [] []
  | other {tr : Trace} {ms : List Move} {l : Input × Outcome} :
      Follows ref tr ms → l.2.session ≠ some ref → Follows ref (tr ++ [l]) ms
  | idle {tr : Trace} {ms : List Move} {l : Input × Outcome} :
      Follows ref tr ms → l.2.session = some ref → Idles l → Follows ref (tr ++ [l]) ms
  | take {tr : Trace} {ms : List Move} {l : Input × Outcome} :
      Follows ref tr ms → l.2.session = some ref → Reload l.1 →
        Follows ref (tr ++ [l]) (ms ++ [.take])
  | putBack {tr : Trace} {ms : List Move} {l : Input × Outcome} :
      Follows ref tr ms → l.2.session = some ref → Fails l →
        Follows ref (tr ++ [l]) (ms ++ [.putBack])

section handlers

variable {config : Config W} {input : Input} {session : Session} {w : W} {work : Work W}

theorem showForm_places {realm path : Str}
    (h : showForm config input session w realm path = some work) :
    realmPlaces work.session = realmPlaces session ∧ rdrPlaces work.session = rdrPlaces session := by
  unfold showForm at h
  split at h
  · obtain rfl := Option.some.inj h
    exact ⟨rfl, rfl⟩
  · dsimp only at h
    split at h
    · obtain ⟨response, _, rfl⟩ := redirect_eq_some h
      exact ⟨rfl, rfl⟩
    · obtain rfl := Option.some.inj h
      exact ⟨rfl, rfl⟩

theorem serve_reload {target : Route} (hroute : findRoute input.request.path.text = some target)
    (h : serve config input target session w = some work) (hreload : Reload input) :
    realmPlaces work.session = move DEFAULT_REALM (realmPlaces session) .take ∧
      rdrPlaces work.session = move (str "/") (rdrPlaces session) .take := by
  obtain rfl : Route.login = target := Option.some.inj (hreload.routed.symm.trans hroute)
  have hrealm : loginHandlerRealm input = DEFAULT_REALM := by
    rw [loginHandlerRealm, hreload.realm]
    rfl
  have hrdr : loginHandlerRdr input = str "/" := by
    rw [loginHandlerRdr, hreload.rdr]
    rfl
  have hmethod : ¬ input.request.method = .post := by
    rw [hreload.method]
    decide
  have hhandler : loginHandler config input session w = some work := by
    unfold serve csrfProtect at h
    rw [hreload.form] at h
    exact h
  unfold loginHandler at hhandler
  rw [if_pos hreload.path, if_neg hmethod] at hhandler
  obtain ⟨hrealmPlaces, hrdrPlaces⟩ := showForm_places hhandler
  rw [hrealmPlaces, hrdrPlaces, ← hrealm, ← hrdr]
  exact ⟨rfl, rfl⟩

theorem loggedIn_mem {authInfos : AuthInfos} {name : Str} {attempt : Attempt} {w : W}
    {result : LoginResult W} (h : login config.registry authInfos name attempt w = result) :
    (result.verdict = .accepted →
      ∃ u, .loggedIn name u ∈ loginEvents name attempt.user result) ∧
    ∀ realm u, .loggedIn realm u ∈ loginEvents name attempt.user result →
      realm = name ∧ result.verdict = .accepted := by
  obtain ⟨_, _, haccepted⟩ := login_spec attempt w h
  unfold loginEvents
  constructor
  · intro hverdict
    obtain ⟨_, u, _, hu, _⟩ := haccepted hverdict
    exact ⟨u, by simp [hverdict, hu]⟩
  · intro realm u hmem
    by_cases hverdict : result.verdict = .accepted
    · refine ⟨?_, hverdict⟩
      rw [if_pos hverdict] at hmem
      simp only [List.mem_cons, reduceCtorEq, false_or, List.mem_map] at hmem
      obtain ⟨_, _, heq⟩ := hmem
      exact (Event.loggedIn.inj heq).1.symm
    · rw [if_neg hverdict] at hmem
      simp at hmem

theorem handled_fails (h : Handled config input session w work)
    (hattempt : ∃ realm name inquiries, .attempted realm name inquiries ∈ work.events)
    (hno : ∀ realm u, .loggedIn realm u ∉ work.events) :
    realmPlaces work.session = move DEFAULT_REALM (realmPlaces session) .putBack ∧
      rdrPlaces work.session = move (str "/") (rdrPlaces session) .putBack := by
  obtain ⟨_, _, _, he⟩ := hattempt
  cases h with
  | loggedIn hpost hform hresult hverdict hresponse hrealm =>
    obtain ⟨u, hu⟩ := (loggedIn_mem hresult).1 hverdict
    exact absurd hu (hno _ _)
  | loginFailed hpost hform hresult hverdict hresponse hrealm =>
    refine ⟨?_, rfl⟩
    simp only [realmPlaces, move, hrealm, Option.getD_some]
  | _ => simp [page, notFound] at he

theorem handled_idles (h : Handled config input session w work)
    (hpost : input.request.method = .post)
    (hroute : findRoute input.request.path.text = some .login)
    (hidle : ∀ e ∈ work.events, actsOnLogin e = false) :
    realmPlaces work.session = realmPlaces session ∧ rdrPlaces work.session = rdrPlaces session := by
  cases h with
  | loggedIn => exact absurd (hidle _ (List.mem_cons_self ..)) (by simp [actsOnLogin])
  | loginFailed => exact absurd (hidle _ (List.mem_cons_self ..)) (by simp [actsOnLogin])
  | silent hmethod => exact absurd hpost hmethod
  | shown hmethod => exact absurd hpost hmethod
  | denied hpath => exact absurd (LoginProvenance.findRoute_root hpath hroute) (by decide)
  | _ => exact ⟨rfl, rfl⟩

/-- A login authenticates for the realm of the form and leads to its target. -/
theorem handled_login (h : Handled config input session w work) {realm : Str} {u : User}
    (hu : .loggedIn realm u ∈ work.events) :
    session.loginRealm = some realm ∧
      HttpResponse.createRedirect .ok (session.loginRdr.getD (str "/")) = some work.response := by
  cases h with
  | loggedIn hpost hform hresult hverdict hresponse hrealm =>
    obtain ⟨rfl, _⟩ := (loggedIn_mem hresult).2 _ _ hu
    exact ⟨hrealm, hresponse⟩
  | loginFailed hpost hform hresult hverdict hresponse hrealm =>
    exact absurd ((loggedIn_mem hresult).2 _ _ hu).2 hverdict
  | _ => simp [page, notFound] at hu

theorem handled_denied (h : Handled config input session w work) {realm : Str}
    (hdenied : .answered realm none ∈ work.events) :
    realmPlaces work.session = ⟨some (loginHandlerRealm input), session.loginRealm⟩ ∧
      rdrPlaces work.session = ⟨some (loginHandlerRdr input), session.loginRdr⟩ := by
  cases h with
  | denied hpath huser hresponse => exact ⟨rfl, rfl⟩
  | _ => simp [page, notFound, loginEvents] at hdenied

theorem served_fails (h : Served config input session w work)
    (hattempt : ∃ realm name inquiries, .attempted realm name inquiries ∈ work.events)
    (hno : ∀ realm u, .loggedIn realm u ∉ work.events) :
    realmPlaces work.session = move DEFAULT_REALM (realmPlaces session) .putBack ∧
      rdrPlaces work.session = move (str "/") (rdrPlaces session) .putBack := by
  cases h with
  | plain hform hhandled => exact handled_fails hhandled hattempt hno
  | accepted hform htoken hsingle hhandled =>
    have hplaces := handled_fails hhandled (by simpa using hattempt) (by simpa using hno)
    exact hplaces
  | rejected hform => simp at hattempt

theorem served_idles (h : Served config input session w work)
    (hpost : input.request.method = .post)
    (hroute : findRoute input.request.path.text = some .login)
    (hidle : ∀ e ∈ work.events, actsOnLogin e = false) :
    realmPlaces work.session = realmPlaces session ∧ rdrPlaces work.session = rdrPlaces session := by
  cases h with
  | plain hform hhandled => exact handled_idles hhandled hpost hroute hidle
  | accepted hform htoken hsingle hhandled =>
    have hplaces := handled_idles hhandled hpost hroute fun e he =>
      hidle e (List.mem_cons_of_mem _ he)
    exact hplaces
  | rejected hform => exact ⟨rfl, rfl⟩

theorem served_login (h : Served config input session w work) {realm : Str} {u : User}
    (hu : .loggedIn realm u ∈ work.events) :
    session.loginRealm = some realm ∧
      HttpResponse.createRedirect .ok (session.loginRdr.getD (str "/")) = some work.response := by
  cases h with
  | plain hform hhandled => exact handled_login hhandled hu
  | accepted hform htoken hsingle hhandled =>
    have hlogin := handled_login hhandled (by simpa using hu)
    exact hlogin
  | rejected hform => simp at hu

theorem served_denied (h : Served config input session w work) {realm : Str}
    (hdenied : .answered realm none ∈ work.events) :
    realmPlaces work.session = ⟨some (loginHandlerRealm input), session.loginRealm⟩ ∧
      rdrPlaces work.session = ⟨some (loginHandlerRdr input), session.loginRdr⟩ := by
  cases h with
  | plain hform hhandled => exact handled_denied hhandled hdenied
  | accepted hform htoken hsingle hhandled =>
    have hplaces := handled_denied hhandled (by simpa using hdenied)
    exact hplaces
  | rejected hform => simp at hdenied

end handlers

/-- What the session with a number has waiting and current, if it is still there. -/
structure Stored (ref : ℕ) (p q : Places Str) (server : Server W) : Prop where
  lt : ref < server.store.created
  places : ∀ s, server.store.Mem s → s.ref = ref → realmPlaces s = p ∧ rdrPlaces s = q

section runs

variable {config : Config W} {opts : Option RateLimitOpts} {start : ℤ} {w : W} {trace : Trace}
  {server server' : Server W} {input : Input} {outcome : Outcome} {ref : ℕ} {p q : Places Str}

theorem stored_of_work {session : Session} {cookies : Cookies} {work : Work W}
    (hworked : Worked config server server' input outcome session cookies work) :
    Stored session.ref (realmPlaces work.session) (rdrPlaces work.session) server' where
  lt := hworked.ref_lt
  places s hs href := by
    rcases stored_of_worked (f := places) (fun _ _ => rfl) hworked hs with ⟨_, hsame⟩ | ⟨_, hne⟩
    · exact Prod.mk.inj hsame
    · exact absurd href hne

/-- A request in another session changes nothing. -/
theorem stored_other (h : Stored ref p q server) (hnum : Numbered server)
    (hstep : requestReceived config server input = some (server', outcome))
    (hother : outcome.session ≠ some ref) : Stored ref p q server' := by
  rcases requestReceived_cases hnum hstep with hpassed | ⟨session, cookies, work, hworked⟩
  · refine ⟨?_, fun s hs => h.places s (hpassed.kept s hs)⟩
    rw [hpassed.created]
    exact h.lt
  · refine ⟨Nat.lt_of_lt_of_le h.lt hworked.created, fun s hs href => ?_⟩
    rcases stored_of_worked (f := places) (fun _ _ => rfl) hworked hs with ⟨hsession, _⟩ | ⟨hold, _⟩
    · rw [hworked.named, ← hsession, href] at hother
      exact absurd rfl hother
    · exact h.places s hold href

/-- A request in the session works on what is stored for it. -/
theorem stored_own (h : Stored ref p q server) (hnum : Numbered server)
    (hstep : requestReceived config server input = some (server', outcome))
    (hown : outcome.session = some ref) :
    ∃ session cookies work, Worked config server server' input outcome session cookies work ∧
      realmPlaces session = p ∧ rdrPlaces session = q ∧
        Stored ref (realmPlaces work.session) (rdrPlaces work.session) server' := by
  rcases requestReceived_cases hnum hstep with hpassed | ⟨session, cookies, work, hworked⟩
  · rw [hpassed.unnamed] at hown
    cases hown
  · obtain rfl : session.ref = ref := Option.some.inj (hworked.named.symm.trans hown)
    refine ⟨session, cookies, work, hworked, ?_⟩
    rcases hworked.opened with ⟨s, hs, rfl⟩ | ⟨draw, rfl⟩
    · obtain ⟨hp, hq⟩ := h.places s hs rfl
      exact ⟨hp, hq, stored_of_work hworked⟩
    · exact absurd h.lt (Nat.lt_irrefl _)

/-- The two values move as the requests of the session say. -/
theorem stored_run {ms : List Move} {tr : Trace} (hrun : Runs config opts start w trace server)
    (h : Stored ref p q server)
    (hmid : Run (stepOf (requestReceived config)) server tr server')
    (hfollows : Follows ref tr ms) :
    Stored ref (moves DEFAULT_REALM p ms) (moves (str "/") q ms) server' := by
  have hnum : ∀ {tr : Trace} {m : Server W},
      Run (stepOf (requestReceived config)) server tr m → Numbered m :=
    fun hm => (numbered_run (hrun.trans hm)).1
  induction hfollows generalizing server' with
  | nil =>
    obtain rfl := hmid.eq_of_nil
    exact h
  | other hprev hother ih =>
    obtain ⟨m, hm, hstep⟩ := hmid.last
    exact stored_other (ih hm) (hnum hm) hstep hother
  | idle hprev hown hidles ih =>
    obtain ⟨m, hm, hstep⟩ := hmid.last
    obtain ⟨session, cookies, work, hworked, hp, hq, hstored⟩ :=
      stored_own (ih hm) (hnum hm) hstep hown
    obtain ⟨hp', hq'⟩ := served_idles hworked.served hidles.method hidles.routed
      (by rw [← hworked.events]; exact hidles.idle)
    rwa [hp', hq', hp, hq] at hstored
  | take hprev hown hreload ih =>
    obtain ⟨m, hm, hstep⟩ := hmid.last
    obtain ⟨session, cookies, work, hworked, hp, hq, hstored⟩ :=
      stored_own (ih hm) (hnum hm) hstep hown
    obtain ⟨target, hroute, hserve⟩ := hworked.routed
    obtain ⟨hp', hq'⟩ := serve_reload hroute hserve hreload
    rw [moves_snoc, moves_snoc]
    rwa [hp', hq', hp, hq] at hstored
  | putBack hprev hown hfails ih =>
    obtain ⟨m, hm, hstep⟩ := hmid.last
    obtain ⟨session, cookies, work, hworked, hp, hq, hstored⟩ :=
      stored_own (ih hm) (hnum hm) hstep hown
    rw [Fails, hworked.events] at hfails
    obtain ⟨hp', hq'⟩ := served_fails hworked.served hfails.1 hfails.2
    rw [moves_snoc, moves_snoc]
    rwa [hp', hq', hp, hq] at hstored

/-- The request is answered with a redirect that ends a login. -/
def LeadsTo (config : Config W) (input : Input) (outcome : Outcome) (target : Str) : Prop :=
  ∃ cookies response, HttpResponse.createRedirect .ok target = some response ∧
    outcome.response = (pipelineJobDone (answer config input cookies response) false).1

/-- After a request for the root that was denied, the next successful login of the session
is for its realm and leads to its target exactly when every login form but the first was
fetched after a failed login, and the form came first: a form that is fetched again resets
both values, and a failed login with an older form replaces them. -/
theorem login_for_denied {denied login : Input} {atDenial atLogin : Outcome}
    {m₀ m₁ m₂ m₃ : Server W} {tr : Trace} {ms : List Move} {realm name : Str} {u : User}
    (hrun : Runs config opts start w trace m₀)
    (hdenied : requestReceived config m₀ denied = some (m₁, atDenial))
    (href : atDenial.session = some ref) (hanswer : .answered name none ∈ atDenial.events)
    (hmid : Run (stepOf (requestReceived config)) m₁ tr m₂) (hfollows : Follows ref tr ms)
    (htake : .take ∈ ms) (hlogin : requestReceived config m₂ login = some (m₃, atLogin))
    (href' : atLogin.session = some ref) (hu : .loggedIn realm u ∈ atLogin.events) :
    ∃ session target, Opened m₀ denied session ∧ session.ref = ref ∧
      LeadsTo config login atLogin target ∧
      ((realm = loginHandlerRealm denied ∧ target = loginHandlerRdr denied) ↔
        if Twice ms then
          loginHandlerRealm denied = DEFAULT_REALM ∧ loginHandlerRdr denied = str "/"
        else ms.head? = some .take ∨
          (session.loginRealm.getD DEFAULT_REALM = loginHandlerRealm denied ∧
            session.loginRdr.getD (str "/") = loginHandlerRdr denied)) := by
  have hlabel : stepOf (requestReceived config) m₀ (denied, atDenial) m₁ := hdenied
  have hrun₁ : Runs config opts start w (trace ++ [(denied, atDenial)]) m₁ := Run.snoc hrun hlabel
  rcases requestReceived_cases (numbered_run hrun).1 hdenied with hpassed |
    ⟨session, cookies, work, hworked⟩
  · rw [hpassed.unnamed] at href
    cases href
  obtain rfl : session.ref = ref := Option.some.inj (hworked.named.symm.trans href)
  rw [hworked.events] at hanswer
  obtain ⟨hrealm, hrdr⟩ := served_denied hworked.served hanswer
  have hstored := stored_of_work hworked
  rw [hrealm, hrdr] at hstored
  have hstored₂ := stored_run hrun₁ hstored hmid hfollows
  obtain ⟨session₂, cookies₂, work₂, hworked₂, hp, hq, _⟩ :=
    stored_own hstored₂ (numbered_run (hrun₁.trans hmid)).1 hlogin href'
  rw [hworked₂.events] at hu
  obtain ⟨hcurrent, hredirect⟩ := served_login hworked₂.served hu
  have hne : ms ≠ [] := List.ne_nil_of_mem htake
  have hrealmValue := value_of_pending DEFAULT_REALM (loginHandlerRealm denied)
    session.loginRealm hne
  have hrdrValue := value_of_pending (str "/") (loginHandlerRdr denied) session.loginRdr hne
  rw [← hp, Places.value, realmPlaces, hcurrent, Option.getD_some] at hrealmValue
  rw [← hq, Places.value, rdrPlaces] at hrdrValue
  refine ⟨session, _, hworked.opened, rfl, ⟨cookies₂, _, hredirect, hworked₂.response⟩, ?_⟩
  rw [hrealmValue, hrdrValue]
  by_cases htwice : Twice ms
  · rw [if_pos htwice, if_pos htwice, if_pos htwice]
    exact and_congr eq_comm eq_comm
  · rw [if_neg htwice, if_neg htwice, if_neg htwice]
    by_cases hhead : ms.head? = some .take
    · rw [if_pos hhead, if_pos hhead]
      exact iff_of_true ⟨rfl, rfl⟩ (.inl hhead)
    · rw [if_neg hhead, if_neg hhead]
      exact (or_iff_right hhead).symm

end runs

/-! ### A form that is fetched again -/

def sampleUser : User := ⟨str "u", none, str "any"⟩

def sampleDenied (path : Buf 8192) : Input := sampleInput .get path [] []

def sampleReload : Input := sampleInput .get ⟨str "/login", login_fits⟩ [sampleCookie] []

theorem reload_sampleReload : Reload sampleReload := by
  refine ⟨rfl, ?_, ?_, ?_, ?_, ?_⟩ <;> decide +kernel

/-- The session of every answer, and whether it denied a realm or ended a login. -/
def sampleEvents (name : Str) (l : Input × Outcome) : Option ℕ × Bool × Bool :=
  (l.2.session, decide (.answered name none ∈ l.2.events),
    decide (.loggedIn DEFAULT_REALM sampleUser ∈ l.2.events))

theorem login_for_denied_sample : ∃ server server' outcome,
    requestReceived sampleConfig server sampleLogin = some (server', outcome) ∧
      LeadsTo sampleConfig sampleLogin outcome (str "/x") := by
  have hexec : ((exec (requestReceived sampleConfig) (Server.create none 0 ())
      [sampleDenied ⟨str "/?rdr=/x", by decide⟩, sampleReload, sampleLogin]).map fun r =>
        r.2.map (sampleEvents DEFAULT_REALM)) =
      some [(some 0, true, false), (some 0, false, false), (some 0, false, true)] := by
    decide +kernel
  obtain ⟨⟨m₃, full⟩, hsome, hevents⟩ := Option.map_eq_some_iff.mp hexec
  obtain ⟨m₁, atDenial, _, hdenied, hsome₁, rfl⟩ := exec_cons hsome
  obtain ⟨m₂, atReload, _, hreload, hsome₂, rfl⟩ := exec_cons hsome₁
  obtain ⟨m₄, atLogin, _, hlogin, hsome₃, rfl⟩ := exec_cons hsome₂
  obtain ⟨rfl, rfl⟩ := Prod.mk.inj (Option.some.inj hsome₃)
  simp only [List.map_cons, List.map_nil, sampleEvents, List.cons.injEq, Prod.mk.injEq,
    decide_eq_true_eq, and_true] at hevents
  obtain ⟨⟨href, hanswer, _⟩, ⟨href', _, _⟩, href'', _, hu⟩ := hevents
  have hfollows : Follows 0 ([] ++ [(sampleReload, atReload)]) ([] ++ [.take]) :=
    .take .nil href' reload_sampleReload
  have hlabel : stepOf (requestReceived sampleConfig) m₁ (sampleReload, atReload) m₂ := hreload
  obtain ⟨_, target, _, _, hleads, hiff⟩ :=
    login_for_denied Run.nil hdenied href hanswer (Run.single hlabel) hfollows (by simp)
      hlogin href'' hu
  obtain ⟨_, rfl⟩ := hiff.mpr (by rw [if_neg (by decide)]; exact .inl rfl)
  exact ⟨m₂, m₄, atLogin, hlogin, hleads⟩

/-- The form is fetched twice before the login, which then is for another realm. -/
theorem reload_loses_realm :
    ¬ ∀ (trace tr : Trace) (m₀ m₁ m₂ m₃ : Server Unit) (denied login : Input)
      (atDenial atLogin : Outcome) (ref : ℕ) (ms : List Move) (realm name : Str) (u : User),
      Runs sampleConfig none 0 () trace m₀ →
        requestReceived sampleConfig m₀ denied = some (m₁, atDenial) →
        atDenial.session = some ref → .answered name none ∈ atDenial.events →
        Run (stepOf (requestReceived sampleConfig)) m₁ tr m₂ → Follows ref tr ms → .take ∈ ms →
        requestReceived sampleConfig m₂ login = some (m₃, atLogin) →
        atLogin.session = some ref → .loggedIn realm u ∈ atLogin.events →
        realm = loginHandlerRealm denied ∧
          LeadsTo sampleConfig login atLogin (loginHandlerRdr denied) := by
  intro hall
  have hexec : ((exec (requestReceived sampleConfig) (Server.create none 0 ())
      [sampleDenied ⟨str "/?realm=A&rdr=/x", by decide⟩, sampleReload, sampleReload,
        sampleLogin]).map fun r => r.2.map (sampleEvents (str "A"))) =
      some [(some 0, true, false), (some 0, false, false), (some 0, false, false),
        (some 0, false, true)] := by
    decide +kernel
  obtain ⟨⟨m, full⟩, hsome, hevents⟩ := Option.map_eq_some_iff.mp hexec
  obtain ⟨m₁, atDenial, _, hdenied, hsome₁, rfl⟩ := exec_cons hsome
  obtain ⟨m₂, atReload, _, hreload, hsome₂, rfl⟩ := exec_cons hsome₁
  obtain ⟨m₃, atReload', _, hreload', hsome₃, rfl⟩ := exec_cons hsome₂
  obtain ⟨m₄, atLogin, _, hlogin, hsome₄, rfl⟩ := exec_cons hsome₃
  obtain ⟨rfl, rfl⟩ := Prod.mk.inj (Option.some.inj hsome₄)
  simp only [List.map_cons, List.map_nil, sampleEvents, List.cons.injEq, Prod.mk.injEq,
    decide_eq_true_eq, and_true] at hevents
  obtain ⟨⟨href, hanswer, _⟩, ⟨href', _, _⟩, ⟨href'', _, _⟩, hrefLogin, _, hu⟩ := hevents
  have hfollows : Follows 0 (([] ++ [(sampleReload, atReload)]) ++ [(sampleReload, atReload')])
      (([] ++ [.take]) ++ [.take]) :=
    .take (.take .nil href' reload_sampleReload) href'' reload_sampleReload
  have hlabel : stepOf (requestReceived sampleConfig) m₁ (sampleReload, atReload) m₂ := hreload
  have hlabel' : stepOf (requestReceived sampleConfig) m₂ (sampleReload, atReload') m₃ := hreload'
  have hmid := Run.snoc (Run.single hlabel) hlabel'
  obtain ⟨hrealm, _⟩ := hall [] _ _ _ _ _ _ _ _ _ 0 _ _ _ _ Run.nil hdenied href hanswer hmid
    hfollows (by simp) hlogin hrefLogin hu
  revert hrealm
  decide +kernel

end Swad.LoginForwarding
