import Swad.LoginForwarding

/-!
The whole way of a login. A request for the root is denied, the form is fetched and sent
with its token, and the request for the root is answered, whatever the requests of other
sessions in between are. All that a session needs to keep lies in its properties, and
other requests do not touch them.
-/
namespace Swad.LoginFlow

open Bytes Http Httprequest Httpresponse Httpserver Middleware Authenticator SessionStore Handlers
  Pipeline LabelledRuns Ratelimit LoginForwarding LoginProvenance

variable {W : Type}

/-- A property of sessions that does not look at the last access and the referrer. -/
structure Lasting (P : Session → Prop) : Prop where
  atime : ∀ s now, P s → P { s with atime := now }
  referrer : ∀ s path, P s → P { s with referrer := path }

/-- The number was given to a session, which has the property if it is still there. -/
structure At (ref : ℕ) (P : Session → Prop) (server : Server W) : Prop where
  lt : ref < server.store.created
  holds : ∀ s, server.store.Mem s → s.ref = ref → P s

section steps

variable {config : Config W} {opts : Option RateLimitOpts} {start : ℤ} {w : W} {trace tr : Trace}
  {server server' : Server W} {input : Input} {outcome : Outcome} {ref : ℕ}
  {P : Session → Prop}

theorem at_of_worked (hP : Lasting P) {session : Session} {cookies : Cookies} {work : Work W}
    (hworked : Worked config server server' input outcome session cookies work)
    (hwork : P work.session) : At session.ref P server' := by
  refine ⟨hworked.ref_lt, fun s hs href => ?_⟩
  rcases hworked.kept s hs with rfl | ⟨_, hne⟩
  · unfold noteReferrer
    split
    · exact hP.referrer _ _ hwork
    · exact hwork
  · exact absurd href hne

theorem At.other (h : At ref P server) (hnum : Numbered server)
    (hstep : requestReceived config server input = some (server', outcome))
    (hother : outcome.session ≠ some ref) : At ref P server' := by
  rcases requestReceived_cases hnum hstep with hpassed | ⟨session, cookies, work, hworked⟩
  · refine ⟨?_, fun s hs => h.holds s (hpassed.kept s hs)⟩
    rw [hpassed.created]
    exact h.lt
  · refine ⟨Nat.lt_of_lt_of_le h.lt hworked.created, fun s hs href => ?_⟩
    rcases hworked.kept s hs with rfl | ⟨hold, _⟩
    · rw [noteReferrer_ref, served_ref hworked.served] at href
      rw [hworked.named, href] at hother
      exact absurd rfl hother
    · exact h.holds s hold href

/-- The session is found as it was left. -/
theorem At.own (h : At ref P server) (hP : Lasting P) (hnum : Numbered server)
    (hstep : requestReceived config server input = some (server', outcome))
    (hown : outcome.session = some ref) :
    ∃ session cookies work, Worked config server server' input outcome session cookies work ∧
      session.ref = ref ∧ P session := by
  rcases requestReceived_cases hnum hstep with hpassed | ⟨session, cookies, work, hworked⟩
  · rw [hpassed.unnamed] at hown
    cases hown
  · obtain rfl : session.ref = ref := Option.some.inj (hworked.named.symm.trans hown)
    refine ⟨session, cookies, work, hworked, rfl, ?_⟩
    rcases hworked.opened with ⟨s, hs, rfl⟩ | ⟨draw, rfl⟩
    · exact hP.atime s input.now (h.holds s hs rfl)
    · exact absurd h.lt (Nat.lt_irrefl _)

/-- Requests of other sessions, as many as there are. -/
theorem At.others (hrun : Runs config opts start w trace server) (h : At ref P server)
    (hmid : Run (stepOf (requestReceived config)) server tr server')
    (hothers : ∀ l ∈ tr, l.2.session ≠ some ref) : At ref P server' := by
  induction hmid with
  | nil => exact h
  | @snoc tr m m' l hprev hstep ih =>
    have hbefore := ih fun k hk => hothers k (List.mem_append_left _ hk)
    exact hbefore.other (numbered_run (hrun.trans hprev)).1 hstep
      (hothers l (List.mem_append_right _ (List.mem_singleton_self l)))

end steps

/-! ### What the handlers need and leave -/

/-- A checker of the realm accepts these credentials when they are sent, after those before it
refused. -/
def Accepts (registry : Registry W) (realm user pw : Str) (w : W) : Prop :=
  ∃ r u, registry.realms.lookup realm = some r ∧ u.username = user ∧
    AcceptedBy registry r.checkers pw w u

/-- The form of the login page, sent with a token and credentials. -/
structure Sends (input : Input) (token user pw : Str) : Prop where
  method : input.request.method = .post
  routed : findRoute input.request.path.text = some .login
  path : input.pathParser.path = Handlers.route
  form : ∃ form len, input.form = some form ∧ form.valid = true ∧
    form.single PROPNAME = some (token, len) ∧ (form.single (str "login")).isSome ∧
      credentials form = some (user, pw)

/-- What a denied request leaves for the form. -/
def Denied (realm rdr : Str) (s : Session) : Prop :=
  s.authRealm = some realm ∧ s.authRdr = some rdr

/-- What the form leaves for the login. -/
structure Asked (realm rdr token : Str) (s : Session) : Prop where
  realm : s.loginRealm = some realm
  rdr : s.loginRdr = some rdr
  form : s.loginForm.isSome
  token : s.csrfProtect = some token

def LoggedIn (realm : Str) (u : User) (s : Session) : Prop :=
  Authenticator.user s.authInfos realm = some u

theorem lasting_denied (realm rdr : Str) : Lasting (Denied realm rdr) :=
  ⟨fun _ _ h => h, fun _ _ h => h⟩

theorem lasting_asked (realm rdr token : Str) : Lasting (Asked realm rdr token) :=
  ⟨fun _ _ h => ⟨h.realm, h.rdr, h.form, h.token⟩, fun _ _ h => ⟨h.realm, h.rdr, h.form, h.token⟩⟩

theorem lasting_loggedIn (realm : Str) (u : User) : Lasting (LoggedIn realm u) :=
  ⟨fun _ _ h => h, fun _ _ h => h⟩

section handlers

variable {config : Config W} {registry : Registry W} {input : Input} {session : Session} {w : W}
  {work : Work W} {realm rdr token user pw : Str}

/-- Credentials that are accepted log in unless the name is blocked and stays so. -/
theorem login_accepts (self : AuthInfos) (attempt : Attempt) (w : W)
    (haccepts : Accepts registry realm attempt.user attempt.pw w) :
    (login registry self realm attempt w).verdict = .accepted ∨
      (login registry self realm attempt w).inquiries = [.limit attempt.lifting false] ∧
        (login registry self realm attempt w).verdict = .blocked := by
  obtain ⟨r, u, hrealm, hname, haccept⟩ := haccepts
  have hfound := tryCheckers_iff.mpr ⟨hname, haccept⟩
  unfold login
  rw [hrealm]
  dsimp only
  rw [if_neg (List.ne_nil_of_mem haccept.mem)]
  dsimp only
  unfold loginRealm
  dsimp only
  by_cases hlifted : (lift registry r (AList.lookup realm self) attempt).2.1 = true
  · rw [if_pos hlifted]
    refine Or.inl ((conclude_user r _ attempt _).2.mpr ?_)
    rw [hfound]
    rfl
  · rw [if_neg hlifted]
    refine Or.inr ⟨?_, rfl⟩
    unfold lift at hlifted ⊢
    split at hlifted
    · exact absurd rfl hlifted
    · dsimp only at hlifted ⊢
      split at hlifted
      · next hblocked =>
        rw [if_pos hblocked]
        split at hlifted
        · exact absurd rfl hlifted
        · next hrefused => rw [if_neg hrefused]
      · exact absurd rfl hlifted

/-- A page that was shown tells the session its realm, its target and its token. -/
theorem handled_issued (h : Handled config input session w work)
    (hissued : .issued token ∈ work.events) (hsession : Denied realm rdr session) :
    Asked realm rdr token work.session := by
  obtain ⟨hrealm, hrdr⟩ := hsession
  cases h with
  | @shown updated realm' path tmpl vars hmethod hupdated =>
    have hcurrent := (Prod.mk.inj hupdated).1
    have htoken : token = rndStr input.tokenDraw := by simpa [page] using hissued
    rw [← hcurrent]
    refine ⟨?_, ?_, rfl, by rw [htoken]; rfl⟩
    · show some (session.authRealm.getD _) = _
      rw [hrealm]
      rfl
    · show some (session.authRdr.getD _) = _
      rw [hrdr]
      rfl
  | _ => simp [notFound, loginEvents] at hissued

theorem served_issued (h : Served config input session w work)
    (hissued : .issued token ∈ work.events) (hsession : Denied realm rdr session) :
    Asked realm rdr token work.session := by
  cases h with
  | plain hform hhandled => exact handled_issued hhandled hissued hsession
  | accepted hform htoken hsingle hhandled =>
    have hasked := handled_issued hhandled (by simpa using hissued) hsession
    exact hasked
  | rejected hform => simp at hissued

theorem served_answered (h : Served config input session w work)
    (hdenied : .answered realm none ∈ work.events) : loginHandlerRealm input = realm := by
  have hhandled : ∀ {s : Session} {work : Work W}, Handled config input s w work →
      .answered realm none ∈ work.events → loginHandlerRealm input = realm := by
    intro s work h hmem
    cases h with
    | denied hpath huser hresponse =>
      rw [List.mem_singleton] at hmem
      exact (Event.answered.inj hmem).1.symm
    | _ => simp [page, notFound, loginEvents] at hmem
  cases h with
  | plain hform h => exact hhandled h hdenied
  | accepted hform htoken hsingle h => exact hhandled h (by simpa using hdenied)
  | rejected hform => simp at hdenied

/-- The form with the current token is handed to the authenticator. -/
theorem serve_sent (hasked : Asked realm rdr token session) (hsends : Sends input token user pw)
    (h : serve config input .login session w = some work) :
    ∃ result, result = login config.registry session.authInfos realm
        ⟨user, pw, input.lifting, input.counting⟩ w ∧
      work.events = .accepted token :: loginEvents realm user result ∧
      work.session.authInfos = result.authInfos ∧
      (result.verdict = .accepted →
        HttpResponse.createRedirect .ok rdr = some work.response) := by
  obtain ⟨form, len, hform, hvalid, hsingle, hlogin, hcredentials⟩ := hsends.form
  obtain ⟨loginForm, hloginForm⟩ := Option.isSome_iff_exists.mp hasked.form
  unfold serve csrfProtect at h
  rw [hform] at h
  dsimp only at h
  rw [hasked.token, hsingle] at h
  dsimp only at h
  rw [if_pos rfl] at h
  obtain ⟨inner, hinner, rfl⟩ := Option.map_eq_some_iff.mp h
  have hhandler : loginHandler config input { session with csrfProtect := none } w =
    some inner := hinner
  unfold loginHandler at hhandler
  rw [if_pos hsends.path, if_pos hsends.method] at hhandler
  unfold doLogin at hhandler
  rw [hform] at hhandler
  dsimp only at hhandler
  rw [if_neg (by rw [hvalid]; decide), hasked.realm, hloginForm] at hhandler
  dsimp only at hhandler
  rw [if_pos hlogin, hcredentials] at hhandler
  dsimp only at hhandler
  unfold tryLogin at hhandler
  dsimp only at hhandler
  refine ⟨_, rfl, ?_⟩
  split at hhandler
  · next hverdict =>
    obtain ⟨response, hresponse, rfl⟩ := redirect_eq_some hhandler
    refine ⟨rfl, rfl, fun _ => ?_⟩
    rw [hasked.rdr] at hresponse
    exact hresponse
  · next hverdict =>
    obtain ⟨response, hresponse, rfl⟩ := redirect_eq_some hhandler
    exact ⟨rfl, rfl, fun haccepted => absurd haccepted hverdict⟩

end handlers

section flow

variable {config : Config W} {opts : Option RateLimitOpts} {start : ℤ} {w : W} {trace : Trace}
  {ref : ℕ} {realm rdr token user pw : Str}

/-- After a request for the root was denied, and until the form is fetched. -/
theorem at_denied {m m' : Server W} {denied : Input} {outcome : Outcome}
    (hrun : Runs config opts start w trace m)
    (hstep : requestReceived config m denied = some (m', outcome))
    (href : outcome.session = some ref) (hanswer : .answered realm none ∈ outcome.events) :
    At ref (Denied realm (loginHandlerRdr denied)) m' := by
  rcases requestReceived_cases (numbered_run hrun).1 hstep with hpassed |
    ⟨session, cookies, work, hworked⟩
  · rw [hpassed.unnamed] at href
    cases href
  · obtain rfl : session.ref = ref := Option.some.inj (hworked.named.symm.trans href)
    rw [hworked.events] at hanswer
    obtain ⟨hrealm, hrdr⟩ := served_denied hworked.served hanswer
    rw [served_answered hworked.served hanswer] at hrealm
    refine at_of_worked (lasting_denied _ _) hworked ⟨?_, ?_⟩
    · exact congrArg PendingValue.Places.pending hrealm
    · exact congrArg PendingValue.Places.pending hrdr

theorem at_asked {m m' : Server W} {input : Input} {outcome : Outcome}
    (hrun : Runs config opts start w trace m) (h : At ref (Denied realm rdr) m)
    (hstep : requestReceived config m input = some (m', outcome))
    (href : outcome.session = some ref) (hissued : .issued token ∈ outcome.events) :
    At ref (Asked realm rdr token) m' := by
  obtain ⟨session, cookies, work, hworked, rfl, hsession⟩ :=
    h.own (lasting_denied realm rdr) (numbered_run hrun).1 hstep href
  rw [hworked.events] at hissued
  exact at_of_worked (lasting_asked _ _ _) hworked (served_issued hworked.served hissued hsession)

/-- The form logs in with credentials that are accepted, unless the name is blocked. -/
theorem at_loggedIn {m m' : Server W} {input : Input} {outcome : Outcome}
    (hrun : Runs config opts start w trace m) (h : At ref (Asked realm rdr token) m)
    (hstep : requestReceived config m input = some (m', outcome))
    (href : outcome.session = some ref) (hsends : Sends input token user pw)
    (haccepts : Accepts config.registry realm user pw m.world) :
    outcome.events = [.accepted token, .attempted realm user [.limit input.lifting false]] ∨
      ∃ u inquiries, outcome.events =
          [.accepted token, .attempted realm user inquiries, .loggedIn realm u] ∧
        u.username = user ∧ LeadsTo config input outcome rdr ∧ At ref (LoggedIn realm u) m' := by
  obtain ⟨session, cookies, work, hworked, rfl, hsession⟩ :=
    h.own (lasting_asked realm rdr token) (numbered_run hrun).1 hstep href
  obtain ⟨target, hroute, hserve⟩ := hworked.routed
  obtain rfl : Route.login = target := Option.some.inj (hsends.routed.symm.trans hroute)
  obtain ⟨result, hresult, hevents, hinfos, hredirect⟩ := serve_sent hsession hsends hserve
  have hverdict := login_accepts session.authInfos ⟨user, pw, input.lifting, input.counting⟩
    m.world haccepts
  rw [← hresult] at hverdict
  rw [hworked.events, hevents]
  unfold loginEvents
  rcases hverdict with haccepted | ⟨hinquiries, hblocked⟩
  · obtain ⟨_, _, hspec⟩ := login_spec ⟨user, pw, input.lifting, input.counting⟩ m.world
      hresult.symm
    obtain ⟨_, u, _, hu, hname, _⟩ := hspec haccepted
    refine Or.inr ⟨u, result.inquiries, ?_, hname, ?_, ?_⟩
    · rw [if_pos haccepted, hu]
      rfl
    · exact ⟨cookies, work.response, hredirect haccepted, hworked.response⟩
    · refine at_of_worked (lasting_loggedIn _ _) hworked ?_
      unfold LoggedIn
      rw [hinfos]
      exact hu
  · rw [if_neg (by rw [hblocked]; decide), hinquiries]
    exact Or.inl rfl

/-- A denied request, the form, the login and the request again: for credentials that a
checker of the realm accepts the last one is answered with the user, and the login leads to
where the first one was meant to go, whatever other sessions do in between; unless the
name is blocked in the session. -/
theorem login_completes {denied asked sent again : Input}
    {atDenied atAsked atSent atAgain : Outcome} {m₀ m₁ m₂ m₃ m₄ m₅ m₆ m₇ : Server W}
    {tr₁ tr₂ tr₃ : Trace} (hrun : Runs config opts start w trace m₀)
    (hdenied : requestReceived config m₀ denied = some (m₁, atDenied))
    (href₁ : atDenied.session = some ref) (hanswer : .answered realm none ∈ atDenied.events)
    (hmid₁ : Run (stepOf (requestReceived config)) m₁ tr₁ m₂)
    (hothers₁ : ∀ l ∈ tr₁, l.2.session ≠ some ref)
    (hasked : requestReceived config m₂ asked = some (m₃, atAsked))
    (href₂ : atAsked.session = some ref) (hissued : .issued token ∈ atAsked.events)
    (hmid₂ : Run (stepOf (requestReceived config)) m₃ tr₂ m₄)
    (hothers₂ : ∀ l ∈ tr₂, l.2.session ≠ some ref)
    (hsent : requestReceived config m₄ sent = some (m₅, atSent))
    (href₃ : atSent.session = some ref) (hsends : Sends sent token user pw)
    (haccepts : Accepts config.registry realm user pw m₄.world)
    (hmid₃ : Run (stepOf (requestReceived config)) m₅ tr₃ m₆)
    (hothers₃ : ∀ l ∈ tr₃, l.2.session ≠ some ref)
    (hagain : requestReceived config m₆ again = some (m₇, atAgain))
    (href₄ : atAgain.session = some ref) (hpath : again.pathParser.path = str "/")
    (hform : again.form = none) (hrealm : loginHandlerRealm again = realm) :
    atSent.events = [.accepted token, .attempted realm user [.limit sent.lifting false]] ∨
      ∃ u inquiries, u.username = user ∧ atSent.events =
          [.accepted token, .attempted realm user inquiries, .loggedIn realm u] ∧
        LeadsTo config sent atSent (loginHandlerRdr denied) ∧
        atAgain.response.status = .ok ∧ Answers config again atAgain u := by
  have hlabel₁ : stepOf (requestReceived config) m₀ (denied, atDenied) m₁ := hdenied
  have hlabel₂ : stepOf (requestReceived config) m₂ (asked, atAsked) m₃ := hasked
  have hlabel₃ : stepOf (requestReceived config) m₄ (sent, atSent) m₅ := hsent
  have hrun₁ := Run.snoc hrun hlabel₁
  have hrun₂ := hrun₁.trans hmid₁
  have hrun₃ := Run.snoc hrun₂ hlabel₂
  have hrun₄ := hrun₃.trans hmid₂
  have hrun₅ := Run.snoc hrun₄ hlabel₃
  have hat₂ := (at_denied hrun hdenied href₁ hanswer).others hrun₁ hmid₁ hothers₁
  have hat₄ := (at_asked hrun₂ hat₂ hasked href₂ hissued).others hrun₃ hmid₂ hothers₂
  rcases at_loggedIn hrun₄ hat₄ hsent href₃ hsends haccepts with
    hblocked | ⟨u, inquiries, hevents, hname, hleads, hat₅⟩
  · exact Or.inl hblocked
  refine Or.inr ⟨u, inquiries, hname, hevents, hleads, ?_⟩
  have hat₆ := hat₅.others hrun₅ hmid₃ hothers₃
  obtain ⟨session, cookies, work, hworked, rfl, hsession⟩ :=
    hat₆.own (lasting_loggedIn realm u) (numbered_run (hrun₅.trans hmid₃)).1 hagain href₄
  obtain ⟨target, hroute, hserve⟩ := hworked.routed
  obtain rfl := findRoute_root hpath hroute
  unfold LoggedIn at hsession
  rcases serve_root hpath hserve with ⟨u', hu', hresponse⟩ | ⟨_, hnone⟩
  · rw [hrealm, hsession] at hu'
    obtain rfl := Option.some.inj hu'
    refine ⟨?_, cookies, ?_⟩
    · rw [hworked.response, answer_status, HttpStatus.downgrade_eq_ok, hresponse]
      rfl
    · rw [hworked.response, hresponse]
  · have hno := hnone hform
    rw [hrealm, hsession] at hno
    cases hno

end flow

section samples

/-- Another client without a session. -/
def otherClient : Input :=
  { sampleInput .get ⟨str "/", Buf.root_fits⟩ [] [] with idDraws := [List.replicate 32 1] }

theorem accepts_sample (w : Unit) :
    Accepts sampleConfig.registry DEFAULT_REALM (str "u") (str "p") w :=
  ⟨⟨[str "any"], none⟩, ⟨str "u", none, str "any"⟩, AList.lookup_insert _, rfl, [], [],
    fun w _ _ => ((true, none), w), w, w, rfl, .nil, AList.lookup_insert _, rfl⟩

theorem sends_sample : Sends sampleLogin (rndStr (List.replicate 32 0)) (str "u") (str "p") := by
  have hready : sampleLogin.form.any (fun form => form.valid &&
      (form.single (str "login")).isSome &&
        decide ((form.single PROPNAME).map Prod.fst = some (rndStr (List.replicate 32 0)) ∧
          credentials form = some (str "u", str "p"))) = true := by decide +kernel
  obtain ⟨form, hform, hready⟩ := (Option.any_eq_true _ _).mp hready
  simp only [Bool.and_eq_true, decide_eq_true_eq] at hready
  obtain ⟨⟨hvalid, hlogin⟩, htoken, hcredentials⟩ := hready
  obtain ⟨⟨value, len⟩, hsingle, rfl⟩ := Option.map_eq_some_iff.mp htoken
  exact ⟨rfl, by decide, by decide +kernel, form, len, hform, hvalid, hsingle, hlogin,
    hcredentials⟩

/-- The session of every answer, and the three events that matter. -/
def flowEvents (l : Input × Outcome) : Option ℕ × Bool × Bool × Bool :=
  (l.2.session, decide (.answered DEFAULT_REALM none ∈ l.2.events),
    decide (.issued (rndStr (List.replicate 32 0)) ∈ l.2.events),
    decide (∃ e ∈ l.2.events, e = .loggedIn DEFAULT_REALM sampleUser))

/-- Another client asks before the form is sent. -/
theorem login_completes_sample : ∃ server server' outcome u,
    requestReceived sampleConfig server sampleRoot = some (server', outcome) ∧
      u.username = str "u" ∧ Answers sampleConfig sampleRoot outcome u := by
  have hexec : ((exec (requestReceived sampleConfig) (Server.create none 0 ())
      [sampleDenied ⟨str "/?rdr=/x", by decide⟩, sampleReload, otherClient, sampleLogin,
        sampleRoot]).map fun r => r.2.map flowEvents) =
      some [(some 0, true, false, false), (some 0, false, true, false),
        (some 1, true, false, false), (some 0, false, false, true),
        (some 0, false, false, false)] := by
    decide +kernel
  obtain ⟨⟨m, full⟩, hsome, hevents⟩ := Option.map_eq_some_iff.mp hexec
  obtain ⟨m₁, atDenied, _, hdenied, hsome₁, rfl⟩ := exec_cons hsome
  obtain ⟨m₂, atAsked, _, hasked, hsome₂, rfl⟩ := exec_cons hsome₁
  obtain ⟨m₃, atOther, _, hother, hsome₃, rfl⟩ := exec_cons hsome₂
  obtain ⟨m₄, atSent, _, hsent, hsome₄, rfl⟩ := exec_cons hsome₃
  obtain ⟨m₅, atAgain, _, hagain, hsome₅, rfl⟩ := exec_cons hsome₄
  obtain ⟨rfl, rfl⟩ := Prod.mk.inj (Option.some.inj hsome₅)
  simp only [List.map_cons, List.map_nil, flowEvents, List.cons.injEq, Prod.mk.injEq,
    decide_eq_true_eq, and_true] at hevents
  obtain ⟨⟨href₁, hanswer, _⟩, ⟨href₂, _, hissued, _⟩, ⟨hrefOther, _⟩, ⟨href₃, _, _, hlogged⟩,
    href₄, _⟩ := hevents
  have hlabel : stepOf (requestReceived sampleConfig) m₂ (otherClient, atOther) m₃ := hother
  have hothers : ∀ l ∈ ([] ++ [(otherClient, atOther)] : Trace), l.2.session ≠ some 0 := by
    intro l hl
    rw [List.nil_append, List.mem_singleton] at hl
    rw [hl, hrefOther]
    decide
  have hstart : Runs sampleConfig none 0 () [] (Server.create none 0 ()) := Run.nil
  have hnone : ∀ l ∈ ([] : Trace), l.2.session ≠ some 0 := fun l hl => absurd hl List.not_mem_nil
  have hpath : sampleRoot.pathParser.path = str "/" := by decide +kernel
  have hform : sampleRoot.form = none := by decide +kernel
  have hrealm : loginHandlerRealm sampleRoot = DEFAULT_REALM := by decide +kernel
  rcases login_completes hstart hdenied href₁ hanswer Run.nil hnone hasked href₂ hissued
      (Run.snoc Run.nil hlabel) hothers hsent href₃ sends_sample (accepts_sample _)
      Run.nil hnone hagain href₄ hpath hform hrealm with
    hblocked | ⟨u, _, hname, _, _, _, hanswers⟩
  · rw [hblocked] at hlogged
    simp at hlogged
  · exact ⟨m₄, m₅, atAgain, u, hagain, hname, hanswers⟩

end samples

end Swad.LoginFlow
