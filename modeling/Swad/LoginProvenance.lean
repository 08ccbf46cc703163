import Swad.Pipeline
import Swad.Registers

/-!
Where the logged in users come from. The user of a realm in a session is a register of
the history of that session alone, which a login or a silent login writes and a logout
clears. A silent login copies a user of the same session, so following the copies back
leads to a login in which a checker of the registry was asked about the name and accepted it.
-/
namespace Swad.LoginProvenance

open Bytes Http Httprequest Httpresponse Httpserver Middleware Authenticator SessionStore Handlers
  Pipeline Registers LabelledRuns Ratelimit

variable {W : Type}

/-- What an event does to the user of a realm. -/
def userEffect (realm : Str) : Event → Effect User
  | .loggedIn r u => if r = realm then .store u else .keep
  | .silentlyLoggedIn r u => if r = realm then .store u else .keep
  | .loggedOut r => if r = realm then .clear else .keep
  | _ => .keep

/-- The user is logged in for the realm after a history. -/
def Holds (events : List Event) (realm : Str) (u : User) : Prop :=
  content (userEffect realm) events = some u

def AcceptsFor (registry : Registry W) (realm : Str) (u : User) : Prop :=
  ∃ r, registry.realms.lookup realm = some r ∧ u.checker ∈ r.checkers

/-- The request is a login: its form has the user name, and among the checkers of the realm that
of the user accepts this name with the password of the form, after those before it refused. -/
structure LogsIn (registry : Registry W) (input : Input) (w : W) (realm : Str) (u : User) :
    Prop where
  method : input.request.method = .post
  accepted : ∃ form pw r, input.form = some form ∧ credentials form = some (u.username, pw) ∧
    registry.realms.lookup realm = some r ∧ AcceptedBy registry r.checkers pw w u

/-- What has happened before an event. -/
def Caused (registry : Registry W) (before : List Event) : Event → Prop
  | .loggedIn realm u => AcceptsFor registry realm u
  | .silentlyLoggedIn realm u => AcceptsFor registry realm u ∧ ∃ other, Holds before other u
  | .answered realm u => u = content (userEffect realm) before
  | _ => True

/-- The users of a session are those that its history left. -/
def Tracked (events : List Event) (s : Session) : Prop :=
  ∀ realm, Authenticator.user s.authInfos realm = content (userEffect realm) events

section handlers

variable {config : Config W} {input : Input} {session : Session} {w : W} {work : Work W}

theorem update_loginEvents {authInfos : AuthInfos} {name : Str} {attempt : Attempt} {w : W}
    {result : LoginResult W}
    (h : login config.registry authInfos name attempt w = result) (realm : Str) :
    update (userEffect realm) (Authenticator.user authInfos realm)
        (loginEvents name attempt.user result) =
      Authenticator.user result.authInfos realm := by
  obtain ⟨hother, hfailed, haccepted⟩ := login_spec attempt w h
  unfold loginEvents
  split
  · next hverdict =>
    obtain ⟨r, u, _, hu, _⟩ := haccepted hverdict
    rw [hu]
    by_cases heq : name = realm
    · subst heq
      simp [userEffect, Effect.apply, hu]
    · simp [userEffect, Effect.apply, heq, hother realm (Ne.symm heq)]
  · next hverdict =>
    by_cases heq : name = realm
    · subst heq
      simp [userEffect, Effect.apply, hfailed hverdict]
    · simp [userEffect, Effect.apply, hother realm (Ne.symm heq)]

theorem handled_user (h : Handled config input session w work) (realm : Str) :
    Authenticator.user work.session.authInfos realm =
      update (userEffect realm) (Authenticator.user session.authInfos realm) work.events := by
  cases h with
  | loggedIn hpost hform hresult hverdict hresponse =>
    exact (@update_loginEvents _ config _ _ _ _ _ hresult realm).symm
  | loginFailed hpost hform hresult hverdict hresponse =>
    exact (@update_loginEvents _ config _ _ _ _ _ hresult realm).symm
  | loggedOut hpost hform hresponse =>
    rename_i name _
    refine (logout_user session.authInfos name realm).trans ?_
    by_cases heq : name = realm
    · simp [userEffect, Effect.apply, heq]
    · simp [userEffect, Effect.apply, heq, Ne.symm heq]
  | silent hmethod hupdated huser hsilent hresponse =>
    rename_i updated name authInfos response
    obtain ⟨r, other, u, _, _, _, hu, hothers⟩ := silentLogin_spec huser hsilent
    rw [hu]
    by_cases heq : name = realm
    · subst heq
      simp [userEffect, Effect.apply, hu]
    · simp [userEffect, Effect.apply, heq, hothers realm (Ne.symm heq)]
  | shown hmethod hupdated =>
    simp only [page]
    rw [← (Prod.mk.inj hupdated).1]
    rfl
  | _ => rfl

theorem served_user (h : Served config input session w work) (realm : Str) :
    Authenticator.user work.session.authInfos realm =
      update (userEffect realm) (Authenticator.user session.authInfos realm) work.events := by
  cases h with
  | plain hform hhandled => exact handled_user hhandled realm
  | accepted hform htoken hsingle hhandled =>
    have huser := handled_user hhandled realm
    exact huser
  | rejected hform => rfl

theorem caused_loginEvents {authInfos : AuthInfos} {name : Str} {attempt : Attempt} {w : W}
    {result : LoginResult W}
    (h : login config.registry authInfos name attempt w = result) (events : List Event) :
    Along (fun before e => Caused config.registry (events ++ before) e)
      (loginEvents name attempt.user result) := by
  obtain ⟨_, _, haccepted⟩ := login_spec attempt w h
  unfold loginEvents
  split
  · next hverdict =>
    obtain ⟨r, u, hrealm, hu, -, haccepts⟩ := haccepted hverdict
    rw [hu]
    exact (along_snoc _ [Event.attempted name attempt.user result.inquiries]
      (Event.loggedIn name u)).mpr ⟨along_singleton.mpr trivial, r, hrealm, haccepts.mem⟩
  · exact along_singleton.mpr trivial

theorem handled_caused {events : List Event} (htracked : Tracked events session)
    (h : Handled config input session w work) :
    Along (fun before e => Caused config.registry (events ++ before) e) work.events := by
  cases h with
  | loggedIn hpost hform hresult hverdict hresponse => exact caused_loginEvents hresult events
  | loginFailed hpost hform hresult hverdict hresponse => exact caused_loginEvents hresult events
  | silent hmethod hupdated huser hsilent hresponse =>
    obtain ⟨r, other, u, hrealm, hother, hchecker, hu, _⟩ := silentLogin_spec huser hsilent
    rw [hu]
    refine along_singleton.mpr ⟨⟨r, hrealm, hchecker⟩, other, ?_⟩
    rw [List.append_nil, Holds, ← htracked other, hother]
  | answered hpath huser =>
    refine along_singleton.mpr ?_
    rw [Caused, List.append_nil, ← htracked, huser]
  | denied hpath huser hresponse =>
    refine along_singleton.mpr ?_
    rw [Caused, List.append_nil, ← htracked, huser]
  | loggedOut hpost hform hresponse => exact along_singleton.mpr trivial
  | shown hmethod hupdated => exact along_singleton.mpr trivial
  | _ => exact along_nil _

theorem served_caused {events : List Event} (htracked : Tracked events session)
    (h : Served config input session w work) :
    Along (fun before e => Caused config.registry (events ++ before) e) work.events := by
  cases h with
  | plain hform hhandled => exact handled_caused htracked hhandled
  | accepted hform htoken hsingle hhandled =>
    rename_i form token len inner
    have htracked' : Tracked (events ++ [.accepted token])
        { session with csrfProtect := none } := by
      intro realm
      rw [content_snoc]
      exact htracked realm
    have hcaused := handled_caused htracked' hhandled
    have hfirst : Along (fun before e => Caused config.registry (events ++ before) e)
        [Event.accepted token] := along_singleton.mpr trivial
    refine along_append hfirst ?_
    intro before e after heq
    have hpre : Caused config.registry (events ++ [.accepted token] ++ before) e :=
      hcaused before e after heq
    rwa [List.append_assoc] at hpre
  | rejected hform => exact along_singleton.mpr trivial

/-- A user is logged in by a checker that accepts the credentials of the form. -/
theorem handled_loggedIn (h : Handled config input session w work) {realm : Str} {u : User}
    (he : .loggedIn realm u ∈ work.events) : LogsIn config.registry input w realm u := by
  cases h with
  | loggedIn hpost hform hresult hverdict hresponse hrealm hcredentials =>
    obtain ⟨_, _, haccepted⟩ := login_spec _ w hresult
    obtain ⟨r, u', hlookup, hu', hname, haccepts⟩ := haccepted hverdict
    simp only [loginEvents, if_pos hverdict, hu', Option.toList_some, List.map_cons, List.map_nil,
      List.mem_cons, reduceCtorEq, Event.loggedIn.injEq, List.not_mem_nil, or_false, false_or] at he
    obtain ⟨rfl, rfl⟩ := he
    dsimp only at hname
    subst hname
    exact ⟨hpost, _, _, r, hform, hcredentials, hlookup, haccepts⟩
  | loginFailed hpost hform hresult hverdict hresponse =>
    simp [loginEvents, hverdict] at he
  | _ => simp [page, notFound] at he

theorem served_loggedIn (h : Served config input session w work) {realm : Str} {u : User}
    (he : .loggedIn realm u ∈ work.events) : LogsIn config.registry input w realm u := by
  cases h with
  | plain hform h => exact handled_loggedIn h he
  | accepted hform htoken hsingle h => exact handled_loggedIn h (by simpa using he)
  | rejected hform => simp at he

end handlers

theorem tracked_kept (config : Config W) : Kept config (fun _ => True) Tracked where
  fresh _ _ _ _ := rfl
  atime _ _ _ h := h
  referrer _ _ _ h := h
  served events s input w work _ h hserved realm := by
    rw [served_user hserved, h realm, ← content_append]

/-- A user that is logged in comes from a login of the same session, for this realm or for one
that a silent login copied the user from. -/
theorem origin_of_holds {registry : Registry W} {events : List Event}
    (h : Along (Caused registry) events) {realm : Str} {u : User} (hu : Holds events realm u) :
    AcceptsFor registry realm u ∧ ∃ origin,
      (origin = realm ∨ .silentlyLoggedIn realm u ∈ events) ∧ .loggedIn origin u ∈ events := by
  induction hn : events.length using Nat.strong_induction_on generalizing events realm with
  | _ n ih =>
    obtain ⟨before, e, after, rfl, hstore, _⟩ := content_eq_some hu
    have hcaused := h before e after rfl
    cases e with
    | loggedIn r u' =>
      simp only [userEffect] at hstore
      split at hstore
      · next heq =>
        obtain rfl : u' = u := by simpa using hstore
        subst heq
        exact ⟨hcaused, r, .inl rfl, by simp⟩
      · cases hstore
    | silentlyLoggedIn r u' =>
      simp only [userEffect] at hstore
      split at hstore
      · next heq =>
        obtain rfl : u' = u := by simpa using hstore
        subst heq
        obtain ⟨haccepts, other, hother⟩ := hcaused
        have hbefore : Along (Caused registry) before := fun pre l post heq =>
          h pre l (post ++ .silentlyLoggedIn r u' :: after) (by simp [heq])
        obtain ⟨_, origin, _, hlogin⟩ :=
          ih before.length (by simp only [← hn, List.length_append, List.length_cons]; omega)
            hbefore hother rfl
        exact ⟨haccepts, origin, .inr (by simp), by simp [hlogin]⟩
      · cases hstore
    | loggedOut r =>
      simp only [userEffect] at hstore
      split at hstore <;> cases hstore
    | _ => cases hstore

/-! ### The answers to requests for the root -/

/-- The request is answered with the name of a user. -/
def Answers (config : Config W) (input : Input) (outcome : Outcome) (u : User) : Prop :=
  ∃ cookies, outcome.response = (pipelineJobDone (answer config input cookies
    ((HttpResponse.create .ok .text).passBody (rootBody u))) false).1

section root

variable {config : Config W} {input : Input} {session : Session} {w : W} {work : Work W}

/-- A path that is decoded to the root does not begin with the login route. -/
theorem findRoute_root (hpath : input.pathParser.path = str "/") {target : Route}
    (h : findRoute input.request.path.text = some target) : target = .root := by
  cases target with
  | root => rfl
  | login =>
    have hlead : (routePrefix .login).isPrefixOf input.request.path.text = true := by
      have hfound := List.find?_some h
      exact hfound
    obtain ⟨rest, hrest⟩ := List.isPrefixOf_iff_prefix.mp hlead
    have hdecoded : ∃ tail, input.pathParser.path = chr '/' :: chr 'l' :: tail := by
      rw [Input.pathParser, PathParser.create, ← hrest]
      exact ⟨_, rfl⟩
    obtain ⟨tail, htail⟩ := hdecoded
    rw [htail] at hpath
    cases hpath

theorem rootHandler_spec (hpath : input.pathParser.path = str "/")
    (h : rootHandler input session w = some work) :
    (∃ u, Authenticator.user session.authInfos (loginHandlerRealm input) = some u ∧
      work.response = (HttpResponse.create .ok .text).passBody (rootBody u)) ∨
    (Authenticator.user session.authInfos (loginHandlerRealm input) = none ∧
      work.response.status = .forbidden) := by
  unfold rootHandler at h
  rw [if_pos hpath] at h
  dsimp only at h
  split at h
  · next u hu =>
    obtain rfl := Option.some.inj h
    exact .inl ⟨u, hu, rfl⟩
  · next hu =>
    obtain ⟨response, hresponse, rfl⟩ := redirect_eq_some h
    exact .inr ⟨hu, HttpResponse.createRedirect_status hresponse⟩

/-- Only a request that sends a form can be denied to a user who is logged in. -/
theorem serve_root (hpath : input.pathParser.path = str "/")
    (h : serve config input .root session w = some work) :
    (∃ u, Authenticator.user session.authInfos (loginHandlerRealm input) = some u ∧
      work.response = (HttpResponse.create .ok .text).passBody (rootBody u)) ∨
    (work.response.status = .forbidden ∧ (input.form = none →
      Authenticator.user session.authInfos (loginHandlerRealm input) = none)) := by
  unfold serve csrfProtect at h
  split at h
  · rcases rootHandler_spec hpath h with hanswer | ⟨hnone, hstatus⟩
    · exact .inl hanswer
    · exact .inr ⟨hstatus, fun _ => hnone⟩
  · next form hform =>
    have hno : input.form = none →
        Authenticator.user session.authInfos (loginHandlerRealm input) = none := by
      rw [hform]
      intro hnone
      cases hnone
    split at h
    · split at h
      · obtain ⟨inner, hinner, rfl⟩ := Option.map_eq_some_iff.mp h
        rcases rootHandler_spec hpath hinner with hanswer | ⟨_, hstatus⟩
        · exact .inl hanswer
        · exact .inr ⟨hstatus, hno⟩
      · obtain rfl := Option.some.inj h
        exact .inr ⟨rfl, hno⟩
    · obtain rfl := Option.some.inj h
      exact .inr ⟨rfl, hno⟩

end root

section runs

variable {config : Config W} {opts : Option RateLimitOpts} {start : ℤ} {w : W} {trace : Trace}
  {server server' : Server W} {input : Input} {outcome : Outcome}

theorem caused_run (h : Runs config opts start w trace server) (ref : ℕ) :
    Along (Caused config.registry) (history trace ref) :=
  along_history (tracked_kept config)
    (fun _ _ _ _ _ htracked hserved => served_caused htracked hserved) h ref

/-- What a user was logged in with is decided by the world before the request. -/
theorem logsIn_of_mem (h : Runs config opts start w trace server) {l : Input × Outcome}
    {before after : Trace} (htrace : trace = before ++ l :: after) {realm : Str} {u : User}
    (he : .loggedIn realm u ∈ l.2.events) :
    ∃ m, Runs config opts start w before m ∧ LogsIn config.registry l.1 m.world realm u := by
  subst htrace
  obtain ⟨m, m', hrun, hstep, _⟩ := Run.at h
  refine ⟨m, hrun, ?_⟩
  rcases requestReceived_cases (numbered_run hrun).1 hstep with hpassed |
    ⟨session, cookies, work, hworked⟩
  · rw [hpassed.events] at he
    cases he
  · rw [hworked.events] at he
    exact served_loggedIn hworked.served he

/-- An earlier POST of the session logged the user in, for the realm or for one that the user was
copied from. The checker of the user was asked about the name in the world in which the request
was made, and accepted it. -/
def Vouched (config : Config W) (opts : Option RateLimitOpts) (start : ℤ) (w : W) (trace : Trace)
    (ref : ℕ) (realm : Str) (u : User) : Prop :=
  ∃ origin before l after m, (origin = realm ∨ .silentlyLoggedIn realm u ∈ history trace ref) ∧
    trace = before ++ l :: after ∧ Runs config opts start w before m ∧ l.2.session = some ref ∧
      .loggedIn origin u ∈ l.2.events ∧ LogsIn config.registry l.1 m.world origin u

theorem vouched_of_holds (h : Runs config opts start w trace server) {ref : ℕ} {realm : Str}
    {u : User} (hu : Holds (history trace ref) realm u) :
    AcceptsFor config.registry realm u ∧ Vouched config opts start w trace ref realm u := by
  obtain ⟨haccepts, origin, horigin, hlogin⟩ := origin_of_holds (caused_run h ref) hu
  obtain ⟨l, hl, he⟩ := List.mem_flatMap.mp hlogin
  split at he
  · next hsession =>
    obtain ⟨before, after, htrace⟩ := List.append_of_mem hl
    obtain ⟨m, hrun, hlogsIn⟩ := logsIn_of_mem h htrace he
    exact ⟨haccepts, origin, before, l, after, m, horigin, htrace, hrun, hsession, he, hlogsIn⟩
  · cases he

/-- After a logout only another login lets the user in again. -/
theorem login_after_logout {events before after : List Event} {realm : Str} {u : User}
    (hu : Holds events realm u) (h : events = before ++ .loggedOut realm :: after) :
    .loggedIn realm u ∈ after ∨ .silentlyLoggedIn realm u ∈ after := by
  subst h
  obtain ⟨e, he, hstore⟩ := stored_after_clear (by simp [userEffect]) hu
  cases e with
  | loggedIn r u' =>
    simp only [userEffect] at hstore
    split at hstore
    · next heq =>
      obtain rfl : u' = u := by simpa using hstore
      exact .inl (heq ▸ he)
    · cases hstore
  | silentlyLoggedIn r u' =>
    simp only [userEffect] at hstore
    split at hstore
    · next heq =>
      obtain rfl : u' = u := by simpa using hstore
      exact .inr (heq ▸ he)
    · cases hstore
  | loggedOut r =>
    simp only [userEffect] at hstore
    split at hstore <;> cases hstore
  | _ => cases hstore

/-- What a request for the root is answered is decided by the history of its session. -/
theorem root_answer (hrun : Runs config opts start w trace server)
    (hstep : requestReceived config server input = some (server', outcome))
    (hpath : input.pathParser.path = str "/") :
    (outcome.session = none ∧ outcome.response.status ≠ .ok) ∨
      ∃ session, Opened server input session ∧ outcome.session = some session.ref ∧
        ((∃ u, Authenticator.user session.authInfos (loginHandlerRealm input) = some u ∧
            Holds (history trace session.ref) (loginHandlerRealm input) u ∧
            outcome.response.status = .ok ∧ Answers config input outcome u) ∨
          (outcome.response.status ≠ .ok ∧ (input.form = none →
            content (userEffect (loginHandlerRealm input)) (history trace session.ref) = none))) := by
  rcases requestReceived_cases (numbered_run hrun).1 hstep with hpassed |
    ⟨session, cookies, work, hworked⟩
  · refine .inl ⟨hpassed.unnamed, ?_⟩
    rcases hpassed.response with ⟨refusal, hrefusal, hresponse⟩ | hresponse
    · have hstatus : outcome.response.status = refusal.status.downgrade input.request.version := by
        rw [hresponse, pipelineJobDone_status]
        rfl
      rw [hstatus, ne_eq, HttpStatus.downgrade_eq_ok]
      cases hrefusal with
      | error herror => exact herror
      | notFound => simp [HttpResponse.createError, HttpResponse.passBody, HttpResponse.create]
      | methodNotAllowed hresponse =>
        rw [HttpResponse.setAllowHeader_status hresponse]
        simp [HttpResponse.createError, HttpResponse.passBody, HttpResponse.create]
    · rw [hresponse, answer_status, ne_eq, HttpStatus.downgrade_eq_ok]
      simp [HttpResponse.createError, HttpResponse.passBody, HttpResponse.create]
  · obtain ⟨target, hroute, hserve⟩ := hworked.routed
    obtain rfl := findRoute_root hpath hroute
    have htracked : Tracked (history trace session.ref) session :=
      kept_opened (tracked_kept config) hrun (kept_run (tracked_kept config) hrun fun _ _ => trivial)
        hworked.opened
    have hstatus : outcome.response.status =
        work.response.status.downgrade input.request.version := by
      rw [hworked.response, answer_status]
    refine .inr ⟨session, hworked.opened, hworked.named, ?_⟩
    rcases serve_root hpath hserve with ⟨u, hu, hresponse⟩ | ⟨hforbidden, hnone⟩
    · refine .inl ⟨u, hu, (htracked _).symm.trans hu, ?_, cookies, ?_⟩
      · rw [hstatus, HttpStatus.downgrade_eq_ok, hresponse]
        rfl
      · rw [hworked.response, hresponse]
    · refine .inr ⟨?_, fun hform => ?_⟩
      · rw [hstatus, ne_eq, HttpStatus.downgrade_eq_ok, hforbidden]
        simp
      · rw [← htracked]
        exact hnone hform

/-- A request for the root that is answered 200 names a user that is stored for the
realm, whose checker belongs to the realm and accepted the name when it was asked in an earlier
POST of the session, and who was logged in since the last logout. Whether a request without a form is
answered 200, and for whom, is decided by the history of its own session. -/
theorem answer_vouched (hrun : Runs config opts start w trace server)
    (hstep : requestReceived config server input = some (server', outcome))
    (hpath : input.pathParser.path = str "/") :
    (outcome.response.status = .ok → ∃ session u, Opened server input session ∧
      outcome.session = some session.ref ∧ Answers config input outcome u ∧
      Authenticator.user session.authInfos (loginHandlerRealm input) = some u ∧
      AcceptsFor config.registry (loginHandlerRealm input) u ∧
      Vouched config opts start w trace session.ref (loginHandlerRealm input) u ∧
      ∀ before after,
        history trace session.ref = before ++ .loggedOut (loginHandlerRealm input) :: after →
          .loggedIn (loginHandlerRealm input) u ∈ after ∨
            .silentlyLoggedIn (loginHandlerRealm input) u ∈ after) ∧
    (∀ ref, outcome.session = some ref → input.form = none →
      (outcome.response.status = .ok ↔
        ∃ u, Holds (history trace ref) (loginHandlerRealm input) u) ∧
      ∀ u, Holds (history trace ref) (loginHandlerRealm input) u →
        Answers config input outcome u) := by
  rcases root_answer hrun hstep hpath with ⟨hnone, hstatus⟩ | ⟨session, hopened, hnamed, hanswer⟩
  · refine ⟨fun hok => absurd hok hstatus, fun ref href => ?_⟩
    rw [hnone] at href
    cases href
  · rcases hanswer with ⟨u, hu, hholds, hstatus, hanswers⟩ | ⟨hstatus, hempty⟩
    · obtain ⟨haccepts, hvouched⟩ := vouched_of_holds hrun hholds
      refine ⟨fun _ => ⟨session, u, hopened, hnamed, hanswers, hu, haccepts, hvouched,
        fun before after => login_after_logout hholds⟩, fun ref href _ => ?_⟩
      obtain rfl : session.ref = ref := Option.some.inj (hnamed.symm.trans href)
      refine ⟨⟨fun _ => ⟨u, hholds⟩, fun _ => hstatus⟩, fun u' hholds' => ?_⟩
      obtain rfl : u = u' := Option.some.inj (hholds.symm.trans hholds')
      exact hanswers
    · refine ⟨fun hok => absurd hok hstatus, fun ref href hform => ?_⟩
      obtain rfl : session.ref = ref := Option.some.inj (hnamed.symm.trans href)
      have hno : ∀ u, ¬ Holds (history trace session.ref) (loginHandlerRealm input) u := by
        intro u hholds
        rw [Holds, hempty hform] at hholds
        cases hholds
      exact ⟨⟨fun hok => absurd hok hstatus, fun ⟨u, hu⟩ => absurd hu (hno u)⟩,
        fun u hu => absurd hu (hno u)⟩

end runs

/-- After a login with the form, the root names the user who was accepted. -/
theorem answer_vouched_sample : ∃ trace server server' outcome,
    Runs sampleConfig none 0 () trace server ∧
      requestReceived sampleConfig server sampleRoot = some (server', outcome) ∧
      outcome.response.status = .ok ∧
      ∃ session u, Answers sampleConfig sampleRoot outcome u ∧
        Vouched sampleConfig none 0 () trace session DEFAULT_REALM u := by
  have hexec : ((exec (requestReceived sampleConfig) (Server.create none 0 ())
      ([sampleForm, sampleLogin] ++ [sampleRoot])).map fun r => r.2.getLast?.map fun l =>
        l.2.response.status) = some (some .ok) := by decide +kernel
  obtain ⟨⟨server', full⟩, hsome, hlast⟩ := Option.map_eq_some_iff.mp hexec
  obtain ⟨trace, server, outcome, hrun, hstep, rfl⟩ := last_of_exec hsome
  have hok : outcome.response.status = .ok := by simpa using hlast
  have hpath : sampleRoot.pathParser.path = str "/" := by decide +kernel
  have hrealm : loginHandlerRealm sampleRoot = DEFAULT_REALM := by decide +kernel
  obtain ⟨session, u, _, _, hanswers, _, _, hvouched, _⟩ :=
    (answer_vouched hrun hstep hpath).1 hok
  rw [hrealm] at hvouched
  exact ⟨trace, server, server', outcome, hrun, hstep, hok, session.ref, u, hanswers, hvouched⟩

end Swad.LoginProvenance
