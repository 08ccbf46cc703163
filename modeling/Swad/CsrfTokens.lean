import Swad.Pipeline
import Swad.Registers

/-!
The tokens that protect the forms. The token of a session is a register that a page
with a form fills and an accepted form clears, so a form is accepted only with the
token of the latest page, and once. Without a form the login handler does nothing.
-/
namespace Swad.CsrfTokens

open Bytes Http Httprequest Middleware Authenticator SessionStore Handlers Pipeline Registers
  LabelledRuns Ratelimit

variable {W : Type}

def tokenEffect : Event → Effect Str
  | .issued token => .store token
  | .accepted _ => .clear
  | _ => .keep

/-- A login attempt or a logout. -/
def actsOnLogin : Event → Bool
  | .attempted _ _ _ => true
  | .loggedIn _ _ => true
  | .loggedOut _ => true
  | _ => false

/-- The token was issued in this history, and since then no other was issued and none
was accepted. -/
def Current (history : List Event) (token : Str) : Prop :=
  ∃ before after, history = before ++ .issued token :: after ∧
    ∀ e ∈ after, tokenEffect e = .keep

theorem current_of_content {history : List Event} {token : Str}
    (h : content tokenEffect history = some token) : Current history token := by
  obtain ⟨before, e, after, rfl, hstore, hkeep⟩ := content_eq_some h
  cases e with
  | issued t =>
    obtain rfl : t = token := by simpa [tokenEffect] using hstore
    exact ⟨before, after, rfl, hkeep⟩
  | _ => simp [tokenEffect] at hstore

/-- A form that contains the field of the token exactly once, with this value. -/
def Carries (form : FormData) (token : Str) : Prop :=
  ∃ param, (form.params.filter fun p => p.name == PROPNAME) = [param] ∧ param.value = some token

theorem carries_of_single {form : FormData} {token : Str} {len : ℕ}
    (h : form.single PROPNAME = some (token, len)) : Carries form token := by
  unfold FormData.single at h
  split at h
  · next param hparam =>
    obtain ⟨value, hvalue, heq⟩ := Option.map_eq_some_iff.mp h
    obtain ⟨rfl, _⟩ := Prod.mk.inj heq
    exact ⟨param, hparam, hvalue⟩
  · simp at h

/-- A session has after a request the value that it had before it, or that of a new
session when the request created it. -/
def Unchanged {A : Type*} (f : Session → A) (server : Server W) (s' : Session) : Prop :=
  (∃ s, server.store.Mem s ∧ s.ref = s'.ref ∧ f s' = f s) ∨
    (s'.ref = server.store.created ∧ ∃ id now, f s' = f (newSession s'.ref id now))

/-- A request acts on the login of a session, or leaves it with another login state. -/
def ChangesLogin (server server' : Server W) (outcome : Outcome) (ref : ℕ) : Prop :=
  (outcome.session = some ref ∧ ∃ e ∈ outcome.events, actsOnLogin e = true) ∨
    ∃ s', server'.store.Mem s' ∧ s'.ref = ref ∧ ¬ Unchanged Session.authInfos server s'

section handlers

variable {config : Config W} {input : Input} {session : Session} {w : W} {work : Work W}

/-- Of the events of a login none concerns the token. -/
theorem update_loginEvents (token : Option Str) (realm user : Str) (result : LoginResult W) :
    update tokenEffect token (loginEvents realm user result) = token := by
  unfold loginEvents
  split
  · cases Authenticator.user result.authInfos realm <;> rfl
  · rfl

theorem handled_token (h : Handled config input session w work) :
    work.session.csrfProtect = update tokenEffect session.csrfProtect work.events := by
  cases h with
  | loggedIn hpost hform hresult hverdict hresponse => exact (update_loginEvents _ _ _ _).symm
  | loginFailed hpost hform hresult hverdict hresponse => exact (update_loginEvents _ _ _ _).symm
  | silent hmethod hupdated huser hsilent hresponse =>
    rename_i updated realm authInfos response
    rw [← (Prod.mk.inj hupdated).1]
    cases Authenticator.user authInfos realm <;> rfl
  | _ => rfl

theorem served_token (h : Served config input session w work) :
    work.session.csrfProtect = update tokenEffect session.csrfProtect work.events := by
  cases h with
  | plain hform h => exact handled_token h
  | accepted hform htoken hsingle h =>
    have htoken' := handled_token h
    exact htoken'
  | rejected hform => rfl

/-- Only a form can change the state of a login. -/
theorem handled_acts (h : Handled config input session w work)
    (hpost : input.request.method = .post) (hform : input.form = none) :
    work.session.authInfos = session.authInfos ∧ ∀ e ∈ work.events, actsOnLogin e = false := by
  cases h with
  | loggedIn _ hsome => exact absurd (hform.symm.trans hsome) (by simp)
  | loginFailed _ hsome => exact absurd (hform.symm.trans hsome) (by simp)
  | loggedOut _ hsome => exact absurd (hform.symm.trans hsome) (by simp)
  | silent hmethod => exact absurd hpost hmethod
  | shown hmethod => exact absurd hpost hmethod
  | notFound => exact ⟨rfl, by simp [notFound]⟩
  | _ => exact ⟨rfl, by simp [actsOnLogin]⟩

theorem handled_accepted (token : Str) (h : Handled config input session w work) :
    .accepted token ∉ work.events := by
  cases h <;> simp [loginEvents, page, notFound]

theorem handled_rejected (h : Handled config input session w work) : .rejected ∉ work.events := by
  cases h <;> simp [loginEvents, page, notFound]

/-- A form is accepted with the token that its session holds, before anything else. -/
theorem served_accepted (h : Served config input session w work) {before after : List Event}
    {token : Str} (hevents : work.events = before ++ .accepted token :: after) :
    session.csrfProtect = some token ∧ before = [] := by
  cases h with
  | plain hform hhandled => exact absurd (hevents ▸ by simp) (handled_accepted token hhandled)
  | accepted hform hsome hsingle hhandled =>
    cases before with
    | nil =>
      obtain rfl := Event.accepted.inj (List.cons.inj hevents).1
      exact ⟨hsome, rfl⟩
    | cons e before =>
      exact absurd ((List.cons.inj hevents).2 ▸ by simp) (handled_accepted token hhandled)
  | rejected hform =>
    have hmem : Event.accepted token ∈ before ++ .accepted token :: after := by simp
    rw [← hevents] at hmem
    simp at hmem

theorem served_rejected (h : Served config input session w work)
    (hmem : .rejected ∈ work.events) : work.session = session ∧ work.events = [.rejected] := by
  cases h with
  | plain hform hhandled => exact absurd hmem (handled_rejected hhandled)
  | accepted hform hsome hsingle hhandled =>
    rcases List.mem_cons.mp hmem with heq | hmem
    · cases heq
    · exact absurd hmem (handled_rejected hhandled)
  | rejected hform => exact ⟨rfl, rfl⟩

end handlers

/-- The token of a session is the register of its history. -/
def Tracks (events : List Event) (s : Session) : Prop :=
  s.csrfProtect = content tokenEffect events

theorem tracks_kept (config : Config W) : Kept config (fun _ => True) Tracks where
  fresh _ _ _ := rfl
  atime _ _ _ h := h
  referrer _ _ _ h := h
  served events s input w work _ h hserved := by
    rw [Tracks, served_token hserved, h, ← content_append]

section requests

variable {config : Config W} {server server' : Server W} {input : Input} {outcome : Outcome}
  {session : Session} {cookies : Cookies} {work : Work W}

/-- A value that the work keeps is unchanged in every session of the server. -/
theorem unchanged_of_worked {A : Type*} {f : Session → A}
    (hatime : ∀ s now, f { s with atime := now } = f s)
    (hreferrer : ∀ s path, f { s with referrer := path } = f s)
    (hworked : Worked config server server' input outcome session cookies work)
    (hsame : f work.session = f session) {s' : Session} (hs' : server'.store.Mem s') :
    Unchanged f server s' := by
  rcases stored_of_worked hreferrer hworked hs' with ⟨href, hnew⟩ | ⟨hold, _⟩
  · rw [hsame] at hnew
    rcases hworked.opened with ⟨s, hs, rfl⟩ | ⟨draw, rfl⟩
    · refine .inl ⟨s, hs, href.symm, ?_⟩
      rw [hnew, hatime]
    · refine .inr ⟨href, rndStr draw, input.now, ?_⟩
      rw [hnew, href]
      rfl
  · exact .inl ⟨s', hold, rfl, rfl⟩

/-- Only the session of a request can have its login changed, and by its handler. -/
theorem worked_of_changes
    (hworked : Worked config server server' input outcome session cookies work) {ref : ℕ}
    (h : ChangesLogin server server' outcome ref) :
    outcome.session = some ref ∧ session.ref = ref ∧
      ¬ (work.session.authInfos = session.authInfos ∧
        ∀ e ∈ work.events, actsOnLogin e = false) := by
  rcases h with ⟨hnamed, e, he, hacts⟩ | ⟨s', hs', href, hchanged⟩
  · refine ⟨hnamed, Option.some.inj (hworked.named.symm.trans hnamed), ?_⟩
    rintro ⟨_, hnone⟩
    rw [hworked.events] at he
    simp [hnone e he] at hacts
  · have hnot : ¬ work.session.authInfos = session.authInfos := fun hsame =>
      hchanged (unchanged_of_worked (fun _ _ => rfl) (fun _ _ => rfl) hworked hsame hs')
    have hsession : session.ref = ref := by
      rcases hworked.kept s' hs' with rfl | ⟨hold, _⟩
      · rw [← href, noteReferrer_ref, served_ref hworked.served]
      · exact absurd (.inl ⟨s', hold, rfl, rfl⟩) hchanged
    exact ⟨by rw [hworked.named, hsession], hsession, fun hsame => hnot hsame.1⟩

end requests

section runs

variable {config : Config W} {opts : Option RateLimitOpts} {start : ℤ} {w : W} {trace : Trace}
  {server server' : Server W} {input : Input} {outcome : Outcome}

/-- A token is accepted only while it is current. -/
theorem accepted_current (h : Runs config opts start w trace server) (ref : ℕ) :
    Along (fun events e => ∀ token, e = .accepted token → Current events token)
      (history trace ref) := by
  refine along_history (tracks_kept config) ?_ h ref
  intro events s input w work htracks hserved before e after hevents token htoken
  subst htoken
  obtain ⟨hheld, rfl⟩ := served_accepted hserved hevents
  rw [List.append_nil]
  exact current_of_content (htracks.symm.trans hheld)

/-- A POST that acts on a login carries the current token of its session. -/
theorem carries_of_changes (hrun : Runs config opts start w trace server)
    (hstep : requestReceived config server input = some (server', outcome))
    (hpost : input.request.method = .post) {ref : ℕ}
    (h : ChangesLogin server server' outcome ref) :
    outcome.session = some ref ∧ ∃ form token rest, input.form = some form ∧
      Carries form token ∧ Current (history trace ref) token ∧
        outcome.events = .accepted token :: rest := by
  rcases requestReceived_cases (numbered_run hrun).1 hstep with hpassed |
    ⟨session, cookies, work, hworked⟩
  · rcases h with ⟨_, e, he, _⟩ | ⟨s', hs', _, hchanged⟩
    · rw [hpassed.events] at he
      cases he
    · exact absurd (.inl ⟨s', hpassed.kept s' hs', rfl, rfl⟩) hchanged
  · obtain ⟨hnamed, rfl, hacts⟩ := worked_of_changes hworked h
    refine ⟨hnamed, ?_⟩
    have htracks : session.csrfProtect = content tokenEffect (history trace session.ref) :=
      kept_opened (tracks_kept config) hrun (kept_run (tracks_kept config) hrun fun _ _ => trivial)
        hworked.opened
    have hserved := hworked.served
    cases hserved with
    | plain hform hhandled => exact absurd (handled_acts hhandled hpost hform) hacts
    | accepted hform htoken hsingle hhandled =>
      exact ⟨_, _, _, hform, carries_of_single hsingle,
        current_of_content (htracks.symm.trans htoken), hworked.events⟩
    | rejected hform => exact absurd ⟨rfl, by simp [actsOnLogin]⟩ hacts

/-- Between two accepted tokens of a session the second one was issued. -/
theorem issued_between (hrun : Runs config opts start w trace server) {ref : ℕ}
    {before middle after : List Event} {token token' : Str}
    (h : history trace ref =
      before ++ .accepted token :: middle ++ .accepted token' :: after) :
    .issued token' ∈ middle := by
  obtain ⟨first, last, heq, hkeep⟩ := accepted_current hrun ref _ _ _ h token' rfl
  rcases List.append_eq_append_iff.mp heq with ⟨rest, hfirst, hrest⟩ | ⟨rest, hbefore, hrest⟩
  · cases rest with
    | nil => simp at hrest
    | cons e rest =>
      rw [(List.cons.inj hrest).2]
      simp
  · have hmem : Event.accepted token ∈ last := by
      cases rest with
      | nil => simp at hrest
      | cons e rest =>
        rw [(List.cons.inj hrest).2]
        simp
    exact absurd (hkeep _ hmem) (by simp [tokenEffect])

/-- A rejected request leaves the login and the token of every session alone. -/
theorem unchanged_of_rejected (hrun : Runs config opts start w trace server)
    (hstep : requestReceived config server input = some (server', outcome))
    (h : .rejected ∈ outcome.events) :
    outcome.events = [.rejected] ∧ ∀ s', server'.store.Mem s' →
      Unchanged Session.authInfos server s' ∧ Unchanged Session.csrfProtect server s' := by
  rcases requestReceived_cases (numbered_run hrun).1 hstep with hpassed |
    ⟨session, cookies, work, hworked⟩
  · rw [hpassed.events] at h
    cases h
  · rw [hworked.events] at h
    obtain ⟨hsession, hevents⟩ := served_rejected hworked.served h
    refine ⟨hworked.events.trans hevents, fun s' hs' => ⟨?_, ?_⟩⟩
    · exact unchanged_of_worked (fun _ _ => rfl) (fun _ _ => rfl) hworked (by rw [hsession]) hs'
    · exact unchanged_of_worked (fun _ _ => rfl) (fun _ _ => rfl) hworked (by rw [hsession]) hs'

/-- In every run the login of a session is changed by a POST only with the token that
was issued to it last and not used since, every issued token is accepted at most once,
and a rejected request changes neither login nor token. -/
theorem form_protected (hrun : Runs config opts start w trace server)
    (hstep : requestReceived config server input = some (server', outcome)) :
    (input.request.method = .post → ∀ ref, ChangesLogin server server' outcome ref →
      outcome.session = some ref ∧ ∃ form token rest, input.form = some form ∧
        Carries form token ∧ Current (history trace ref) token ∧
          outcome.events = .accepted token :: rest) ∧
    (∀ ref before token after,
      history (trace ++ [(input, outcome)]) ref = before ++ .accepted token :: after →
        Current before token) ∧
    (∀ ref before token middle token' after,
      history (trace ++ [(input, outcome)]) ref =
        before ++ .accepted token :: middle ++ .accepted token' :: after →
          .issued token' ∈ middle) ∧
    (.rejected ∈ outcome.events → outcome.events = [.rejected] ∧ ∀ s', server'.store.Mem s' →
      Unchanged Session.authInfos server s' ∧ Unchanged Session.csrfProtect server s') := by
  have hlabel : stepOf (requestReceived config) server (input, outcome) server' := hstep
  have hrun' : Runs config opts start w (trace ++ [(input, outcome)]) server' :=
    Run.snoc hrun hlabel
  refine ⟨fun hpost ref h => carries_of_changes hrun hstep hpost h, ?_, ?_, ?_⟩
  · intro ref before token after h
    exact accepted_current hrun' ref _ _ _ h token rfl
  · intro ref before token middle token' after h
    exact issued_between hrun' h
  · exact unchanged_of_rejected hrun hstep

end runs

/-- A login with the form that was shown before carries the token of that form. -/
theorem form_protected_sample : ∃ trace server server' outcome,
    Runs sampleConfig none 0 () trace server ∧
      requestReceived sampleConfig server sampleLogin = some (server', outcome) ∧
      ∃ form token, sampleLogin.form = some form ∧ Carries form token ∧
        Current (history trace 0) token := by
  have hexec : ((exec (requestReceived sampleConfig) (Server.create none 0 ())
      ([sampleForm] ++ [sampleLogin])).map fun r => r.2.getLast?.map fun l =>
        (l.2.session, l.2.events.any actsOnLogin)) = some (some (some 0, true)) := by
    decide +kernel
  obtain ⟨⟨server', full⟩, hsome, hlast⟩ := Option.map_eq_some_iff.mp hexec
  obtain ⟨trace, server, outcome, hrun, hstep, rfl⟩ := last_of_exec hsome
  simp only [List.getLast?_append, List.getLast?_singleton, Option.some_or, Option.map_some,
    Option.some.injEq, Prod.mk.injEq] at hlast
  have hchanges : ChangesLogin server server' outcome 0 :=
    .inl ⟨hlast.1, List.any_eq_true.mp hlast.2⟩
  obtain ⟨_, form, token, _, hform, hcarries, hcurrent, _⟩ :=
    (form_protected hrun hstep).1 rfl 0 hchanges
  exact ⟨trace, server, server', outcome, hrun, hstep, form, token, hform, hcarries, hcurrent⟩

end Swad.CsrfTokens
