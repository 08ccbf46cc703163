import Swad.Pipeline
import Swad.Utf8Scan

/-!
What reaches a checker. A form is sanitised and must be valid, and its fields have a length
limit in characters; so in no run of the server is a checker asked about a name or with a
password that is anything but 1 to 32 complete sequences without a NUL. What a checker keeps
when it is asked like that, it keeps in every run.
-/
namespace Swad.CheckedCredentials

open Bytes TextCodecs Utf8Sequences Utf8Scan Http Middleware Authenticator SessionStore Handlers
  Pipeline LabelledRuns Ratelimit

variable {W : Type}

/-- A text that a checker may be asked about. -/
structure Credential (s : Str) : Prop where
  noNul : (0 : Byte) ∉ s
  chars : ∃ chunks, Splits s chunks ∧ 1 ≤ chunks.length ∧ chunks.length ≤ 32
  fits : 1 ≤ s.length ∧ s.length ≤ 128

/-- A condition on the world that the checkers keep when they are asked about credentials. -/
def KeptByCheckers (registry : Registry W) (I : W → Prop) : Prop :=
  ∀ name check, registry.checkers.lookup name = some check →
    ∀ w user pw, Credential user → Credential pw → I w → I (check w user pw).2

theorem sequence_length {l : List Byte} (h : IsSequence l) : l.length ≤ 4 := by
  cases h with
  | one => exact Nat.le_of_ble_eq_true rfl
  | two => exact Nat.le_of_ble_eq_true rfl
  | three => exact Nat.le_of_ble_eq_true rfl
  | four => exact Nat.le_of_ble_eq_true rfl

/-- A text of at most 32 sequences fits a buffer of 128 bytes. -/
theorem splits_length {s : Str} {chunks : List (List Byte)} (h : Splits s chunks) :
    chunks.length ≤ s.length ∧ s.length ≤ 4 * chunks.length := by
  obtain ⟨rfl, hsequences⟩ := h
  induction chunks with
  | nil => exact ⟨le_rfl, le_rfl⟩
  | cons l rest ih =>
    obtain ⟨hl, hrest⟩ := List.forall_mem_cons.mp hsequences
    obtain ⟨hlow, hhigh⟩ := ih hrest
    have hlong := sequence_length hl
    have hpos := List.length_pos_iff.mpr hl.ne_nil
    rw [List.flatten_cons, List.length_append, List.length_cons]
    omega

section forms

variable {form : FormData} {name value : Str} {len : ℕ}

theorem zero_notMem_urldecode (s : List Byte) : (0 : Byte) ∉ urldecode s := by
  unfold urldecode
  exact zero_notMem_cstr _

theorem formParam_value {part : List Byte} (hvalue : (formParam part).value = some value) :
    (0 : Byte) ∉ value ∧ ∃ chunks, Splits value chunks ∧
      chunks.length = (formParam part).valuelen := by
  unfold formParam at hvalue ⊢
  have hraw : ∀ v, (splitParam part).2 = some v → (0 : Byte) ∉ v := by
    intro v hv
    unfold splitParam at hv
    split at hv
    · rw [← Option.some.inj hv]
      exact zero_notMem_urldecode _
    · cases hv
  cases hsplit : (splitParam part).2 with
  | none =>
    rw [hsplit] at hvalue
    cases hvalue
  | some v =>
    rw [hsplit] at hvalue
    obtain rfl := Option.some.inj hvalue
    exact ⟨zero_notMem_checksan (hraw v hsplit), splits_checksan v⟩

/-- The value of a field splits into as many characters as are reported. -/
theorem single_chars {body : List Byte} (h : (FormData.parse body).single name = some (value, len)) :
    (0 : Byte) ∉ value ∧ ∃ chunks, Splits value chunks ∧ chunks.length = len := by
  unfold FormData.single at h
  split at h
  · next param hfilter =>
    obtain ⟨v, hv, heq⟩ := Option.map_eq_some_iff.mp h
    obtain ⟨rfl, rfl⟩ := Prod.mk.inj heq
    have hmem : param ∈ (FormData.parse body).params := by
      have hsingle : param ∈ [param] := List.mem_singleton_self param
      rw [← hfilter] at hsingle
      exact (List.mem_filter.mp hsingle).1
    obtain ⟨part, _, rfl⟩ := List.mem_map.mp hmem
    exact formParam_value hv
  · cases h

theorem credentials_spec {body : List Byte} {user pw : Str}
    (h : credentials (FormData.parse body) = some (user, pw)) : Credential user ∧ Credential pw := by
  unfold credentials at h
  obtain ⟨⟨u, ulen⟩, hu, h⟩ := Option.bind_eq_some_iff.mp h
  obtain ⟨_, hubound, h⟩ := Option.bind_eq_some_iff.mp h
  obtain ⟨⟨p, plen⟩, hp, h⟩ := Option.bind_eq_some_iff.mp h
  obtain ⟨_, hpbound, h⟩ := Option.bind_eq_some_iff.mp h
  obtain ⟨rfl, rfl⟩ := Prod.mk.inj (Option.some.inj h)
  have hfield : ∀ {name value : Str} {len : ℕ} {x : Unit},
      (FormData.parse body).single name = some (value, len) →
        guard (1 ≤ len ∧ len ≤ 32) = some x → Credential value := by
    intro name value len x hsingle hguard
    obtain ⟨hno, chunks, hsplits, rfl⟩ := single_chars hsingle
    rw [Option.guard_eq_some'] at hguard
    obtain ⟨hmin, hmax⟩ := hguard
    obtain ⟨hlow, hhigh⟩ := splits_length hsplits
    exact ⟨hno, ⟨chunks, hsplits, hmin, hmax⟩, by omega, by omega⟩
  exact ⟨hfield hu hubound, hfield hp hpbound⟩

theorem form_parsed {input : Input} (h : input.form = some form) :
    ∃ body, form = FormData.parse body := by
  unfold Input.form FormData.get at h
  split at h
  · cases h
  split at h
  · cases h
  split at h
  · exact ⟨_, (Option.some.inj h).symm⟩
  · cases h

end forms

section logins

variable {registry : Registry W} {I : W → Prop} {user pw : Str} {w : W}

theorem tryCheckers_keeps (hI : KeptByCheckers registry I) (huser : Credential user)
    (hpw : Credential pw) (names : List Str) (hw : I w) :
    I (tryCheckers registry user pw names w).2.1 := by
  induction names generalizing w with
  | nil => exact hw
  | cons name names ih =>
    unfold tryCheckers
    split
    · exact ih hw
    · next check hlookup =>
      have hnext := hI name check hlookup w user pw huser hpw hw
      split
      · next hcheck =>
        rw [hcheck] at hnext
        exact hnext
      · next hcheck =>
        rw [hcheck] at hnext
        exact ih hnext

theorem login_keeps (hI : KeptByCheckers registry I) (self : AuthInfos) (realm : Str)
    (attempt : Attempt) (huser : Credential attempt.user) (hpw : Credential attempt.pw)
    (hw : I w) : I (login registry self realm attempt w).world := by
  unfold login
  split
  · exact hw
  split
  · exact hw
  dsimp only
  unfold loginRealm
  dsimp only
  split
  · exact tryCheckers_keeps hI huser hpw _ hw
  · exact hw

end logins

section handlers

variable {config : Config W} {input : Input} {session : Session} {w : W} {work : Work W}
  {I : W → Prop}

theorem redirect_world {status : HttpStatus} {rdr : Option Str} {events : List Event}
    (h : redirect session w status rdr events = some work) : work.world = w := by
  obtain ⟨_, _, rfl⟩ := redirect_eq_some h
  rfl

theorem doLogin_keeps (hI : KeptByCheckers config.registry I) (hw : I w)
    (h : doLogin config input session w = some work) : I work.world := by
  have hsame : ∀ {s : Session} {status rdr events},
      redirect s w status rdr events = some work → I work.world := by
    intro s status rdr events heq
    rw [redirect_world heq]
    exact hw
  unfold doLogin at h
  split at h
  · exact hsame h
  next form hform =>
  split at h
  · exact hsame h
  split at h
  · next realm rdr hrealm hrdr =>
    split at h
    · split at h
      · exact hsame h
      · next user pw hcredentials =>
        obtain ⟨body, rfl⟩ := form_parsed hform
        obtain ⟨huser, hpw⟩ := credentials_spec hcredentials
        have hresult := login_keeps hI session.authInfos realm
          ⟨user, pw, input.lifting, input.counting⟩ huser hpw hw
        unfold tryLogin at h
        dsimp only at h
        split at h
        · rw [redirect_world h]
          exact hresult
        · rw [redirect_world h]
          exact hresult
    · split at h
      · unfold tryLogout at h
        split at h
        · exact hsame h
        · exact hsame h
      · exact hsame h
  · exact hsame h

theorem handler_keeps (hI : KeptByCheckers config.registry I) (hw : I w) {target : Route}
    (h : target.handler config input session w = some work) : I work.world := by
  cases target with
  | root =>
    have h : rootHandler input session w = some work := h
    unfold rootHandler at h
    split at h
    · dsimp only at h
      split at h
      · rw [← Option.some.inj h]
        exact hw
      · rw [redirect_world h]
        exact hw
    · rw [← Option.some.inj h]
      exact hw
  | login =>
    have h : loginHandler config input session w = some work := h
    unfold loginHandler at h
    split at h
    · split at h
      · exact doLogin_keeps hI hw h
      · dsimp only at h
        unfold showForm at h
        split at h
        · rw [← Option.some.inj h]
          exact hw
        · dsimp only at h
          split at h
          · rw [redirect_world h]
            exact hw
          · rw [← Option.some.inj h]
            exact hw
    · rw [← Option.some.inj h]
      exact hw

theorem serve_keeps (hI : KeptByCheckers config.registry I) (hw : I w) {target : Route}
    (h : serve config input target session w = some work) : I work.world := by
  unfold serve csrfProtect at h
  split at h
  · exact handler_keeps hI hw h
  split at h
  · split at h
    · obtain ⟨inner, hinner, rfl⟩ := Option.map_eq_some_iff.mp h
      have hnext := handler_keeps hI hw hinner
      exact hnext
    · rw [← Option.some.inj h]
      exact hw
  · rw [← Option.some.inj h]
    exact hw

end handlers

section runs

variable {config : Config W} {opts : Option RateLimitOpts} {start : ℤ} {w : W} {trace : Trace}
  {server : Server W} {I : W → Prop}

/-- In every run, a checker is only asked about a name and with a password of 1 to 32
complete sequences without a NUL: what it keeps in such a call is kept throughout. -/
theorem checkers_asked (hI : KeptByCheckers config.registry I) (hw : I w)
    (hrun : Runs config opts start w trace server) : I server.world := by
  induction hrun with
  | nil => exact hw
  | @snoc trace m m' l hrun hstep ih =>
    rcases requestReceived_cases (numbered_run hrun).1 hstep with hpassed |
      ⟨session, cookies, work, hworked⟩
    · rw [hpassed.world]
      exact ih
    · obtain ⟨target, _, hserve⟩ := hworked.routed
      rw [hworked.world]
      exact serve_keeps hI ih hserve

end runs

section samples

/-- A checker that writes down what it is asked about. -/
def loggingChecker : CredentialsChecker (List (Str × Str)) := fun log user pw =>
  ((true, none), log ++ [(user, pw)])

def loggingConfig : Config (List (Str × Str)) where
  registry := ⟨AList.insert (str "log") loggingChecker ∅,
    AList.insert DEFAULT_REALM ⟨[str "log"], none⟩ ∅, none⟩
  order := Tables.Iteration.entries
  trusted := ⟨0, ⟨false, false, false⟩⟩
  loginHtml := str "%%CSRFTOKEN%%"
  logoutHtml := str "%%CSRFTOKEN%%"
  zlib := ⟨id, id⟩

theorem kept_by_logging : KeptByCheckers loggingConfig.registry fun log =>
    ∀ asked ∈ log, Credential asked.1 ∧ Credential asked.2 := by
  intro name check hlookup log user pw huser hpw hlog asked hmem
  have hcheck : check = loggingChecker := by
    unfold loggingConfig at hlookup
    by_cases hname : name = str "log"
    · rw [hname, AList.lookup_insert] at hlookup
      exact (Option.some.inj hlookup).symm
    · rw [AList.lookup_insert_ne hname] at hlookup
      cases hlookup
  subst hcheck
  rcases List.mem_append.mp hmem with hold | hnew
  · exact hlog asked hold
  · rw [List.mem_singleton.mp hnew]
    exact ⟨huser, hpw⟩

/-- A login is in the log, and all that is there are credentials. -/
theorem checkers_asked_sample : ∃ trace server,
    Runs loggingConfig none 0 [] trace server ∧ server.world = [(str "u", str "p")] ∧
      ∀ asked ∈ server.world, Credential asked.1 ∧ Credential asked.2 := by
  have hexec : ((exec (requestReceived loggingConfig) (Server.create none 0 [])
      [sampleForm, sampleLogin]).map fun r => r.1.world) = some [(str "u", str "p")] := by
    decide +kernel
  obtain ⟨⟨server, trace⟩, hsome, hworld⟩ := Option.map_eq_some_iff.mp hexec
  have hrun : Runs loggingConfig none 0 [] trace server := (run_of_exec _ hsome).1
  refine ⟨trace, server, hrun, hworld, ?_⟩
  exact checkers_asked kept_by_logging (fun asked hmem => absurd hmem List.not_mem_nil) hrun

end samples

end Swad.CheckedCredentials
