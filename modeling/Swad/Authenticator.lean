import Swad.Ratelimit

/-!
The authenticator of one session: for every realm the user that is logged in,
the user names that are blocked, and the limiter of failed logins. The
credential checkers are arbitrary functions that may depend on a world and change
it. A login reports in order what it asked the limiter and the checkers. Locking
is left out: calls are taken one at a time.
-/
namespace Swad.Authenticator

open Bytes Tables Ratelimit

variable {W : Type}

structure User where
  username : Str
  realname : Option Str
  checker : Str
  deriving DecidableEq

structure AuthInfo where
  user : Option User
  blocks : Option (Table Str Unit)
  failLimit : Option RateLimit

structure Realm where
  checkers : List Str
  limitOpts : Option RateLimitOpts

/-- The method check of a credentials checker: whether it accepts, and the real name. -/
abbrev CredentialsChecker (W : Type) := W → Str → Str → (Bool × Option Str) × W

/-- What is registered when the server starts. -/
structure Registry (W : Type) where
  checkers : Table Str (CredentialsChecker W)
  realms : Table Str Realm
  defaultLimitOpts : Option RateLimitOpts

abbrev AuthInfos := Table Str AuthInfo

/-- The answers of a login: 0, 1 and -1. -/
inductive Verdict
  | failed
  | accepted
  | blocked
  deriving DecidableEq

/-- The limiter was asked about a failed login or about lifting a block, or a checker
about a user name. -/
inductive Inquiry
  | limit (clock : Option Timespec) (ok : Bool)
  | checker (name : Str) (ok : Bool)
  deriving DecidableEq

/-- The arguments of a login, with what the clock shows when a block may be lifted and
when a failure is counted. -/
structure Attempt where
  user : Str
  pw : Str
  lifting : Option Timespec
  counting : Option Timespec

def AuthInfo.create : AuthInfo := ⟨none, none, none⟩

/-- At most 5 failed logins in 15 minutes. -/
def defaultLimits : RateLimitOpts := RateLimitOpts.create.addLimit (15 * 60) 5

def limitOpts (registry : Registry W) (realm : Realm) : RateLimitOpts :=
  realm.limitOpts.getD (registry.defaultLimitOpts.getD defaultLimits)

def getLimits (registry : Registry W) (self : AuthInfo) (realm : Realm) : RateLimit :=
  self.failLimit.getD (RateLimit.create (limitOpts registry realm))

/-- One call of RateLimit_check for the limiter of a realm. -/
def checkFailLimit (registry : Registry W) (realm : Realm) (self : AuthInfo)
    (clock : Option Timespec) (user : Str) : AuthInfo × Bool :=
  let checked := (getLimits registry self realm).check clock user
  ({ self with failLimit := some checked.1 }, checked.2)

def AuthInfo.isBlocked (self : AuthInfo) (user : Str) : Bool :=
  ((self.blocks.getD ∅).lookup user).isSome

def AuthInfo.unblock (self : AuthInfo) (user : Str) : AuthInfo :=
  { self with blocks := self.blocks.map fun blocks => blocks.erase user }

def AuthInfo.block (self : AuthInfo) (user : Str) : AuthInfo :=
  { self with blocks := some ((self.blocks.getD ∅).insert user ()) }

/-- The loop over the checkers of a realm, up to the first that accepts. A name that is
not registered is passed over. -/
def tryCheckers (registry : Registry W) (user pw : Str) :
    List Str → W → Option User × W × List Inquiry
  | [], w => (none, w, [])
  | name :: names, w =>
    match registry.checkers.lookup name with
    | none => tryCheckers registry user pw names w
    | some check =>
      match check w user pw with
      | ((true, realname), w) => (some ⟨user, realname, name⟩, w, [.checker name true])
      | ((false, _), w) =>
        let rest := tryCheckers registry user pw names w
        (rest.1, rest.2.1, .checker name false :: rest.2.2)

/-- The end of a login: a failed one is counted, and blocks the name at the limit. -/
def conclude (registry : Registry W) (realm : Realm) (info : Option AuthInfo)
    (attempt : Attempt) (user : Option User) : AuthInfo × Verdict × List Inquiry :=
  let info := info.getD AuthInfo.create
  match user with
  | some user => ({ info with user := some user }, .accepted, [])
  | none =>
    let counted := checkFailLimit registry realm info attempt.counting attempt.user
    if counted.2 then (counted.1, .failed, [.limit attempt.counting true])
    else (counted.1.block attempt.user, .blocked, [.limit attempt.counting false])

/-- The beginning of a login: a blocked name is let through when the limiter accepts it. -/
def lift (registry : Registry W) (realm : Realm) (info : Option AuthInfo) (attempt : Attempt) :
    Option AuthInfo × Bool × List Inquiry :=
  match info with
  | none => (none, true, [])
  | some info =>
    if info.isBlocked attempt.user then
      let checked := checkFailLimit registry realm info attempt.lifting attempt.user
      if checked.2 then
        (some (checked.1.unblock attempt.user), true, [.limit attempt.lifting true])
      else (some checked.1, false, [.limit attempt.lifting false])
    else (some info, true, [])

structure LoginResult (W : Type) where
  authInfos : AuthInfos
  world : W
  verdict : Verdict
  inquiries : List Inquiry

/-- A login for a realm that is registered and has checkers. -/
def loginRealm (registry : Registry W) (realm : Realm) (info : Option AuthInfo)
    (attempt : Attempt) (w : W) : Option AuthInfo × W × Verdict × List Inquiry :=
  let lifted := lift registry realm info attempt
  if lifted.2.1 then
    let tried := tryCheckers registry attempt.user attempt.pw realm.checkers w
    let done := conclude registry realm lifted.1 attempt tried.1
    (some done.1, tried.2.1, done.2.1, lifted.2.2 ++ tried.2.2 ++ done.2.2)
  else (lifted.1, w, .blocked, lifted.2.2)

/-- Store the record of a realm. -/
def AuthInfos.put (self : AuthInfos) (name : Str) : Option AuthInfo → AuthInfos
  | none => self
  | some info => AList.insert name info self

def login (registry : Registry W) (self : AuthInfos) (name : Str) (attempt : Attempt) (w : W) :
    LoginResult W :=
  match registry.realms.lookup name with
  | none => ⟨self, w, .failed, []⟩
  | some realm =>
    if realm.checkers = [] then ⟨self, w, .failed, []⟩
    else
      let done := loginRealm registry realm (AList.lookup name self) attempt w
      ⟨AuthInfos.put self name done.1, done.2.1, done.2.2.1, done.2.2.2⟩

def user (self : AuthInfos) (name : Str) : Option User :=
  (AList.lookup name self).bind AuthInfo.user

/-- The user whose login another realm can take over. The list iterator starts again
for every record, since it has come to its end for the record before. -/
def silentUser (order : Iteration Str AuthInfo) (self : AuthInfos) (realm : Realm) :
    Option User :=
  (order.visit self).findSome? fun entry =>
    entry.2.user.filter fun user => realm.checkers.contains user.checker

def silentLogin (registry : Registry W) (order : Iteration Str AuthInfo) (self : AuthInfos)
    (name : Str) : AuthInfos × Bool :=
  match AList.lookup name self with
  | none => (self, false)
  | some info =>
    if info.user.isSome then (self, true)
    else
      match registry.realms.lookup name with
      | none => (self, false)
      | some realm =>
        match silentUser order self realm with
        | none => (self, false)
        | some user => (AList.insert name { info with user := some user } self, true)

def logout (self : AuthInfos) (name : Str) : AuthInfos :=
  match AList.lookup name self with
  | none => self
  | some info =>
    if info.user.isSome then AList.insert name { info with user := none } self else self

/-! ### The users of the realms -/

section users

variable {registry : Registry W} {self : AuthInfos} {name : Str}

theorem user_insert (self : AuthInfos) (name : Str) (info : AuthInfo) (other : Str) :
    user (AList.insert name info self) other =
      if other = name then info.user else user self other := by
  unfold user
  split
  · next heq =>
    rw [heq, AList.lookup_insert]
    rfl
  · next hne => rw [AList.lookup_insert_ne hne]

/-- The checkers are asked one after the other and refuse, the world changing with each of them.
A name that is not registered is passed over. -/
inductive Refused (registry : Registry W) (user pw : Str) : List Str → W → W → Prop
  | nil {w : W} : Refused registry user pw [] w w
  | missing {name : Str} {names : List Str} {w w' : W}
      (hmissing : registry.checkers.lookup name = none)
      (hrest : Refused registry user pw names w w') : Refused registry user pw (name :: names) w w'
  | asked {name : Str} {names : List Str} {check : CredentialsChecker W} {realname : Option Str}
      {w w₁ w' : W} (hlookup : registry.checkers.lookup name = some check)
      (hcheck : check w user pw = ((false, realname), w₁))
      (hrest : Refused registry user pw names w₁ w') : Refused registry user pw (name :: names) w w'

/-- The checkers before that of the user refuse, and that one is registered and accepts the
user name and the password in the world that they leave. -/
def AcceptedBy (registry : Registry W) (names : List Str) (pw : Str) (w : W) (u : User) : Prop :=
  ∃ before after check w₁ w₂, names = before ++ u.checker :: after ∧
    Refused registry u.username pw before w w₁ ∧
      registry.checkers.lookup u.checker = some check ∧
        check w₁ u.username pw = ((true, u.realname), w₂)

theorem AcceptedBy.mem {names : List Str} {pw : Str} {w : W} {u : User}
    (h : AcceptedBy registry names pw w u) : u.checker ∈ names := by
  obtain ⟨before, after, check, w₁, w₂, rfl, -⟩ := h
  exact List.mem_append_right _ List.mem_cons_self

theorem tryCheckers_accepted {name pw : Str} {names : List Str} {w : W} {u : User}
    (h : (tryCheckers registry name pw names w).1 = some u) :
    u.username = name ∧ AcceptedBy registry names pw w u := by
  induction names generalizing w with
  | nil => cases h
  | cons first names ih =>
    unfold tryCheckers at h
    split at h
    · next hmissing =>
      obtain ⟨rfl, before, after, check, w₁, w₂, rfl, hrefused, haccepted⟩ := ih h
      exact ⟨rfl, first :: before, after, check, w₁, w₂, rfl, .missing hmissing hrefused, haccepted⟩
    · next check hlookup =>
      split at h
      · next realname w₂ hcheck =>
        obtain rfl := Option.some.inj h
        exact ⟨rfl, [], names, check, w, w₂, rfl, .nil, hlookup, hcheck⟩
      · next realname w' hcheck =>
        obtain ⟨rfl, before, after, check', w₁, w₂, rfl, hrefused, haccepted⟩ := ih h
        exact ⟨rfl, first :: before, after, check', w₁, w₂, rfl, .asked hlookup hcheck hrefused,
          haccepted⟩

theorem tryCheckers_of_accepted {pw : Str} {names : List Str} {w : W} {u : User}
    (h : AcceptedBy registry names pw w u) :
    (tryCheckers registry u.username pw names w).1 = some u := by
  obtain ⟨before, after, check, w₁, w₂, rfl, hrefused, hlookup, hcheck⟩ := h
  induction hrefused with
  | nil =>
    rw [List.nil_append, tryCheckers, hlookup]
    simp only [hcheck]
  | missing hmissing _ ih =>
    rw [List.cons_append, tryCheckers, hmissing]
    exact ih hcheck
  | asked hfirst hrefuse _ ih =>
    rw [List.cons_append, tryCheckers, hfirst]
    simp only [hrefuse]
    exact ih hcheck

/-- The loop finds the user whose checker is the first to accept. -/
theorem tryCheckers_iff {name pw : Str} {names : List Str} {w : W} {u : User} :
    (tryCheckers registry name pw names w).1 = some u ↔
      u.username = name ∧ AcceptedBy registry names pw w u := by
  constructor
  · exact tryCheckers_accepted
  · rintro ⟨rfl, h⟩
    exact tryCheckers_of_accepted h

theorem lift_user (realm : Realm) (info : Option AuthInfo) (attempt : Attempt) :
    (lift registry realm info attempt).1.bind AuthInfo.user = info.bind AuthInfo.user := by
  unfold lift
  split
  · rfl
  · split
    · dsimp only
      split <;> rfl
    · rfl

/-- A login that is not accepted keeps the user of the realm. -/
theorem conclude_user (realm : Realm) (info : Option AuthInfo) (attempt : Attempt)
    (u : Option User) :
    (conclude registry realm info attempt u).1.user =
        (if u.isSome then u else info.bind AuthInfo.user) ∧
      ((conclude registry realm info attempt u).2.1 = .accepted ↔ u.isSome) := by
  have hold : (info.getD AuthInfo.create).user = info.bind AuthInfo.user := by
    cases info <;> rfl
  unfold conclude
  cases u with
  | some u => simp
  | none =>
    simp only [Option.isSome_none]
    split
    · exact ⟨hold, by simp⟩
    · exact ⟨hold, by simp⟩

theorem loginRealm_spec (realm : Realm) (info : Option AuthInfo) (attempt : Attempt) (w : W)
    {done : Option AuthInfo × W × Verdict × List Inquiry}
    (h : loginRealm registry realm info attempt w = done) :
    (done.2.2.1 ≠ .accepted → done.1.bind AuthInfo.user = info.bind AuthInfo.user) ∧
      (done.2.2.1 = .accepted → ∃ info' u, done.1 = some info' ∧ info'.user = some u ∧
        u.username = attempt.user ∧ AcceptedBy registry realm.checkers attempt.pw w u) := by
  subst h
  have hlift := @lift_user _ registry realm info attempt
  unfold loginRealm
  dsimp only
  split
  · generalize htried : tryCheckers registry attempt.user attempt.pw realm.checkers w = tried
    obtain ⟨hkept, haccepted⟩ := @conclude_user _ registry realm
      (lift registry realm info attempt).1 attempt tried.1
    rw [hlift] at hkept
    refine ⟨fun hverdict => ?_, fun hverdict => ?_⟩
    · have hnone : ¬ tried.1.isSome = true := fun hsome => hverdict (haccepted.mpr hsome)
      rw [if_neg hnone] at hkept
      exact hkept
    · obtain ⟨u, hu⟩ := Option.isSome_iff_exists.mp (haccepted.mp hverdict)
      rw [hu] at hkept
      have hfound := hu
      rw [← htried] at hfound
      obtain ⟨hname, haccepts⟩ := tryCheckers_iff.mp hfound
      refine ⟨_, u, rfl, ?_, hname, haccepts⟩
      rw [hu]
      exact hkept
  · exact ⟨fun _ => hlift, by simp⟩

/-- A login changes the user of its realm only, and only when a checker of the realm has
accepted the name. -/
theorem login_spec (attempt : Attempt) (w : W) {result : LoginResult W}
    (h : login registry self name attempt w = result) :
    (∀ other, other ≠ name → user result.authInfos other = user self other) ∧
      (result.verdict ≠ .accepted → user result.authInfos name = user self name) ∧
      (result.verdict = .accepted → ∃ realm u, registry.realms.lookup name = some realm ∧
        user result.authInfos name = some u ∧ u.username = attempt.user ∧
        AcceptedBy registry realm.checkers attempt.pw w u) := by
  subst h
  unfold login
  split
  · simp
  · next realm hrealm =>
    split
    · simp
    · generalize hdone : loginRealm registry realm (AList.lookup name self) attempt w = done
      obtain ⟨hkept, haccepted⟩ := loginRealm_spec realm (AList.lookup name self) attempt w hdone
      dsimp only
      refine ⟨fun other hne => ?_, fun hverdict => ?_, fun hverdict => ?_⟩
      · cases done.1 with
        | none => rfl
        | some info => exact (user_insert self name info other).trans (if_neg hne)
      · have hsame := hkept hverdict
        cases hinfo : done.1 with
        | none => rfl
        | some info =>
          rw [hinfo] at hsame
          exact (user_insert self name info name).trans ((if_pos rfl).trans hsame)
      · obtain ⟨info, u, hinfo, hu, hname, haccepts⟩ := haccepted hverdict
        refine ⟨realm, u, hrealm, ?_, hname, haccepts⟩
        rw [hinfo]
        exact (user_insert self name info name).trans ((if_pos rfl).trans hu)

/-- A silent login copies the user of another realm, whose checker belongs to this
realm too. -/
theorem silentLogin_spec {order : Iteration Str AuthInfo} {authInfos : AuthInfos}
    (huser : user self name = none)
    (h : silentLogin registry order self name = (authInfos, true)) :
    ∃ realm other u, registry.realms.lookup name = some realm ∧ user self other = some u ∧
      u.checker ∈ realm.checkers ∧ user authInfos name = some u ∧
        ∀ r, r ≠ name → user authInfos r = user self r := by
  unfold silentLogin at h
  split at h
  · simp at h
  · next info hinfo =>
    have hnone : info.user = none := by
      rw [user, hinfo] at huser
      exact huser
    rw [if_neg (by simp [hnone])] at h
    split at h
    · simp at h
    · next realm hrealm =>
      split at h
      · simp at h
      · next u hsilent =>
        obtain ⟨rfl, _⟩ := Prod.mk.inj h
        obtain ⟨entry, hentry, hfound⟩ := List.exists_of_findSome?_eq_some hsilent
        obtain ⟨hu, hchecker⟩ := Option.filter_eq_some_iff.mp hfound
        have hlookup := (order.mem_visit self entry.1 entry.2).mp hentry
        refine ⟨realm, entry.1, u, hrealm, ?_, by simpa using hchecker, ?_, fun r hr => ?_⟩
        · rw [user, hlookup]
          exact hu
        · exact (user_insert self name _ name).trans (if_pos rfl)
        · exact (user_insert self name _ r).trans (if_neg hr)

theorem logout_user (self : AuthInfos) (name other : Str) :
    user (logout self name) other = if other = name then none else user self other := by
  have hnone : ∀ {info : Option AuthInfo}, AList.lookup name self = info →
      info.bind AuthInfo.user = none →
      user self other = if other = name then none else user self other := by
    intro info hinfo huser
    split
    · next heq => rw [heq, user, hinfo, huser]
    · rfl
  unfold logout
  split
  · next hinfo => exact hnone hinfo rfl
  · next info hinfo =>
    split
    · exact user_insert self name _ other
    · next hsome => exact hnone hinfo (by simpa using hsome)

end users

end Swad.Authenticator
