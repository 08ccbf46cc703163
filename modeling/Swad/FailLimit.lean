import Swad.Authenticator
import Swad.RatelimitWindow

/-!
The limit of failed logins. A failure is counted after the checkers have run, and
the name is blocked only when the limiter rejects the count, so one more call than
the limit allows reaches the checkers in a window. Lifting a block uses up one
count, which is why it is never more than one.
-/
namespace Swad.FailLimit

open Bytes Tables Ratelimit RatelimitHistory RatelimitWindow LabelledRuns Authenticator

variable {W : Type}

/-- A login, with the times at which it begins and ends. -/
structure Login where
  user : Str
  pw : Str
  start : Timespec
  finish : Timespec
  start_le : start.nanos ≤ finish.nanos

def Login.attempt (self : Login) : Attempt :=
  ⟨self.user, self.pw, some self.start, some self.finish⟩

/-- What a login returns and what it asked for. -/
abbrev Answer := Verdict × List Inquiry

abbrev Logins := List (Login × Answer)

def loginStep (registry : Registry W) (name : Str) (s : AuthInfos × W) (l : Login) :
    Option ((AuthInfos × W) × Answer) :=
  let result := login registry s.1 name l.attempt s.2
  some ((result.authInfos, result.world), (result.verdict, result.inquiries))

def InOrder (trace : Logins) : Prop :=
  trace.Pairwise (fun a b => a.1.finish.nanos ≤ b.1.start.nanos)

def Inquiry.isChecker : Inquiry → Bool
  | .checker _ _ => true
  | .limit _ _ => false

/-- The checkers ran and none accepted. -/
def ranAndFailed (x : Login × Answer) : Bool :=
  decide (x.2.1 ≠ .accepted) && x.2.2.any Inquiry.isChecker

/-- The failures for a user name in an interval. -/
def failuresIn (user : Str) (start seconds : ℕ) (trace : Logins) : ℕ :=
  trace.countP (fun x => decide (x.1.user = user) && ranAndFailed x &&
    decide (start ≤ x.1.finish.nanos ∧ x.1.finish.nanos < start + seconds * second))

/-- A realm with a single limit of failed logins. -/
structure Limited (registry : Registry W) (name : Str) (realm : Realm) (seconds limit : ℕ) :
    Prop where
  registered : registry.realms.lookup name = some realm
  checkers : realm.checkers ≠ []
  limit : RateLimit.create (limitOpts registry realm) = single seconds limit

/-- In every run of logins in a new session, at most `bound` calls for a user name run
the checkers and fail in an interval of the configured length. -/
def KeepsFailLimit (seconds limit bound : ℕ) : Prop :=
  ∀ (W : Type) (registry : Registry W) (name : Str) (realm : Realm) (w : W) (trace : Logins)
    (s : AuthInfos × W), Limited registry name realm seconds limit →
    Run (stepOf (loginStep registry name)) (∅, w) trace s → InOrder trace →
    ∀ user t, WholeSecond t → failuresIn user t seconds trace ≤ bound

/-- The failures for a user name that lie less than the configured length before a time. -/
def recentFailures (user : Str) (now : Timespec) (seconds : ℕ) (trace : Logins) : ℕ :=
  trace.countP (fun x => decide (x.1.user = user) && ranAndFailed x &&
    decide (now.nanos < x.1.finish.nanos + seconds * second))

/-- Once the failures are used up, a call is blocked and asks no checker. -/
def StopsAtLimit (seconds limit : ℕ) : Prop :=
  ∀ (W : Type) (registry : Registry W) (name : Str) (realm : Realm) (w : W) (trace : Logins)
    (s : AuthInfos × W), Limited registry name realm seconds limit →
    Run (stepOf (loginStep registry name)) (∅, w) trace s → InOrder trace →
    Along (fun pre x => limit ≤ recentFailures x.1.user x.1.start seconds pre →
      x.2.1 = .blocked ∧ x.2.2.any Inquiry.isChecker = false) trace

/-! ### What one login does -/

section login

variable {registry : Registry W} {name : Str} {realm : Realm}

/-- The calls of the limiter that an answer reports. -/
def limiterCalls (user : Str) (inquiries : List Inquiry) : RatelimitHistory.Trace :=
  inquiries.filterMap fun
    | .limit (some ts) ok => some (⟨ts, user⟩, ok)
    | _ => none

def limiterTrace (trace : Logins) : RatelimitHistory.Trace :=
  trace.flatMap fun x => limiterCalls x.1.user x.2.2

theorem limiterTrace_snoc (trace : Logins) (x : Login × Answer) :
    limiterTrace (trace ++ [x]) = limiterTrace trace ++ limiterCalls x.1.user x.2.2 := by
  simp [limiterTrace]

theorem limiterCalls_append (user : Str) (a b : List Inquiry) :
    limiterCalls user (a ++ b) = limiterCalls user a ++ limiterCalls user b :=
  List.filterMap_append ..

/-- The checkers ask the limiter nothing. -/
theorem limiterCalls_tryCheckers (registry : Registry W) (user pw : Str) (names : List Str)
    (w : W) :
    limiterCalls user (tryCheckers registry user pw names w).2.2 = [] := by
  induction names generalizing w with
  | nil => rfl
  | cons c names ih =>
    simp only [tryCheckers]
    split
    · exact ih w
    · split
      · rfl
      · next w' _ => exact ih w'

/-- The limiter of a record is in the given state. -/
def HasLimit (registry : Registry W) (realm : Realm) (info : AuthInfo) (l : Limit) : Prop :=
  getLimits registry info realm = ⟨[l]⟩

theorem checkFailLimit_eq {info : AuthInfo} {l : Limit} (h : HasLimit registry realm info l)
    (ts : Timespec) (user : Str) :
    checkFailLimit registry realm info (some ts) user =
      ({ info with failLimit := some ⟨[(checkLimit l ts user).1]⟩ }, (checkLimit l ts user).2) := by
  rw [checkFailLimit, h, check_single l ⟨ts, user⟩]

theorem isBlocked_block (info : AuthInfo) (user other : Str) :
    (info.block user).isBlocked other = (decide (other = user) || info.isBlocked other) := by
  by_cases h : other = user
  · subst h
    simp [AuthInfo.block, AuthInfo.isBlocked]
  · simp [AuthInfo.block, AuthInfo.isBlocked, AList.lookup_insert_ne h, h]

theorem isBlocked_unblock (info : AuthInfo) (user other : Str) :
    (info.unblock user).isBlocked other = (decide (other ≠ user) && info.isBlocked other) := by
  cases hblocks : info.blocks with
  | none => simp [AuthInfo.unblock, AuthInfo.isBlocked, hblocks]
  | some blocks =>
    by_cases h : other = user
    · subst h
      simp [AuthInfo.unblock, AuthInfo.isBlocked, hblocks]
    · simp [AuthInfo.unblock, AuthInfo.isBlocked, hblocks, AList.lookup_erase_ne h, h]

/-- The call that lifts a block, if there is one to lift. -/
def liftingCalls (blocked : Bool) (c : RatelimitHistory.Call) : RatelimitHistory.Trace :=
  if blocked then [(c, true)] else []

theorem run_check (l : Limit) (c : RatelimitHistory.Call) :
    Run (stepOf callStep) l [(c, (checkLimit l c.ts c.id).2)] (checkLimit l c.ts c.id).1 :=
  Run.single (callStep_of_result l c _ rfl)

theorem lift_cases {info : Option AuthInfo} {l : Limit} {x : Login}
    {r : Option AuthInfo × Bool × List Inquiry}
    (hl : HasLimit registry realm (info.getD .create) l)
    (h : lift registry realm info x.attempt = r) :
    ∃ l', HasLimit registry realm (r.1.getD .create) l' ∧
      Run (stepOf callStep) l (limiterCalls x.user r.2.2) l' ∧
      r.2.2.any Inquiry.isChecker = false ∧
      ((r.2.1 = false ∧ (info.getD .create).isBlocked x.user = true ∧
          limiterCalls x.user r.2.2 = [(⟨x.start, x.user⟩, false)] ∧
          (r.1.getD .create).isBlocked = (info.getD .create).isBlocked) ∨
        (r.2.1 = true ∧
          limiterCalls x.user r.2.2 =
            liftingCalls ((info.getD .create).isBlocked x.user) ⟨x.start, x.user⟩ ∧
          ∀ other, (r.1.getD .create).isBlocked other =
            (decide (other ≠ x.user) && (info.getD .create).isBlocked other))) := by
  subst h
  have hunblocked : ∀ info : AuthInfo, info.isBlocked x.user = false →
      ∀ other, info.isBlocked other = (decide (other ≠ x.user) && info.isBlocked other) := by
    intro info hno other
    by_cases hother : other = x.user
    · simp [hother, hno]
    · simp [hother]
  cases info with
  | none =>
    have hno : AuthInfo.create.isBlocked x.user = false := rfl
    refine ⟨l, hl, Run.nil, rfl, .inr ⟨rfl, ?_, hunblocked _ hno⟩⟩
    simp only [Option.getD_none, hno]
    rfl
  | some info =>
    simp only [Option.getD_some] at hl ⊢
    by_cases hblocked : info.isBlocked x.user = true
    · have hcheck := checkFailLimit_eq hl x.start x.user
      have hrun := run_check l ⟨x.start, x.user⟩
      cases hr : (checkLimit l x.start x.user).2 with
      | true =>
        simp only [hr] at hcheck hrun
        simp only [lift, Login.attempt, hblocked, hcheck, if_true, Option.getD_some]
        refine ⟨_, rfl, hrun, rfl, .inr ⟨trivial, rfl, fun other => ?_⟩⟩
        exact isBlocked_unblock _ x.user other
      | false =>
        simp only [hr] at hcheck hrun
        simp only [lift, Login.attempt, hblocked, hcheck, if_true, Bool.false_eq_true, if_false,
          Option.getD_some]
        exact ⟨_, rfl, hrun, rfl, .inl ⟨trivial, trivial, rfl, rfl⟩⟩
    · have hno : info.isBlocked x.user = false := Bool.not_eq_true _ ▸ hblocked
      simp only [lift, Login.attempt, hno, Bool.false_eq_true, if_false, Option.getD_some]
      exact ⟨l, hl, Run.nil, rfl, .inr ⟨trivial, rfl, hunblocked info hno⟩⟩

/-- The courses a login can take: what it asks the limiter, what it answers, and which
names are blocked before and after it. -/
inductive Course (x : Login) (blocked : Str → Bool) :
    RatelimitHistory.Trace → Answer → (Str → Bool) → Prop
  | stopped {inquiries : List Inquiry} (hblocked : blocked x.user = true)
      (hran : inquiries.any Inquiry.isChecker = false) :
      Course x blocked [(⟨x.start, x.user⟩, false)] (.blocked, inquiries) blocked
  | accepted {inquiries : List Inquiry} :
      Course x blocked (liftingCalls (blocked x.user) ⟨x.start, x.user⟩) (.accepted, inquiries)
        (fun other => decide (other ≠ x.user) && blocked other)
  | failed {inquiries : List Inquiry} :
      Course x blocked
        (liftingCalls (blocked x.user) ⟨x.start, x.user⟩ ++ [(⟨x.finish, x.user⟩, true)])
        (.failed, inquiries) (fun other => decide (other ≠ x.user) && blocked other)
  | exhausted {inquiries : List Inquiry} :
      Course x blocked
        (liftingCalls (blocked x.user) ⟨x.start, x.user⟩ ++ [(⟨x.finish, x.user⟩, false)])
        (.blocked, inquiries) (fun other => decide (other = x.user) || blocked other)

theorem conclude_cases {info : Option AuthInfo} {l : Limit} {x : Login} (user : Option User)
    {r : AuthInfo × Verdict × List Inquiry}
    (hl : HasLimit registry realm (info.getD .create) l)
    (h : conclude registry realm info x.attempt user = r) :
    ∃ l', HasLimit registry realm r.1 l' ∧
      Run (stepOf callStep) l (limiterCalls x.user r.2.2) l' ∧
      ((r.2.1 = .accepted ∧ limiterCalls x.user r.2.2 = [] ∧
          r.1.isBlocked = (info.getD .create).isBlocked) ∨
        (r.2.1 = .failed ∧ limiterCalls x.user r.2.2 = [(⟨x.finish, x.user⟩, true)] ∧
          r.1.isBlocked = (info.getD .create).isBlocked) ∨
        (r.2.1 = .blocked ∧ limiterCalls x.user r.2.2 = [(⟨x.finish, x.user⟩, false)] ∧
          r.1.isBlocked =
            fun other => decide (other = x.user) || (info.getD .create).isBlocked other)) := by
  subst h
  cases user with
  | some user => exact ⟨l, hl, Run.nil, .inl ⟨rfl, rfl, rfl⟩⟩
  | none =>
    have hcheck := checkFailLimit_eq hl x.finish x.user
    have hrun := run_check l ⟨x.finish, x.user⟩
    cases hr : (checkLimit l x.finish x.user).2 with
    | true =>
      simp only [hr] at hcheck hrun
      simp only [conclude, Login.attempt, hcheck, if_true]
      exact ⟨_, rfl, hrun, .inr (.inl ⟨trivial, rfl, rfl⟩)⟩
    | false =>
      simp only [hr] at hcheck hrun
      simp only [conclude, Login.attempt, hcheck, Bool.false_eq_true, if_false]
      refine ⟨_, rfl, hrun, .inr (.inr ⟨trivial, rfl, ?_⟩)⟩
      funext other
      exact isBlocked_block _ x.user other

theorem loginRealm_cases {info : Option AuthInfo} {l : Limit} {x : Login} {w : W}
    {r : Option AuthInfo × W × Verdict × List Inquiry}
    (hl : HasLimit registry realm (info.getD .create) l)
    (h : loginRealm registry realm info x.attempt w = r) :
    ∃ l', HasLimit registry realm (r.1.getD .create) l' ∧
      Run (stepOf callStep) l (limiterCalls x.user r.2.2.2) l' ∧
      Course x (info.getD .create).isBlocked (limiterCalls x.user r.2.2.2) r.2.2
        (r.1.getD .create).isBlocked := by
  subst h
  obtain ⟨l₁, hl₁, hrun₁, hran, hcases⟩ := lift_cases (x := x) hl rfl
  rcases hcases with ⟨hstop, hblocked, hcalls, hsame⟩ | ⟨hgo, hcalls, hlifted⟩
  · simp only [loginRealm, hstop, Bool.false_eq_true, if_false]
    refine ⟨l₁, hl₁, hrun₁, ?_⟩
    rw [hcalls, hsame]
    exact .stopped hblocked hran
  · have hnames := funext hlifted
    simp only [loginRealm, hgo, if_true, Option.getD_some]
    generalize htry : tryCheckers registry x.attempt.user x.attempt.pw realm.checkers w = tried
    have htried : limiterCalls x.user tried.2.2 = [] := by
      rw [← htry]
      exact limiterCalls_tryCheckers registry x.user x.pw realm.checkers w
    obtain ⟨l₂, hl₂, hrun₂, hcases⟩ := conclude_cases (x := x) tried.1 hl₁ rfl
    generalize conclude registry realm (lift registry realm info x.attempt).1 x.attempt
      tried.1 = done at hl₂ hrun₂ hcases
    obtain ⟨info', verdict, asked⟩ := done
    rw [limiterCalls_append, limiterCalls_append, htried, List.append_nil]
    refine ⟨l₂, hl₂, hrun₁.trans hrun₂, ?_⟩
    simp only [hnames] at hcases
    rcases hcases with ⟨hverdict, hasked, hblocks⟩ | ⟨hverdict, hasked, hblocks⟩ |
      ⟨hverdict, hasked, hblocks⟩
    · rw [hcalls, hasked, hblocks, hverdict, List.append_nil]
      exact .accepted
    · rw [hcalls, hasked, hblocks, hverdict]
      exact .failed
    · have hsame : (fun other => decide (other = x.user) || (decide (other ≠ x.user) &&
          (info.getD .create).isBlocked other)) =
            fun other => decide (other = x.user) || (info.getD .create).isBlocked other := by
        funext other
        by_cases hother : other = x.user <;> simp [hother]
      rw [hcalls, hasked, hblocks, hverdict, hsame]
      exact .exhausted

/-- The limiter is asked for the name of the login, between its start and its end. -/
theorem Course.times {x : Login} {blocked blocked' : Str → Bool}
    {calls : RatelimitHistory.Trace} {a : Answer} (h : Course x blocked calls a blocked') :
    Chronological calls ∧ ∀ y ∈ calls, y.1.id = x.user ∧
      x.start.nanos ≤ y.1.ts.nanos ∧ y.1.ts.nanos ≤ x.finish.nanos := by
  have hle := x.start_le
  have hlifting : Chronological (liftingCalls (blocked x.user) ⟨x.start, x.user⟩) ∧
      ∀ y ∈ liftingCalls (blocked x.user) ⟨x.start, x.user⟩, y.1 = ⟨x.start, x.user⟩ := by
    unfold liftingCalls
    split <;> simp [Chronological]
  have happend : ∀ ok : Bool,
      Chronological (liftingCalls (blocked x.user) ⟨x.start, x.user⟩ ++
        [(⟨x.finish, x.user⟩, ok)]) ∧
      ∀ y ∈ liftingCalls (blocked x.user) ⟨x.start, x.user⟩ ++ [(⟨x.finish, x.user⟩, ok)],
        y.1.id = x.user ∧ x.start.nanos ≤ y.1.ts.nanos ∧ y.1.ts.nanos ≤ x.finish.nanos := by
    intro ok
    constructor
    · refine List.pairwise_append.mpr ⟨hlifting.1, List.pairwise_singleton _ _, ?_⟩
      intro y hy z hz
      rw [hlifting.2 y hy, List.mem_singleton.mp hz]
      exact hle
    · intro y hy
      rcases List.mem_append.mp hy with hold | hnew
      · rw [hlifting.2 y hold]
        exact ⟨rfl, Nat.le_refl _, hle⟩
      · rw [List.mem_singleton.mp hnew]
        exact ⟨rfl, hle, Nat.le_refl _⟩
  cases h with
  | stopped hblocked hran =>
    refine ⟨List.pairwise_singleton _ _, fun y hy => ?_⟩
    rw [List.mem_singleton.mp hy]
    exact ⟨rfl, Nat.le_refl _, hle⟩
  | accepted =>
    refine ⟨hlifting.1, fun y hy => ?_⟩
    rw [hlifting.2 y hy]
    exact ⟨rfl, Nat.le_refl _, hle⟩
  | failed => exact happend true
  | exhausted => exact happend false

/-- What is stored for the realm. -/
def record (name : Str) (s : AuthInfos × W) : AuthInfo := (AList.lookup name s.1).getD .create

/-- Every login for the realm leaves a record. -/
theorem loginRealm_isSome (registry : Registry W) (realm : Realm) (info : Option AuthInfo)
    (attempt : Attempt) (w : W) :
    (loginRealm registry realm info attempt w).1.isSome = true := by
  by_cases hgo : (lift registry realm info attempt).2.1 = true
  · simp [loginRealm, hgo]
  · cases info with
    | none => exact absurd rfl hgo
    | some info =>
      have hlift : (lift registry realm (some info) attempt).1.isSome = true := by
        simp only [lift]
        split
        · split <;> rfl
        · rfl
      simpa [loginRealm, hgo] using hlift

theorem loginStep_cases {seconds limit : ℕ} (hlimited : Limited registry name realm seconds limit)
    {s s' : AuthInfos × W} {x : Login} {a : Answer} {l : Limit}
    (hl : HasLimit registry realm (record name s) l)
    (h : loginStep registry name s x = some (s', a)) :
    ∃ l', HasLimit registry realm (record name s') l' ∧
      Run (stepOf callStep) l (limiterCalls x.user a.2) l' ∧
      Course x (record name s).isBlocked (limiterCalls x.user a.2) a
        (record name s').isBlocked := by
  simp only [loginStep, login, hlimited.registered, hlimited.checkers, if_false,
    Option.some.injEq, Prod.mk.injEq] at h
  obtain ⟨rfl, rfl⟩ := h
  obtain ⟨l', hl', hrun, hcourse⟩ := loginRealm_cases (w := s.2) (x := x) hl rfl
  have hsome := loginRealm_isSome registry realm
    (AList.lookup name s.1) x.attempt s.2
  have hrecord : record name (AuthInfos.put s.1 name
      (loginRealm registry realm (AList.lookup name s.1) x.attempt s.2).1,
      (loginRealm registry realm (AList.lookup name s.1) x.attempt s.2).2.1) =
      (loginRealm registry realm (AList.lookup name s.1) x.attempt s.2).1.getD .create := by
    obtain ⟨info, hinfo⟩ := Option.isSome_iff_exists.mp hsome
    simp [record, AuthInfos.put, hinfo]
  exact ⟨l', hrecord ▸ hl', hrun, hrecord ▸ hcourse⟩

end login

/-! ### The bound over whole runs -/

section runs

variable {registry : Registry W} {name : Str} {realm : Realm} {seconds limit : ℕ}

/-- The limiter of the realm has seen exactly the calls that the logins report. -/
theorem linked_run (hlimited : Limited registry name realm seconds limit) {w : W}
    {trace : Logins} {s : AuthInfos × W}
    (h : Run (stepOf (loginStep registry name)) (∅, w) trace s) :
    ∃ l, HasLimit registry realm (record name s) l ∧
      Run (stepOf callStep) (newLimit seconds limit) (limiterTrace trace) l := by
  induction h with
  | nil => exact ⟨newLimit seconds limit, hlimited.limit, Run.nil⟩
  | @snoc trace s s' x _ hstep ih =>
    obtain ⟨l, hl, hrun⟩ := ih
    obtain ⟨l', hl', hrun', _⟩ := loginStep_cases hlimited hl hstep
    refine ⟨l', hl', ?_⟩
    rw [limiterTrace_snoc]
    exact hrun.trans hrun'

theorem inOrder_init {trace : Logins} {x : Login × Answer} (h : InOrder (trace ++ [x])) :
    InOrder trace :=
  (List.pairwise_append.mp h).1

theorem finish_le_start {trace : Logins} {x : Login × Answer} (h : InOrder (trace ++ [x]))
    {z : Login × Answer} (hz : z ∈ trace) : z.1.finish.nanos ≤ x.1.start.nanos :=
  (List.pairwise_append.mp h).2.2 z hz x (List.mem_singleton_self x)

/-- The limiter is asked at times in order. -/
theorem chronological_limiterTrace (hlimited : Limited registry name realm seconds limit) {w : W}
    {trace : Logins} {s : AuthInfos × W}
    (h : Run (stepOf (loginStep registry name)) (∅, w) trace s) (horder : InOrder trace) :
    Chronological (limiterTrace trace) ∧
      ∀ y ∈ limiterTrace trace, ∃ z ∈ trace, y.1.ts.nanos ≤ z.1.finish.nanos := by
  induction h with
  | nil => exact ⟨List.Pairwise.nil, by simp [limiterTrace]⟩
  | @snoc trace s s' x hrun hstep ih =>
    obtain ⟨hchron, hpast⟩ := ih (inOrder_init horder)
    obtain ⟨l, hl, _⟩ := linked_run hlimited hrun
    obtain ⟨_, _, _, hcourse⟩ := loginStep_cases hlimited hl hstep
    obtain ⟨hcalls, htimes⟩ := hcourse.times
    rw [limiterTrace_snoc]
    constructor
    · refine List.pairwise_append.mpr ⟨hchron, hcalls, fun y hy u hu => ?_⟩
      obtain ⟨z, hz, hle⟩ := hpast y hy
      have hstart := finish_le_start horder hz
      have hfrom := (htimes u hu).2.1
      omega
    · intro y hy
      rcases List.mem_append.mp hy with hold | hnew
      · obtain ⟨z, hz, hle⟩ := hpast y hold
        exact ⟨z, List.mem_append_left _ hz, hle⟩
      · exact ⟨x, by simp, (htimes y hnew).2.2⟩

/-- A failure has been counted, or its count was rejected and the name is blocked. Within
a window at most one rejected count stands against the accepted ones. -/
structure Accounted (user : Str) (t seconds : ℕ) (trace : Logins) (blocked : Bool) : Prop where
  ever : failuresIn user t seconds trace ≤ acceptedIn user t seconds (limiterTrace trace) + 1
  unblocked : (∀ z ∈ trace, z.1.finish.nanos < t + seconds * second) → blocked = false →
    failuresIn user t seconds trace ≤ acceptedIn user t seconds (limiterTrace trace)

/-- One more failure, if the login is for the name, failed and ended in the window. -/
theorem failuresIn_snoc (user : Str) (t seconds : ℕ) (trace : Logins) (x : Login × Answer) :
    failuresIn user t seconds (trace ++ [x]) = failuresIn user t seconds trace +
      failuresIn user t seconds [x] :=
  List.countP_append ..

theorem acceptedIn_append (user : Str) (t seconds : ℕ) (a b : RatelimitHistory.Trace) :
    acceptedIn user t seconds (a ++ b) =
      acceptedIn user t seconds a + acceptedIn user t seconds b :=
  List.countP_append ..

theorem failuresIn_singleton_le (user : Str) (t seconds : ℕ) (x : Login × Answer) :
    failuresIn user t seconds [x] ≤ 1 :=
  List.countP_le_length

theorem failuresIn_singleton_eq_zero (user : Str) (t : ℕ) {x : Login × Answer}
    (h : x.1.user = user → ranAndFailed x = true → t ≤ x.1.finish.nanos →
      t + seconds * second ≤ x.1.finish.nanos) : failuresIn user t seconds [x] = 0 := by
  rw [failuresIn, List.countP_eq_zero]
  intro y hy hcond
  rw [List.mem_singleton.mp hy] at hcond
  simp only [Bool.and_eq_true, decide_eq_true_eq] at hcond
  obtain ⟨⟨huser, hfailed⟩, hlo, hhi⟩ := hcond
  exact absurd (h huser hfailed hlo) (by omega)

/-- An accepted count that falls into the window. -/
theorem acceptedIn_counted (x : Login) (t : ℕ) (hlo : t ≤ x.finish.nanos)
    (hhi : x.finish.nanos < t + seconds * second) :
    acceptedIn x.user t seconds [(⟨x.finish, x.user⟩, true)] = 1 := by
  simp [acceptedIn, hlo, hhi]

/-- Lifting a block in the window uses up one count. -/
theorem failuresIn_le_lifting {t : ℕ} {trace : Logins} {x : Login} {a : Answer} {blocked : Bool}
    (horder : InOrder (trace ++ [(x, a)])) (hend : x.finish.nanos < t + seconds * second)
    (h : Accounted x.user t seconds trace blocked) :
    failuresIn x.user t seconds trace ≤ acceptedIn x.user t seconds (limiterTrace trace) +
      acceptedIn x.user t seconds (liftingCalls blocked ⟨x.start, x.user⟩) := by
  have hle := x.start_le
  cases blocked with
  | false =>
    have hbefore : ∀ z ∈ trace, z.1.finish.nanos < t + seconds * second := by
      intro z hz
      have hstart : z.1.finish.nanos ≤ x.start.nanos := finish_le_start horder hz
      omega
    exact (h.unblocked hbefore rfl).trans (Nat.le_add_right _ _)
  | true =>
    by_cases hlo : t ≤ x.start.nanos
    · have hone : acceptedIn x.user t seconds (liftingCalls true ⟨x.start, x.user⟩) = 1 := by
        have hhi : x.start.nanos < t + seconds * second := by omega
        simp [acceptedIn, liftingCalls, hlo, hhi]
      rw [hone]
      exact h.ever
    · have hzero : failuresIn x.user t seconds trace = 0 := by
        rw [failuresIn, List.countP_eq_zero]
        intro z hz hcond
        simp only [Bool.and_eq_true, decide_eq_true_eq] at hcond
        have hstart : z.1.finish.nanos ≤ x.start.nanos := finish_le_start horder hz
        omega
      omega

theorem accounted_step {user : Str} {t : ℕ} {trace : Logins} {x : Login} {a : Answer}
    {blocked blocked' : Str → Bool} (horder : InOrder (trace ++ [(x, a)]))
    (hcourse : Course x blocked (limiterCalls x.user a.2) a blocked')
    (h : Accounted user t seconds trace (blocked user)) :
    Accounted user t seconds (trace ++ [(x, a)]) (blocked' user) := by
  have hbefore : (∀ z ∈ trace ++ [(x, a)], z.1.finish.nanos < t + seconds * second) →
      ∀ z ∈ trace, z.1.finish.nanos < t + seconds * second :=
    fun hall z hz => hall z (List.mem_append_left _ hz)
  by_cases huser : x.user = user
  · subst huser
    by_cases hend : x.finish.nanos < t + seconds * second
    · have hlifted := failuresIn_le_lifting horder hend h
      have hfailures := failuresIn_snoc x.user t seconds trace (x, a)
      have hone := failuresIn_singleton_le x.user t seconds (x, a)
      have hnot : ranAndFailed (x, a) = false → failuresIn x.user t seconds [(x, a)] = 0 := by
        intro hno
        refine failuresIn_singleton_eq_zero x.user t fun _ hfailed => ?_
        rw [hno] at hfailed
        exact absurd hfailed (by decide)
      have hout : ¬ t ≤ x.finish.nanos → failuresIn x.user t seconds [(x, a)] = 0 :=
        fun hlo => failuresIn_singleton_eq_zero x.user t fun _ _ h => absurd h hlo
      have hever := h.ever
      have haccepted := limiterTrace_snoc trace (x, a)
      generalize limiterCalls x.user a.2 = calls at hcourse haccepted
      have hcounts := acceptedIn_append x.user t seconds (limiterTrace trace) calls
      rw [← haccepted] at hcounts
      cases hcourse with
      | stopped hblocked hran =>
        have hzero := hnot (by simp [ranAndFailed, hran])
        refine ⟨by omega, fun _ hno => ?_⟩
        rw [hblocked] at hno
        exact absurd hno (by decide)
      | accepted =>
        have hzero := hnot (by simp [ranAndFailed])
        exact ⟨by omega, fun _ _ => by omega⟩
      | failed =>
        rw [acceptedIn_append] at hcounts
        by_cases hlo : t ≤ x.finish.nanos
        · have hcount := acceptedIn_counted x t hlo hend
          exact ⟨by omega, fun _ _ => by omega⟩
        · have hzero := hout hlo
          exact ⟨by omega, fun _ _ => by omega⟩
      | exhausted =>
        rw [acceptedIn_append] at hcounts
        refine ⟨by omega, fun _ hno => ?_⟩
        simp at hno
    · have hzero : failuresIn x.user t seconds [(x, a)] = 0 :=
        failuresIn_singleton_eq_zero x.user t fun _ _ _ => Nat.not_lt.mp hend
      have hever := h.ever
      refine ⟨?_, fun hall => absurd (hall (x, a) (by simp)) hend⟩
      rw [failuresIn_snoc, limiterTrace_snoc, acceptedIn_append, hzero]
      omega
  · have hsame : blocked' user = blocked user := by
      have hne : ¬ user = x.user := fun heq => huser heq.symm
      generalize limiterCalls x.user a.2 = calls at hcourse
      cases hcourse <;> simp [hne]
    have hzero : failuresIn user t seconds [(x, a)] = 0 :=
      failuresIn_singleton_eq_zero user t fun heq => absurd heq huser
    have hever := h.ever
    rw [hsame]
    constructor
    · rw [failuresIn_snoc, limiterTrace_snoc, acceptedIn_append, hzero]
      omega
    · intro hall hno
      have hle := h.unblocked (hbefore hall) hno
      rw [failuresIn_snoc, limiterTrace_snoc, acceptedIn_append, hzero]
      omega

theorem accounted_run (hlimited : Limited registry name realm seconds limit) {w : W}
    {trace : Logins} {s : AuthInfos × W}
    (h : Run (stepOf (loginStep registry name)) (∅, w) trace s) (horder : InOrder trace)
    (user : Str) (t : ℕ) : Accounted user t seconds trace ((record name s).isBlocked user) := by
  induction h with
  | nil => exact ⟨Nat.zero_le _, fun _ _ => Nat.zero_le _⟩
  | @snoc trace s s' x hrun hstep ih =>
    obtain ⟨l, hl, _⟩ := linked_run hlimited hrun
    obtain ⟨_, _, _, hcourse⟩ := loginStep_cases hlimited hl hstep
    exact accounted_step horder hcourse (ih (inOrder_init horder))

/-- Where the limiter keeps its own promise, one failure more than the limit is all that
gets through. -/
theorem keepsFailLimit_succ (hkeeps : KeepsLimit seconds limit WholeSecond) :
    KeepsFailLimit seconds limit (limit + 1) := by
  intro W registry name realm w trace s hlimited hrun horder user t ht
  have hever := (accounted_run hlimited hrun horder user t).ever
  obtain ⟨l, _, hlimiter⟩ := linked_run hlimited hrun
  have hchron := (chronological_limiterTrace hlimited hrun horder).1
  have hbound := hkeeps (limiterTrace trace) ⟨[l]⟩
    ((run_single_iff _ _ _).mpr ⟨l, rfl, hlimiter⟩) hchron user t ht
  omega

/-! ### A run that exceeds the limit -/

/-- A registered checker is asked about these credentials, and none accepts them. -/
def Refuses (registry : Registry W) (realm : Realm) (user pw : Str) : Prop :=
  ∀ w, (tryCheckers registry user pw realm.checkers w).1 = none ∧
    (tryCheckers registry user pw realm.checkers w).2.2.any Inquiry.isChecker = true

/-- A login at the first instant of the clock. -/
def guess (user pw : Str) : Login :=
  ⟨user, pw, ⟨0, 0, Timespec.zero_lt_second⟩, ⟨0, 0, Timespec.zero_lt_second⟩, Nat.le_refl _⟩

theorem lift_of_open {info : Option AuthInfo} {attempt : Attempt}
    (h : (info.getD .create).isBlocked attempt.user = false) :
    lift registry realm info attempt = (info, true, []) := by
  cases info with
  | none => rfl
  | some info =>
    rw [Option.getD_some] at h
    simp [lift, h]

/-- A name that is not blocked gets through to the checkers. -/
theorem ranAndFailed_of_refuses (hlimited : Limited registry name realm seconds limit)
    {s s' : AuthInfos × W} {x : Login} {a : Answer} (hrefuses : Refuses registry realm x.user x.pw)
    (hopen : (record name s).isBlocked x.user = false)
    (h : loginStep registry name s x = some (s', a)) : ranAndFailed (x, a) = true := by
  obtain ⟨hnone, hran⟩ := hrefuses s.2
  have hlift : lift registry realm (AList.lookup name s.1) x.attempt =
      (AList.lookup name s.1, true, []) := lift_of_open hopen
  have hverdict : (conclude registry realm (AList.lookup name s.1) x.attempt none).2.1 ≠
      .accepted := by
    simp only [conclude]
    split <;> simp
  simp only [loginStep, login, hlimited.registered, hlimited.checkers, if_false,
    Option.some.injEq, Prod.mk.injEq] at h
  obtain ⟨_, rfl⟩ := h
  simp only [loginRealm, hlift, if_true, show x.attempt.user = x.user from rfl,
    show x.attempt.pw = x.pw from rfl, hnone]
  simp [ranAndFailed, hverdict, hran]

/-- As long as the limit lasts, refused logins follow each other without a block. -/
theorem guesses_run (h0 : 0 < seconds) (hs : seconds ≤ 65535) (hl : limit ≤ 65535)
    (hlimited : Limited registry name realm seconds limit) (w : W) {user pw : Str}
    (hrefuses : Refuses registry realm user pw) (k : ℕ) (hk : k ≤ limit) :
    ∃ trace s, Run (stepOf (loginStep registry name)) (∅, w) trace s ∧ trace.length = k ∧
      (∀ z ∈ trace, z.1 = guess user pw ∧ ranAndFailed z = true) ∧
      limiterTrace trace = List.replicate k (⟨⟨0, 0, by decide⟩, user⟩, true) ∧
      (record name s).isBlocked user = false := by
  induction k with
  | zero => exact ⟨[], (∅, w), Run.nil, rfl, by simp, rfl, rfl⟩
  | succ k ih =>
    obtain ⟨trace, s, hrun, hlength, hall, hcalls, hopen⟩ := ih (by omega)
    obtain ⟨l, hlim, hlimiter⟩ := linked_run hlimited hrun
    obtain ⟨⟨s', a⟩, hstep⟩ : ∃ r, loginStep registry name s (guess user pw) = some r :=
      ⟨_, rfl⟩
    have hfailed := ranAndFailed_of_refuses hlimited (x := guess user pw) hrefuses hopen hstep
    obtain ⟨l', _, hnext, hcourse⟩ := loginStep_cases hlimited hlim hstep
    -- the limiter has room for one more call
    have haccepts : (checkLimit l ⟨0, 0, by decide⟩ user).2 = true := by
      have hwf := newLimit_wellFormed seconds limit h0 hs hl
      obtain ⟨l₁, hburst⟩ := burst_run hwf rfl ⟨⟨0, 0, by decide⟩, user⟩
        (by simp [slot]) (k + 1) hk
      rw [List.replicate_succ', ← hcalls] at hburst
      obtain ⟨m, hm, hlast⟩ := hburst.last
      obtain rfl := hm.unique hlimiter
      exact (Prod.mk.inj (Option.some.inj hlast)).2
    have hnone : liftingCalls ((record name s).isBlocked (guess user pw).user)
        ⟨(guess user pw).start, (guess user pw).user⟩ = [] := by
      rw [show (record name s).isBlocked (guess user pw).user = false from hopen]
      rfl
    have hsnoc := limiterTrace_snoc trace (guess user pw, a)
    have hall' : ∀ z ∈ trace ++ [(guess user pw, a)],
        z.1 = guess user pw ∧ ranAndFailed z = true := by
      intro z hz
      rcases List.mem_append.mp hz with hold | hnew
      · exact hall z hold
      · rw [List.mem_singleton.mp hnew]
        exact ⟨rfl, hfailed⟩
    generalize limiterCalls (guess user pw).user a.2 = calls at hnext hcourse hsnoc
    generalize hblocked' : (record name s').isBlocked = blocked' at hcourse
    have hlabel : stepOf (loginStep registry name) s (guess user pw, a) s' := hstep
    cases hcourse with
    | stopped hblocked _ => exact absurd (hopen.symm.trans hblocked) (by decide)
    | accepted => simp [ranAndFailed] at hfailed
    | failed =>
      refine ⟨_, s', Run.snoc hrun hlabel, by simp [hlength], hall', ?_, ?_⟩
      · rw [hsnoc, hcalls, hnone, List.replicate_succ']
        rfl
      · rw [hblocked']
        simp [guess]
    | exhausted =>
      rw [hnone] at hnext
      obtain ⟨m, hm, hlast⟩ := hnext.last
      obtain rfl := hm.unique Run.nil
      have hrejects : (checkLimit l ⟨0, 0, by decide⟩ user).2 = false :=
        (Prod.mk.inj (Option.some.inj hlast)).2
      exact absurd (haccepts.symm.trans hrejects) (by decide)

theorem inOrder_of_guesses {user pw : Str} {trace : Logins}
    (h : ∀ z ∈ trace, z.1 = guess user pw) : InOrder trace := by
  induction trace with
  | nil => exact List.Pairwise.nil
  | cons x trace ih =>
    refine List.Pairwise.cons (fun y hy => ?_) (ih fun z hz => h z (List.mem_cons_of_mem _ hz))
    rw [h x (List.mem_cons_self ..), h y (List.mem_cons_of_mem _ hy)]
    exact Nat.le_refl _

theorem failuresIn_of_guesses {user pw : Str} {trace : Logins} (h0 : 0 < seconds)
    (h : ∀ z ∈ trace, z.1 = guess user pw ∧ ranAndFailed z = true) :
    failuresIn user 0 seconds trace = trace.length := by
  have hpos : 0 < seconds * second := Nat.mul_pos h0 (by decide)
  refine List.countP_eq_length.mpr fun z hz => ?_
  obtain ⟨hguess, hfailed⟩ := h z hz
  simp [hguess, hfailed, guess, Timespec.nanos, hpos]

/-- After as many refused logins as the limit allows, one more reaches the checkers. -/
theorem guesses_exceed (h0 : 0 < seconds) (hs : seconds ≤ 65535) (hl : limit ≤ 65535)
    (hlimited : Limited registry name realm seconds limit) (w : W) {user pw : Str}
    (hrefuses : Refuses registry realm user pw) :
    ∃ trace s a,
      Run (stepOf (loginStep registry name)) (∅, w) (trace ++ [(guess user pw, a)]) s ∧
      trace.length = limit ∧
      ∀ z ∈ trace ++ [(guess user pw, a)], z.1 = guess user pw ∧ ranAndFailed z = true := by
  obtain ⟨trace, s, hrun, hlength, hall, _, hopen⟩ :=
    guesses_run h0 hs hl hlimited w hrefuses limit (Nat.le_refl _)
  obtain ⟨⟨s', a⟩, hstep⟩ : ∃ r, loginStep registry name s (guess user pw) = some r := ⟨_, rfl⟩
  have hfailed := ranAndFailed_of_refuses hlimited (x := guess user pw) hrefuses hopen hstep
  have hlabel : stepOf (loginStep registry name) s (guess user pw, a) s' := hstep
  refine ⟨trace, s', a, Run.snoc hrun hlabel, hlength, fun z hz => ?_⟩
  rcases List.mem_append.mp hz with hold | hnew
  · exact hall z hold
  · rw [List.mem_singleton.mp hnew]
    exact ⟨rfl, hfailed⟩

end runs

/-! ### A realm with one checker that refuses everything -/

def refusing : Registry Unit where
  checkers := AList.insert (str "pam") (fun w _ _ => ((false, none), w)) ∅
  realms := ∅
  defaultLimitOpts := none

def strict (seconds limit : ℕ) : Realm :=
  ⟨[str "pam"], some (RateLimitOpts.create.addLimit seconds limit)⟩

def strictRegistry (seconds limit : ℕ) : Registry Unit :=
  { refusing with realms := AList.insert (str "default") (strict seconds limit) ∅ }

theorem strict_limited (seconds limit : ℕ) :
    Limited (strictRegistry seconds limit) (str "default") (strict seconds limit) seconds
      limit where
  registered := AList.lookup_insert _
  checkers := by simp [strict]
  limit := rfl

theorem strict_refuses (seconds limit : ℕ) (user pw : Str) :
    Refuses (strictRegistry seconds limit) (strict seconds limit) user pw := by
  intro w
  have hlookup : (strictRegistry seconds limit).checkers.lookup (str "pam") =
      some fun w _ _ => ((false, none), w) := AList.lookup_insert _
  simp [strict, tryCheckers, hlookup, Inquiry.isChecker]

/-- Six wrong passwords at one time all reach the checker, where five are allowed. -/
theorem five_failures_exceeded :
    ∃ trace s, Run (stepOf (loginStep (strictRegistry 900 5) (str "default"))) (∅, ()) trace s ∧
      InOrder trace ∧ failuresIn (str "u") 0 900 trace = 6 := by
  obtain ⟨trace, s, a, hrun, hlength, hall⟩ := guesses_exceed (by decide) (by decide) (by decide)
    (strict_limited 900 5) () (strict_refuses 900 5 (str "u") (str "p"))
  refine ⟨_, s, hrun, inOrder_of_guesses fun z hz => (hall z hz).1, ?_⟩
  rw [failuresIn_of_guesses (by decide) hall, List.length_append, hlength]
  rfl

/-- Whatever the limit, a run exceeds it by one failure, and the call after the last
failure that the limit allows asks the checkers. Where the limiter keeps its own promise,
no run exceeds it by more. -/
theorem failLimit_exceeded (seconds limit : ℕ) (h0 : 0 < seconds) (hs : seconds ≤ 65535)
    (hl : limit ≤ 65535) :
    ¬ KeepsFailLimit seconds limit limit ∧ ¬ StopsAtLimit seconds limit ∧
      ((newLimit seconds limit).res ∣ seconds - 1 →
        KeepsFailLimit seconds limit (limit + 1)) := by
  obtain ⟨trace, s, a, hrun, hlength, hall⟩ := guesses_exceed h0 hs hl
    (strict_limited seconds limit) () (strict_refuses seconds limit (str "u") (str "p"))
  have horder := inOrder_of_guesses fun z hz => (hall z hz).1
  have hpos : 0 < seconds * second := Nat.mul_pos h0 (by decide)
  refine ⟨?_, ?_, ?_⟩
  · intro hkeeps
    have hbound := hkeeps _ _ _ _ _ _ _ (strict_limited seconds limit) hrun horder (str "u") 0
      (Nat.dvd_zero _)
    rw [failuresIn_of_guesses h0 hall, List.length_append, List.length_singleton, hlength] at hbound
    omega
  · intro hstops
    have hlast := hstops _ _ _ _ _ _ _ (strict_limited seconds limit) hrun horder trace
      (guess (str "u") (str "p"), a) [] rfl
    have hcount : recentFailures (str "u") (guess (str "u") (str "p")).start seconds trace =
        trace.length := by
      refine List.countP_eq_length.mpr fun z hz => ?_
      obtain ⟨hz1, hfailed⟩ := hall z (List.mem_append_left _ hz)
      simp [hz1, hfailed, guess, Timespec.nanos, hpos]
    have hran := (hall (guess (str "u") (str "p"), a) (by simp)).2
    have hno := (hlast (by rw [show (guess (str "u") (str "p")).user = str "u" from rfl, hcount,
      hlength])).2
    simp [ranAndFailed, hno] at hran
  · intro hdvd
    exact keepsFailLimit_succ (keepsLimit_of_dvd seconds limit h0 hs hl hdvd)

theorem failLimit_exceeded_default :
    ¬ KeepsFailLimit 900 5 5 ∧ ¬ StopsAtLimit 900 5 ∧
      ((newLimit 900 5).res ∣ 900 - 1 → KeepsFailLimit 900 5 6) :=
  failLimit_exceeded 900 5 (by decide) (by decide) (by decide)

end Swad.FailLimit
