import Swad.RatelimitHistory

/-!
What a rejected call leaves behind. Every limit counts the calls that it has room for, also
those that another limit rejects, and decides by the calls that it has counted. A limit that
rejects a call does not count it, so all its later answers are those that it would have given
without the call.
-/
namespace Swad.RatelimitRejection

open Bytes Tables Ratelimit RatelimitHistory LabelledRuns

/-- One call of RateLimit_check, with what the clock delivers to it. -/
structure Query where
  clock : Option Timespec
  id : Str

/-- The call that reaches the limits, if the clock does not fail. -/
def Query.call (self : Query) : Option Call := self.clock.map fun ts => ⟨ts, self.id⟩

def check (self : RateLimit) (q : Query) : RateLimit × Bool := self.check q.clock q.id

/-- The limiter after some calls. -/
def after (self : RateLimit) (qs : List Query) : RateLimit :=
  qs.foldl (fun self q => (check self q).1) self

/-- A limit after some calls. -/
def settle (l : Limit) (calls : List Call) : Limit :=
  calls.foldl (fun l c => (checkLimit l c.ts c.id).1) l

/-- The calls of one limit with its own answers. -/
def answers (l : Limit) : List Call → Trace
  | [] => []
  | c :: calls => (c, (checkLimit l c.ts c.id).2) :: answers (checkLimit l c.ts c.id).1 calls

/-- A limiter for some limits, given in seconds and number of calls. -/
def limiter (settings : List (ℕ × ℕ)) : RateLimit :=
  RateLimit.create (settings.foldl (fun opts s => opts.addLimit s.1 s.2) RateLimitOpts.create)

theorem settle_append (l : Limit) (calls later : List Call) :
    settle l (calls ++ later) = settle (settle l calls) later := List.foldl_append

theorem answers_append (l : Limit) (calls later : List Call) :
    answers l (calls ++ later) = answers l calls ++ answers (settle l calls) later := by
  induction calls generalizing l with
  | nil => rfl
  | cons c calls ih =>
    rw [List.cons_append, answers, ih, answers, List.cons_append]
    rfl

theorem answers_calls (l : Limit) (calls : List Call) :
    (answers l calls).map Prod.fst = calls := by
  induction calls generalizing l with
  | nil => rfl
  | cons c calls ih => rw [answers, List.map_cons, ih]

theorem answers_length (l : Limit) (calls : List Call) : (answers l calls).length = calls.length := by
  rw [← answers_calls l calls, List.length_map, answers_calls]

theorem run_answers (l : Limit) (calls : List Call) :
    Run (stepOf callStep) l (answers l calls) (settle l calls) := by
  induction calls generalizing l with
  | nil => exact Run.nil
  | cons c calls ih =>
    have hfirst : stepOf callStep l (c, (checkLimit l c.ts c.id).2) (checkLimit l c.ts c.id).1 :=
      rfl
    exact (Run.single hfirst).trans (ih _)

/-- A call is decided by all limits together. -/
theorem checkLimits_eq (ts : Timespec) (id : Str) (limits : List Limit) :
    checkLimits ts id limits = (limits.map fun l => (checkLimit l ts id).1,
      limits.all fun l => (checkLimit l ts id).2) := by
  induction limits with
  | nil => rfl
  | cons l limits ih => rw [checkLimits, ih, List.map_cons, List.all_cons]

theorem check_some (self : RateLimit) (ts : Timespec) (id : Str) :
    check self ⟨some ts, id⟩ = (⟨self.limits.map fun l => (checkLimit l ts id).1⟩,
      self.limits.all fun l => (checkLimit l ts id).2) := by
  rw [check, RateLimit.check, checkLimits_eq]

theorem after_limits (self : RateLimit) (qs : List Query) :
    (after self qs).limits = self.limits.map fun l => settle l (qs.filterMap Query.call) := by
  induction qs generalizing self with
  | nil => simp [after, settle]
  | cons q qs ih =>
    obtain ⟨clock, id⟩ := q
    have hstep : after self (⟨clock, id⟩ :: qs) = after (check self ⟨clock, id⟩).1 qs := rfl
    rw [hstep, ih]
    cases clock with
    | none => rfl
    | some ts =>
      rw [check_some, List.map_map]
      rfl

theorem limiter_limits (settings : List (ℕ × ℕ)) :
    (limiter settings).limits = settings.map fun s => newLimit s.1 s.2 := by
  have hfold : ∀ opts : RateLimitOpts,
      (settings.foldl (fun opts s => opts.addLimit s.1 s.2) opts).limits =
        opts.limits ++ settings.map fun s => newLimit s.1 s.2 := by
    induction settings with
    | nil => simp
    | cons s settings ih =>
      intro opts
      rw [List.foldl_cons, ih, RateLimitOpts.addLimit, List.map_cons, List.append_assoc]
      rfl
  exact hfold RateLimitOpts.create

theorem accepted_append (res : ℕ) (id : Str) (trace later : Trace) :
    accepted res id (trace ++ later) = accepted res id trace ++ accepted res id later := by
  simp [accepted]

/-- Two histories with the same accepted calls lead to the same answers. -/
theorem eq_of_refines {l : Limit} {tr tr' later later' : Trace}
    (haccepted : ∀ id, accepted l.res id tr = accepted l.res id tr')
    (h : Refines l (tr ++ later)) (h' : Refines l (tr' ++ later'))
    (hcalls : later.map Prod.fst = later'.map Prod.fst) : later = later' := by
  induction later using List.reverseRecOn generalizing later' with
  | nil =>
    rw [List.map_nil, eq_comm, List.map_eq_nil_iff] at hcalls
    exact hcalls.symm
  | append_singleton later x ih =>
    rw [List.map_append, eq_comm, List.map_eq_append_iff] at hcalls
    obtain ⟨first, last, rfl, hfirst, hlast⟩ := hcalls
    obtain ⟨y, nil', rfl, hy, hnil⟩ := List.map_eq_cons_iff.mp hlast
    obtain rfl := List.map_eq_nil_iff.mp hnil
    rw [← List.append_assoc] at h h'
    obtain ⟨hinit, hx⟩ := (along_snoc _ _ _).mp h
    obtain ⟨hinit', hy'⟩ := (along_snoc _ _ _).mp h'
    obtain rfl : later = first := ih hinit hinit' hfirst.symm
    have hallows : historyAllows l (tr ++ later) x.1 ↔ historyAllows l (tr' ++ later) y.1 := by
      unfold historyAllows
      rw [accepted_append, accepted_append, hy, haccepted]
    have hresult : x.2 = y.2 := Bool.eq_iff_iff.mpr (hx.trans (hallows.trans hy'.symm))
    rw [Prod.ext hy.symm hresult]

/-- The slot numbers of the calls of one limit cannot mislead it. -/
def Trusted (l : Limit) (calls : List Call) : Prop :=
  Chronological (answers l calls) ∧ Along (fun pre x => Unwrapped l pre x.1) (answers l calls)

/-- A limit that rejects a call gives the answers that it would have given without it. -/
theorem answers_after_rejection {seconds limit : ℕ} (h0 : 0 < seconds) (hs : seconds ≤ 65535)
    (hlim : limit ≤ 65535) {before later : List Call} {c : Call}
    (hwith : Trusted (newLimit seconds limit) (before ++ c :: later))
    (hwithout : Trusted (newLimit seconds limit) (before ++ later))
    (hrejected : (checkLimit (settle (newLimit seconds limit) before) c.ts c.id).2 = false) :
    answers (settle (newLimit seconds limit) (before ++ [c])) later =
      answers (settle (newLimit seconds limit) before) later := by
  generalize hl : newLimit seconds limit = l at hwith hwithout hrejected ⊢
  have hrefines : ∀ calls, Trusted l calls → Refines l (answers l calls) := by
    intro calls htrusted
    subst hl
    exact refines_run (newLimit_wellFormed seconds limit h0 hs hlim) rfl (run_answers _ calls)
      htrusted.1 htrusted.2
  have h := hrefines _ hwith
  have h' := hrefines _ hwithout
  rw [answers_append] at h'
  rw [show before ++ c :: later = before ++ [c] ++ later by simp, answers_append,
    answers_append l before] at h
  have hlast : answers (settle l before) [c] = [(c, false)] := by rw [answers, hrejected, answers]
  rw [hlast] at h
  refine eq_of_refines ?_ h h' (by rw [answers_calls, answers_calls])
  intro id
  rw [accepted_append]
  simp [accepted]

/-- The next answer of a limit that has rejected a call. -/
theorem answer_after_rejection {seconds limit : ℕ} (h0 : 0 < seconds) (hs : seconds ≤ 65535)
    (hlim : limit ≤ 65535) {before later : List Call} {c d : Call}
    (hwith : Trusted (newLimit seconds limit) (before ++ c :: (later ++ [d])))
    (hwithout : Trusted (newLimit seconds limit) (before ++ (later ++ [d])))
    (hrejected : (checkLimit (settle (newLimit seconds limit) before) c.ts c.id).2 = false) :
    (checkLimit (settle (newLimit seconds limit) (before ++ c :: later)) d.ts d.id).2 =
      (checkLimit (settle (newLimit seconds limit) (before ++ later)) d.ts d.id).2 := by
  have h := answers_after_rejection h0 hs hlim hwith hwithout hrejected
  rw [answers_append, answers_append] at h
  have hlast := (List.append_inj' h (by rw [answers_length, answers_length])).2
  simp only [answers, List.cons.injEq, Prod.mk.injEq, and_true, true_and] at hlast
  rwa [show before ++ c :: later = before ++ [c] ++ later by simp,
    settle_append _ (before ++ [c]) later, settle_append _ before later]

/-- What a limit answers depends on the calls that it has accepted itself. -/
theorem answer_iff {seconds limit : ℕ} (h0 : 0 < seconds) (hs : seconds ≤ 65535)
    (hlim : limit ≤ 65535) {calls : List Call} {d : Call}
    (h : Trusted (newLimit seconds limit) (calls ++ [d])) :
    (checkLimit (settle (newLimit seconds limit) calls) d.ts d.id).2 = true ↔
      historyAllows (newLimit seconds limit) (answers (newLimit seconds limit) calls) d := by
  have hrefines := refines_run (newLimit_wellFormed seconds limit h0 hs hlim) rfl
    (run_answers _ (calls ++ [d])) h.1 h.2
  rw [Refines, answers_append, answers, answers, along_snoc] at hrefines
  exact hrefines.2

/-- A call that a limit has room for is one of those that it has accepted. -/
theorem answers_of_room {l : Limit} {before later : List Call} {c : Call}
    (hroom : (checkLimit (settle l before) c.ts c.id).2 = true) :
    answers l (before ++ c :: later) =
      answers l before ++ (c, true) :: answers (settle l (before ++ [c])) later := by
  rw [answers_append, answers, hroom, settle_append]
  rfl

def calls (qs : List Query) : List Call := qs.filterMap Query.call

def Configured (settings : List (ℕ × ℕ)) : Prop :=
  ∀ s ∈ settings, 0 < s.1 ∧ s.1 ≤ 65535 ∧ s.2 ≤ 65535

/-- No limit has room for the call, or the clock fails. -/
def RejectedByAll (self : RateLimit) (q : Query) : Prop :=
  ∀ c, q.call = some c → ∀ l ∈ self.limits, (checkLimit l c.ts c.id).2 = false

/-- A call is accepted if every limit accepts it, each of them after all calls so far. -/
theorem check_iff (settings : List (ℕ × ℕ)) (qs : List Query) (d : Query) :
    (check (after (limiter settings) qs) d).2 = true ↔
      ∃ e, d.call = some e ∧ ∀ s ∈ settings,
        (checkLimit (settle (newLimit s.1 s.2) (calls qs)) e.ts e.id).2 = true := by
  obtain ⟨clock, id⟩ := d
  cases clock with
  | none =>
    constructor
    · rintro ⟨⟩
    · rintro ⟨e, he, -⟩
      cases he
  | some ts =>
    rw [check_some, after_limits, limiter_limits, List.all_map, List.all_map,
      List.all_eq_true]
    constructor
    · exact fun h => ⟨⟨ts, id⟩, rfl, fun s hs => h s hs⟩
    · rintro ⟨e, he, h⟩
      obtain rfl := Option.some.inj he
      exact fun s hs => h s hs

section queries

variable {seconds limit : ℕ} {before later : List Query} {q d : Query} {c e : Call}

/-- A limit that rejects a call answers as if it had not been made. -/
theorem answer_without (h0 : 0 < seconds) (hs : seconds ≤ 65535) (hlim : limit ≤ 65535)
    (hc : q.call = some c) (he : d.call = some e)
    (hwith : Trusted (newLimit seconds limit) (calls (before ++ q :: (later ++ [d]))))
    (hwithout : Trusted (newLimit seconds limit) (calls (before ++ (later ++ [d]))))
    (hrejected : (checkLimit (settle (newLimit seconds limit) (calls before)) c.ts c.id).2 =
      false) :
    (checkLimit (settle (newLimit seconds limit) (calls (before ++ q :: later))) e.ts e.id).2 =
      (checkLimit (settle (newLimit seconds limit) (calls (before ++ later))) e.ts e.id).2 := by
  simp only [calls, List.filterMap_append, List.filterMap_cons, List.filterMap_nil, hc, he]
    at hwith hwithout hrejected ⊢
  exact answer_after_rejection h0 hs hlim hwith hwithout hrejected

/-- A limit with room for a call counts it. -/
theorem answer_with (h0 : 0 < seconds) (hs : seconds ≤ 65535) (hlim : limit ≤ 65535)
    (hc : q.call = some c) (he : d.call = some e)
    (hwith : Trusted (newLimit seconds limit) (calls (before ++ q :: (later ++ [d]))))
    (hroom : (checkLimit (settle (newLimit seconds limit) (calls before)) c.ts c.id).2 = true) :
    (checkLimit (settle (newLimit seconds limit) (calls (before ++ q :: later))) e.ts e.id).2 =
        true ↔
      historyAllows (newLimit seconds limit) (answers (newLimit seconds limit) (calls before) ++
        (c, true) :: answers (settle (newLimit seconds limit) (calls before ++ [c]))
          (calls later)) e := by
  simp only [calls, List.filterMap_append, List.filterMap_cons, List.filterMap_nil, hc, he]
    at hwith hroom ⊢
  rw [← List.cons_append, ← List.append_assoc] at hwith
  rw [answer_iff h0 hs hlim hwith, answers_of_room hroom]

end queries

/-- A limit that rejects a call gives all its later answers as if the call had not been
made, whatever the other limits do. A call that all limits reject has no influence on any
later decision. A limit that has room for a call counts it, whatever the other limits do, and
all limits together decide a later call, each of them after the calls that it has counted. -/
theorem rejected_consumes_nothing {settings : List (ℕ × ℕ)} (hsettings : Configured settings)
    {before later : List Query} {q d : Query}
    (hwith : ∀ s ∈ settings,
      Trusted (newLimit s.1 s.2) (calls (before ++ q :: (later ++ [d]))))
    (hwithout : ∀ s ∈ settings, Trusted (newLimit s.1 s.2) (calls (before ++ (later ++ [d])))) :
    (∀ s ∈ settings, ∀ c e, q.call = some c → d.call = some e →
      (checkLimit (settle (newLimit s.1 s.2) (calls before)) c.ts c.id).2 = false →
      (checkLimit (settle (newLimit s.1 s.2) (calls (before ++ q :: later))) e.ts e.id).2 =
        (checkLimit (settle (newLimit s.1 s.2) (calls (before ++ later))) e.ts e.id).2) ∧
    (RejectedByAll (after (limiter settings) before) q →
      (check (after (limiter settings) (before ++ q :: later)) d).2 =
        (check (after (limiter settings) (before ++ later)) d).2) ∧
    (∀ s ∈ settings, ∀ c e, q.call = some c → d.call = some e →
      (checkLimit (settle (newLimit s.1 s.2) (calls before)) c.ts c.id).2 = true →
      ((checkLimit (settle (newLimit s.1 s.2) (calls (before ++ q :: later))) e.ts e.id).2 = true ↔
        historyAllows (newLimit s.1 s.2) (answers (newLimit s.1 s.2) (calls before) ++
          (c, true) :: answers (settle (newLimit s.1 s.2) (calls before ++ [c])) (calls later)) e)) ∧
    ((check (after (limiter settings) (before ++ q :: later)) d).2 = true ↔
      ∃ e, d.call = some e ∧ ∀ s ∈ settings,
        (checkLimit (settle (newLimit s.1 s.2) (calls (before ++ q :: later))) e.ts e.id).2 =
          true) := by
  have hlimit : ∀ s ∈ settings, ∀ c e, q.call = some c → d.call = some e →
      (checkLimit (settle (newLimit s.1 s.2) (calls before)) c.ts c.id).2 = false →
      (checkLimit (settle (newLimit s.1 s.2) (calls (before ++ q :: later))) e.ts e.id).2 =
        (checkLimit (settle (newLimit s.1 s.2) (calls (before ++ later))) e.ts e.id).2 := by
    intro s hs c e hc he hrejected
    obtain ⟨h0, hle, hlim⟩ := hsettings s hs
    exact answer_without h0 hle hlim hc he (hwith s hs) (hwithout s hs) hrejected
  refine ⟨hlimit, fun hall => ?_, fun s hs c e hc he hroom => ?_, check_iff _ _ d⟩
  · obtain ⟨clock, id⟩ := d
    cases clock with
    | none => rfl
    | some ts =>
      rw [check_some, check_some, after_limits, after_limits, limiter_limits]
      cases hq : q.call with
      | none => simp [List.filterMap_append, hq]
      | some c =>
        simp only [List.all_map]
        refine Bool.eq_iff_iff.mpr ?_
        simp only [List.all_eq_true, Function.comp]
        refine forall_congr' fun s => forall_congr' fun hs => ?_
        have hrejected := hall c hq (settle (newLimit s.1 s.2) (calls before)) (by
          rw [after_limits, limiter_limits, List.map_map]
          exact List.mem_map.mpr ⟨s, hs, rfl⟩)
        have hsame := hlimit s hs c ⟨ts, id⟩ hq rfl hrejected
        exact Bool.eq_iff_iff.mp hsame
  · obtain ⟨h0, hle, hlim⟩ := hsettings s hs
    exact answer_with h0 hle hlim hc he (hwith s hs) hroom

/-- A call at a whole second, as a query. -/
def queryAt (sec : ℕ) (id : Str) : Query := ⟨some ⟨sec, 0, Timespec.zero_lt_second⟩, id⟩

/-- In the first 65536 seconds the slot numbers do not wrap around. -/
theorem trusted_of_early (l : Limit) {calls : List Call}
    (hsorted : calls.Pairwise fun a b => a.ts.nanos ≤ b.ts.nanos)
    (hearly : ∀ c ∈ calls, c.ts.tv_sec < 65536) : Trusted l calls := by
  constructor
  · have hcalls := answers_calls l calls
    rw [← hcalls, List.pairwise_map] at hsorted
    exact hsorted
  · intro pre x post heq a others _
    have hmem : x.1 ∈ (answers l calls).map Prod.fst := List.mem_map_of_mem (by simp [heq])
    rw [answers_calls] at hmem
    have hslot : slot l.res x.1 ≤ x.1.ts.tv_sec := Nat.div_le_self _ _
    have hlt := hearly x.1 hmem
    exact .inl (by omega)

/-- One call in 5 seconds and 2 in a minute. The call at second 1 is rejected for the 5 seconds
and counted for the minute, so the one at second 10 is rejected for the minute only. The call at
second 7 is rejected by both limits, and the one at second 61 is accepted as without it. -/
theorem rejected_consumes_nothing_two_limits :
    (checkLimit (settle (newLimit 5 1) (calls [queryAt 0 (str "a"), queryAt 1 (str "a")]))
        ⟨10, 0, Timespec.zero_lt_second⟩ (str "a")).2 = true ∧
      (checkLimit (settle (newLimit 60 2) (calls [queryAt 0 (str "a"), queryAt 1 (str "a")]))
        ⟨10, 0, Timespec.zero_lt_second⟩ (str "a")).2 ≠ true ∧
      (check (after (limiter [(5, 1), (60, 2)])
        [queryAt 0 (str "a"), queryAt 6 (str "a"), queryAt 7 (str "a")])
          (queryAt 61 (str "a"))).2 = true := by
  have hconfigured : Configured [(5, 1), (60, 2)] := by simp [Configured]
  have htrusted : ∀ secs : List ℕ, secs.Pairwise (· ≤ ·) → (∀ sec ∈ secs, sec < 65536) →
      ∀ s ∈ [(5, 1), (60, 2)],
        Trusted (newLimit s.1 s.2) (calls (secs.map fun sec => queryAt sec (str "a"))) := by
    intro secs hsorted hearly s _
    have hcalls : calls (secs.map fun sec => queryAt sec (str "a")) =
        secs.map fun sec => callAt sec (str "a") := by
      rw [calls, List.filterMap_map]
      exact congrFun List.filterMap_eq_map _
    rw [hcalls]
    refine trusted_of_early _ ?_ ?_
    · rw [List.pairwise_map]
      refine hsorted.imp fun h => ?_
      simp only [callAt, Timespec.nanos]
      omega
    · intro c hc
      obtain ⟨sec, hsec, rfl⟩ := List.mem_map.mp hc
      exact hearly sec hsec
  obtain ⟨hrejects, -, hcounts, -⟩ := @rejected_consumes_nothing _ hconfigured
    [queryAt 0 (str "a")] [] (queryAt 1 (str "a")) (queryAt 10 (str "a"))
    (htrusted [0, 1, 10] (by decide) (by decide)) (htrusted [0, 10] (by decide) (by decide))
  refine ⟨?_, ?_, ?_⟩
  · exact (hrejects (5, 1) (by decide) _ _ rfl rfl (by decide +kernel)).trans (by decide +kernel)
  · intro h
    have hallows := (hcounts (60, 2) (by decide) _ _ rfl rfl (by decide +kernel)).mp h
    unfold historyAllows at hallows
    exact absurd hallows (by decide +kernel)
  · have hall : RejectedByAll
        (after (limiter [(5, 1), (60, 2)]) [queryAt 0 (str "a"), queryAt 6 (str "a")])
          (queryAt 7 (str "a")) := by
      intro c hc l hl
      obtain rfl := Option.some.inj hc
      rw [after_limits, limiter_limits, List.map_map] at hl
      rcases List.mem_pair.mp hl with rfl | rfl
      · decide +kernel
      · decide +kernel
    obtain ⟨-, hsame, -⟩ := @rejected_consumes_nothing _ hconfigured
      [queryAt 0 (str "a"), queryAt 6 (str "a")] [] (queryAt 7 (str "a")) (queryAt 61 (str "a"))
      (htrusted [0, 6, 7, 61] (by decide) (by decide)) (htrusted [0, 6, 61] (by decide) (by decide))
    exact (hsame hall).trans (by decide +kernel)

/-- One call in 5 seconds and 2 in a minute are allowed. The call at second 1 is
rejected, but it is counted for the minute, and the call at second 10 is rejected too. -/
theorem rejected_call_counts :
    ¬ ∀ (settings : List (ℕ × ℕ)) (before later : List Query) (q d : Query),
      Configured settings → (check (after (limiter settings) before) q).2 = false →
        (check (after (limiter settings) (before ++ q :: later)) d).2 =
          (check (after (limiter settings) (before ++ later)) d).2 := by
  intro h
  have hsame := h [(5, 1), (60, 2)] [queryAt 0 (str "a")] [] (queryAt 1 (str "a"))
    (queryAt 10 (str "a")) (by simp [Configured]) (by decide +kernel)
  exact absurd hsame (by decide +kernel)

end Swad.RatelimitRejection
