import Swad.RatelimitHistory

/-!
The bound that a single limit promises: at most `limit` accepted calls for an id
in any interval of the configured length. Because the buffer counts whole slots,
the promise depends on how an interval can lie across the slots.
-/
namespace Swad.RatelimitWindow

open Bytes RingCounter Ratelimit RatelimitHistory LabelledRuns

def second : ℕ := 1000000000

def checkStep (self : RateLimit) (c : Call) : Option (RateLimit × Bool) :=
  some (self.check (some c.ts) c.id)

/-- A rate limit with a single limit. -/
def single (seconds limit : ℕ) : RateLimit :=
  RateLimit.create (RateLimitOpts.create.addLimit seconds limit)

/-- The calls for an id accepted in the interval of the given length in seconds
that starts at the given nanosecond. -/
def acceptedIn (id : Str) (start seconds : ℕ) (trace : Trace) : ℕ :=
  trace.countP (fun x => decide (x.1.id = id) && x.2 &&
    decide (start ≤ x.1.ts.nanos ∧ x.1.ts.nanos < start + seconds * second))

/-- In every run at nondecreasing times, no interval of the configured length
that starts at an admitted time has more than `limit` accepted calls for an id. -/
def KeepsLimit (seconds limit : ℕ) (start : ℕ → Prop) : Prop :=
  ∀ trace self, Run (stepOf checkStep) (single seconds limit) trace self →
    Chronological trace →
      ∀ id t, start t → acceptedIn id t seconds trace ≤ limit

def AnyTime (_ : ℕ) : Prop := True

/-- The interval consists of whole seconds of the clock. -/
def WholeSecond (t : ℕ) : Prop := second ∣ t

theorem check_single (l : Limit) (c : Call) :
    RateLimit.check ⟨[l]⟩ (some c.ts) c.id =
      (⟨[(checkLimit l c.ts c.id).1]⟩, (checkLimit l c.ts c.id).2) := by
  simp [RateLimit.check, checkLimits]

/-- With a single limit the loop over the limits is one check. -/
theorem run_single_iff (l₀ : Limit) (trace : Trace) (self : RateLimit) :
    Run (stepOf checkStep) ⟨[l₀]⟩ trace self ↔
      ∃ l, self = ⟨[l]⟩ ∧ Run (stepOf callStep) l₀ trace l := by
  constructor
  · intro h
    induction h with
    | nil => exact ⟨l₀, rfl, Run.nil⟩
    | @snoc trace s s' x _ hstep ih =>
      obtain ⟨l, rfl, hrun⟩ := ih
      have hs : (RateLimit.check ⟨[l]⟩ (some x.1.ts) x.1.id) = (s', x.2) :=
        Option.some.inj hstep
      rw [check_single] at hs
      obtain ⟨rfl, hr⟩ := Prod.mk.inj hs
      exact ⟨_, rfl, Run.snoc hrun (callStep_of_result l x.1 x.2 hr)⟩
  · rintro ⟨l, rfl, h⟩
    induction h with
    | nil => exact Run.nil
    | @snoc trace s s' x _ hstep ih =>
      refine Run.snoc ih ?_
      have hs : checkLimit s x.1.ts x.1.id = (s', x.2) := Option.some.inj hstep
      change some (RateLimit.check ⟨[s]⟩ (some x.1.ts) x.1.id) = some (⟨[s']⟩, x.2)
      rw [check_single, hs]

/-- The slots of two seconds of one interval differ by less than the number of
slots, if the slot length divides the seconds that follow the first. -/
theorem slot_lt_of_dvd {res n seconds a b : ℕ} (hres : 0 < res)
    (hcover : seconds ≤ res * n) (hdvd : res ∣ seconds - 1) (h0 : 0 < seconds)
    (hab : b < a + seconds) : b / res < a / res + n := by
  obtain ⟨q, hq⟩ := hdvd
  have hqn : q < n := by
    by_contra hle
    have : res * n ≤ res * q := Nat.mul_le_mul_left res (Nat.not_lt.mp hle)
    omega
  have hb : b ≤ a + res * q := by omega
  calc
    b / res ≤ (a + res * q) / res := Nat.div_le_div_right hb
    _ = a / res + q := Nat.add_mul_div_left a q hres
    _ < a / res + n := by omega

theorem sec_of_nanos {t : Timespec} {start seconds : ℕ} (hstart : second ∣ start)
    (hlo : start ≤ t.nanos) (hhi : t.nanos < start + seconds * second) :
    start / second ≤ t.tv_sec ∧ t.tv_sec < start / second + seconds := by
  obtain ⟨a, rfl⟩ := hstart
  have hn := t.nsec_lt
  unfold Timespec.nanos second at *
  omega

/-- Accepted calls of an interval of whole seconds all lie in the window of a
call of the same interval. -/
theorem acceptedIn_le_within {l₀ : Limit} {seconds start : ℕ} (hres : 0 < l₀.res)
    (hcover : seconds ≤ l₀.res * l₀.ncounts) (hdvd : l₀.res ∣ seconds - 1)
    (h0 : 0 < seconds) (hstart : second ∣ start) (trace : Trace) (c : Call)
    (hlo : start ≤ c.ts.nanos) (hhi : c.ts.nanos < start + seconds * second) :
    acceptedIn c.id start seconds trace ≤
      within (accepted l₀.res c.id trace) (slot l₀.res c) l₀.ncounts := by
  unfold acceptedIn within accepted
  rw [List.countP_map, List.countP_filter]
  apply List.countP_mono_left
  intro x _ hx
  simp only [Bool.and_eq_true, decide_eq_true_eq] at hx
  obtain ⟨⟨hid, htrue⟩, hxlo, hxhi⟩ := hx
  have hc := sec_of_nanos hstart hlo hhi
  have hs := sec_of_nanos hstart hxlo hxhi
  have hslot : slot l₀.res c < slot l₀.res x.1 + l₀.ncounts :=
    slot_lt_of_dvd hres hcover hdvd h0 (by omega)
  simp [hid, htrue, hslot]

/-- Where the slot length divides the seconds after the first, every interval of
whole seconds keeps the limit, whatever the wrapped slot number does. -/
theorem keepsLimit_of_dvd (seconds limit : ℕ) (h0 : 0 < seconds) (hs : seconds ≤ 65535)
    (hl : limit ≤ 65535) (hdvd : (newLimit seconds limit).res ∣ seconds - 1) :
    KeepsLimit seconds limit WholeSecond := by
  intro trace self hrun hchron id t ht
  have hwf := newLimit_wellFormed seconds limit h0 hs hl
  obtain ⟨l, rfl, hlrun⟩ := (run_single_iff (newLimit seconds limit) trace self).mp hrun
  have hcover := (newLimit_covers seconds limit h0 hs).1
  clear hrun
  induction hlrun with
  | nil => exact Nat.zero_le _
  | @snoc trace m m' x hprev hstep ih =>
    have hinit := chronological_init hchron
    have hle := ih hinit
    have hallow := (accepted_run hwf rfl (Run.snoc hprev hstep) hchron)
    rw [along_snoc] at hallow
    unfold acceptedIn at hle ⊢
    rw [List.countP_append, List.countP_singleton]
    split
    · next hx =>
      simp only [Bool.and_eq_true, decide_eq_true_eq] at hx
      obtain ⟨⟨rfl, htrue⟩, hlo, hhi⟩ := hx
      have hroom : historyAllows (newLimit seconds limit) trace x.1 := hallow.2 htrue
      have hcount := acceptedIn_le_within hwf.res_pos hcover hdvd h0 ht trace x.1 hlo hhi
      have hlt : within (accepted (newLimit seconds limit).res x.1.id trace)
          (slot (newLimit seconds limit).res x.1) (newLimit seconds limit).ncounts < limit :=
        hroom
      unfold acceptedIn at hcount
      omega
    · exact hle

theorem keepsLimit_zero (seconds : ℕ) (h0 : 0 < seconds) (hs : seconds ≤ 65535)
    (start : ℕ → Prop) : KeepsLimit seconds 0 start := by
  intro trace self hrun hchron id t _
  have hwf := newLimit_wellFormed seconds 0 h0 hs (by decide)
  obtain ⟨l, rfl, hlrun⟩ := (run_single_iff (newLimit seconds 0) trace self).mp hrun
  have hallow := accepted_run hwf rfl hlrun hchron
  apply Nat.le_of_eq
  rw [acceptedIn, List.countP_eq_zero]
  intro x hx
  obtain ⟨pre, post, rfl⟩ := List.append_of_mem hx
  have hno : x.2 ≠ true := by
    intro htrue
    have hroom : historyAllows (newLimit seconds 0) pre x.1 := hallow pre x post rfl htrue
    exact Nat.not_lt_zero _ hroom
  simp [hno]

/-- In a run that spans less than the range of the slot number nothing wraps. -/
theorem unwrapped_of_short (l : Limit) (trace : Trace) (c : Call)
    (hshort : slot l.res c < 65536) : Unwrapped l trace c := by
  intro a others htouch
  exact Or.inl (by omega)

/-- A call that the history model allows extends a short run, and is accepted. -/
theorem extend_run {l₀ l : Limit} (hl : WellFormed l₀) (hnone : l₀.entries = none)
    {trace : Trace} {c : Call} (hrun : Run (stepOf callStep) l₀ trace l)
    (hchron : Chronological (trace ++ [(c, true)]))
    (hshort : slot l₀.res c < 65536) (hallow : historyAllows l₀ trace c) :
    ∃ l', Run (stepOf callStep) l₀ (trace ++ [(c, true)]) l' := by
  have hinit := chronological_init hchron
  have hstep := callStep_of_result l c (checkLimit l c.ts c.id).2 rfl
  have halong : Along (fun pre x => Unwrapped l₀ pre x.1) trace := by
    intro pre x post heq
    apply unwrapped_of_short
    have hx : x ∈ trace := by simp [heq]
    have := slot_le_of_chronological l₀.res hchron x hx
    omega
  have hchron' : Chronological (trace ++ [(c, (checkLimit l c.ts c.id).2)]) := by
    rw [Chronological, List.pairwise_append] at hchron ⊢
    refine ⟨hchron.1, List.pairwise_singleton _ _, ?_⟩
    intro x hx y hy
    rw [List.mem_singleton.mp hy]
    exact hchron.2.2 x hx (c, true) (List.mem_singleton_self _)
  have hdecide := (tracks_step hl (tracks_run hl hnone hrun hinit) hchron' hstep).2.2 halong
    (unwrapped_of_short l₀ trace c hshort)
  have htrue : (checkLimit l c.ts c.id).2 = true := hdecide.mpr hallow
  rw [htrue] at hstep
  exact ⟨_, Run.snoc hrun hstep⟩

theorem accepted_replicate (res : ℕ) (id : Str) (k : ℕ) (c : Call) (hid : c.id = id) :
    accepted res id (List.replicate k (c, true)) = List.replicate k (slot res c) := by
  simp [accepted, hid]

theorem chronological_burst (k : ℕ) (c d : Call) (h : c.ts.nanos ≤ d.ts.nanos) :
    Chronological (List.replicate k (c, true) ++ [(d, true)]) := by
  rw [Chronological, List.pairwise_append]
  refine ⟨List.pairwise_replicate.mpr (Or.inr (Nat.le_refl _)), List.pairwise_singleton _ _, ?_⟩
  intro x hx y hy
  rw [List.eq_of_mem_replicate hx, List.mem_singleton.mp hy]
  exact h

/-- As many calls at one time as the limit allows are all accepted. -/
theorem burst_run {l₀ : Limit} (hl : WellFormed l₀) (hnone : l₀.entries = none) (c : Call)
    (hshort : slot l₀.res c < 65536) (k : ℕ) (hk : k ≤ l₀.limit) :
    ∃ l, Run (stepOf callStep) l₀ (List.replicate k (c, true)) l := by
  induction k with
  | zero => exact ⟨l₀, Run.nil⟩
  | succ k ih =>
    obtain ⟨l, hrun⟩ := ih (by omega)
    rw [List.replicate_succ']
    refine extend_run hl hnone hrun (chronological_burst k c c (Nat.le_refl _)) hshort ?_
    unfold historyAllows
    rw [accepted_replicate l₀.res c.id k c rfl]
    have hle : within (List.replicate k (slot l₀.res c)) (slot l₀.res c) l₀.ncounts ≤ k := by
      unfold within
      exact List.countP_le_length.trans (Nat.le_of_eq List.length_replicate)
    omega

/-- A full burst in slot zero leaves room for one more call as soon as that slot
has left the window, although less than the configured time may have passed. -/
theorem not_keepsLimit_of_burst (seconds limit : ℕ) (h0 : 0 < seconds) (hs : seconds ≤ 65535)
    (hl : limit ≤ 65535) (hpos : 0 < limit) (start : ℕ → Prop) (t : ℕ) (ht : start t)
    (c d : Call) (hid : c.id = d.id) (hc : slot (newLimit seconds limit).res c = 0)
    (hd : slot (newLimit seconds limit).res d = (newLimit seconds limit).ncounts)
    (hlo : t ≤ c.ts.nanos) (hcd : c.ts.nanos ≤ d.ts.nanos)
    (hhi : d.ts.nanos < t + seconds * second) :
    ¬ KeepsLimit seconds limit start := by
  intro hkeeps
  have hwf := newLimit_wellFormed seconds limit h0 hs hl
  have hn := hwf.ncounts_le
  obtain ⟨l, hrun⟩ := burst_run hwf rfl c (by omega) limit (Nat.le_refl _)
  have hchron := chronological_burst limit c d hcd
  have hallow : historyAllows (newLimit seconds limit)
      (List.replicate limit (c, true)) d := by
    unfold historyAllows
    rw [accepted_replicate _ d.id limit c hid, hc, hd, within_eq_zero]
    · exact hpos
    · intro h hh
      rw [List.eq_of_mem_replicate hh]
      omega
  obtain ⟨l', hrun'⟩ := extend_run hwf rfl hrun hchron (by omega) hallow
  have hbound := hkeeps _ ⟨[l']⟩ ((run_single_iff _ _ _).mpr ⟨l', rfl, hrun'⟩) hchron d.id t ht
  have hcount : acceptedIn d.id t seconds
      (List.replicate limit (c, true) ++ [(d, true)]) = limit + 1 := by
    have hcin : t ≤ c.ts.nanos ∧ c.ts.nanos < t + seconds * second := ⟨hlo, by omega⟩
    have hdin : t ≤ d.ts.nanos ∧ d.ts.nanos < t + seconds * second := ⟨by omega, hhi⟩
    unfold acceptedIn
    rw [List.countP_append, List.countP_replicate]
    simp [hid, hcin, hdin]
  omega

/-- The first call of the critical run: the last second of slot zero. -/
def lastOfSlotZero (res nsec : ℕ) (hn : nsec < 1000000000) : Call := ⟨⟨res - 1, nsec, hn⟩, []⟩

/-- The second call of the critical run: the first instant after the window. -/
def firstAfterWindow (res ncounts : ℕ) : Call := ⟨⟨res * ncounts, 0, Timespec.zero_lt_second⟩, []⟩

theorem slot_lastOfSlotZero (res nsec : ℕ) (hn : nsec < 1000000000) (hres : 0 < res) :
    slot res (lastOfSlotZero res nsec hn) = 0 :=
  Nat.div_eq_of_lt (show res - 1 < res by omega)

theorem slot_firstAfterWindow (res ncounts : ℕ) (hres : 0 < res) :
    slot res (firstAfterWindow res ncounts) = ncounts :=
  Nat.mul_div_cancel_left ncounts hres

/-- On the nanosecond clock every limit is exceeded. -/
theorem not_keepsLimit_anyTime (seconds limit : ℕ) (h0 : 0 < seconds) (hs : seconds ≤ 65535)
    (hl : limit ≤ 65535) (hpos : 0 < limit) : ¬ KeepsLimit seconds limit AnyTime := by
  have hres := newLimit_res_pos seconds limit h0 hs
  have hcover := newLimit_covers seconds limit h0 hs
  have hn := newLimit_ncounts_bounds seconds limit h0 hs
  have hle := Nat.le_mul_of_pos_right (newLimit seconds limit).res hn.1
  refine not_keepsLimit_of_burst seconds limit h0 hs hl hpos AnyTime
    (lastOfSlotZero (newLimit seconds limit).res 999999999 (by decide)).ts.nanos trivial
    (lastOfSlotZero (newLimit seconds limit).res 999999999 (by decide))
    (firstAfterWindow (newLimit seconds limit).res (newLimit seconds limit).ncounts) rfl
    (slot_lastOfSlotZero _ _ _ hres) (slot_firstAfterWindow _ _ hres) (Nat.le_refl _) ?_ ?_
  all_goals
    simp only [lastOfSlotZero, firstAfterWindow, Timespec.nanos, second]
    omega

/-- In whole seconds a limit is exceeded unless the slot length divides the
seconds after the first. -/
theorem not_keepsLimit_wholeSecond (seconds limit : ℕ) (h0 : 0 < seconds)
    (hs : seconds ≤ 65535) (hl : limit ≤ 65535) (hpos : 0 < limit)
    (hdvd : ¬ (newLimit seconds limit).res ∣ seconds - 1) :
    ¬ KeepsLimit seconds limit WholeSecond := by
  have hres := newLimit_res_pos seconds limit h0 hs
  have hcover := newLimit_covers seconds limit h0 hs
  have hn := newLimit_ncounts_bounds seconds limit h0 hs
  have hle := Nat.le_mul_of_pos_right (newLimit seconds limit).res hn.1
  have hne : (newLimit seconds limit).res * (newLimit seconds limit).ncounts ≠
      seconds + (newLimit seconds limit).res - 1 := by
    intro heq
    apply hdvd
    refine ⟨(newLimit seconds limit).ncounts - 1, ?_⟩
    rw [Nat.mul_sub, heq]
    omega
  refine not_keepsLimit_of_burst seconds limit h0 hs hl hpos WholeSecond
    ((newLimit seconds limit).res * second - second)
    (Nat.dvd_sub (Dvd.intro_left _ rfl) (Nat.dvd_refl _))
    (lastOfSlotZero (newLimit seconds limit).res 0 (by decide))
    (firstAfterWindow (newLimit seconds limit).res (newLimit seconds limit).ncounts) rfl
    (slot_lastOfSlotZero _ _ _ hres) (slot_firstAfterWindow _ _ hres) ?_ ?_ ?_
  all_goals
    simp only [lastOfSlotZero, firstAfterWindow, Timespec.nanos, second]
    omega

/-- When a single limit keeps its promise: on the nanosecond clock never, unless
it allows nothing; counted in whole seconds of the clock exactly when the slot
length divides the seconds after the first, which it does up to 512 seconds. -/
theorem keepsLimit_iff (seconds limit : ℕ) (h0 : 0 < seconds) (hs : seconds ≤ 65535)
    (hl : limit ≤ 65535) :
    (KeepsLimit seconds limit AnyTime ↔ limit = 0) ∧
      (KeepsLimit seconds limit WholeSecond ↔
        limit = 0 ∨ (seconds + 511) / 512 ∣ seconds - 1) := by
  rw [← newLimit_res seconds limit hs]
  refine ⟨⟨?_, ?_⟩, ⟨?_, ?_⟩⟩
  · intro hkeeps
    by_contra hpos
    exact not_keepsLimit_anyTime seconds limit h0 hs hl (by omega) hkeeps
  · rintro rfl
    exact keepsLimit_zero seconds h0 hs AnyTime
  · intro hkeeps
    by_contra hn
    rw [not_or] at hn
    exact not_keepsLimit_wholeSecond seconds limit h0 hs hl (by omega) hn.2 hkeeps
  · rintro (rfl | hdvd)
    · exact keepsLimit_zero seconds h0 hs WholeSecond
    · exact keepsLimit_of_dvd seconds limit h0 hs hl hdvd

theorem keepsLimit_iff_five_seconds :
    (KeepsLimit 5 3 AnyTime ↔ 3 = 0) ∧
      (KeepsLimit 5 3 WholeSecond ↔ 3 = 0 ∨ (5 + 511) / 512 ∣ 5 - 1) :=
  keepsLimit_iff 5 3 (by decide) (by decide) (by decide)

/-- The default of 25 sessions an hour: 25 calls in second 7 of the clock and one
more in second 3600 are all accepted. -/
theorem hourly_limit_exceeded : ¬ KeepsLimit 3600 25 WholeSecond :=
  not_keepsLimit_of_burst 3600 25 (by decide) (by decide) (by decide) (by decide)
    WholeSecond (7 * second) (Dvd.intro_left _ rfl) (callAt 7 []) (callAt 3600 []) rfl
    (by decide) (by decide) (by decide) (by decide) (by decide)

end Swad.RatelimitWindow
