import Swad.Pipeline
import Swad.RatelimitWindow
import Swad.RatelimitRejection

/-!
How many sessions the server holds. A session that has expired is gone a quarter of an
hour later at the latest, as soon as a request comes; one that has not expired stays. And
no client gets more new sessions in any window of a configured limit than this limit
allows, whatever the requests are and whatever the other limits do.
-/
namespace Swad.SessionBounds

open Bytes Util Http Httpresponse Httpserver Middleware SessionStore Ratelimit Proxylist Handlers
  Pipeline LabelledRuns
open RatelimitHistory (Call Chronological)
open RatelimitWindow (second acceptedIn)
open RatelimitRejection (settle answers limiter Configured check)

variable {W : Type}

/-! ### Expired sessions -/

/-- The request is let through to the middlewares. -/
def Admitted (input : Input) : Prop :=
  input.request.status = .ok ∧ ∃ target, findRoute input.request.path.text = some target ∧
    input.request.method.code &&& routeMask target ≠ 0

/-- From the start of the server on the time does not go back. -/
def Timely (start : ℤ) (trace : Trace) (now : ℤ) : Prop :=
  ((start :: trace.map fun l => l.1.now) ++ [now]).Pairwise (· ≤ ·)

section store

variable {self : Store} {s : Session} {now : ℤ}

/-- No stored session had expired when the store was last cleaned. -/
structure Cleaned (store : Store) (now : ℤ) : Prop where
  alive : ∀ s, store.Mem s →
    store.cleantime - s.atime ≤ MAXIDLE ∧ store.cleantime - s.ctime ≤ MAXAGE
  cleantime_le : store.cleantime ≤ now

theorem not_expired_iff : sessionExpired s now = false ↔
    now - s.atime ≤ MAXIDLE ∧ now - s.ctime ≤ MAXAGE := by
  simp only [sessionExpired, Bool.or_eq_false_iff, decide_eq_false_iff_not, not_lt, gt_iff_lt]

theorem Cleaned.clean {before : ℤ} (h : Cleaned self before) (hnow : before ≤ now) :
    Cleaned (self.clean now) now ∧ now - (self.clean now).cleantime < CLEANINTERVAL := by
  unfold Store.clean
  split
  · next hrecent => exact ⟨⟨h.alive, h.cleantime_le.trans hnow⟩, hrecent⟩
  · refine ⟨⟨?_, Int.le_refl _⟩, ?_⟩
    · rintro s ⟨b, hs⟩
      have halive := (List.mem_filter.mp hs).2
      rw [Bool.not_eq_true', not_expired_iff] at halive
      exact halive
    · show now - now < CLEANINTERVAL
      rw [sub_self]
      decide

/-- What is stored after a cleaning at this time has not expired long ago. -/
theorem Cleaned.recent (h : Cleaned self now) (hclean : now - self.cleantime < CLEANINTERVAL)
    (hs : self.Mem s) :
    now - s.atime < MAXIDLE + CLEANINTERVAL ∧ now - s.ctime < MAXAGE + CLEANINTERVAL := by
  obtain ⟨hidle, hage⟩ := h.alive s hs
  omega

theorem mem_clean_of_alive (hs : self.Mem s) (halive : sessionExpired s now = false) :
    (self.clean now).Mem s := by
  obtain ⟨b, hb⟩ := hs
  unfold Store.clean
  split
  · exact ⟨b, hb⟩
  · exact ⟨b, List.mem_filter.mpr ⟨hb, by rw [halive]; rfl⟩⟩

theorem cleantime_find {id : Str} : (self.find id now).1.cleantime = self.cleantime := by
  simp only [Store.find]
  split
  · rfl
  · split <;> rfl

/-- A search removes nothing but what has expired. -/
theorem mem_find_of_alive {id : Str} (hs : self.Mem s) (halive : sessionExpired s now = false) :
    (self.find id now).1.Mem s := by
  obtain ⟨b, hb⟩ := hs
  simp only [Store.find]
  split
  · exact ⟨b, hb⟩
  · next found hfound =>
    split
    · next hexpired =>
      by_cases heq : b = hash id SHT_BITS
      · subst heq
        obtain ⟨hid, l, r, hsplit, hl⟩ := List.find?_eq_some_iff_append.mp hfound
        have herase : (self.buckets (hash id SHT_BITS)).eraseP (fun s => s.id == id) = l ++ r := by
          rw [hsplit, List.eraseP_append_right _ (by simpa using hl)]
          exact congrArg (l ++ ·) (List.eraseP_cons_of_pos hid)
        refine ⟨hash id SHT_BITS, ?_⟩
        simp only [Function.update_self]
        rw [herase]
        rw [hsplit] at hb
        rcases List.mem_append.mp hb with hleft | hright
        · exact List.mem_append_left _ hleft
        · rcases List.mem_cons.mp hright with rfl | hright
          · rw [halive] at hexpired
            cases hexpired
          · exact List.mem_append_right _ hright
      · refine ⟨b, ?_⟩
        simp only [Function.update_of_ne heq]
        exact hb
    · exact ⟨b, hb⟩

theorem freshId_keeps {draws : List (List Byte)} {store : Store} {id : Str}
    (h : self.freshId now draws = some (store, id)) :
    store.cleantime = self.cleantime ∧
      ∀ s, self.Mem s → sessionExpired s now = false → store.Mem s := by
  induction draws generalizing self with
  | nil => cases h
  | cons draw draws ih =>
    simp only [Store.freshId] at h
    split at h
    · next next found hfind =>
      obtain rfl : (self.find (rndStr draw) now).1 = next := by rw [hfind]
      obtain ⟨htime, hkeep⟩ := ih h
      exact ⟨htime.trans cleantime_find,
        fun s hs halive => hkeep s (mem_find_of_alive hs halive) halive⟩
    · next next hfind =>
      obtain rfl : (self.find (rndStr draw) now).1 = next := by rw [hfind]
      obtain ⟨rfl, rfl⟩ := Prod.mk.inj (Option.some.inj h)
      exact ⟨cleantime_find, fun s hs halive => mem_find_of_alive hs halive⟩

theorem mem_append_of_mem {session : Session} (hs : self.Mem s) : (self.append session).Mem s := by
  obtain ⟨b, hb⟩ := hs
  refine ⟨b, ?_⟩
  by_cases heq : b = hash session.id SHT_BITS
  · subst heq
    simp only [Store.append, Function.update_self]
    exact List.mem_append_left _ hb
  · simp only [Store.append, Function.update_of_ne heq]
    exact hb

/-- Writing a session back keeps all numbers. -/
theorem mem_put_ref {session : Session} (hs : self.Mem s) :
    ∃ s', (self.put session).Mem s' ∧ s'.ref = s.ref := by
  obtain ⟨b, hb⟩ := hs
  refine ⟨_, ⟨b, List.mem_map_of_mem hb⟩, ?_⟩
  split
  · next heq => exact heq.symm
  · rfl

end store

section requests

variable {config : Config W} {self next middle : Server W} {input : Input} {outcome : Outcome}

/-- A handler keeps the times of its session. -/
theorem handled_times {session : Session} {w : W} {work : Work W}
    (h : Handled config input session w work) :
    work.session.atime = session.atime ∧ work.session.ctime = session.ctime := by
  cases h with
  | silent hmethod hupdated huser hsilent hresponse =>
    rw [← (Prod.mk.inj hupdated).1]
    exact ⟨rfl, rfl⟩
  | shown hmethod hupdated =>
    simp only [page]
    rw [← (Prod.mk.inj hupdated).1]
    exact ⟨rfl, rfl⟩
  | _ => exact ⟨rfl, rfl⟩

theorem served_times {session : Session} {w : W} {work : Work W}
    (h : Served config input session w work) :
    work.session.atime = session.atime ∧ work.session.ctime = session.ctime := by
  cases h with
  | plain hform h => exact handled_times h
  | accepted hform htoken hsingle h =>
    have htimes := handled_times h
    exact htimes
  | rejected hform => exact ⟨rfl, rfl⟩

theorem noteReferrer_times (response : HttpResponse) (session : Session) :
    (noteReferrer input response session).atime = session.atime ∧
      (noteReferrer input response session).ctime = session.ctime := by
  unfold noteReferrer
  split <;> exact ⟨rfl, rfl⟩

/-- A session is new now, or it was in the store when it was cleaned. -/
def Dated (store : Store) (now : ℤ) (session : Session) : Prop :=
  session.ctime = now ∨ ∃ s, store.Mem s ∧ session.ctime = s.ctime

/-- What the beginning of a request does to the store after it was cleaned. -/
theorem openSession_store {opened : Option (Session × Cookies)}
    (h : openSession config self input = some (middle, opened)) :
    middle.store.cleantime = (self.store.clean input.now).cleantime ∧
      (∀ s, middle.store.Mem s → (self.store.clean input.now).Mem s ∨
        (s.atime = input.now ∧ s.ctime = input.now)) ∧
      (∀ s, (self.store.clean input.now).Mem s → sessionExpired s input.now = false →
        middle.store.Mem s) ∧
      ∀ session cookies, opened = some (session, cookies) → session.atime = input.now ∧
        Dated (self.store.clean input.now) input.now session := by
  generalize hcleaned : self.store.clean input.now = cleaned
  have hcurrent : (currentSession cleaned (Cookies.create input.headers) input.now).1.cleantime =
        cleaned.cleantime ∧
      (∀ s, cleaned.Mem s → sessionExpired s input.now = false →
        (currentSession cleaned (Cookies.create input.headers) input.now).1.Mem s) := by
    unfold currentSession
    split
    · exact ⟨rfl, fun s hs _ => hs⟩
    · exact ⟨cleantime_find, fun s hs halive => mem_find_of_alive hs halive⟩
  rcases hfound : currentSession cleaned (Cookies.create input.headers) input.now with
    ⟨store, found⟩
  rw [hfound] at hcurrent
  obtain ⟨htime, hkeep⟩ := hcurrent
  obtain ⟨_, hmem, hsession⟩ := currentSession_spec hfound
  cases found with
  | some session =>
    simp only [openSession, hcleaned, hfound, Option.some.injEq, Prod.mk.injEq] at h
    obtain ⟨rfl, rfl⟩ := h
    refine ⟨htime, fun s hs => .inl (hmem s hs), hkeep, fun session' cookies heq => ?_⟩
    obtain ⟨rfl, rfl⟩ := Prod.mk.inj (Option.some.inj heq)
    obtain ⟨s, hs, rfl⟩ := hsession _ rfl
    exact ⟨rfl, .inr ⟨s, hs, rfl⟩⟩
  | none =>
    simp only [openSession, hcleaned, hfound, Option.bind_eq_bind, Option.bind_eq_some_iff] at h
    obtain ⟨id, _, h⟩ := h
    split at h
    · simp only [Store.createSession, Option.bind_eq_bind, Option.bind_eq_some_iff,
        Option.pure_def, Option.some.injEq, Prod.mk.injEq] at h
      obtain ⟨⟨created, session⟩, ⟨⟨fresh, sid⟩, hfresh, rfl, rfl⟩, rfl, rfl⟩ := h
      obtain ⟨htime', hkeep'⟩ := freshId_keeps hfresh
      refine ⟨htime'.trans htime, fun s hs => ?_, fun s hs halive => ?_, ?_⟩
      · rcases mem_append hs with hold | rfl
        · exact .inl (hmem s ((freshId_spec hfresh).1 s hold))
        · exact .inr ⟨rfl, rfl⟩
      · exact mem_append_of_mem (hkeep' s (hkeep s hs halive) halive)
      · intro session cookies heq
        obtain ⟨rfl, rfl⟩ := Prod.mk.inj (Option.some.inj heq)
        exact ⟨rfl, .inl rfl⟩
    · obtain ⟨rfl, rfl⟩ := Prod.mk.inj (Option.some.inj h)
      exact ⟨htime, fun s hs => .inl (hmem s hs), hkeep, fun session cookies heq => by cases heq⟩

/-- After a request that is let through, the store was cleaned a short time ago, and it
has kept what has not expired. -/
theorem requestReceived_store {before : ℤ} (hcleaned : Cleaned self.store before)
    (hnow : before ≤ input.now) (hadmitted : Admitted input)
    (h : requestReceived config self input = some (next, outcome)) :
    Cleaned next.store input.now ∧ input.now - next.store.cleantime < CLEANINTERVAL ∧
      ∀ s, self.store.Mem s → sessionExpired s input.now = false →
        ∃ s', next.store.Mem s' ∧ s'.ref = s.ref := by
  obtain ⟨hstatus, target, hroute, hmask⟩ := hadmitted
  simp only [requestReceived, hstatus, hroute, ne_eq, not_true_eq_false, if_false, hmask,
    callNext, Option.bind_eq_bind, Option.bind_eq_some_iff] at h
  obtain ⟨⟨middle, opened⟩, hopen, h⟩ := h
  obtain ⟨htime, hmem, hkeep, hsession⟩ := openSession_store hopen
  obtain ⟨hclean, hrecent⟩ := hcleaned.clean hnow
  have hnonneg : (self.store.clean input.now).cleantime ≤ input.now := hclean.cleantime_le
  have hages : (0 : ℤ) ≤ MAXIDLE ∧ (0 : ℤ) ≤ MAXAGE := by decide
  have hmiddle : Cleaned middle.store input.now := by
    refine ⟨fun s hs => ?_, by rw [htime]; exact hnonneg⟩
    rw [htime]
    rcases hmem s hs with hold | ⟨hatime, hctime⟩
    · exact hclean.alive s hold
    · rw [hatime, hctime]
      omega
  cases opened with
  | none =>
    obtain ⟨rfl, rfl⟩ := Prod.mk.inj (Option.some.inj h)
    exact ⟨hmiddle, by rw [htime]; exact hrecent,
      fun s hs halive => ⟨s, hkeep s (mem_clean_of_alive hs halive) halive, rfl⟩⟩
  | some opened =>
    obtain ⟨session, cookies⟩ := opened
    obtain ⟨hatime, hdated⟩ := hsession session cookies rfl
    simp only [Option.bind_eq_some_iff] at h
    obtain ⟨work, hserve, h⟩ := h
    obtain ⟨rfl, rfl⟩ := Prod.mk.inj (Option.some.inj h)
    have htimes := served_times (serve_cases hserve)
    refine ⟨⟨fun s hs => ?_, hmiddle.cleantime_le⟩, by rw [← htime] at hrecent; exact hrecent,
      fun s hs halive => ?_⟩
    · rcases mem_put hs with rfl | ⟨hold, _⟩
      · obtain ⟨hnoted, hnoted'⟩ := noteReferrer_times
          (work.response.setVersion input.request.version) work.session
        rw [hnoted, hnoted', htimes.1, htimes.2, hatime]
        show middle.store.cleantime - _ ≤ _ ∧ middle.store.cleantime - _ ≤ _
        rw [htime]
        rcases hdated with hctime | ⟨s, hs, hctime⟩
        · rw [hctime]
          omega
        · rw [hctime]
          have := hclean.alive s hs
          omega
      · exact hmiddle.alive s hold
    · exact mem_put_ref (hkeep s (mem_clean_of_alive hs halive) halive)

/-- Other requests leave the store alone. -/
theorem requestReceived_refused (hadmitted : ¬ Admitted input)
    (h : requestReceived config self input = some (next, outcome)) : next = self := by
  unfold requestReceived at h
  split at h
  · exact (Prod.mk.inj (Option.some.inj h)).1.symm
  · next hstatus =>
    split at h
    · exact (Prod.mk.inj (Option.some.inj h)).1.symm
    · next target hroute =>
      split at h
      · obtain ⟨response, _, h⟩ := Option.map_eq_some_iff.mp h
        exact (Prod.mk.inj h).1.symm
      · next hmask => exact absurd ⟨not_not.mp hstatus, target, hroute, hmask⟩ hadmitted

end requests

section runs

variable {config : Config W} {opts : Option RateLimitOpts} {start : ℤ} {w : W} {trace : Trace}
  {server next : Server W} {input : Input} {outcome : Outcome} {now : ℤ}

theorem Timely.le (h : Timely start trace now) : start ≤ now := by
  have hlast := (List.pairwise_append.mp h).2.2
  exact hlast start (List.mem_cons_self ..) now (List.mem_singleton_self _)

theorem Timely.snoc {l : Input × Outcome} (h : Timely start (trace ++ [l]) now) :
    Timely start trace l.1.now ∧ l.1.now ≤ now := by
  obtain ⟨hinit, _, hlast⟩ := List.pairwise_append.mp h
  refine ⟨?_, hlast l.1.now (by simp) now (List.mem_singleton_self _)⟩
  rw [List.map_append, List.map_singleton, ← List.cons_append] at hinit
  exact hinit

theorem cleaned_run (hrun : Runs config opts start w trace server)
    (htimes : Timely start trace now) : Cleaned server.store now := by
  induction hrun generalizing now with
  | nil =>
    refine ⟨?_, htimes.le⟩
    rintro s ⟨b, hs⟩
    cases hs
  | @snoc trace m m' l hrun hstep ih =>
    obtain ⟨hinit, hnow⟩ := htimes.snoc
    have hbefore := ih hinit
    by_cases hadmitted : Admitted l.1
    · have hafter := (requestReceived_store hbefore (Int.le_refl _) hadmitted hstep).1
      exact ⟨hafter.alive, hafter.cleantime_le.trans hnow⟩
    · rw [requestReceived_refused hadmitted hstep]
      exact ⟨hbefore.alive, hbefore.cleantime_le.trans hnow⟩

/-- After every request that is let through, all stored sessions were used in the last 75
minutes and created in the last twelve and a quarter hours, and no session is gone that
had not expired. -/
theorem sessions_cleaned (hrun : Runs config opts start w trace server)
    (htimes : Timely start trace input.now) (hadmitted : Admitted input)
    (hstep : requestReceived config server input = some (next, outcome)) :
    (∀ s, next.store.Mem s → input.now - s.atime < MAXIDLE + CLEANINTERVAL ∧
      input.now - s.ctime < MAXAGE + CLEANINTERVAL) ∧
    ∀ s, server.store.Mem s → sessionExpired s input.now = false →
      ∃ s', next.store.Mem s' ∧ s'.ref = s.ref := by
  obtain ⟨hcleaned, hrecent, hkeep⟩ :=
    requestReceived_store (cleaned_run hrun htimes) (Int.le_refl _) hadmitted hstep
  exact ⟨fun s hs => hcleaned.recent hrecent hs, hkeep⟩

/-- A client without a session asks for the form. -/
def visit (now : ℤ) (draw : Byte) : Input :=
  { sampleForm with now, idDraws := [List.replicate 32 draw] }

theorem admitted_visit (now : ℤ) (draw : Byte) : Admitted (visit now draw) := by
  have hform : Admitted sampleForm := ⟨rfl, .login, by decide +kernel, by decide +kernel⟩
  exact hform

/-- With the third visit the first session is gone, and the second one is still there. -/
theorem sessions_cleaned_sample : ∃ trace server next outcome old young,
    Runs sampleConfig none 0 () trace server ∧
      requestReceived sampleConfig server (visit 4600 2) = some (next, outcome) ∧
        server.store.Mem old ∧ ¬ next.store.Mem old ∧ server.store.Mem young ∧
          ∃ s, next.store.Mem s ∧ s.ref = young.ref := by
  have hready : (exec (requestReceived sampleConfig) (Server.create none 0 ())
      [visit 0 0, visit 3000 1]).any (fun r =>
        (r.1.store.buckets (hash (rndStr (List.replicate 32 0)) SHT_BITS)).any
            (fun s => decide (s.atime = 0)) &&
          (r.1.store.buckets (hash (rndStr (List.replicate 32 1)) SHT_BITS)).any
              (fun s => !sessionExpired s 4600) &&
            (requestReceived sampleConfig r.1 (visit 4600 2)).isSome) = true := by
    decide +kernel
  obtain ⟨⟨server, trace⟩, hexec, hready⟩ := (Option.any_eq_true _ _).mp hready
  simp only [Bool.and_eq_true, List.any_eq_true, decide_eq_true_eq, Bool.not_eq_true'] at hready
  obtain ⟨⟨⟨old, hold, hidle⟩, young, hyoung, hactive⟩, hsome⟩ := hready
  obtain ⟨⟨next, outcome⟩, hstep⟩ := Option.isSome_iff_exists.mp hsome
  obtain ⟨hrun, hinputs⟩ := run_of_exec _ hexec
  have htimely : Timely 0 trace (visit 4600 2).now := by
    have hnow : trace.map (fun l => l.1.now) = [0, 3000] := by
      have hmap := congrArg (List.map Input.now) hinputs
      rw [List.map_map] at hmap
      exact hmap
    rw [Timely, hnow]
    decide
  obtain ⟨hrecent, hkept⟩ := sessions_cleaned hrun htimely (admitted_visit 4600 2) hstep
  refine ⟨trace, server, next, outcome, old, young, hrun, hstep, ⟨_, hold⟩, fun hmem => ?_,
    ⟨_, hyoung⟩, hkept young ⟨_, hyoung⟩ hactive⟩
  have hlate := (hrecent old hmem).1
  rw [hidle] at hlate
  exact absurd hlate (by decide)

end runs

/-! ### New sessions -/

/-- The call of the limiter that a request makes when it has no session. -/
def callOf (config : Config W) (input : Input) : Option Call := do
  let id ← clientAddr input.headers config.trusted input.peer
  let ts ← input.sessionClock
  return ⟨ts, id⟩

/-- A request, and whether it got a new session. -/
def sessionStep (config : Config W) (self : Server W) (input : Input) : Option (Server W × Bool) :=
  (requestReceived config self input).map fun r =>
    (r.1, decide (self.store.created < r.1.store.created))

/-- The new sessions of a client in some seconds from a time on. -/
def createdIn (config : Config W) (addr : Str) (start seconds : ℕ) (trace : List (Input × Bool)) :
    ℕ :=
  trace.countP fun l => l.2 && (callOf config l.1).any fun c => decide (c.id = addr) &&
    decide (start ≤ c.ts.nanos ∧ c.ts.nanos < start + seconds * second)

/-- The monotonic clock, where it does not fail. -/
def Steady (trace : List (Input × Bool)) : Prop :=
  (trace.filterMap fun l => l.1.sessionClock).Pairwise fun s t => s.nanos ≤ t.nanos

/-- The seconds that a limit covers wherever they begin. -/
def window (l : Limit) : ℕ := l.res * (l.ncounts - 1) + 1

/-- Up to 512 seconds the limit covers all seconds that it is set for. -/
theorem window_newLimit {seconds limit : ℕ} (h0 : 0 < seconds) (hs : seconds ≤ 512) :
    window (newLimit seconds limit) = seconds := by
  have hres : (newLimit seconds limit).res = 1 := by
    rw [newLimit_res seconds limit (by omega)]
    omega
  have hn := newLimit_ncounts seconds limit h0 (by omega)
  rw [hres] at hn
  rw [window, hres, hn]
  omega

section limiters

/-- A limit accepts no more calls for an id in its window than it allows. -/
theorem acceptedIn_window {l₀ l : Limit} (hl : RatelimitHistory.WellFormed l₀)
    (hnone : l₀.entries = none) {trace : RatelimitHistory.Trace}
    (hrun : Run (stepOf RatelimitHistory.callStep) l₀ trace l) (hchron : Chronological trace)
    (id : Str) {start : ℕ} (hstart : second ∣ start) :
    acceptedIn id start (window l₀) trace ≤ l₀.limit := by
  have hpos := hl.ncounts_pos
  have hcover : window l₀ ≤ l₀.res * l₀.ncounts := by
    have hsplit : l₀.res * l₀.ncounts = l₀.res * (l₀.ncounts - 1) + l₀.res := by
      rw [← Nat.mul_succ, Nat.succ_eq_add_one, Nat.sub_add_cancel hpos]
    have hres := hl.res_pos
    unfold window
    omega
  have hdvd : l₀.res ∣ window l₀ - 1 := ⟨l₀.ncounts - 1, rfl⟩
  induction hrun with
  | nil => exact Nat.zero_le _
  | @snoc trace m m' x hprev hstep ih =>
    have hle := ih (RatelimitHistory.chronological_init hchron)
    have hallow := RatelimitHistory.accepted_run hl hnone (Run.snoc hprev hstep) hchron
    rw [along_snoc] at hallow
    unfold acceptedIn at hle ⊢
    rw [List.countP_append, List.countP_singleton]
    split
    · next hx =>
      simp only [Bool.and_eq_true, decide_eq_true_eq] at hx
      obtain ⟨⟨rfl, htrue⟩, hlo, hhi⟩ := hx
      have hroom : RatelimitHistory.historyAllows l₀ trace x.1 := hallow.2 htrue
      have hcount := RatelimitWindow.acceptedIn_le_within hl.res_pos hcover hdvd
        (Nat.succ_pos _) hstart trace x.1 hlo hhi
      unfold acceptedIn at hcount
      unfold RatelimitHistory.historyAllows at hroom
      omega
    · exact hle

theorem acceptedIn_append (id : Str) (start seconds : ℕ) (trace later : RatelimitHistory.Trace) :
    acceptedIn id start seconds (trace ++ later) =
      acceptedIn id start seconds trace + acceptedIn id start seconds later :=
  List.countP_append

end limiters

section creation

variable {config : Config W} {self next : Server W} {input : Input} {new : Bool}

/-- A request that calls the limiter gets a session if and only if this allows it. -/
theorem sessionStep_cases (h : sessionStep config self input = some (next, new)) :
    (next.createLimit = self.createLimit ∧ new = false) ∨
      ∃ c, callOf config input = some c ∧
        check self.createLimit ⟨some c.ts, c.id⟩ = (next.createLimit, new) := by
  obtain ⟨⟨next, outcome⟩, hreceived, heq⟩ := Option.map_eq_some_iff.mp h
  obtain ⟨rfl, rfl⟩ := Prod.mk.inj heq
  by_cases hadmitted : Admitted input
  · obtain ⟨hstatus, target, hroute, hmask⟩ := hadmitted
    simp only [requestReceived, hstatus, hroute, ne_eq, not_true_eq_false, if_false, hmask,
      callNext, Option.bind_eq_bind, Option.bind_eq_some_iff] at hreceived
    obtain ⟨⟨middle, opened⟩, hopen, h⟩ := hreceived
    have hmiddle : next.createLimit = middle.createLimit ∧
        next.store.created = middle.store.created := by
      cases opened with
      | none =>
        obtain ⟨rfl, _⟩ := Prod.mk.inj (Option.some.inj h)
        exact ⟨rfl, rfl⟩
      | some opened =>
        simp only [Option.bind_eq_some_iff] at h
        obtain ⟨work, _, h⟩ := h
        obtain ⟨rfl, _⟩ := Prod.mk.inj (Option.some.inj h)
        exact ⟨rfl, rfl⟩
    rw [hmiddle.1, hmiddle.2]
    clear h hmiddle
    rcases hfound : currentSession (self.store.clean input.now) (Cookies.create input.headers)
      input.now with ⟨store, found⟩
    have hcreated := (currentSession_spec hfound).1
    rw [created_clean] at hcreated
    cases found with
    | some session =>
      simp only [openSession, hfound, Option.some.injEq, Prod.mk.injEq] at hopen
      obtain ⟨rfl, _⟩ := hopen
      exact .inl ⟨rfl, by simp [hcreated]⟩
    | none =>
      simp only [openSession, hfound, Option.bind_eq_bind, Option.bind_eq_some_iff] at hopen
      obtain ⟨id, hid, hopen⟩ := hopen
      cases hclock : input.sessionClock with
      | none =>
        rw [hclock] at hopen
        simp only [RateLimit.check, Bool.false_eq_true, if_false] at hopen
        obtain ⟨rfl, _⟩ := Prod.mk.inj (Option.some.inj hopen)
        exact .inl ⟨rfl, by simp [hcreated]⟩
      | some ts =>
        rw [hclock] at hopen
        refine .inr ⟨⟨ts, id⟩, by simp [callOf, hid, hclock], ?_⟩
        show self.createLimit.check (some ts) id = _
        rcases hcheck : self.createLimit.check (some ts) id with ⟨createLimit, ok⟩
        rw [hcheck] at hopen
        cases ok with
        | true =>
          simp only [if_true, Option.bind_eq_some_iff, Option.pure_def, Option.some.injEq,
            Prod.mk.injEq] at hopen
          obtain ⟨⟨store', session⟩, hcreate, rfl, _⟩ := hopen
          have hnew := (createSession_spec hcreate).2.1
          simp only [Prod.mk.injEq, true_and]
          symm
          rw [decide_eq_true_eq, hnew, hcreated]
          exact Nat.lt_succ_self _
        | false =>
          simp only [Bool.false_eq_true, if_false] at hopen
          obtain ⟨rfl, _⟩ := Prod.mk.inj (Option.some.inj hopen)
          simp [hcreated]
  · rw [requestReceived_refused hadmitted hreceived]
    exact .inl ⟨rfl, by simp⟩

/-- The limiter behind a run, with the calls that it has got. -/
structure Limited (config : Config W) (limits : List Limit) (trace : List (Input × Bool))
    (server : Server W) (calls : List Call) : Prop where
  settled : server.createLimit.limits = limits.map fun l => settle l calls
  made : calls.Sublist (trace.filterMap fun l => callOf config l.1)
  counted : ∀ l ∈ limits, ∀ addr start seconds,
    createdIn config addr start seconds trace ≤ acceptedIn addr start seconds (answers l calls)

theorem limited_run {opts : RateLimitOpts} {start : ℤ} {w : W} {trace : List (Input × Bool)}
    {server : Server W}
    (hrun : Run (stepOf (sessionStep config)) (Server.create (some opts) start w) trace server) :
    ∃ calls, Limited config opts.limits trace server calls := by
  induction hrun with
  | nil =>
    refine ⟨[], ?_, List.Sublist.refl _, fun _ _ _ _ _ => Nat.le_refl _⟩
    show opts.limits = _
    simp [settle]
  | @snoc trace m m' x hrun hstep ih =>
    obtain ⟨calls, hlimits, hcalls, hcounted⟩ := ih
    rcases sessionStep_cases hstep with ⟨hsame, hnew⟩ | ⟨c, hc, hcheck⟩
    · refine ⟨calls, by rw [hsame, hlimits], ?_, fun l hl addr start seconds => ?_⟩
      · rw [List.filterMap_append]
        exact hcalls.trans (List.sublist_append_left _ _)
      · rw [createdIn, List.countP_append, List.countP_singleton, hnew]
        exact hcounted l hl addr start seconds
    · rw [RatelimitRejection.check_some] at hcheck
      obtain ⟨hafter, hok⟩ := Prod.mk.inj hcheck
      refine ⟨calls ++ [c], ?_, ?_, fun l hl addr start seconds => ?_⟩
      · rw [← hafter, hlimits, List.map_map]
        apply List.map_congr_left
        intro l _
        rw [RatelimitRejection.settle_append]
        rfl
      · rw [List.filterMap_append, List.filterMap_cons, hc]
        exact hcalls.append (List.Sublist.refl _)
      · have hbefore := hcounted l hl addr start seconds
        rw [createdIn, List.countP_append, List.countP_singleton, RatelimitRejection.answers_append,
          acceptedIn_append]
        have hlast : ∀ b : Bool, (b = true → acceptedIn addr start seconds
            (answers (settle l calls) [c]) = 1) → (if b = true then 1 else 0) ≤
              acceptedIn addr start seconds (answers (settle l calls) [c]) := by
          intro b hb
          cases b with
          | true => exact (hb rfl).ge
          | false => exact Nat.zero_le _
        refine Nat.add_le_add hbefore (hlast _ fun hnew => ?_)
        rw [hc, Option.any_some, Bool.and_eq_true] at hnew
        obtain ⟨hnew, hwhen⟩ := hnew
        rw [hnew, hlimits, List.all_map, List.all_eq_true] at hok
        have haccepted := hok l hl
        simp only [Function.comp] at haccepted
        simp only [answers, acceptedIn, List.countP_cons, List.countP_nil, haccepted]
        simp only [Bool.and_eq_true, decide_eq_true_eq] at hwhen
        simp [hwhen]

theorem steady_calls {trace : List (Input × Bool)} {calls : List Call} (h : Steady trace)
    (hcalls : calls.Sublist (trace.filterMap fun l => callOf config l.1)) (l : Limit) :
    Chronological (answers l calls) := by
  have hall : (trace.filterMap fun l => callOf config l.1).Pairwise
      fun c d => c.ts.nanos ≤ d.ts.nanos := by
    rw [Steady, List.pairwise_filterMap] at h
    rw [List.pairwise_filterMap]
    refine h.imp fun {a b} hab c hc d hd => ?_
    simp only [callOf, Option.bind_eq_bind, Option.bind_eq_some_iff, Option.pure_def,
      Option.some.injEq] at hc hd
    obtain ⟨_, _, s, hs, rfl⟩ := hc
    obtain ⟨_, _, t, ht, rfl⟩ := hd
    exact hab s hs t ht
  have hsub := hall.sublist hcalls
  rw [← RatelimitRejection.answers_calls l calls, List.pairwise_map] at hsub
  exact hsub

/-- Limits that were configured one after the other. -/
def limitOpts (settings : List (ℕ × ℕ)) : RateLimitOpts :=
  settings.foldl (fun opts s => opts.addLimit s.1 s.2) RateLimitOpts.create

/-- In every run at steady times no client gets more sessions in the window of a
configured limit than the limit allows; up to 512 seconds the window is the whole time. -/
theorem sessions_limited {settings : List (ℕ × ℕ)} (hsettings : Configured settings) {start : ℤ}
    {w : W} {trace : List (Input × Bool)} {server : Server W}
    (hrun : Run (stepOf (sessionStep config)) (Server.create (some (limitOpts settings)) start w)
      trace server)
    (hsteady : Steady trace) {s : ℕ × ℕ} (hs : s ∈ settings) (addr : Str) {t : ℕ}
    (ht : second ∣ t) :
    createdIn config addr t (window (newLimit s.1 s.2)) trace ≤ s.2 ∧
      (s.1 ≤ 512 → createdIn config addr t s.1 trace ≤ s.2) := by
  obtain ⟨calls, hlimited⟩ := limited_run hrun
  have hmem : newLimit s.1 s.2 ∈ (limitOpts settings).limits := by
    show _ ∈ (limiter settings).limits
    rw [RatelimitRejection.limiter_limits]
    exact List.mem_map.mpr ⟨s, hs, rfl⟩
  obtain ⟨h0, h1, h2⟩ := hsettings s hs
  have hwf := RatelimitHistory.newLimit_wellFormed s.1 s.2 h0 h1 h2
  have hle : createdIn config addr t (window (newLimit s.1 s.2)) trace ≤ s.2 := by
    calc createdIn config addr t (window (newLimit s.1 s.2)) trace
      _ ≤ acceptedIn addr t (window (newLimit s.1 s.2)) (answers (newLimit s.1 s.2) calls) :=
        hlimited.counted _ hmem _ _ _
      _ ≤ s.2 := acceptedIn_window hwf rfl (RatelimitRejection.run_answers _ calls)
        (steady_calls hsteady hlimited.made _) addr ht
  refine ⟨hle, fun hshort => ?_⟩
  rwa [window_newLimit h0 hshort] at hle

/-- A visit at a whole second. -/
def visitAt (sec : ℕ) (draw : Byte) : Input :=
  { visit sec draw with sessionClock := some ⟨sec, 0, Ratelimit.Timespec.zero_lt_second⟩ }

/-- With the default limits a client gets three sessions in 5 seconds, and no fourth one. -/
theorem sessions_limited_sample : ∃ trace server,
    Run (stepOf (sessionStep sampleConfig))
        (Server.create (some (limitOpts [(5, 3), (60, 5), (3600, 25)])) 0 ()) trace server ∧
      trace.map Prod.snd = [true, true, true, false] ∧
        createdIn sampleConfig (str "127.0.0.1") 0 5 trace = 3 := by
  have hready : (exec (sessionStep sampleConfig)
      (Server.create (some (limitOpts [(5, 3), (60, 5), (3600, 25)])) 0 ())
      [visitAt 0 0, visitAt 1 1, visitAt 2 2, visitAt 4 3]).any (fun r =>
        decide (r.2.map Prod.snd = [true, true, true, false]) &&
          decide (3 ≤ createdIn sampleConfig (str "127.0.0.1") 0 5 r.2)) = true := by
    decide +kernel
  obtain ⟨⟨server, trace⟩, hexec, hready⟩ := (Option.any_eq_true _ _).mp hready
  simp only [Bool.and_eq_true, decide_eq_true_eq] at hready
  obtain ⟨hanswers, hthree⟩ := hready
  obtain ⟨hrun, hinputs⟩ := run_of_exec _ hexec
  have hsteady : Steady trace := by
    have hclock : (trace.filterMap fun l => l.1.sessionClock) =
        (trace.map Prod.fst).filterMap Input.sessionClock := by
      rw [List.filterMap_map]
      rfl
    rw [Steady, hclock, hinputs]
    show List.Pairwise (fun s t : Timespec => s.nanos ≤ t.nanos)
      [⟨0, 0, _⟩, ⟨1, 0, _⟩, ⟨2, 0, _⟩, ⟨4, 0, _⟩]
    decide
  have hsettings : Configured [(5, 3), (60, 5), (3600, 25)] := by simp [Configured]
  have hlimited := (sessions_limited hsettings hrun hsteady (List.mem_cons_self ..)
    (str "127.0.0.1") (Nat.dvd_zero _)).2 (by decide)
  exact ⟨trace, server, hrun, hanswers, Nat.le_antisymm hlimited hthree⟩

end creation

end Swad.SessionBounds
