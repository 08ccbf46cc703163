import Swad.LabelledRuns
import Swad.ServerEvents

/-!
Who owns the request, the response and the context at every moment of a connection. In
whatever order the events come, every request is answered once, with the status that is
logged, and no object is used after its deletion, as long as every job whose connection
is open when it ends has completed and left a response: otherwise the log asks a
response that is not there.
-/
namespace Swad.ResponseOwnership

open Bytes Http Httprequest Httpresponse Httpserver DeferredDeletion ServerEvents LabelledRuns

/-- A request is read; its pipeline works, and the client is still connected or not; the
response is sent, and the connection kept or closed afterwards; the response was sent;
nothing is left to be done. -/
inductive Phase
  | reading (r : ℕ)
  | working (connected : Bool) (r c : ℕ) (p : Option ℕ)
  | reusing (r c p : ℕ)
  | closing (p : ℕ)
  | ended
  | gone (r : Option ℕ)

namespace Phase

def isOpen : Phase → Bool
  | working connected .. => connected
  | gone _ => false
  | _ => true

def closed : Phase → List ClosedHandler
  | reading r => [.connClosed, .connectionLost r]
  | working _ _ c _ => [.connClosed, .connectionClosed c, .pipelineJobCanceled]
  | reusing _ c p => [.connClosed, .connectionClosed c, .abortSending p]
  | closing p => [.connClosed, .abortSending p]
  | _ => [.connClosed]

def dataSent : Phase → List DataSentHandler
  | reusing _ _ p | closing p => [.connActive, .sendBody p]
  | _ => [.connActive]

def job : Phase → Option Job
  | working connected _ c _ =>
    some ⟨c, [if connected then .pipelineJobDone else .pipelineCanceledJobDone]⟩
  | _ => none

def reads : Phase → Option ℕ
  | reading r => some r
  | _ => none

def request : Phase → Option ℕ
  | reading r | working _ r .. | reusing r .. => some r
  | _ => none

/-- The context with its request and its response. -/
def context : Phase → Option (ℕ × ℕ × Option ℕ)
  | working _ r c p => some (c, r, p)
  | reusing r c p => some (c, r, some p)
  | _ => none

def response : Phase → Option ℕ
  | working _ _ _ p => p
  | reusing _ _ p | closing p => some p
  | _ => none

def sent : Phase → List SentHandler
  | reusing _ c _ => [.httpResponseSentReuse c]
  | closing _ => [.httpResponseSentSingle]
  | _ => []

/-- The request that was received and has no response. -/
def unanswered : Phase → Option ℕ
  | working _ r .. => some r
  | gone r => r
  | _ => none

end Phase

structure Inv (state : State) (ph : Phase) : Prop where
  requests : state.requests.WellFormed
  responses : state.responses.WellFormed
  contexts : state.contexts.WellFormed
  isOpen : state.isOpen = ph.isOpen
  closed : ph.isOpen = true → state.closed = ph.closed
  dataSent : ph.isOpen = true → state.dataSent = ph.dataSent
  job : state.job = ph.job
  reading : state.reading = ph.reads
  request : ∀ r, ph.request = some r → ∃ q, state.requests.Owned r q
  context : ∀ c r p, ph.context = some (c, r, p) →
    ∃ reuse, state.contexts.Owned c ⟨r, p, ph.isOpen, reuse⟩
  response : ∀ p, ph.response = some p → ∃ value pos,
    state.responses.Owned p ⟨value, pos, ph.sent⟩ ∧ value.version = .http11
  logged : state.logged = state.sent
  received : state.received = state.sent.map Prod.fst ++ ph.unanswered.toList
  nodup : state.received.Nodup
  bound : ∀ r ∈ state.received, r < state.requests.created
  fresh : ∀ r, ph.reads = some r → r ∉ state.received

section operations

variable {self : State} {r c p : ℕ} {v : Response} {x : Context} {q : HttpRequest}
  {requests : Pool HttpRequest} {responses : Pool Response} {contexts : Pool Context}

theorem modifyResponse_spec (hwf : responses.WellFormed) (hp : responses.Owned p v)
    (g : Response → Response) :
    ∃ responses', responses'.WellFormed ∧ responses'.Owned p (g v) ∧
      ∀ self : State, self.responses = responses →
        self.modifyResponse p g = some { self with responses := responses' } := by
  obtain ⟨responses', hmodify, hwf', hp', _⟩ := hwf.modify hp g
  refine ⟨responses', hwf', hp', fun self hself => ?_⟩
  rw [State.modifyResponse, hself, hmodify]
  rfl

theorem deleteLaterResponse_spec (hwf : responses.WellFormed) (hp : responses.Owned p v) :
    ∃ responses', responses'.WellFormed ∧ ∀ self : State, self.responses = responses →
      self.deleteLaterResponse p = some { self with responses := responses' } := by
  obtain ⟨responses', hdelete, hwf', _⟩ := hwf.deleteLater hp
  refine ⟨responses', hwf', fun self hself => ?_⟩
  rw [State.deleteLaterResponse, hself, hdelete]
  rfl

theorem destroyResponse_spec (hwf : responses.WellFormed) (hp : responses.Owned p v) :
    ∃ responses', responses'.WellFormed ∧ responses'.object p = none ∧
      responses'.created = responses.created ∧ ∀ self : State, self.responses = responses →
        self.destroyResponse (some p) = some { self with responses := responses' } := by
  obtain ⟨responses', hdestroy, hwf', hgone, hcreated, _⟩ := hwf.destroy hp
  refine ⟨responses', hwf', hgone, hcreated, fun self hself => ?_⟩
  rw [State.destroyResponse, hself, hdestroy]
  rfl

theorem deleteLaterRequest_spec (hwf : requests.WellFormed) (hr : requests.Owned r q) :
    ∃ requests', requests'.WellFormed ∧ requests'.created = requests.created ∧
      (∀ b, b ≠ r → requests'.object b = requests.object b) ∧
      ∀ self : State, self.requests = requests →
        self.deleteLaterRequest r = some { self with requests := requests' } := by
  obtain ⟨requests', hdelete, hwf', hcreated, hothers⟩ := hwf.deleteLater hr
  refine ⟨requests', hwf', hcreated, hothers, fun self hself => ?_⟩
  rw [State.deleteLaterRequest, hself, hdelete]
  rfl

theorem destroyContext_spec (hwf : contexts.WellFormed) (hc : contexts.Owned c x) :
    ∃ contexts', contexts'.WellFormed ∧ ∀ self : State, self.contexts = contexts →
      self.destroyContext c = some { self with
        contexts := contexts'
        closed := if x.conn then self.closed.erase (.connectionClosed c) else self.closed } := by
  obtain ⟨contexts', hdestroy, hwf', _⟩ := hwf.destroy hc
  refine ⟨contexts', hwf', fun self hself => ?_⟩
  rw [State.destroyContext, hself, hc.get, hdestroy]
  rfl

/-- Sending starts on an open connection. -/
theorem send_spec (hwf : responses.WellFormed) (hp : responses.Owned p v) :
    ∃ responses', responses'.WellFormed ∧ responses'.Owned p ⟨v.value.prepare, 0, v.sent⟩ ∧
      ∀ self : State, self.responses = responses →
        self.send p true r = some { self with
          responses := responses'
          dataSent := self.dataSent ++ [.sendBody p]
          closed := self.closed ++ [.abortSending p]
          sent := self.sent ++ [(r, v.value.prepare.status)] } := by
  obtain ⟨responses', hwf', hp', hmodify⟩ := modifyResponse_spec hwf hp
    fun x => { x with value := x.value.prepare, sendPos := 0 }
  refine ⟨responses', hwf', hp', fun self hself => ?_⟩
  rw [State.send, hself, hp.get, Option.bind_eq_bind, Option.bind_some, hmodify self hself]
  rfl

/-- A context with a response is about to be answered. -/
structure Answering (state : State) (r c p : ℕ) : Prop where
  requests : state.requests.WellFormed
  responses : state.responses.WellFormed
  contexts : state.contexts.WellFormed
  isOpen : state.isOpen = true
  closed : state.closed = [.connClosed, .connectionClosed c]
  dataSent : state.dataSent = [.connActive]
  job : state.job = none
  reading : state.reading = none
  request : ∃ q, state.requests.Owned r q
  context : ∃ reuse, state.contexts.Owned c ⟨r, some p, true, reuse⟩
  response : ∃ value pos, state.responses.Owned p ⟨value, pos, []⟩ ∧ value.version = .http11
  logged : state.logged = state.sent
  received : state.received = state.sent.map Prod.fst ++ [r]
  nodup : state.received.Nodup
  bound : ∀ r ∈ state.received, r < state.requests.created

theorem prepare_status {value : HttpResponse} (h : value.version = .http11) :
    value.prepare.status = value.status := by
  rw [HttpResponse.prepare, h]

theorem logRequest_eq {value : HttpResponse} {pos : ℕ} {reuse : Bool} {handlers : List SentHandler}
    (hr : self.requests.Owned r q) (hc : self.contexts.Owned c ⟨r, some p, true, reuse⟩)
    (hp : self.responses.Owned p ⟨value, pos, handlers⟩) :
    self.logRequest c = some { self with logged := self.logged ++ [(r, value.status)] } := by
  rw [State.logRequest, hc.get]
  simp only [Option.bind_eq_bind, Option.bind_some, hr.get, hp.get]
  rfl

/-- A response that is there is logged and sent with the same status. -/
theorem pipelineJobDone_spec (h : Answering self r c p) :
    ∃ self' ph, self.pipelineJobDone none c = some self' ∧ Inv self' ph := by
  obtain ⟨q, hr⟩ := h.request
  obtain ⟨reuse, hc⟩ := h.context
  obtain ⟨value, pos, hp, hversion⟩ := h.response
  have hlog := logRequest_eq hr hc hp
  have hsentRefs : ∀ status, (self.sent ++ [(r, status)]).map Prod.fst = self.received := by
    intro status
    rw [h.received, List.map_append]
    rfl
  unfold State.pipelineJobDone
  simp only [hc.get, Option.bind_eq_bind, Option.bind_some, hlog, hp.get]
  split
  · obtain ⟨responses, hwf, hp', hmodify⟩ :=
      modifyResponse_spec h.responses hp (Response.keepAlive c)
    obtain ⟨responses', hwf', hp'', hsend⟩ := send_spec (r := r) hwf hp'
    simp only [hmodify, hsend, Option.bind_some]
    refine ⟨_, .reusing r c p, rfl, ⟨h.requests, hwf', h.contexts, h.isOpen, fun _ => ?_,
      fun _ => ?_, h.job, h.reading, fun _ hr' => ?_, fun _ _ _ hc' => ?_, fun _ hp₀ => ?_, ?_, ?_,
      h.nodup, h.bound, fun _ hr' => ?_⟩⟩
    · simp only [h.closed]
      rfl
    · simp only [h.dataSent]
      rfl
    · obtain rfl := Option.some.inj hr'
      exact ⟨q, hr⟩
    · obtain ⟨rfl, rfl, rfl⟩ : c = _ ∧ r = _ ∧ some p = _ := by simpa [Phase.context] using hc'
      exact ⟨reuse, hc⟩
    · obtain rfl := Option.some.inj hp₀
      exact ⟨_, _, hp'', hversion⟩
    · have hstatus : (Response.keepAlive c ⟨value, pos, []⟩).value.prepare.status = value.status :=
        prepare_status hversion
      simp only [h.logged, hstatus]
    · simp only [Phase.unanswered, Option.toList_none, List.append_nil]
      exact (hsentRefs _).symm
    · cases hr'
  · obtain ⟨responses₁, hwf₁, hp₁, hclose⟩ := modifyResponse_spec h.responses hp Response.close
    obtain ⟨responses₂, hwf₂, hp₂, hregister⟩ := modifyResponse_spec hwf₁ hp₁
      fun x => { x with sent := x.sent ++ [.httpResponseSentSingle] }
    obtain ⟨contexts, hwfc, hdestroy⟩ := destroyContext_spec h.contexts hc
    obtain ⟨requests, hwfr, hcreated, _, hdelete⟩ := deleteLaterRequest_spec h.requests hr
    obtain ⟨responses₃, hwf₃, hp₃, hsend⟩ := send_spec (r := r) hwf₂ hp₂
    simp only [hclose, hregister, hdestroy, hdelete, hsend, Option.bind_some, if_true]
    refine ⟨_, .closing p, rfl, ⟨hwfr, hwf₃, hwfc, h.isOpen, fun _ => ?_,
      fun _ => ?_, h.job, h.reading, fun _ hr' => ?_, fun _ _ _ hc' => ?_, fun _ hp₀ => ?_, ?_, ?_,
      h.nodup, ?_, fun _ hr' => ?_⟩⟩
    · simp [h.closed, Phase.closed]
    · simp only [h.dataSent]
      rfl
    · cases hr'
    · cases hc'
    · obtain rfl := Option.some.inj hp₀
      exact ⟨_, _, hp₃, hversion⟩
    · have hstatus : ({ Response.close ⟨value, pos, []⟩ with
          sent := (Response.close ⟨value, pos, []⟩).sent ++ [.httpResponseSentSingle] } :
            Response).value.prepare.status = value.status := prepare_status hversion
      simp only [h.logged, hstatus]
    · simp only [Phase.unanswered, Option.toList_none, List.append_nil]
      exact (hsentRefs _).symm
    · simp only [hcreated]
      exact h.bound
    · cases hr'

/-- The log asks the response of the context, and finds none. -/
theorem logRequest_none (hc : self.contexts.Owned c x) (hr : self.requests.Owned x.request q)
    (hp : x.response.bind self.responses.get = none) : self.logRequest c = none := by
  rw [State.logRequest, hc.get]
  simp only [Option.bind_eq_bind, Option.bind_some, hr.get]
  cases hresponse : x.response with
  | none => rfl
  | some p =>
    rw [hresponse, Option.bind_some] at hp
    rw [Option.bind_some, hp]
    rfl

/-- Without a response the end of the pipeline uses an object that is not there. -/
theorem pipelineJobDone_missing {job : Option Bool} (hc : self.contexts.Owned c x)
    (hr : self.requests.Owned x.request q) (hjob : job ≠ some false) (hx : x.response = none) :
    self.pipelineJobDone job c = none := by
  have hlog : ∀ self' : State, self'.contexts = self.contexts → self'.requests = self.requests →
      self'.logRequest c = none := by
    intro self' hcontexts hrequests
    rw [← hcontexts] at hc
    rw [← hrequests] at hr
    exact logRequest_none hc hr (by rw [hx]; rfl)
  unfold State.pipelineJobDone
  simp only [hc.get, Option.bind_eq_bind, Option.bind_some, hx]
  cases job with
  | none => simp [hlog, State.createResponse]
  | some completed =>
    obtain rfl : completed = true := by simpa using hjob
    by_cases hconn : x.conn = true
    · simp [hlog, State.createResponse, hconn]
    · simp [hconn]

/-- A job that did not complete takes the response away that the log asks. -/
theorem pipelineJobDone_timeout (hwf : self.responses.WellFormed) (hc : self.contexts.Owned c x)
    (hr : self.requests.Owned x.request q)
    (hp : ∀ p, x.response = some p → ∃ v, self.responses.Owned p v) :
    self.pipelineJobDone (some false) c = none := by
  have hlog : ∀ self' : State, self'.contexts = self.contexts → self'.requests = self.requests →
      x.response.bind self'.responses.get = none → self'.logRequest c = none := by
    intro self' hcontexts hrequests hgone
    rw [← hcontexts] at hc
    rw [← hrequests] at hr
    exact logRequest_none hc hr hgone
  unfold State.pipelineJobDone
  simp only [hc.get, Option.bind_eq_bind, Option.bind_some]
  by_cases hconn : x.conn = true
  · cases hresponse : x.response with
    | none =>
      rw [hresponse] at hlog
      simp [hconn, State.destroyResponse, State.createResponse, hlog]
    | some p =>
      obtain ⟨v, hv⟩ := hp p hresponse
      obtain ⟨responses, hwf', hgone, hcreated, hdestroy⟩ := destroyResponse_spec hwf hv
      have hlt := hwf.lt_created hv
      have hget : ∀ v, (responses.create v).get p = none := by
        intro v
        have hnone : (responses.create v).object p = none :=
          (Pool.put_of_ne (by omega) _).trans hgone
        rw [Pool.get, hnone]
        rfl
      rw [hresponse] at hlog
      simp [hconn, hdestroy, State.createResponse, hlog, hget]
  · simp [hconn]

/-- A new response takes the place of the response of a context. -/
theorem setResponse_spec {old : Option ℕ} {conn reuse : Bool} (hwf : self.responses.WellFormed)
    (hwfc : self.contexts.WellFormed) (hc : self.contexts.Owned c ⟨r, old, conn, reuse⟩)
    (hr : self.requests.Owned r q) (hold : ∀ p, old = some p → ∃ v, self.responses.Owned p v)
    (value : HttpResponse) (hversion : value.version = .http11) :
    ∃ responses' contexts' value' reuse', responses'.WellFormed ∧ contexts'.WellFormed ∧
      responses'.Owned self.responses.created ⟨value', 0, []⟩ ∧ value'.version = .http11 ∧
      contexts'.Owned c ⟨r, some self.responses.created, conn, reuse'⟩ ∧
      (self.createResponse value).1.setResponse c (self.createResponse value).2 =
        some { self with responses := responses', contexts := contexts' } := by
  have hnew : (self.responses.create ⟨value, 0, []⟩).Owned self.responses.created
      ⟨value, 0, []⟩ := Pool.owned_create _
  have hdestroyed : ∃ responses₁ : Pool Response, responses₁.WellFormed ∧
      responses₁.Owned self.responses.created ⟨value, 0, []⟩ ∧
      (self.createResponse value).1.destroyResponse old =
        some { self with responses := responses₁ } := by
    cases hcase : old with
    | none => exact ⟨_, hwf.create _, hnew, rfl⟩
    | some p =>
      obtain ⟨v, hv⟩ := hold p hcase
      have hlt := hwf.lt_created hv
      obtain ⟨responses₁, hdestroy, hwf₁, _, _, hothers⟩ :=
        (hwf.create (⟨value, 0, []⟩ : Response)).destroy (hwf.create_of_ne hv _)
      refine ⟨responses₁, hwf₁, (hothers _ (by omega)).trans hnew, ?_⟩
      rw [State.createResponse, State.destroyResponse, hdestroy]
      rfl
  obtain ⟨responses₁, hwf₁, hp₁, hdestroy⟩ := hdestroyed
  obtain ⟨responses₂, hwf₂, hp₂, hmodify⟩ := modifyResponse_spec hwf₁ hp₁
    fun x => { x with value := value.setVersion q.version }
  obtain ⟨contexts', hmodifyc, hwfc', hc', _⟩ := hwfc.modify hc fun x => { x with
    response := some self.responses.created
    reuse := (value.setVersion q.version).bodySize != 0 && keepsAlive q }
  refine ⟨responses₂, contexts', value.setVersion q.version, _, hwf₂, hwfc', hp₂, hversion, hc', ?_⟩
  rw [State.setResponse]
  have hget : (self.createResponse value).1.contexts.get c = some ⟨r, old, conn, reuse⟩ := hc.get
  simp only [hget, Option.bind_eq_bind, Option.bind_some, hdestroy, hr.get]
  have hpos : (self.createResponse value).2 = self.responses.created := rfl
  simp only [hpos, hp₁.get, Option.bind_some, hmodify, hmodifyc]
  rfl

end operations

section events

variable {self : State} {ph : Phase}

theorem exec_eventsDone (h : Inv self ph) : ∃ self', self.exec .eventsDone = some self' ∧
    Inv self' ph := by
  obtain ⟨requests, hcollect, hwf, _, hcreated, howned⟩ := h.requests.collect
  obtain ⟨responses, hcollect', hwf', _, _, howned'⟩ := h.responses.collect
  refine ⟨{ self with requests, responses }, ?_, ⟨hwf, hwf', h.contexts, h.isOpen, h.closed,
    h.dataSent, h.job, h.reading, fun r hr => ?_, h.context, fun p hp => ?_, h.logged, h.received,
    h.nodup, ?_, h.fresh⟩⟩
  · rw [State.exec, hcollect, Option.bind_eq_bind, Option.bind_some, hcollect']
    rfl
  · obtain ⟨q, hq⟩ := h.request r hr
    exact ⟨q, howned r q hq⟩
  · obtain ⟨value, pos, hv, hversion⟩ := h.response p hp
    exact ⟨value, pos, howned' p _ hv, hversion⟩
  · simp only [hcreated]
    exact h.bound

theorem exec_responds_job {job : Job} (hjob : self.job = some job) (value : HttpResponse)
    (hversion : value.version = .http11) : self.exec (.responds value hversion) =
      (self.createResponse value).1.setResponse job.context (self.createResponse value).2 := by
  simp only [State.exec, hjob]

/-- The pipeline may set a response more than once, and after the connection was closed. -/
theorem exec_responds (h : Inv self ph) (value : HttpResponse) (hversion : value.version = .http11) :
    ∃ self' ph', self.exec (.responds value hversion) = some self' ∧ Inv self' ph' := by
  have hjob := h.job
  cases ph with
  | working connected r c p =>
    obtain ⟨q, hq⟩ := h.request r rfl
    obtain ⟨reuse, hc⟩ := h.context c r p rfl
    have hold : ∀ p', p = some p' → ∃ v, self.responses.Owned p' v := by
      intro p' hp'
      obtain ⟨_, _, hv, _⟩ := h.response p' hp'
      exact ⟨_, hv⟩
    obtain ⟨responses', contexts', value', reuse', hwf, hwfc, hp, hv, hc', hexec⟩ :=
      setResponse_spec h.responses h.contexts hc hq hold value hversion
    refine ⟨{ self with responses := responses', contexts := contexts' },
      .working connected r c (some self.responses.created),
      (exec_responds_job hjob value hversion).trans hexec,
      ⟨h.requests, hwf, hwfc, h.isOpen, h.closed, h.dataSent, h.job, h.reading, h.request,
      fun _ _ _ hnew => ?_, fun p' hp' => ?_, h.logged, h.received, h.nodup, h.bound, h.fresh⟩⟩
    · cases hnew
      exact ⟨reuse', hc'⟩
    · cases hp'
      exact ⟨value', 0, hp, hv⟩
  | _ => exact ⟨self, _, by rw [State.exec, hjob]; rfl, h⟩

/-- A job of a connection that is still open has to have completed, with a response. -/
def Settled (self : State) : Event → Prop
  | .finished completed => self.isOpen = true → ∀ job, self.job = some job → completed = true ∧
      ∃ x, self.contexts.get job.context = some x ∧ x.response.isSome
  | _ => True

theorem exec_finished_job {job : Job} (hjob : self.job = some job) (completed : Bool) :
    self.exec (.finished completed) = self.raiseFinished job completed := by
  simp only [State.exec, hjob]

theorem raiseFinished_done {c : ℕ} {completed : Bool} :
    self.raiseFinished ⟨c, [.pipelineJobDone]⟩ completed =
      State.pipelineJobDone { self with job := none } (some completed) c := by
  simp only [State.raiseFinished, List.foldlM_cons, List.foldlM_nil]
  cases State.pipelineJobDone { self with job := none } (some completed) c <;> rfl

/-- The end of a completed job is the end of its pipeline. -/
theorem pipelineJobDone_completed {contexts : Pool Context} {c : ℕ} {x : Context}
    (hc : contexts.Owned c x) (hconn : x.conn = true) (self : State)
    (hself : self.contexts = contexts) :
    self.pipelineJobDone (some true) c =
      State.pipelineJobDone { self with closed := self.closed.erase .pipelineJobCanceled }
        none c := by
  subst hself
  unfold State.pipelineJobDone
  simp only [hc.get, Option.bind_eq_bind, Option.bind_some, hconn, if_true]

/-- A job whose connection was closed leaves nothing behind. -/
theorem pipelineCanceledJobDone_spec {r c : ℕ} {p : Option ℕ} (h : Inv self (.working false r c p)) :
    ∃ self', State.pipelineCanceledJobDone { self with job := none } c = some self' ∧
      Inv self' (.gone (some r)) := by
  obtain ⟨q, hq⟩ := h.request r rfl
  obtain ⟨reuse, hc⟩ := h.context c r p rfl
  obtain ⟨requests, hwfr, hcreated, _, hdelete⟩ := deleteLaterRequest_spec h.requests hq
  obtain ⟨contexts, hwfc, hcontext⟩ := destroyContext_spec h.contexts hc
  have hresponse : ∃ responses : Pool Response, responses.WellFormed ∧ ∀ self' : State,
      self'.responses = self.responses →
        self'.destroyResponse p = some { self' with responses } := by
    cases hp : p with
    | none =>
      refine ⟨self.responses, h.responses, fun self' hself' => ?_⟩
      rw [← hself']
      rfl
    | some p' =>
      obtain ⟨_, _, hv, _⟩ := h.response p' hp
      obtain ⟨responses, hwf, _, _, hdestroy⟩ := destroyResponse_spec h.responses hv
      exact ⟨responses, hwf, hdestroy⟩
  obtain ⟨responses, hwf, hdestroy⟩ := hresponse
  unfold State.pipelineCanceledJobDone
  simp only [hc.get, Option.bind_eq_bind, Option.bind_some, hdelete, hdestroy, hcontext]
  refine ⟨_, rfl, ⟨hwfr, hwf, hwfc, h.isOpen, (fun hopen => nomatch hopen),
    (fun hopen => nomatch hopen), rfl, h.reading, (fun _ hr => nomatch hr),
    (fun _ _ _ hx => nomatch hx), (fun _ hp => nomatch hp), h.logged, h.received, h.nodup, ?_,
    (fun _ hr => nomatch hr)⟩⟩
  simp only [hcreated]
  exact h.bound

theorem raiseFinished_canceled {c : ℕ} {completed : Bool} :
    self.raiseFinished ⟨c, [.pipelineCanceledJobDone]⟩ completed =
      State.pipelineCanceledJobDone { self with job := none } c := by
  simp only [State.raiseFinished, List.foldlM_cons, List.foldlM_nil]
  cases State.pipelineCanceledJobDone { self with job := none } c <;> rfl

theorem exec_finished (h : Inv self ph) (completed : Bool) :
    (Settled self (.finished completed) →
      ∃ self' ph', self.exec (.finished completed) = some self' ∧ Inv self' ph') ∧
    (¬ Settled self (.finished completed) → self.exec (.finished completed) = none) := by
  have hjob := h.job
  cases ph with
  | working connected r c p =>
    obtain ⟨q, hq⟩ := h.request r rfl
    obtain ⟨reuse, hc⟩ := h.context c r p rfl
    have hget : ∀ {x}, self.contexts.get c = some x → x.response = p := by
      intro x hx
      rw [hc.get] at hx
      rw [← Option.some.inj hx]
    cases connected with
    | true =>
      have hexec := (exec_finished_job hjob completed).trans raiseFinished_done
      constructor
      · intro hsettled
        obtain ⟨rfl, x, hx, hsome⟩ := hsettled h.isOpen _ hjob
        obtain rfl := hget hx
        obtain ⟨p, hp⟩ := Option.isSome_iff_exists.mp hsome
        have hc' : self.contexts.Owned c ⟨r, some p, true, reuse⟩ := by
          rw [← hp]
          exact hc
        rw [hexec, pipelineJobDone_completed hc' rfl { self with job := none } rfl]
        apply pipelineJobDone_spec (r := r) (p := p)
        refine ⟨h.requests, h.responses, h.contexts, h.isOpen, ?_, h.dataSent rfl, rfl, h.reading,
          ⟨q, hq⟩, ⟨reuse, hc'⟩, h.response p hp, h.logged, h.received, h.nodup, h.bound⟩
        simp [h.closed rfl, Phase.closed]
      · intro hnot
        rw [hexec]
        cases completed with
        | false =>
          apply pipelineJobDone_timeout (x := ⟨r, p, true, reuse⟩) (q := q)
          · exact h.responses
          · exact hc
          · exact hq
          · intro p' hp'
            obtain ⟨_, _, hv, _⟩ := h.response p' hp'
            exact ⟨_, hv⟩
        | true =>
          apply pipelineJobDone_missing (x := ⟨r, p, true, reuse⟩) (q := q)
          · exact hc
          · exact hq
          · decide
          by_contra hsome
          refine absurd ?_ hnot
          intro _ job hjob'
          rw [hjob] at hjob'
          obtain rfl := Option.some.inj hjob'
          exact ⟨rfl, _, hc.get, Option.isSome_iff_ne_none.mpr hsome⟩
    | false =>
      obtain ⟨self', hdone, hinv⟩ := pipelineCanceledJobDone_spec h
      have hexec := (exec_finished_job hjob completed).trans raiseFinished_canceled
      refine ⟨fun _ => ⟨self', _, hexec.trans hdone, hinv⟩, fun hnot => absurd ?_ hnot⟩
      intro hopen
      rw [h.isOpen] at hopen
      cases hopen
  | _ =>
    refine ⟨fun _ => ⟨self, _, by simp only [State.exec, hjob]; rfl, h⟩, fun hnot => ?_⟩
    refine absurd ?_ hnot
    intro _ job hsome
    rw [hjob] at hsome
    cases hsome

theorem answer_eq (c : ℕ) (value : HttpResponse) :
    self.answer c value = ((self.createResponse value).1.setResponse c
      (self.createResponse value).2).bind fun self => self.pipelineJobDone none c := rfl

/-- A request whose job is not run is answered at once. -/
theorem answer_spec {r c : ℕ} (h : Inv self (.working true r c none)) (value : HttpResponse)
    (hversion : value.version = .http11) :
    ∃ self' ph', State.answer { self with
        job := none
        closed := self.closed.erase .pipelineJobCanceled } c value = some self' ∧
      Inv self' ph' := by
  obtain ⟨q, hq⟩ := h.request r rfl
  obtain ⟨reuse, hc⟩ := h.context c r none rfl
  let self₁ : State :=
    { self with job := none, closed := self.closed.erase .pipelineJobCanceled }
  obtain ⟨responses', contexts', value', reuse', hwf, hwfc, hp, hv, hc', hset⟩ :=
    @setResponse_spec self₁ r c q none true reuse h.responses h.contexts hc hq
      (fun _ hp => nomatch hp) value hversion
  have hanswering : Answering { self₁ with responses := responses', contexts := contexts' } r c
      self₁.responses.created :=
    ⟨h.requests, hwf, hwfc, h.isOpen, by simp [self₁, h.closed rfl, Phase.closed], h.dataSent rfl,
      rfl, h.reading, ⟨q, hq⟩, ⟨reuse', hc'⟩, ⟨value', 0, hp, hv⟩, h.logged, h.received, h.nodup,
      h.bound⟩
  obtain ⟨self', ph', hdone, hinv⟩ := pipelineJobDone_spec hanswering
  refine ⟨self', ph', ?_, hinv⟩
  rw [answer_eq, hset]
  exact hdone

/-- Whatever is requested, a refusal is a response of this server. -/
theorem refusal_spec (request : HttpRequest) : ∃ response, State.refusal request = some response ∧
    ∀ value, response = some value → value.version = .http11 := by
  unfold State.refusal
  split
  · exact ⟨_, rfl, fun value hvalue => by cases hvalue; rfl⟩
  split
  · exact ⟨_, rfl, fun value hvalue => by cases hvalue; rfl⟩
  · next target _ =>
    split
    · cases target <;> exact ⟨_, rfl, fun value hvalue => by cases hvalue; rfl⟩
    · exact ⟨none, rfl, fun _ hvalue => nomatch hvalue⟩

/-- A request that was received has a context, and waits for its response. -/
theorem received_spec {r : ℕ} (h : Inv self (.reading r)) (request : HttpRequest) :
    ∃ requests : Pool HttpRequest, self.requests.modify r (fun _ => request) = some requests ∧
      Inv { self with
        requests
        contexts := self.contexts.create ⟨r, none, true, false⟩
        reading := none
        received := self.received ++ [r]
        job := some ⟨self.contexts.created, [.pipelineJobDone]⟩
        closed := self.closed.erase (.connectionLost r) ++
          [.connectionClosed self.contexts.created, .pipelineJobCanceled] }
        (.working true r self.contexts.created none) := by
  obtain ⟨q, hq⟩ := h.request r rfl
  obtain ⟨requests, hmodify, hwf, hr, hcreated⟩ := h.requests.modify hq fun _ => request
  have hfresh := h.fresh r rfl
  refine ⟨requests, hmodify, ⟨hwf, h.responses, h.contexts.create _, h.isOpen, fun _ => ?_,
    fun _ => h.dataSent rfl, rfl, rfl, fun _ hr' => ?_, fun _ _ _ hx => ?_, (fun _ hp => nomatch hp),
    h.logged, ?_, ?_, fun r' hr' => ?_, (fun _ hr' => nomatch hr')⟩⟩
  · simp [h.closed rfl, Phase.closed]
  · cases hr'
    exact ⟨request, hr⟩
  · cases hx
    exact ⟨false, Pool.owned_create _⟩
  · simp [h.received, Phase.unanswered]
  · rw [List.nodup_append]
    refine ⟨h.nodup, List.nodup_singleton r, fun a ha b hb => ?_⟩
    obtain rfl := List.mem_singleton.mp hb
    rintro rfl
    exact hfresh ha
  · have hlt := h.requests.lt_created hq
    simp only [hcreated]
    obtain hold | hnew := List.mem_append.mp hr'
    · exact h.bound r' hold
    · obtain rfl := List.mem_singleton.mp hnew
      exact hlt

theorem exec_received_reading {r : ℕ} (hreading : self.reading = some r)
    (hopen : self.isOpen = true) (request : HttpRequest) (enqueued : Bool) :
    self.exec (.received request enqueued) = self.requestReceived r request enqueued := by
  simp only [State.exec, hreading, hopen, if_true]

/-- A request is refused, answered without a job, or has one. -/
theorem exec_received (h : Inv self ph) (request : HttpRequest) (enqueued : Bool) :
    ∃ self' ph', self.exec (.received request enqueued) = some self' ∧ Inv self' ph' := by
  have hreading := h.reading
  cases ph with
  | reading r =>
    obtain ⟨requests, hmodify, hinv⟩ := received_spec h request
    obtain ⟨response, hrefusal, hversion⟩ := refusal_spec request
    rw [exec_received_reading hreading h.isOpen, State.requestReceived]
    simp only [hmodify, hrefusal, Option.bind_eq_bind, Option.bind_some]
    cases response with
    | some value =>
      obtain ⟨self', ph', hanswer, hinv'⟩ := answer_spec hinv value (hversion value rfl)
      refine ⟨self', ph', ?_, hinv'⟩
      rw [← hanswer]
      have hclosed := h.closed rfl
      have hjob := h.job
      simp [State.createContext, hclosed, hjob, Phase.closed, Phase.job]
    | none =>
      cases enqueued with
      | true =>
        refine ⟨_, _, ?_, hinv⟩
        simp [State.createContext]
      | false =>
        obtain ⟨self', ph', hanswer, hinv'⟩ := answer_spec hinv
          (HttpResponse.createError .serviceUnavailable none) rfl
        refine ⟨self', ph', ?_, hinv'⟩
        rw [← hanswer]
        simp [State.createContext]
  | _ => exact ⟨self, _, by simp only [State.exec, hreading]; rfl, h⟩

theorem raiseSent_reuse {responses : Pool Response} {c p pos : ℕ} {value : HttpResponse}
    (hp : responses.Owned p ⟨value, pos, [.httpResponseSentReuse c]⟩) (conn : Bool) (self : State)
    (hself : self.responses = responses) :
    self.raiseSent p conn = self.httpResponseSentReuse c p conn := by
  rw [State.raiseSent, hself, hp.get]
  simp only [Option.bind_eq_bind, Option.bind_some, List.foldlM_cons, List.foldlM_nil]
  exact Option.bind_fun_some _

theorem raiseSent_single {responses : Pool Response} {p pos : ℕ} {value : HttpResponse}
    (hp : responses.Owned p ⟨value, pos, [.httpResponseSentSingle]⟩) (conn : Bool) (self : State)
    (hself : self.responses = responses) :
    self.raiseSent p conn = self.httpResponseSentSingle p conn := by
  rw [State.raiseSent, hself, hp.get]
  simp only [Option.bind_eq_bind, Option.bind_some, List.foldlM_cons, List.foldlM_nil]
  exact Option.bind_fun_some _

/-- After the response all that belongs to the request is given up. -/
theorem sentReuse_spec {requests : Pool HttpRequest} {responses : Pool Response}
    {contexts : Pool Context} {r c p : ℕ} {q : HttpRequest} {v : Response} {x : Context}
    (hwfr : requests.WellFormed) (hwf : responses.WellFormed) (hwfc : contexts.WellFormed)
    (hr : requests.Owned r q) (hp : responses.Owned p v) (hc : contexts.Owned c x)
    (hx : x.request = r) :
    ∃ requests' responses' contexts', requests'.WellFormed ∧ responses'.WellFormed ∧
      contexts'.WellFormed ∧ requests'.created = requests.created ∧
      (∀ b, b ≠ r → requests'.object b = requests.object b) ∧
      ∀ self : State, self.requests = requests → self.responses = responses →
        self.contexts = contexts → self.httpResponseSentReuse c p false = some { self with
          requests := requests'
          responses := responses'
          contexts := contexts'
          closed := if x.conn then self.closed.erase (.connectionClosed c) else self.closed } := by
  obtain ⟨requests', hwfr', hcreated, hothers, hrequest⟩ := deleteLaterRequest_spec hwfr hr
  obtain ⟨responses', hwf', hresponse⟩ := deleteLaterResponse_spec hwf hp
  obtain ⟨contexts', hwfc', hcontext⟩ := destroyContext_spec hwfc hc
  refine ⟨requests', responses', contexts', hwfr', hwf', hwfc', hcreated, hothers, ?_⟩
  rintro self rfl rfl rfl
  simp [State.httpResponseSentReuse, hc.get, hx, hresponse, hrequest, hcontext]

theorem exec_closed_open (hopen : self.isOpen = true) : self.exec .closed = self.raiseClosed := by
  simp only [State.exec, hopen, if_true]

/-- The first handler of a closed connection leaves the others as they are. -/
theorem raiseClosed_eq {rest : List ClosedHandler} (hclosed : self.closed = .connClosed :: rest) :
    self.raiseClosed = rest.foldlM
      (fun self handler =>
        if handler ∈ self.closed then self.callClosed handler else some self)
      { self with isOpen := false, closed := .connClosed :: rest } := by
  rw [State.raiseClosed, hclosed, List.foldlM_cons, if_pos List.mem_cons_self]
  rfl

/-- A connection that is closed leaves its request to its job, or takes it along. -/
theorem exec_closed (h : Inv self ph) : ∃ self' ph', self.exec .closed = some self' ∧
    Inv self' ph' := by
  have hopen := h.isOpen
  cases ph with
  | reading r =>
    obtain ⟨q, hq⟩ := h.request r rfl
    obtain ⟨requests, hwf, hcreated, _, hdelete⟩ := deleteLaterRequest_spec h.requests hq
    rw [exec_closed_open hopen, raiseClosed_eq (h.closed rfl)]
    simp only [List.foldlM_cons, List.foldlM_nil, List.mem_cons, true_or, or_true, if_true,
      State.callClosed, hdelete, Option.bind_eq_bind, Option.bind_some]
    refine ⟨_, .gone none, rfl, ⟨hwf, h.responses, h.contexts, rfl, (fun ho => nomatch ho),
      (fun ho => nomatch ho), h.job, rfl, (fun _ hr => nomatch hr), (fun _ _ _ hx => nomatch hx),
      (fun _ hp => nomatch hp), h.logged, h.received, h.nodup, ?_, (fun _ hr => nomatch hr)⟩⟩
    simp only [hcreated]
    exact h.bound
  | working connected r c p =>
    cases connected with
    | true =>
      obtain ⟨reuse, hc⟩ := h.context c r p rfl
      obtain ⟨contexts, hmodify, hwf, hc', _⟩ := h.contexts.modify hc
        fun x => { x with conn := false }
      have hjob := h.job
      rw [exec_closed_open hopen, raiseClosed_eq (h.closed rfl)]
      simp only [List.foldlM_cons, List.foldlM_nil, List.mem_cons, true_or, or_true, if_true,
        State.callClosed, hmodify, Option.map_some, Option.bind_eq_bind, Option.bind_some, hjob,
        Phase.job]
      refine ⟨_, .working false r c p, rfl, ⟨h.requests, h.responses, hwf, rfl,
        (fun ho => nomatch ho), (fun ho => nomatch ho), rfl, h.reading, h.request,
        fun _ _ _ hx => ?_, h.response, h.logged, h.received, h.nodup, h.bound, h.fresh⟩⟩
      cases hx
      exact ⟨reuse, hc'⟩
    | false => exact ⟨self, _, by simp only [State.exec, hopen]; rfl, h⟩
  | reusing r c p =>
    obtain ⟨q, hq⟩ := h.request r rfl
    obtain ⟨reuse, hc⟩ := h.context c r (some p) rfl
    obtain ⟨value, pos, hp, _⟩ := h.response p rfl
    obtain ⟨contexts, hmodifyc, hwfc, hc', _⟩ := h.contexts.modify hc
      fun x => { x with conn := false }
    obtain ⟨responses, hwf, hp', hmodify⟩ := modifyResponse_spec h.responses hp
      fun x => { x with sendPos := 0 }
    obtain ⟨requests', responses', contexts', hwfr', hwf', hwfc', hcreated, _, hsent⟩ :=
      sentReuse_spec h.requests hwf hwfc hq hp' hc' rfl
    rw [exec_closed_open hopen, raiseClosed_eq (h.closed rfl)]
    simp only [List.foldlM_cons, List.foldlM_nil, List.mem_cons, true_or, or_true, if_true,
      State.callClosed, State.abortSending, hmodifyc, hmodify, Option.map_some,
      Option.bind_eq_bind, Option.bind_some]
    simp only [raiseSent_reuse hp', hsent, Option.bind_some]
    refine ⟨_, .gone none, rfl, ⟨hwfr', hwf', hwfc', rfl, (fun ho => nomatch ho),
      (fun ho => nomatch ho), h.job, h.reading, (fun _ hr => nomatch hr),
      (fun _ _ _ hx => nomatch hx), (fun _ hp => nomatch hp), h.logged, h.received, h.nodup, ?_,
      (fun _ hr => nomatch hr)⟩⟩
    simp only [hcreated]
    exact h.bound
  | closing p =>
    obtain ⟨value, pos, hp, _⟩ := h.response p rfl
    obtain ⟨responses, hwf, hp', hmodify⟩ := modifyResponse_spec h.responses hp
      fun x => { x with sendPos := 0 }
    obtain ⟨responses', hwf', hdelete⟩ := deleteLaterResponse_spec hwf hp'
    rw [exec_closed_open hopen, raiseClosed_eq (h.closed rfl)]
    simp only [List.foldlM_cons, List.foldlM_nil, List.mem_cons, true_or, or_true, if_true,
      State.callClosed, State.abortSending, hmodify, Option.bind_eq_bind, Option.bind_some]
    simp only [raiseSent_single hp', State.httpResponseSentSingle, hdelete, Option.map_some,
      Option.bind_some]
    exact ⟨_, .gone none, rfl, ⟨h.requests, hwf', h.contexts, rfl, (fun ho => nomatch ho),
      (fun ho => nomatch ho), h.job, h.reading, h.request, (fun _ _ _ hx => nomatch hx),
      (fun _ hp => nomatch hp), h.logged, h.received, h.nodup, h.bound, h.fresh⟩⟩
  | ended =>
    rw [exec_closed_open hopen, raiseClosed_eq (h.closed rfl)]
    exact ⟨_, .gone none, rfl, ⟨h.requests, h.responses, h.contexts, rfl, (fun ho => nomatch ho),
      (fun ho => nomatch ho), h.job, h.reading, h.request, (fun _ _ _ hx => nomatch hx), h.response,
      h.logged, h.received, h.nodup, h.bound, h.fresh⟩⟩
  | gone r => exact ⟨self, _, by simp only [State.exec, hopen]; rfl, h⟩

theorem exec_dataSent_open (hopen : self.isOpen = true) :
    self.exec .dataSent = self.raiseDataSent := by
  simp only [State.exec, hopen, if_true]

theorem raiseDataSent_active (hsent : self.dataSent = [.connActive]) :
    self.raiseDataSent = some self := by
  rw [State.raiseDataSent, hsent]
  simp [hsent]

theorem raiseDataSent_sendBody {p : ℕ} (hsent : self.dataSent = [.connActive, .sendBody p]) :
    self.raiseDataSent = self.sendBody p := by
  rw [State.raiseDataSent, hsent]
  simp [hsent]

theorem sendBody_end {p : ℕ} {v : Response} (hp : self.responses.Owned p v)
    (hend : v.value.bodySize - v.sendPos = 0) :
    self.sendBody p = State.raiseSent { self with
      closed := self.closed.erase (.abortSending p)
      dataSent := self.dataSent.erase (.sendBody p) } p true := by
  rw [State.sendBody, hp.get]
  simp only [Option.bind_eq_bind, Option.bind_some, hend, if_true]

/-- What is left of the body is sent without any other change. -/
theorem sendBody_more {p : ℕ} {v : Response} (h : Inv self ph) (hphase : ph.response = some p)
    (hp : self.responses.Owned p v) (hmore : v.value.bodySize - v.sendPos ≠ 0) :
    ∃ self', self.sendBody p = some self' ∧ Inv self' ph := by
  obtain ⟨value, pos, hv, hversion⟩ := h.response p hphase
  obtain rfl : v = ⟨value, pos, ph.sent⟩ := by
    have heq := hp.symm.trans hv
    simpa using heq
  obtain ⟨responses, hwf, hp', hmodify⟩ := modifyResponse_spec h.responses hp fun x =>
    { x with sendPos := x.sendPos + min (value.bodySize - pos) State.UINT16_MAX }
  refine ⟨{ self with responses }, ?_, ⟨h.requests, hwf, h.contexts, h.isOpen, h.closed,
    h.dataSent, h.job, h.reading, h.request, h.context, fun p' hp'' => ?_, h.logged, h.received,
    h.nodup, h.bound, h.fresh⟩⟩
  · rw [State.sendBody, hp.get]
    simp only [Option.bind_eq_bind, Option.bind_some, hmodify, if_neg hmore]
  · rw [hphase] at hp''
    obtain rfl := Option.some.inj hp''
    exact ⟨_, _, hp', hversion⟩

/-- On a connection that is kept another request is read. -/
theorem sendBody_reuse {r c p : ℕ} {value : HttpResponse} {pos : ℕ}
    (h : Inv self (.reusing r c p))
    (hp : self.responses.Owned p ⟨value, pos, [.httpResponseSentReuse c]⟩)
    (hend : value.bodySize - pos = 0) :
    ∃ self', self.sendBody p = some self' ∧ Inv self' (.reading self.requests.created) := by
  obtain ⟨q, hq⟩ := h.request r rfl
  obtain ⟨reuse, hc⟩ := h.context c r (some p) rfl
  have hlt := h.requests.lt_created hq
  obtain ⟨requests, responses, contexts, hwfr, hwf, hwfc, hcreated, hothers, hsent⟩ :=
    sentReuse_spec (h.requests.create HttpRequest.create) h.responses h.contexts
      (h.requests.create_of_ne hq _) hp hc rfl
  have hreuse : ∀ self' : State, self'.contexts = self.contexts →
      self'.httpResponseSentReuse c p true = self'.createRequest.httpResponseSentReuse c p false := by
    intro self' hcontexts
    simp [State.httpResponseSentReuse, State.createRequest, hcontexts, hc.get]
  rw [sendBody_end hp hend]
  simp only [raiseSent_reuse hp, hreuse, State.createRequest, hsent]
  refine ⟨_, rfl, ⟨hwfr, hwf, hwfc, h.isOpen, fun _ => ?_, fun _ => ?_, h.job, rfl,
    fun _ hr => ?_, (fun _ _ _ hx => nomatch hx), (fun _ hp => nomatch hp), h.logged, h.received,
    h.nodup, ?_, fun _ hr => ?_⟩⟩
  · simp [h.closed rfl, Phase.closed, Phase.isOpen]
  · simp [h.dataSent rfl, Phase.dataSent]
  · cases hr
    exact ⟨HttpRequest.create, (hothers _ (by omega)).trans (Pool.owned_create _)⟩
  · intro r' hr'
    have hbound := h.bound r' hr'
    simp only [hcreated, Pool.create]
    omega
  · cases hr
    intro hmem
    have hbound := h.bound _ hmem
    omega

theorem sendBody_single {p : ℕ} {value : HttpResponse} {pos : ℕ} (h : Inv self (.closing p))
    (hp : self.responses.Owned p ⟨value, pos, [.httpResponseSentSingle]⟩)
    (hend : value.bodySize - pos = 0) :
    ∃ self', self.sendBody p = some self' ∧ Inv self' .ended := by
  obtain ⟨responses, hwf, hdelete⟩ := deleteLaterResponse_spec h.responses hp
  rw [sendBody_end hp hend]
  simp only [raiseSent_single hp, State.httpResponseSentSingle, hdelete, Option.map_some]
  refine ⟨_, rfl, ⟨h.requests, hwf, h.contexts, h.isOpen, fun _ => ?_, fun _ => ?_, h.job,
    h.reading, h.request, (fun _ _ _ hx => nomatch hx), (fun _ hp => nomatch hp), h.logged,
    h.received, h.nodup, h.bound, h.fresh⟩⟩
  · simp [h.closed rfl, Phase.closed]
  · simp [h.dataSent rfl, Phase.dataSent]

theorem exec_dataSent (h : Inv self ph) : ∃ self' ph', self.exec .dataSent = some self' ∧
    Inv self' ph' := by
  have hopen := h.isOpen
  cases ph with
  | reusing r c p =>
    obtain ⟨value, pos, hp, _⟩ := h.response p rfl
    rw [exec_dataSent_open hopen, raiseDataSent_sendBody (h.dataSent rfl)]
    by_cases hend : value.bodySize - pos = 0
    · obtain ⟨self', hsend, hinv⟩ := sendBody_reuse h hp hend
      exact ⟨self', _, hsend, hinv⟩
    · obtain ⟨self', hsend, hinv⟩ := sendBody_more h rfl hp hend
      exact ⟨self', _, hsend, hinv⟩
  | closing p =>
    obtain ⟨value, pos, hp, _⟩ := h.response p rfl
    rw [exec_dataSent_open hopen, raiseDataSent_sendBody (h.dataSent rfl)]
    by_cases hend : value.bodySize - pos = 0
    · obtain ⟨self', hsend, hinv⟩ := sendBody_single h hp hend
      exact ⟨self', _, hsend, hinv⟩
    · obtain ⟨self', hsend, hinv⟩ := sendBody_more h rfl hp hend
      exact ⟨self', _, hsend, hinv⟩
  | working connected r c p =>
    cases connected with
    | true =>
      refine ⟨self, _, ?_, h⟩
      rw [exec_dataSent_open hopen, raiseDataSent_active (h.dataSent rfl)]
    | false => exact ⟨self, _, by simp only [State.exec, hopen]; rfl, h⟩
  | gone r => exact ⟨self, _, by simp only [State.exec, hopen]; rfl, h⟩
  | reading r =>
    refine ⟨self, _, ?_, h⟩
    rw [exec_dataSent_open hopen, raiseDataSent_active (h.dataSent rfl)]
  | ended =>
    refine ⟨self, _, ?_, h⟩
    rw [exec_dataSent_open hopen, raiseDataSent_active (h.dataSent rfl)]

/-- Every event but the end of a job finds what it uses, and this one does exactly if it is
settled. -/
theorem exec_spec (h : Inv self ph) (e : Event) :
    (Settled self e → ∃ self' ph', self.exec e = some self' ∧ Inv self' ph') ∧
    (¬ Settled self e → self.exec e = none) := by
  have hsettled : ∀ e', e = e' → Settled self e' →
      (∃ self' ph', self.exec e' = some self' ∧ Inv self' ph') →
      (Settled self e → ∃ self' ph', self.exec e = some self' ∧ Inv self' ph') ∧
        (¬ Settled self e → self.exec e = none) := by
    rintro _ rfl hsettled hstep
    exact ⟨fun _ => hstep, fun hnot => absurd hsettled hnot⟩
  cases e with
  | received request enqueued => exact hsettled _ rfl trivial (exec_received h request enqueued)
  | responds response hversion => exact hsettled _ rfl trivial (exec_responds h response hversion)
  | finished completed => exact exec_finished h completed
  | closed => exact hsettled _ rfl trivial (exec_closed h)
  | dataSent => exact hsettled _ rfl trivial (exec_dataSent h)
  | eventsDone =>
    obtain ⟨self', hexec, hinv⟩ := exec_eventsDone h
    exact hsettled _ rfl trivial ⟨self', ph, hexec, hinv⟩

end events

section runs

theorem inv_init : Inv State.init (.reading 0) where
  requests := Pool.wellFormed_empty.create _
  responses := Pool.wellFormed_empty
  contexts := Pool.wellFormed_empty
  isOpen := rfl
  closed _ := rfl
  dataSent _ := rfl
  job := rfl
  reading := rfl
  request _ hr := by
    cases hr
    have howned : ((Pool.empty : Pool HttpRequest).create HttpRequest.create).Owned 0
        HttpRequest.create := Pool.owned_create _
    exact ⟨_, howned⟩
  context _ _ _ hx := nomatch hx
  response _ hp := nomatch hp
  logged := rfl
  received := rfl
  nodup := List.nodup_nil
  bound _ hr := nomatch hr
  fresh _ _ := List.not_mem_nil

/-- What was logged was sent. Every request was received once and answered once, but the
last one if its job is not done or its connection was closed. -/
structure Answered (state : State) : Prop where
  logged : state.logged = state.sent
  nodup : state.received.Nodup
  answered : ∃ pending : Option ℕ, state.received = state.sent.map Prod.fst ++ pending.toList ∧
    (state.isOpen = true → state.job = none → pending = none)

theorem Inv.answered {state : State} {ph : Phase} (h : Inv state ph) : Answered state := by
  refine ⟨h.logged, h.nodup, ph.unanswered, h.received, fun hopen hjob => ?_⟩
  rw [h.isOpen] at hopen
  rw [h.job] at hjob
  cases ph with
  | working => cases hjob
  | gone => cases hopen
  | _ => rfl

/-- Every event of a history is settled when it comes. -/
def AllSettled : State → List Event → Prop
  | _, [] => True
  | state, e :: events =>
    Settled state e ∧ ∀ state', state.exec e = some state' → AllSettled state' events

theorem exec_all {state : State} {ph : Phase} (h : Inv state ph) (events : List Event) :
    (∃ state', events.foldlM State.exec state = some state' ∧ Answered state') ↔
      AllSettled state events := by
  induction events generalizing state ph with
  | nil => exact iff_of_true ⟨state, rfl, h.answered⟩ trivial
  | cons e events ih =>
    obtain ⟨hok, hfault⟩ := exec_spec h e
    rw [List.foldlM_cons, AllSettled]
    by_cases hsettled : Settled state e
    · obtain ⟨next, ph', hexec, hinv⟩ := hok hsettled
      rw [hexec, and_iff_right hsettled]
      refine (ih hinv).trans ⟨fun hall state' hstate' => ?_, fun hall => hall next rfl⟩
      rwa [← Option.some.inj hstate']
    · rw [hfault hsettled]
      exact iff_of_false (fun ⟨_, hnone, _⟩ => nomatch hnone) (fun hall => hsettled hall.1)

/-- In every order of events no object is used that is not there, every request is answered
once and its status logged, exactly if all jobs are settled when they end. -/
theorem answered_iff_settled (events : List Event) :
    (∃ state, events.foldlM State.exec State.init = some state ∧ Answered state) ↔
      AllSettled State.init events :=
  exec_all inv_init events

def getRoot : HttpRequest :=
  { HttpRequest.create with method := .get, version := .http11, path := ⟨str "/", Buf.root_fits⟩ }

/-- Without a response in time, with one that comes too late, and with none at all. -/
theorem unsettled_faults :
    [Event.received getRoot true, .finished false].foldlM State.exec State.init = none ∧
    [Event.received getRoot true,
      .responds (HttpResponse.createError .notFound none) rfl, .finished false].foldlM State.exec
        State.init = none ∧
    [Event.received getRoot true, .finished true].foldlM State.exec State.init = none := by
  refine ⟨?_, ?_, ?_⟩
  · rfl
  · rfl
  · rfl

end runs

end Swad.ResponseOwnership
