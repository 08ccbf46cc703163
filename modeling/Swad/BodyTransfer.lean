import Swad.EventHandlers
import Swad.RedirectTargets

/-!
How a response is handed to its connection. The header is sent at once; whenever the connection
says that data was sent, the next part of the body follows, which is no longer than 16 bits can
say, and after the last part the response is said to be sent. If the connection is closed
before, this is said without a connection, and nothing more is sent.
-/
namespace Swad.BodyTransfer

open Bytes Headerset Httpresponse HeaderBlock EventHandlers LabelledRuns

/-- Handlers of other components do not touch the response. -/
inductive DataSentHandler
  | sendBody
  | other (n : ℕ)
  deriving DecidableEq

inductive ClosedHandler
  | abortSending
  | other (n : ℕ)
  deriving DecidableEq

/-- Bytes are handed to the connection, or the event of the response is raised, with the
connection or without one. -/
inductive Action
  | sendAsync (buf : Str)
  | sent (conn : Bool)
  deriving DecidableEq

/-- A response and its connection, with the handlers of its events and the number of sends for
which it has not yet said that the data was sent. -/
structure Transfer where
  body : Str
  sendPos : ℕ
  dataSent : List DataSentHandler
  closed : List ClosedHandler
  isOpen : Bool
  pending : ℕ
  actions : List Action
  deriving DecidableEq

def UINT16_MAX : ℕ := 65535

namespace Transfer

/-- The size is a number of 16 bits. -/
def sendAsync (self : Transfer) (buf : Str) (size : ℕ) : Transfer :=
  { self with
    pending := self.pending + 1
    actions := self.actions ++ [.sendAsync (buf.take (size % 65536))] }

/-- Both handlers are removed, and the event is raised. -/
def finish (self : Transfer) (conn : Bool) : Transfer :=
  { self with
    closed := self.closed.erase .abortSending
    dataSent := self.dataSent.erase .sendBody
    actions := self.actions ++ [.sent conn] }

def sendBody (self : Transfer) : Transfer :=
  let remaining := self.body.length - self.sendPos
  if remaining = 0 then self.finish true
  else
    let remaining := if UINT16_MAX < remaining then UINT16_MAX else remaining
    { self.sendAsync (self.body.drop self.sendPos) remaining with
      sendPos := self.sendPos + remaining }

def abortSending (self : Transfer) : Transfer := { self with sendPos := 0 }.finish false

/-- There are other handlers on the connection; nothing else is on its way. -/
def send (response : HttpResponse) (dataSent closed : List ℕ) : Option Transfer :=
  response.headerBuf.map fun headerBuf =>
    { body := response.body
      sendPos := 0
      dataSent := dataSent.map .other ++ [.sendBody]
      closed := closed.map .other ++ [.abortSending]
      isOpen := true
      pending := 1
      actions := [.sendAsync headerBuf] }

def callDataSent : DataSentHandler → Transfer → Transfer
  | .sendBody, self => self.sendBody
  | .other _, self => self

def callClosed : ClosedHandler → Transfer → Transfer
  | .abortSending, self => self.abortSending
  | .other _, self => self

def raiseDataSent (self : Transfer) : Transfer :=
  raise Transfer.dataSent callDataSent { self with pending := self.pending - 1 }

def raiseClosed (self : Transfer) : Transfer :=
  raise Transfer.closed callClosed { self with isOpen := false }

end Transfer

inductive Event
  | dataSent
  | closed
  | others
  deriving DecidableEq

def Action.part : Action → Option Str
  | .sendAsync buf => some buf
  | .sent _ => none

def Action.conn : Action → Option Bool
  | .sendAsync _ => none
  | .sent conn => some conn

/-- The parts that were handed over. -/
def handed (s : Transfer) : List Str := s.actions.filterMap Action.part

/-- How often the event of the response was raised, with the connection or without one. -/
def raised (s : Transfer) : List Bool := s.actions.filterMap Action.conn

/-! ### While the connection is open -/

variable {block buf : Str} {conn : Bool} {events : ℕ} {s s' : Transfer}

theorem handed_sendAsync (h : s'.actions = s.actions ++ [.sendAsync buf]) :
    handed s' = handed s ++ [buf] ∧ raised s' = raised s := by
  unfold handed raised
  rw [h, List.filterMap_append, List.filterMap_append]
  exact ⟨rfl, List.append_nil _⟩

theorem handed_sent (h : s'.actions = s.actions ++ [.sent conn]) :
    handed s' = handed s ∧ raised s' = raised s ++ [conn] := by
  unfold handed raised
  rw [h, List.filterMap_append, List.filterMap_append]
  exact ⟨List.append_nil _, rfl⟩

/-- The header and the body up to a position were handed over, and the connection will say that
the last part was sent. -/
structure Sending (block : Str) (events : ℕ) (s : Transfer) : Prop where
  isOpen : s.isOpen = true
  pending : s.pending = 1
  sendBody : s.dataSent.count .sendBody = 1
  abortSending : s.closed.count .abortSending = 1
  pos_le : s.sendPos ≤ s.body.length
  events_le : events ≤ s.sendPos
  handed_eq : (handed s).flatten = block ++ s.body.take s.sendPos
  raised_eq : raised s = []

/-- Everything was handed over and was sent. -/
structure Done (block : Str) (events : ℕ) (s : Transfer) : Prop where
  pending : s.pending = 0
  sendBody : s.dataSent.count .sendBody = 0
  abortSending : s.closed.count .abortSending = 0
  events_le : events ≤ s.body.length + 1
  handed_eq : (handed s).flatten = block ++ s.body
  raised_eq : raised s = [true]
  last : s.actions.getLast? = some (.sent true)

/-- Every part has at least one byte, and not more than 16 bits can say. -/
def Parted (s : Transfer) : Prop := ∀ part ∈ handed s, 1 ≤ part.length ∧ part.length ≤ 65535

theorem callDataSent_other (g : DataSentHandler) (hne : g ≠ .sendBody) (t : Transfer) :
    Transfer.callDataSent g t = t := by
  cases g with
  | sendBody => exact absurd rfl hne
  | other n => rfl

theorem callClosed_other (g : ClosedHandler) (hne : g ≠ .abortSending) (t : Transfer) :
    Transfer.callClosed g t = t := by
  cases g with
  | abortSending => exact absurd rfl hne
  | other n => rfl

theorem raiseDataSent_of_count (h : s.dataSent.count .sendBody = 1) :
    s.raiseDataSent = { s with pending := s.pending - 1 }.sendBody := by
  have hraise : ∀ t : Transfer, t.dataSent.count .sendBody = 1 →
      raise Transfer.dataSent Transfer.callDataSent t = t.sendBody :=
    fun _ => raise_once callDataSent_other
  exact hraise { s with pending := s.pending - 1 } h

theorem raiseClosed_of_count (h : s.closed.count .abortSending = 1) :
    s.raiseClosed = { s with isOpen := false }.abortSending := by
  have hraise : ∀ t : Transfer, t.closed.count .abortSending = 1 →
      raise Transfer.closed Transfer.callClosed t = t.abortSending :=
    fun _ => raise_once callClosed_other
  exact hraise { s with isOpen := false } h

theorem raiseClosed_of_absent (h : s.closed.count .abortSending = 0) :
    s.raiseClosed = { s with isOpen := false } := by
  have hraise : ∀ t : Transfer, .abortSending ∉ t.closed →
      raise Transfer.closed Transfer.callClosed t = t :=
    fun _ => raise_absent callClosed_other
  exact hraise { s with isOpen := false } (List.count_eq_zero.mp h)

theorem sendBody_last (h : s.sendPos = s.body.length) : s.sendBody = s.finish true := by
  rw [Transfer.sendBody]
  exact if_pos (by omega)

theorem sendBody_next (h : s.sendPos < s.body.length) :
    ∃ size, 1 ≤ size ∧ size ≤ 65535 ∧ s.sendPos + size ≤ s.body.length ∧
      s.sendBody = { s with
        pending := s.pending + 1
        actions := s.actions ++ [.sendAsync ((s.body.drop s.sendPos).take size)]
        sendPos := s.sendPos + size } := by
  rw [Transfer.sendBody]
  dsimp only
  rw [if_neg (by omega)]
  generalize hsize : (if UINT16_MAX < s.body.length - s.sendPos then UINT16_MAX
    else s.body.length - s.sendPos) = size
  have hbounds : 1 ≤ size ∧ size ≤ 65535 ∧ s.sendPos + size ≤ s.body.length := by
    rw [← hsize]
    unfold UINT16_MAX
    split <;> omega
  refine ⟨size, hbounds.1, hbounds.2.1, hbounds.2.2, ?_⟩
  rw [Transfer.sendAsync, Nat.mod_eq_of_lt (by omega)]

/-- After each event the next part of the body follows, -/
theorem Sending.next (h : Sending block events s) (hleft : s.sendPos < s.body.length)
    (hparted : Parted s) :
    Sending block (events + 1) s.raiseDataSent ∧ s.raiseDataSent.body = s.body ∧
      Parted s.raiseDataSent := by
  have hevents := h.events_le
  have hpending : s.pending - 1 = 0 := by rw [h.pending]
  obtain ⟨size, hone, hmax, hfits, hnext⟩ :=
    sendBody_next (s := { s with pending := s.pending - 1 }) hleft
  rw [← raiseDataSent_of_count h.sendBody] at hnext
  obtain ⟨hhanded, hraised⟩ := handed_sendAsync (s := s) (congrArg Transfer.actions hnext)
  have hroom : s.sendPos + size ≤ s.body.length := hfits
  have hpart : ((s.body.drop s.sendPos).take size).length = size := by
    rw [List.length_take, List.length_drop]
    omega
  refine ⟨⟨?_, ?_, ?_, ?_, ?_, ?_, ?_, ?_⟩, by rw [hnext], ?_⟩
  · rw [hnext]
    exact h.isOpen
  · rw [hnext]
    exact congrArg (· + 1) hpending
  · rw [hnext]
    exact h.sendBody
  · rw [hnext]
    exact h.abortSending
  · rw [hnext]
    exact hfits
  · rw [hnext]
    exact Nat.add_le_add hevents hone
  · rw [hhanded, List.flatten_append, h.handed_eq, List.flatten_singleton, List.append_assoc, hnext]
    exact congrArg (block ++ ·) List.take_add.symm
  · rw [hraised, h.raised_eq]
  · intro part hmem
    rw [hhanded, List.mem_append, List.mem_singleton] at hmem
    rcases hmem with hold | rfl
    · exact hparted part hold
    · rw [hpart]
      exact ⟨hone, hmax⟩

/-- and after its last part the event of the response is raised. -/
theorem Sending.last (h : Sending block events s) (hall : s.sendPos = s.body.length) :
    Done block (events + 1) s.raiseDataSent ∧ s.raiseDataSent.isOpen = true ∧
      s.raiseDataSent.body = s.body ∧ handed s.raiseDataSent = handed s := by
  have hevents := h.events_le
  have hlast := sendBody_last (s := { s with pending := s.pending - 1 }) hall
  rw [← raiseDataSent_of_count h.sendBody] at hlast
  obtain ⟨hhanded, hraised⟩ := handed_sent (s := s) (congrArg Transfer.actions hlast)
  refine ⟨⟨?_, ?_, ?_, ?_, ?_, ?_, ?_⟩, ?_, by rw [hlast]; rfl, hhanded⟩
  · rw [hlast]
    change s.pending - 1 = 0
    rw [h.pending]
  · rw [hlast]
    change (s.dataSent.erase .sendBody).count .sendBody = 0
    rw [List.count_erase_self, h.sendBody]
  · rw [hlast]
    change (s.closed.erase .abortSending).count .abortSending = 0
    rw [List.count_erase_self, h.abortSending]
  · rw [hlast]
    change events + 1 ≤ s.body.length + 1
    omega
  · rw [hhanded, h.handed_eq, hall, List.take_length, hlast]
    rfl
  · rw [hraised, h.raised_eq]
    rfl
  · rw [hlast]
    exact List.getLast?_concat
  · rw [hlast]
    exact h.isOpen

/-- If the connection is closed before, this is said, and that is all. -/
theorem Sending.closed (h : Sending block events s) :
    handed s.raiseClosed = handed s ∧ raised s.raiseClosed = [false] := by
  have hclosed := raiseClosed_of_count h.abortSending
  obtain ⟨hhanded, hraised⟩ := handed_sent (s := s) (congrArg Transfer.actions hclosed)
  refine ⟨hhanded, ?_⟩
  rw [hraised, h.raised_eq]
  rfl

/-- Nobody is left to hear that the connection is closed. -/
theorem Done.closed (h : Done block events s) :
    handed s.raiseClosed = handed s ∧ raised s.raiseClosed = [true] := by
  rw [raiseClosed_of_absent h.abortSending]
  exact ⟨rfl, h.raised_eq⟩

/-! ### Runs -/

section steps

variable {body : Str} {e : Event} {trace : List Event} {start : Transfer}

end steps

/-! ### What is sent -/

end Swad.BodyTransfer
