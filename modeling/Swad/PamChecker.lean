import Swad.LabelledRuns
import Swad.TextCodecs

/-!
The PAM credentials checker. A call of check hands its arguments to a thread of
the server, which sends them as a line of text to a helper process and reads the
answer; two semaphores and a lock order the caller and the thread, two pipes the
thread and the helper. PAM itself is given by what it does next: it asks its
conversation function for answers, or ends with success or failure.
-/
namespace Swad.PamChecker

open Bytes TextCodecs

/-- The length in characters that the login form allows, of a well formed text. -/
def admitted (s : Str) : Bool :=
  (utf8Sanitize s).valid && decide (1 ≤ (utf8Sanitize s).len) &&
    decide ((utf8Sanitize s).len ≤ 32) && !s.contains 0

/-- A service name is one field of a line of the configuration. -/
def serviceName (s : Str) : Bool :=
  !s.contains 0 && !s.contains (chr ':') && !s.contains (chr '\n')

/-- The arguments of one call of check. -/
structure Check where
  service : Str
  user : Str
  pw : Str
  service_name : serviceName service = true
  user_admitted : admitted user = true
  pw_admitted : admitted pw = true
  deriving DecidableEq

inductive MsgStyle
  | promptEchoOff
  | promptEchoOn
  | errorMsg
  | textInfo
  deriving DecidableEq

/-- What PAM finds in one entry of the responses: memory that was never written
counts as `garbage`. -/
inductive Response
  | null
  | text (resp : Str)
  | garbage
  deriving DecidableEq

/-- The rest of a call of pam_authenticate. -/
inductive Pam
  | done (success : Bool)
  | converse (msg : List MsgStyle) (next : List Response → Pam)

/-- Where a caller of check stands. -/
inductive Caller
  | idle
  | entered (c : Check)
  | stored
  | requested
  | waiting
  | woken
  | locked
  deriving DecidableEq

/-- Where pamthreadproc stands. -/
inductive Thread
  | waiting
  | woken
  | locked
  | sent
  | prompted
  | sentPw
  | answered (rdbuf : Str)
  | posted
  | ended
  | fault
  deriving DecidableEq

/-- Where the helper stands; `answering` and `reading` are inside pamconv. -/
inductive Helper
  | waiting
  | starting (service user : Str)
  | running (pam : Pam)
  | answering (todo : List MsgStyle) (resp : List Response) (next : List Response → Pam)
  | reading (todo : List MsgStyle) (resp : List Response) (next : List Response → Pam)
  | exited
  | fault

def Helper.gone : Helper → Bool
  | .exited => true
  | _ => false

structure State where
  service : Str
  user : Str
  pw : Str
  ok : Bool
  request : ℕ
  response : ℕ
  lock : Bool
  toHelper : Str
  fromHelper : Str
  passread : Bool
  pass : Str
  caller : Caller
  thread : Thread
  helper : Helper

def create : State where
  service := []
  user := []
  pw := []
  ok := false
  request := 0
  response := 0
  lock := false
  toHelper := []
  fromHelper := []
  passread := false
  pass := []
  caller := .idle
  thread := .waiting
  helper := .waiting

inductive Action
  | call (c : Check)
  | caller
  | thread
  | helper
  | pamStart (pam : Option Pam)
  | interrupt
  | esrch

inductive Event
  | called (c : Check)
  | formatted (wrlen : ℕ)
  | authenticate (service user : Str)
  | answered (pass : Str)
  | result (success : Bool)
  | returned (ok : Bool)
  deriving DecidableEq

/-- The first `len` bytes of a buffer of `size` bytes after snprintf, when `len` is
what snprintf returned; there are none when the buffer is shorter. -/
def formatted (size : ℕ) (text : Str) : Option Str :=
  if text.length ≤ size then some ((text.take (size - 1) ++ [0]).take text.length) else none

def requestLine (service user : Str) : Str := service ++ chr ':' :: (user ++ [chr '\n'])

def passwordLine (pw : Str) : Str := pw ++ [chr '\n']

/-- A read of at most `size` bytes: it blocks on an empty pipe that has a writer. -/
def readPipe (size : ℕ) (closed : Bool) (pipe : Str) : Option (Str × Str) :=
  if pipe = [] ∧ closed = false then none else some (pipe.take size, pipe.drop size)

/-- The string before the first `c`, and the string after it. -/
def strchr (c : Byte) (s : Str) : Option (Str × Str) :=
  if s.contains c then some (s.takeWhile (· != c), (s.dropWhile (· != c)).tail) else none

def parseRequest (buf : List Byte) : Option (Str × Str) :=
  (strchr (chr ':') (cstr buf)).bind fun r =>
    (strchr (chr '\n') r.2).map fun q => (r.1, q.1)

def parsePass (buf : List Byte) : Str := (cstr buf).takeWhile (· != chr '\n')

def retstr (success : Bool) : Str := if success then str "1\n" else str "0\n"

def callerStep (self : State) : Option (State × Option Event) :=
  match self.caller with
  | .idle => none
  | .entered c =>
    if self.lock then none
    else some ({ self with
      lock := true
      service := c.service
      user := c.user
      pw := c.pw
      caller := .stored }, none)
  | .stored => some ({ self with request := self.request + 1, caller := .requested }, none)
  | .requested => some ({ self with lock := false, caller := .waiting }, none)
  | .waiting =>
    if self.response = 0 then none
    else some ({ self with response := self.response - 1, caller := .woken }, none)
  | .woken => if self.lock then none else some ({ self with lock := true, caller := .locked }, none)
  | .locked => some ({ self with lock := false, caller := .idle }, some (.returned self.ok))

/-- Format a line into the buffer of 256 bytes and write it to the helper. -/
def send (self : State) (text : Str) (next : Thread) : State × Option Event :=
  match formatted 256 text with
  | none => ({ self with thread := .fault }, some (.formatted text.length))
  | some wrbuf =>
    ({ self with toHelper := self.toHelper ++ wrbuf, thread := next },
      some (.formatted text.length))

def threadStep (self : State) : Option (State × Option Event) :=
  match self.thread with
  | .waiting =>
    if self.helper.gone then some ({ self with thread := .ended }, none)
    else if self.request = 0 then none
    else some ({ self with request := self.request - 1, thread := .woken }, none)
  | .woken =>
    if self.lock then none
    else some ({ self with lock := true, ok := false, thread := .locked }, none)
  | .locked =>
    if self.helper.gone then some ({ self with lock := false, thread := .ended }, none)
    else some (send self (requestLine self.service self.user) .sent)
  | .sent =>
    (readPipe 15 self.helper.gone self.fromHelper).map fun r =>
      ({ self with
        fromHelper := r.2
        thread := if cstr r.1 = str "P\n" then .prompted else .answered (cstr r.1) }, none)
  | .prompted => some (send self (passwordLine self.pw) .sentPw)
  | .sentPw =>
    (readPipe 15 self.helper.gone self.fromHelper).map fun r =>
      ({ self with fromHelper := r.2, thread := .answered (cstr r.1) }, none)
  | .answered rdbuf =>
    some ({ self with
      ok := self.ok || decide (rdbuf = str "1\n")
      response := self.response + 1
      thread := .posted }, none)
  | .posted => some ({ self with lock := false, thread := .waiting }, none)
  | .ended => none
  | .fault => none

/-- The response an entry holds when pamconv leaves it alone: only the first entry is
cleared. -/
def untouched (resp : List Response) : Response := if resp = [] then .null else .garbage

/-- One turn of the loop in pamconv. `resp[i]->resp` is the entry itself only for
the first message. -/
def pamconv (self : State) (style : MsgStyle) (todo : List MsgStyle) (resp : List Response)
    (next : List Response → Pam) : State × Option Event :=
  if style ≠ .promptEchoOff then
    ({ self with helper := .answering todo (resp ++ [untouched resp]) next }, none)
  else if !self.passread then
    ({ self with
      fromHelper := self.fromHelper ++ str "P\n"
      helper := .reading (style :: todo) resp next }, none)
  else if self.pass = [] then
    ({ self with helper := .answering todo (resp ++ [untouched resp]) next },
      some (.answered self.pass))
  else if resp = [] then
    ({ self with helper := .answering todo [.text self.pass] next }, some (.answered self.pass))
  else ({ self with helper := .fault }, none)

def helperStep (self : State) : Option (State × Option Event) :=
  match self.helper with
  | .waiting =>
    (readPipe 511 (decide (self.thread = .ended)) self.toHelper).map fun r =>
      match parseRequest r.1 with
      | none => ({ self with toHelper := r.2, helper := .exited }, none)
      | some (service, user) =>
        ({ self with
          toHelper := r.2
          passread := false
          pass := []
          helper := .starting service user }, none)
  | .starting _ _ => none
  | .running (.done success) =>
    some ({ self with fromHelper := self.fromHelper ++ retstr success, helper := .waiting },
      some (.result success))
  | .running (.converse msg next) => some ({ self with helper := .answering msg [] next }, none)
  | .answering [] resp next => some ({ self with helper := .running (next resp) }, none)
  | .answering (style :: todo) resp next => some (pamconv self style todo resp next)
  | .reading todo resp next =>
    (readPipe 255 (decide (self.thread = .ended)) self.toHelper).map fun r =>
      ({ self with
        toHelper := r.2
        pass := parsePass r.1
        passread := true
        helper := .answering todo resp next }, none)
  | .exited => none
  | .fault => none

/-- A call of pam_start, and of pam_authenticate when there is a handle. -/
def pamStart (self : State) (pam : Option Pam) : Option (State × Option Event) :=
  match self.helper with
  | .starting service user =>
    match pam with
    | none => some ({ self with helper := .exited }, none)
    | some pam => some ({ self with helper := .running pam }, some (.authenticate service user))
  | _ => none

/-- The signal that the helper has exited can end a blocking call of the thread. -/
def interrupt (self : State) : Option (State × Option Event) :=
  if self.helper.gone = true ∧ (self.thread = .sent ∨ self.thread = .sentPw) then
    some ({ self with lock := false, thread := .ended }, none)
  else none

/-- For a thread that has ended and was not joined pthread_kill can give ESRCH, but on some
platforms it gives 0 and the caller goes on. -/
def esrch (self : State) : Option (State × Option Event) :=
  match self.caller with
  | .entered _ =>
    if self.thread = .ended then some ({ self with caller := .idle }, some (.returned false))
    else none
  | _ => none

def step (self : State) : Action → Option (State × Option Event)
  | .call c =>
    if self.caller = .idle then some ({ self with caller := .entered c }, some (.called c))
    else none
  | .caller => callerStep self
  | .thread => threadStep self
  | .helper => helperStep self
  | .pamStart pam => pamStart self pam
  | .interrupt => interrupt self
  | .esrch => esrch self

/-! The check as its users see it: one call after the other, PAM asked about the
arguments of the call, and the answer of PAM returned. -/

inductive Phase
  | idle
  | called (c : Check)
  | authenticating (c : Check)
  | decided (success : Bool)

def Phase.next : Phase → Event → Option Phase
  | .idle, .called c => some (.called c)
  | .called c, .authenticate service user =>
    if service = c.service ∧ user = c.user then some (.authenticating c) else none
  | .authenticating c, .answered pass => if pass = c.pw then some (.authenticating c) else none
  | .authenticating _, .result success => some (.decided success)
  | .decided success, .returned ok => if ok = success then some .idle else none
  | phase, .formatted wrlen => if wrlen < 256 then some phase else none
  | _, _ => none

/-- PAM asks for the password only in the first message of a conversation. -/
def Pam.promptsFirst : Pam → Prop
  | .done _ => True
  | .converse msg next =>
    (∀ style ∈ msg.tail, style ≠ .promptEchoOff) ∧ ∀ resp, (next resp).promptsFirst

end Swad.PamChecker
