import Swad.PamChecker

/-!
The checker and its helper agree on every check whose lines hold one field each.
While a check is under way the caller, the thread and the helper take turns, and
`Joint` lists the configurations they pass through, each with what an observer
of the calls knows there. Without the condition the helper cuts a user name at
its first newline.
-/
namespace Swad.PamAgreement

open Bytes TextCodecs LabelledRuns PamChecker

/-- The arguments travel as one line each, and the first line fits its buffer. -/
structure Plain (c : Check) : Prop where
  user_line : chr '\n' ∉ c.user
  pw_line : chr '\n' ∉ c.pw
  fits : c.service.length + c.user.length ≤ 253

/-- The steps covered: checks with plain arguments, and a PAM that starts and asks for
the password in the first message of a conversation only. -/
def Covered : Action → Prop
  | .call c => Plain c
  | .pamStart none => False
  | .pamStart (some pam) => pam.promptsFirst
  | _ => True

section messages

variable (c : Check)

end messages

/-- Nothing is under way; what earlier checks left behind is as in `m`. -/
def resting (m : State) : State :=
  { m with
    request := 0
    response := 0
    lock := false
    toHelper := []
    fromHelper := []
    caller := .idle
    thread := .waiting
    helper := .waiting }

/-- The arguments of a check are stored. -/
def stored (c : Check) (m : State) : State :=
  { resting m with service := c.service, user := c.user, pw := c.pw }

section steps

variable {phase : Phase} {rank : Rank} {s s' : State} {e : Option Event}

end steps

section progress

variable {s : State}

end progress

/-- An observer of the calls accepts the events: PAM gets the arguments of the call, its
answer is what the call returns, and no line is longer than its buffer. -/
def Agrees (trace : List (Action × Option Event)) : Prop :=
  ∃ phase, track Phase.next .idle (trace.filterMap Prod.snd) = some phase

end Swad.PamAgreement
