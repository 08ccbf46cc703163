import Mathlib.Data.Nat.Notation

/-!
The constants of the protocol: methods, versions and statuses. A method mask is
the bitwise union of method codes.
-/
namespace Swad.Http

inductive HttpMethod
  | invalm | options | get | head | post | put | delete | trace | connect
  deriving DecidableEq, Repr

def HttpMethod.code : HttpMethod → ℕ
  | invalm => 0
  | options => 1
  | get => 2
  | head => 4
  | post => 8
  | put => 16
  | delete => 32
  | trace => 64
  | connect => 128

inductive HttpVersion
  | http10 | http11
  deriving DecidableEq, Repr

inductive HttpStatus
  | ok | created | found | seeOther | badRequest | unauthorized | forbidden | notFound
  | methodNotAllowed | lengthRequired | requestEntityTooLarge | tooManyRequests
  | internalServerError | serviceUnavailable
  deriving DecidableEq, Repr

def HttpStatus.code : HttpStatus → ℕ
  | ok => 200
  | created => 201
  | found => 302
  | seeOther => 303
  | badRequest => 400
  | unauthorized => 401
  | forbidden => 403
  | notFound => 404
  | methodNotAllowed => 405
  | lengthRequired => 411
  | requestEntityTooLarge => 413
  | tooManyRequests => 429
  | internalServerError => 500
  | serviceUnavailable => 503

/-- Protocol version 1.0 has no status 303. -/
def HttpStatus.downgrade (status : HttpStatus) (version : HttpVersion) : HttpStatus :=
  match version, status with
  | .http10, .seeOther => .found
  | _, status => status

theorem HttpStatus.downgrade_eq_ok {status : HttpStatus} {version : HttpVersion} :
    status.downgrade version = .ok ↔ status = .ok := by
  cases version <;> cases status <;> decide

end Swad.Http
