import Swad.TextCodecs

/-!
Page templates. A name between two pairs of percent signs stands for the value of a
variable; a name that is not known stands for nothing.
-/
namespace Swad.Template

open Bytes TextCodecs

inductive TmplFilter
  | none | html | htmlnl | url
  deriving DecidableEq

def hexDigit (c : Byte) : Byte := if 9 < c then c - 10 + chr 'A' else c + chr '0'

def isUnreserved (c : Byte) : Bool :=
  (chr 'A' ≤ c && c ≤ chr 'Z') || (chr 'a' ≤ c && c ≤ chr 'z') || (chr '0' ≤ c && c ≤ chr '9') ||
    c == chr '-' || c == chr '.' || c == chr '_' || c == chr '~'

def urlencode (s : Str) : Str :=
  s.flatMap fun c =>
    if isUnreserved c then [c] else [chr '%', hexDigit (c >>> 4), hexDigit (c &&& 15)]

structure TmplVar where
  val : Str
  filter : TmplFilter

/-- The variables of a template; the latest one of a name counts. -/
abbrev Vars := List (Str × TmplVar)

def findVar (vars : Vars) (name : Str) : Option TmplVar := (vars.reverse.lookup name)

def processVar (var : TmplVar) : Str :=
  match var.filter with
  | .none => var.val
  | .html => htmlescape var.val false
  | .htmlnl => htmlescape var.val true
  | .url => urlencode var.val

/-- The name that ends within so many bytes, and what follows its end. -/
def varName : ℕ → Str → Option (Str × Str)
  | n + 1, c :: rest =>
    if c = chr '%' ∧ rest.head? = some (chr '%') then some ([], rest.tail)
    else (varName n rest).map fun r => (c :: r.1, r.2)
  | _, _ => Option.none

/-- Two percent signs that no third follows. -/
def opens : Str → Option Str
  | a :: b :: c :: rest =>
    if a = chr '%' ∧ b = chr '%' ∧ c ≠ chr '%' then some (c :: rest) else Option.none
  | _ => Option.none

/-- The loop over a template, for at most as many rounds as it has bytes. -/
def processLoop (vars : Vars) : ℕ → Str → Str
  | rounds + 1, c :: rest =>
    match opens (c :: rest) with
    | Option.none => c :: processLoop vars rounds rest
    | some body =>
      match varName 63 body with
      | some (name, rest) =>
        ((findVar vars (cstr name)).elim [] processVar) ++ processLoop vars rounds rest
      | Option.none => chr '%' :: chr '%' :: processLoop vars rounds body
  | _, _ => []

def process (tmpl : Str) (vars : Vars) : Str := cstr (processLoop vars tmpl.length tmpl)

example : process (str "a%%X%%b%%c") [(str "X", ⟨str "<", .html⟩)] = str "a&lt;b%%c" := by
  decide +kernel

end Swad.Template
