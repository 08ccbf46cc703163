import Swad.Bytes

/-!
String literals of C, as a compiler reads them. Trigraphs are replaced first, in the whole
text; then the characters are taken one after the other, with the escape sequences among them.
A hexadecimal escape takes all digits that follow, so the byte it stands for is known at the
next character that is not a digit.
-/
namespace Swad.CLiterals

open Bytes

def trigraph (c : Byte) : Option Byte :=
  if c = chr '=' then some (chr '#')
  else if c = chr '/' then some (chr '\\')
  else if c = chr '\'' then some (chr '^')
  else if c = chr '(' then some (chr '[')
  else if c = chr ')' then some (chr ']')
  else if c = chr '!' then some (chr '|')
  else if c = chr '<' then some (chr '{')
  else if c = chr '>' then some (chr '}')
  else if c = chr '-' then some (chr '~')
  else none

def replaceTrigraphs : Str → Str
  | a :: b :: c :: s =>
    if a = chr '?' ∧ b = chr '?' then
      match trigraph c with
      | some r => r :: replaceTrigraphs s
      | none => a :: replaceTrigraphs (b :: c :: s)
    else a :: replaceTrigraphs (b :: c :: s)
  | s => s

def simpleEscape (c : Byte) : Option Byte :=
  if c = chr 'a' then some 7
  else if c = chr 'b' then some 8
  else if c = chr 'f' then some 12
  else if c = chr 'n' then some 10
  else if c = chr 'r' then some 13
  else if c = chr 't' then some 9
  else if c = chr 'v' then some 11
  else if c = chr '\\' ∨ c = chr '"' ∨ c = chr '\'' ∨ c = chr '?' then some c
  else none

def hexDigit (c : Byte) : Option ℕ :=
  if chr '0' ≤ c ∧ c ≤ chr '9' then some (c - chr '0').toNat
  else if chr 'a' ≤ c ∧ c ≤ chr 'f' then some ((c - chr 'a').toNat + 10)
  else if chr 'A' ≤ c ∧ c ≤ chr 'F' then some ((c - chr 'A').toNat + 10)
  else none

def octalDigit (c : Byte) : Option ℕ :=
  if chr '0' ≤ c ∧ c ≤ chr '7' then some (c - chr '0').toNat else none

/-- Where a reader is between two characters. -/
inductive LexState
  | text
  | escape
  | hexStart
  | hex (value : ℕ)
  | octal (count value : ℕ)
  | closed
deriving DecidableEq

/-- A character outside of escapes: the next state, and the bytes that are known then. -/
def textStep (c : Byte) : Option (LexState × List Byte) :=
  if c = chr '"' then some (.closed, [])
  else if c = chr '\\' then some (.escape, [])
  else if c = chr '\n' then none
  else some (.text, [c])

/-- The value of an escape must fit a byte. -/
def endEscape (value : ℕ) (c : Byte) : Option (LexState × List Byte) :=
  if 255 < value then none
  else (textStep c).map fun r => (r.1, UInt8.ofNat value :: r.2)

def step : LexState → Byte → Option (LexState × List Byte)
  | .text, c => textStep c
  | .escape, c =>
    if c = chr 'x' then some (.hexStart, [])
    else
      match octalDigit c with
      | some d => some (.octal 1 d, [])
      | none => (simpleEscape c).map fun r => (.text, [r])
  | .hexStart, c => (hexDigit c).map fun d => (.hex d, [])
  | .hex value, c =>
    match hexDigit c with
    | some d => some (.hex (16 * value + d), [])
    | none => endEscape value c
  | .octal count value, c =>
    match octalDigit c with
    | some d => if count < 3 then some (.octal (count + 1) (8 * value + d), []) else endEscape value c
    | none => endEscape value c
  | .closed, c => if c = chr '\n' then some (.closed, []) else none

/-- The bytes up to the end of the text, which must be behind the literal. -/
def readFrom : LexState → Str → Option (List Byte)
  | .closed, [] => some []
  | _, [] => none
  | state, c :: s =>
    (step state c).bind fun r => (readFrom r.1 s).map (r.2 ++ ·)

/-- The bytes of a literal. -/
def readLiteral (s : Str) : Option (List Byte) :=
  match replaceTrigraphs s with
  | [] => none
  | c :: s => if c = chr '"' then readFrom .text s else none

section trigraphs

variable {a b c : Byte} {s : Str}

theorem replaceTrigraphs_cons (h : ¬ (a = chr '?' ∧ s.head? = some (chr '?'))) :
    replaceTrigraphs (a :: s) = a :: replaceTrigraphs s := by
  match s with
  | [] => rfl
  | [_] => rfl
  | b :: c :: s =>
    rw [replaceTrigraphs, if_neg]
    intro hab
    exact h ⟨hab.1, congrArg some hab.2⟩

theorem replaceTrigraphs_marks (h : trigraph c = none) (s : Str) :
    replaceTrigraphs (chr '?' :: chr '?' :: c :: s) =
      chr '?' :: replaceTrigraphs (chr '?' :: c :: s) := by
  rw [replaceTrigraphs, if_pos ⟨rfl, rfl⟩, h]

theorem replaceTrigraphs_some {r : Byte} (h : trigraph c = some r) (s : Str) :
    replaceTrigraphs (chr '?' :: chr '?' :: c :: s) = r :: replaceTrigraphs s := by
  rw [replaceTrigraphs, if_pos ⟨rfl, rfl⟩, h]

end trigraphs

section reading

variable {c : Byte} {s : Str} {state next : LexState} {out : List Byte} {value : ℕ}

theorem readFrom_cons (h : step state c = some (next, out)) (s : Str) :
    readFrom state (c :: s) = (readFrom next s).map (out ++ ·) := by
  rw [readFrom, h]
  rfl

theorem readFrom_silent (h : step state c = some (next, [])) (s : Str) :
    readFrom state (c :: s) = readFrom next s := by
  rw [readFrom_cons h]
  exact Option.map_id'

theorem readFrom_none (h : step state c = none) (s : Str) : readFrom state (c :: s) = none := by
  rw [readFrom, h]
  rfl

/-- The value of a hexadecimal escape counts when something else follows. -/
theorem readFrom_hex (hvalue : value ≤ 255) (hc : hexDigit c = none) (s : Str) :
    readFrom (.hex value) (c :: s) =
      (readFrom .text (c :: s)).map (UInt8.ofNat value :: ·) := by
  have hstep : step (.hex value) c =
      (textStep c).map fun r => (r.1, UInt8.ofNat value :: r.2) := by
    rw [step, hc]
    exact if_neg (Nat.not_lt.mpr hvalue)
  rw [readFrom, hstep, readFrom]
  show _ = ((textStep c).bind _).map _
  cases textStep c with
  | none => rfl
  | some r =>
    show Option.map _ (readFrom r.1 s) = Option.map _ (Option.map _ (readFrom r.1 s))
    rw [Option.map_map]
    rfl

/-- More digits make the value greater. -/
theorem readFrom_hex_ge (h : readFrom (.hex value) s = some out) :
    ∃ greater rest, value ≤ greater ∧ greater ≤ 255 ∧ out = UInt8.ofNat greater :: rest := by
  induction s generalizing value out with
  | nil => cases h
  | cons c s ih =>
    rw [readFrom] at h
    obtain ⟨r, hstep, hrest⟩ := Option.bind_eq_some_iff.mp h
    obtain ⟨rest, hread, hout⟩ := Option.map_eq_some_iff.mp hrest
    unfold step at hstep
    dsimp only at hstep
    cases hd : hexDigit c with
    | some d =>
      rw [hd] at hstep
      obtain rfl := Option.some.inj hstep
      obtain ⟨greater, tail, hge, hle, heq⟩ := ih hread
      refine ⟨greater, tail, by omega, hle, ?_⟩
      rw [← hout, heq]
      rfl
    | none =>
      rw [hd] at hstep
      unfold endEscape at hstep
      dsimp only at hstep
      split at hstep
      · cases hstep
      · next hvalue =>
        obtain ⟨r', _, rfl⟩ := Option.map_eq_some_iff.mp hstep
        exact ⟨value, r'.2 ++ rest, Nat.le_refl _, Nat.not_lt.mp hvalue, hout.symm⟩

end reading

end Swad.CLiterals
