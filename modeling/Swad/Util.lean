import Swad.Bytes

/-!
Small string helpers of the program, and the parts of the C library that it
relies on, in the C locale.
-/
namespace Swad.Util

open Bytes

def isupper (c : Byte) : Bool := chr 'A' ≤ c && c ≤ chr 'Z'

def isdigit (c : Byte) : Bool := chr '0' ≤ c && c ≤ chr '9'

def isspace (c : Byte) : Bool := c == chr ' ' || (9 ≤ c && c ≤ 13)

def tolower (c : Byte) : Byte := if isupper c then c + 32 else c

def lowerstr (src : Str) : Str := src.map tolower

def joinstr (delim : Str) (strings : List Str) : Str := delim.intercalate strings

/-- The hash of a key before it is masked, computed in a 64-bit `size_t`. -/
def hashstr (key : Str) : ℕ := key.foldl (fun h c => (h * 33 + c.toNat) % 2 ^ 64) 5381

/-- The bucket of a key in a hash table with `2 ^ bits` buckets. -/
def hash (key : Str) (bits : ℕ) : Fin (2 ^ bits) :=
  ⟨hashstr key % 2 ^ bits, Nat.mod_lt _ (Nat.two_pow_pos bits)⟩

/-- The decimal digits of a number, as `snprintf` writes them. -/
def decimal (n : ℕ) : Str := (Nat.toDigits 10 n).map chr

def LLONG_MAX : ℤ := 2 ^ 63 - 1

def LLONG_MIN : ℤ := -2 ^ 63

/-- The optional sign of a number: whether it is a minus, and what follows. -/
def sign : Str → Bool × Str
  | c :: s => if c = chr '-' then (true, s) else if c = chr '+' then (false, s) else (false, c :: s)
  | [] => (false, [])

/-- Base 10: the clamped value and the unparsed rest, which is the whole string
if there are no digits. -/
def strtoll (s : Str) : ℤ × Str :=
  let (minus, t) := sign (s.dropWhile isspace)
  let digits := t.takeWhile isdigit
  let value : ℤ := digits.foldl (fun v c => v * 10 + (c - chr '0').toNat) 0
  if digits = [] then (0, s)
  else (max LLONG_MIN (min LLONG_MAX (if minus then -value else value)), t.dropWhile isdigit)

/-- The value of a digit in any base up to 16, and 16 for what is no digit. -/
def digitVal (c : Byte) : ℕ :=
  if isdigit c then (c - chr '0').toNat
  else if chr 'a' ≤ tolower c && tolower c ≤ chr 'f' then (tolower c - chr 'a').toNat + 10
  else 16

/-- In base 16 the digits may have a prefix. -/
def skip0x (base : ℕ) : Str → Str
  | z :: x :: d :: s =>
    if base = 16 ∧ z = chr '0' ∧ tolower x = chr 'x' ∧ digitVal d < 16 then d :: s
    else z :: x :: d :: s
  | s => s

/-- The outcome of reading a number: its value, the unparsed rest, and whether it was
clamped. -/
structure Number where
  value : ℤ
  rest : Str
  erange : Bool

/-- Base 10 or 16, for a 64-bit `long`. -/
def strtol (base : ℕ) (s : Str) : Number :=
  let (minus, t) := sign (s.dropWhile isspace)
  let t := skip0x base t
  let digits := t.takeWhile fun c => digitVal c < base
  let value : ℤ := digits.foldl (fun v c => v * base + digitVal c) 0
  let value := if minus then -value else value
  if digits = [] then ⟨0, s, false⟩
  else ⟨max LLONG_MIN (min LLONG_MAX value), t.dropWhile fun c => digitVal c < base,
    value < LLONG_MIN || LLONG_MAX < value⟩

theorem isdigit_of_mem_decimal (n : ℕ) {c : Byte} (h : c ∈ decimal n) : isdigit c = true := by
  obtain ⟨d, hd, rfl⟩ := List.mem_map.mp h
  have hdigit : d.isDigit := Nat.isDigit_of_mem_toDigits (by decide) (by decide) hd
  have hbounds : 48 ≤ d.toNat ∧ d.toNat ≤ 57 := by
    simp only [Char.isDigit, Bool.and_eq_true, decide_eq_true_eq] at hdigit
    exact hdigit
  simp only [isdigit, Bool.and_eq_true, decide_eq_true_eq, UInt8.le_iff_toNat_le, chr,
    UInt8.toNat_ofNat']
  change 48 % 256 ≤ d.toNat % 256 ∧ d.toNat % 256 ≤ 57 % 256
  omega

end Swad.Util
