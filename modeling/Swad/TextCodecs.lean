import Swad.Util

/-!
The encodings of text that the server uses: percent-decoding, HTML escaping,
base64 without padding, and the check that replaces malformed UTF-8.
-/
namespace Swad.TextCodecs

open Bytes Util

def isHex (c : Byte) : Bool := isdigit c || (chr 'A' ≤ c && c ≤ chr 'F')

def hexVal (c : Byte) : Byte := if c ≤ chr '9' then c - chr '0' else c - (chr 'A' - 10)

def decodePlain (c : Byte) : Byte := if c = chr '+' then chr ' ' else c

def decodeBytes : List Byte → List Byte
  | c :: d :: e :: s =>
    if c = chr '%' ∧ isHex d ∧ isHex e then (hexVal d * 16 + hexVal e) :: decodeBytes s
    else decodePlain c :: decodeBytes (d :: e :: s)
  | c :: s => decodePlain c :: decodeBytes s
  | [] => []

/-- The result is a C string, so a decoded NUL ends it. -/
def urldecode (s : List Byte) : Str := cstr (decodeBytes s)

def escapeByte (newline : Bool) (c : Byte) : Str :=
  if c = chr '&' then str "&amp;"
  else if c = chr '<' then str "&lt;"
  else if c = chr '>' then str "&gt;"
  else if c = chr '"' then str "&quot;"
  else if c = chr '\'' then str "&#39;"
  else if c = chr '\n' ∧ newline then str "<br>"
  else [c]

def htmlescape (s : Str) (newline : Bool) : Str := s.flatMap (escapeByte newline)

def enc1 (val : Byte) : Byte :=
  let val := val &&& 0x3f
  if val < 0x1a then chr 'A' + val
  else if val < 0x34 then chr 'a' + (val - 0x1a)
  else if val < 0x3e then chr '0' + (val - 0x34)
  else if val = 0x3e then chr '+'
  else chr '/'

def base64enc : List Byte → Str
  | a :: b :: c :: data =>
    enc1 (a >>> 2) :: enc1 (a <<< 4 ||| b >>> 4) :: enc1 (b <<< 2 ||| c >>> 6) :: enc1 c ::
      base64enc data
  | [a, b] => [enc1 (a >>> 2), enc1 (a <<< 4 ||| b >>> 4), enc1 (b <<< 2)]
  | [a] => [enc1 (a >>> 2), enc1 (a <<< 4)]
  | [] => []

/-- A byte that cannot start a multibyte character. -/
def isBadLead (c : Byte) : Bool := c &&& 0xf8 == 0xf8 || c &&& 0xc0 != 0xc0

/-- The number of bytes that follow a lead byte. -/
def followers (c : Byte) : ℕ :=
  if c &&& 0x20 = 0 then 1 else if c &&& 0x10 = 0 then 2 else 3

def isContinuation (c : Byte) : Bool := c &&& 0xc0 == 0x80

/-- The outcome of the check: whether the string was well formed, the string with
every malformed byte replaced, and its number of characters. -/
structure Checked where
  valid : Bool
  text : Str
  len : ℕ
  deriving DecidableEq

def Checked.cons (c : Byte) (valid : Bool) (chars : ℕ) (self : Checked) : Checked :=
  ⟨valid && self.valid, c :: self.text, self.len + chars⟩

/-- `skip` bytes of the current character are left. -/
def checksan (skip : ℕ) : Str → Checked
  | [] => ⟨true, [], 0⟩
  | c :: s =>
    match skip with
    | skip + 1 => (checksan skip s).cons c true 0
    | 0 =>
      if c &&& 0x80 = 0 then (checksan 0 s).cons c true 1
      else if isBadLead c || followers c > s.length ||
          !(s.take (followers c)).all isContinuation then
        (checksan 0 s).cons (chr '?') false 1
      else (checksan (followers c) s).cons c true 1

def utf8Sanitize (s : Str) : Checked := checksan 0 s

end Swad.TextCodecs
