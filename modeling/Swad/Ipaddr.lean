import Swad.Util

/-!
IP addresses with a prefix length, read from their text, compared and printed.
-/
namespace Swad.Ipaddr

open Bytes Util

inductive Proto
  | any
  | ipv4
  | ipv6
  deriving DecidableEq

/-- Sixteen bytes, of which an IPv4 address has the last four. -/
structure IpAddr where
  data : List Byte
  prefixlen : ℕ
  proto : Proto
  deriving DecidableEq

def toByte (n : ℤ) : Byte := UInt8.ofNat n.toNat

/-- The bytes of the numbers that are left to read, separated by dots. -/
def parsev4Loop : ℕ → Str → Option (List Byte)
  | 0, _ => some []
  | n + 1, bufp =>
    let byte := strtol 10 bufp
    if byte.rest = bufp ∨ byte.erange ∨ byte.value < 0 ∨ 255 < byte.value then none
    else if n = 0 then if byte.rest = [] then some [toByte byte.value] else none
    else
      match byte.rest with
      | c :: rest =>
        if c = chr '.' then (parsev4Loop n rest).map (toByte byte.value :: ·) else none
      | [] => none

def parsev4 (buf : Str) : Option (List Byte) :=
  (parsev4Loop 4 buf).map (List.replicate 12 0 ++ ·)

/-- The bytes before and behind the gap, with zeros between them. -/
def fill (head tail : List Byte) : List Byte :=
  head ++ List.replicate (16 - head.length - tail.length) 0 ++ tail

/-- A colon that does not begin a gap is passed over. -/
def skipColon : Str → Str
  | c :: rest => if c = chr ':' ∧ rest.head? ≠ some (chr ':') then rest else c :: rest
  | [] => []

/-- `tail` is there after a gap. Every round reads at least one byte. -/
def parsev6Loop : ℕ → List Byte → Option (List Byte) → Str → Option (List Byte)
  | 0, _, _, _ => none
  | n + 1, head, tail, buf =>
    if buf = [] then some (fill head (tail.getD []))
    else if tail = none ∧ (str "::").isPrefixOf buf then
      parsev6Loop n head (some []) (buf.drop 2)
    else
      let word := strtol 16 buf
      if word.rest = buf ∨ (word.rest ≠ [] ∧ word.rest.head? ≠ some (chr ':')) ∨ word.erange ∨
          word.value < 0 ∨ 0xffff < word.value then none
      else if 16 ≤ head.length + (tail.getD []).length then none
      else
        let bytes := [toByte (word.value / 256), toByte (word.value % 256)]
        match tail with
        | none => parsev6Loop n (head ++ bytes) none (skipColon word.rest)
        | some tail => parsev6Loop n head (some (tail ++ bytes)) (skipColon word.rest)

def parsev6 (buf : Str) : Option (List Byte) := parsev6Loop (buf.length + 1) [] none buf

/-- The prefix length behind a slash, if there is one. -/
def parsePrefix (buf : Str) : Option (Str × Option ℕ) :=
  match buf.dropWhile (· != chr '/') with
  | [] => some (buf, none)
  | _ :: prstr =>
    let prefixval := strtol 10 prstr
    if prefixval.rest = prstr ∨ prefixval.rest ≠ [] ∨ prefixval.erange ∨ prefixval.value < 0 ∨
        128 < prefixval.value then none
    else some (buf.takeWhile (· != chr '/'), some prefixval.value.toNat)

def IpAddr.create (s : Str) : Option IpAddr :=
  if s.length < 2 ∨ 43 < s.length then none
  else
    match parsePrefix s with
    | none => none
    | some (buf, prefixlen) =>
      match parsev4 buf with
      | some data =>
        match prefixlen with
        | none => some ⟨data, 32, .ipv4⟩
        | some n => if 32 < n then none else some ⟨data, n, .ipv4⟩
      | none => (parsev6 buf).map fun data => ⟨data, prefixlen.getD 128, .ipv6⟩

def IpAddr.equals (self other : IpAddr) : Bool :=
  self.proto == other.proto && self.prefixlen == other.prefixlen && self.data == other.data

/-- The whole bytes of the prefix are compared, then the bits that are left. -/
def IpAddr.matches (self pre : IpAddr) : Bool :=
  if self.proto ≠ pre.proto then false
  else if self.prefixlen < pre.prefixlen then false
  else
    let bytes := pre.prefixlen / 8
    if self.data.take bytes ≠ pre.data.take bytes then false
    else
      let bits := pre.prefixlen % 8
      if bits = 0 then true
      else
        let mask : Byte := UInt8.ofNat (0xff <<< (8 - bits))
        self.data.getD bytes 0 &&& mask == pre.data.getD bytes 0 &&& mask

/-- The IPv4 address behind one of the prefixes of length 96. -/
def IpAddr.nat64 (self : IpAddr) (prefixes : List IpAddr) : Option IpAddr :=
  if self.prefixlen ≠ 128 then none
  else if prefixes.any fun pre => pre.prefixlen == 96 && self.matches pre then
    some ⟨List.replicate 12 0 ++ self.data.drop 12, 32, .ipv4⟩
  else none

/-- The number as `sprintf` writes it in base 16. -/
def hexadecimal (n : ℕ) : Str := (Nat.toDigits 16 n).map chr

/-- The groups of an IPv6 address. -/
def words (data : List Byte) : List ℕ :=
  (List.range 8).map fun i => (data.getD (2 * i) 0).toNat * 256 + (data.getD (2 * i + 1) 0).toNat

structure Gap where
  start : ℕ
  len : ℕ

/-- The groups that are zero: a later run of them replaces the one before. -/
def scanGap (word : List ℕ) : Gap :=
  (List.range 8).foldl (fun g i =>
    if word.getD i 0 = 0 then
      if g.start + g.len < i then ⟨i, 1⟩ else { g with len := g.len + 1 }
    else g) ⟨0, 0⟩

/-- The groups from the given one on. Every round prints at least one group. -/
def printLoop (word : List ℕ) (gap : Gap) : ℕ → ℕ → Bool → Str
  | 0, _, _ => []
  | n + 1, i, needcolon =>
    if 8 ≤ i then []
    else if i = gap.start ∧ 0 < gap.len then
      str "::" ++ printLoop word gap n (i + gap.len) false
    else
      (if needcolon then str ":" else []) ++ hexadecimal (word.getD i 0) ++
        printLoop word gap n (i + 1) true

/-- The text of an address, which is computed when it is asked for first. -/
def IpAddr.string (self : IpAddr) : Str :=
  match self.proto with
  | .ipv4 =>
    let byte (i : ℕ) : Str := decimal (self.data.getD i 0).toNat
    byte 12 ++ str "." ++ byte 13 ++ str "." ++ byte 14 ++ str "." ++ byte 15 ++
      if self.prefixlen < 32 then chr '/' :: decimal self.prefixlen else []
  | _ =>
    let word := words self.data
    printLoop word (scanGap word) 8 0 false ++
      if self.prefixlen < 128 then chr '/' :: decimal self.prefixlen else []

end Swad.Ipaddr
