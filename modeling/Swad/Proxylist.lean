import Swad.Headerset

/-!
The list of remote addresses of a request: the entries of the trusted forwarding
header, read from the right, and the peer of the connection at the end.
-/
namespace Swad.Proxylist

open Bytes Util Headerset

structure ProxyHeader where
  xfwd : Bool
  rfc : Bool
  prefrfc : Bool
  deriving DecidableEq

structure TrustConfig where
  ntrusted : ℕ
  header : ProxyHeader

structure RemoteEntry where
  addr : Str
  host : Option Str
  deriving DecidableEq

/-- `strncasecmp` with the name of the parameter finds it. -/
def startsWithFor (s : Str) : Bool := lowerstr (s.take 4) == str "for="

/-- The value of the for parameter. `comp` holds the bytes since the last semicolon,
whether it was quoted or not; the byte after a semicolon is not examined. -/
def stripLoop (esc quote : Bool) (comp : Str) (rest : Str) : Option Str :=
  match rest with
  | [] => if startsWithFor comp then some (comp.drop 4) else none
  | c :: rest =>
    if esc then stripLoop false quote (comp ++ [c]) rest
    else if c = chr '"' then stripLoop false (!quote) (comp ++ [c]) rest
    else if c = chr '\\' then stripLoop true quote (comp ++ [c]) rest
    else if c = chr ';' then
      if !quote && startsWithFor comp then some (comp.drop 4)
      else
        match rest with
        | [] => none
        | d :: rest => stripLoop false quote [d] rest
    else stripLoop false quote (comp ++ [c]) rest

def stripRfc7239 (entry : Str) : Option Str := stripLoop false false [] entry

/-- The state in which the bytes of an address are collected. -/
structure Collect where
  esc : Bool
  bracket : ℤ
  buf : Str
  ncolons : ℕ
  lastcolon : ℕ

def Collect.take (self : Collect) (c : Byte) : Collect := { self with buf := self.buf ++ [c] }

/-- Outside of brackets from the first byte on, no bracket opens any more. -/
def outside (bracket : ℤ) : ℤ := if bracket = 0 then -1 else bracket

def Collect.plain (self : Collect) (c : Byte) : Collect :=
  { self with bracket := outside self.bracket }.take c

def Collect.colon (self : Collect) : Collect :=
  { self with lastcolon := self.buf.length, ncolons := self.ncolons + 1 }.plain (chr ':')

def collect (self : Collect) : Str → Collect
  | [] => self
  | c :: rest =>
    if self.esc then collect ({ self with esc := false }.plain c) rest
    else if c = chr '\\' then collect { self with esc := true } rest
    else if c = chr '"' then collect self rest
    else if c = chr '[' then
      if 0 ≤ self.bracket then collect { self with bracket := self.bracket + 1 } rest
      else collect (self.take c) rest
    else if c = chr ']' then
      if 0 < self.bracket then
        if self.bracket - 1 = 0 then { self with bracket := 0 }
        else collect { self with bracket := self.bracket - 1 } rest
      else collect (self.take c) rest
    else if c = chr ':' then collect self.colon rest
    else collect (self.plain c) rest

/-- A single colon separates a port. -/
def Collect.address (self : Collect) : Str :=
  if self.ncolons = 1 then self.buf.take self.lastcolon else self.buf

/-- The address of an entry, if it has one; the outer `none` is a write behind the
end of the buffer of 512 bytes. -/
def parseEntry (entry : Str) (rfc7239 : Bool) : Option (Option Str) :=
  match (if rfc7239 then stripRfc7239 entry else some entry) with
  | none => some none
  | some value =>
    let self := collect ⟨false, 0, [], 0, 0⟩ value
    if 512 < self.buf.length ∨ 511 < self.address.length then none
    else if self.address = [] then some none
    else some (some self.address)

/-- Whether a byte is escaped, given the bytes before it in reverse. -/
def escaped (before : Str) : Bool := (before.takeWhile (· == chr '\\')).length % 2 == 1

/-- The entry after the last comma and what is left of it, found from the right:
the bytes not yet seen stand in reverse, those seen in order. -/
def hdrEntryLoop (rfc7239 : Bool) (quote : Bool) : Str → Str → Option (Str × Str)
  | [], seen => if !quote then some (seen, []) else none
  | c :: before, seen =>
    if c = chr '"' then
      hdrEntryLoop rfc7239 (if rfc7239 && !escaped before then !quote else quote) before (c :: seen)
    else if c = chr ',' && !quote then
      some (seen.dropWhile (· == chr ' '), before.reverse)
    else hdrEntryLoop rfc7239 quote before (c :: seen)

def hdrEntry (buf : Str) (rfc7239 : Bool) : Option (Str × Str) :=
  hdrEntryLoop rfc7239 false buf.reverse []

/-- What one header value contributes, from the right: its addresses, and whether
it was read without an error. -/
structure Parsed where
  addrs : List Str
  ok : Bool

def parseLoop (rfc7239 : Bool) : ℕ → Str → Option Parsed
  | 0, _ => some ⟨[], true⟩
  | n + 1, buf =>
    if buf = [] then some ⟨[], true⟩
    else
      match hdrEntry buf rfc7239 with
      | none => some ⟨[], false⟩
      | some (entry, rest) =>
        match parseEntry entry rfc7239 with
        | none => none
        | some none => some ⟨[], false⟩
        | some (some addr) =>
          (parseLoop rfc7239 n rest).map (fun p => { p with addrs := addr :: p.addrs })

/-- Only the last 8191 bytes of a value are read. -/
def parseHdrVal (n : ℕ) (val : Str) (rfc7239 : Bool) : Option Parsed :=
  parseLoop rfc7239 n (val.drop (val.length - 8191))

/-- The addresses of the last values, from the right, up to the capacity. -/
def proxyLoop (rfc7239 : Bool) (addrs : List Str) : List Str → Option (List Str)
  | [] => some addrs
  | val :: vals =>
    match parseHdrVal (16 - addrs.length) val rfc7239 with
    | none => none
    | some p =>
      let all := addrs ++ p.addrs
      if !p.ok || p.addrs = [] || all.length = 16 then some all
      else proxyLoop rfc7239 all vals

/-- The entries of the last 16 values of a header, the leftmost first. -/
def proxyAddr (values : List Str) (rfc7239 : Bool) : Option (List RemoteEntry) :=
  (proxyLoop rfc7239 [] (values.reverse.take 16)).map
    (fun addrs => addrs.reverse.map (fun addr => ⟨addr, none⟩))

def headernm (rfc7239 : Bool) : Str := if rfc7239 then str "Forwarded" else str "X-Forwarded-For"

def ProxyHeader.trusts (self : ProxyHeader) (rfc7239 : Bool) : Bool :=
  if rfc7239 then self.rfc else self.xfwd

def forwarded (hdrs : HeaderSet) (header : ProxyHeader) (rfc7239 : Bool) :
    Option (List RemoteEntry) :=
  if header.trusts rfc7239 then
    proxyAddr ((hdrs.any (headernm rfc7239)).map Header.value) rfc7239
  else some []

/-- The preferred header is read first, the other one if it gave no entries. -/
def get (hdrs : HeaderSet) (trusted : TrustConfig) (peer : RemoteEntry) :
    Option (List RemoteEntry) := do
  let preferred ← forwarded hdrs trusted.header trusted.header.prefrfc
  let list ←
    if preferred = [] then forwarded hdrs trusted.header (!trusted.header.prefrfc)
    else some preferred
  return list ++ [peer]

def firstTrusted (trusted : TrustConfig) (list : List RemoteEntry) : ℕ :=
  if trusted.ntrusted + 1 < list.length then list.length - trusted.ntrusted - 1 else 0

/-- The address that identifies the client of a request. -/
def clientAddr (hdrs : HeaderSet) (trusted : TrustConfig) (peer : RemoteEntry) : Option Str := do
  let list ← get hdrs trusted peer
  let entry ← list[firstTrusted trusted list]?
  return entry.addr

end Swad.Proxylist
