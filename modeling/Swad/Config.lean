import Mathlib.Data.Fintype.Basic
import Mathlib.Logic.Function.Basic
import Swad.Ipaddr
import Swad.Proxylist
import Swad.StringPrograms

/-!
The configuration, and the readers of its file. Every line is read into one buffer, in
which the readers move pointers and put NULs; a place in the buffer is an index. The
settings are taken from the strings that the readers find. Arrays have eight entries, and
an entry that was never written is indeterminate. The databases of users and groups are
functions. Line numbers, which only the log shows, are left out.
-/
namespace Swad.Config

open Bytes Util Ipaddr Proxylist StringPrograms

inductive CheckerClass
  | none
  | pam
  deriving DecidableEq

structure CfgChecker where
  name : Str
  args : List Str
  checkerClass : CheckerClass
  deriving DecidableEq

/-- Two arrays of eight entries, with the number of entries that count. -/
structure Limits where
  count : ℕ
  seconds : Fin 8 → Option ℕ
  limits : Fin 8 → Option ℕ

structure CfgRealm where
  name : Str
  limits : Limits
  checkers : List Str

structure CfgServer where
  name : Option Str
  tlsCert : Option Str
  tlsKey : Option Str
  nat64Prefix : Option IpAddr
  listen : List Str
  proto : Proto
  trustedHeader : ProxyHeader
  port : ℤ
  tls : ℤ
  trustedProxies : ℤ

inductive CfgSection
  | invalid
  | global
  | checkers
  | realms
  | server
  deriving DecidableEq

/-- The current server is the one with this number. -/
structure Settings where
  checkers : List CfgChecker
  realms : List CfgRealm
  servers : List CfgServer
  pidfile : Option Str
  uid : ℤ
  gid : ℤ
  resolveHosts : ℤ
  sessionLimits : Limits
  loginLimits : Limits
  currentSection : CfgSection
  server : ℕ

structure Passwd where
  uid : ℕ
  gid : ℕ

structure Accounts where
  getpwnam : Str → Option Passwd
  getpwuid : ℕ → Option Passwd
  getgrnam : Str → Option ℕ
  getgrgid : ℕ → Option ℕ

/-- What the readers write into the log, with the names that the text mentions. -/
inductive Warning
  | malformedLine
  | emptyServerName
  | tooManyArguments (key : Str)
  | unknownRealm (opt key : Str)
  | tooManyRealmLimits
  | invalidRealmLimit (value opt : Str)
  | tooManyCheckers (key : Str)
  | unknownServerOption (key : Str)
  | invalidSetting (value key : Str)
  | unknownUser (value : Str)
  | unknownGroup (value : Str)
  | tooManySessionLimits
  | tooManyLoginLimits
  | unknownOption (key : Str)
  | unknownSection (start : Str)
  | malformedSection
  | lineTooLong
  deriving DecidableEq

/-- The format of the message, behind the place in the file. -/
def Warning.format : Warning → String
  | malformedLine => "malformed line, ignoring"
  | emptyServerName => "empty server name is not allowed, assuming the default server"
  | tooManyArguments _ => "too many arguments for checker `%s', ignoring"
  | unknownRealm .. => "%s for unknown realm `%s' found, ignoring"
  | tooManyRealmLimits => "too many login fail limit entries, ignoring"
  | invalidRealmLimit .. => "invalid setting `%s' for %s, ignoring"
  | tooManyCheckers _ => "too many checkers for realm `%s', ignoring"
  | unknownServerOption _ => "unknown server option `%s', ignoring"
  | invalidSetting .. => "invalid setting `%s' for %s, ignoring"
  | unknownUser _ => "unknown user `%s', ignoring"
  | unknownGroup _ => "unknown group `%s', ignoring"
  | tooManySessionLimits => "too many session limit entries, ignoring"
  | tooManyLoginLimits => "too many login fail limit entries, ignoring"
  | unknownOption _ => "unknown global option `%s', ignoring"
  | unknownSection _ => "unknown section `%s', ignoring the following values"
  | malformedSection => "malformed section, ignoring"
  | lineTooLong => "line exceeds maximum length, ignoring"

/-- The message says that the line is ignored. -/
def Warning.ignores (self : Warning) : Bool :=
  (", ignoring".toList).isSuffixOf self.format.toList

abbrev Result := Except Fault (Settings × List Warning)

/-! ### Values -/

def longArg (op : Str) : Option ℤ :=
  let val := strtol 10 op
  if val.erange ∨ val.rest ≠ [] then none else some val.value

def intArg (op : Str) (min max : ℤ) (base : ℕ) : Option ℤ :=
  let val := strtol base op
  if val.erange ∨ val.rest ≠ [] ∨ val.value < min ∨ max < val.value then none
  else some val.value

def strcasecmp (a b : Str) : Bool := lowerstr a == lowerstr b

def boolArg (s : Str) : Option ℤ :=
  if [str "1", str "on", str "yes", str "true"].any (strcasecmp s) then some 1
  else if [str "0", str "no", str "off", str "false"].any (strcasecmp s) then some 0
  else none

/-- What is written through the two pointers, both if the value is valid. -/
def limitsArg (value : Str) : Option ℕ × Option ℕ :=
  match value.dropWhile (· != chr ':') with
  | [] => (none, none)
  | _ :: limitstr =>
    match intArg (value.takeWhile (· != chr ':')) 1 86400 10 with
    | none => (none, none)
    | some seconds =>
      (some (seconds.toNat % 2 ^ 16), (intArg limitstr 1 1024 10).map fun limit => limit.toNat)

/-- Write one entry of an array, if anything is written. -/
def setEntry (entries : Fin 8 → Option ℕ) (i : ℕ) : Option ℕ → Except Fault (Fin 8 → Option ℕ)
  | none => .ok entries
  | some v =>
    if h : i < 8 then .ok (Function.update entries ⟨i, h⟩ (some v)) else .error .overflow

/-- Read a value into the entry behind those that count, and say whether it was valid. -/
def Limits.read (self : Limits) (value : Str) : Except Fault (Limits × Bool) := do
  let (seconds, limit) := limitsArg value
  let written ← setEntry self.seconds self.count seconds
  let written' ← setEntry self.limits self.count limit
  return ({ self with seconds := written, limits := written' }, limit.isSome)

def Limits.raise (self : Limits) : Limits := { self with count := self.count + 1 }

/-- The size of an array of eight 16-bit numbers. -/
def LIMITSSZ : ℕ := 16

/-- The size of an array of eight pointers. -/
def ARGSSZ : ℕ := 64

/-! ### Settings -/

/-- The number of the server with this name. -/
def findServer (name : Option Str) : List CfgServer → ℕ → Except Fault (Option ℕ)
  | [], _ => .ok none
  | s :: rest, i =>
    match name, s.name with
    | none, none => .ok (some i)
    | none, some _ => .error .null
    | some n, some m => if n = m then .ok (some i) else findServer name rest (i + 1)
    | some _, none => findServer name rest (i + 1)

def CfgServer.create (name : Option Str) : CfgServer where
  name := name
  tlsCert := none
  tlsKey := none
  nat64Prefix := none
  listen := []
  proto := .any
  trustedHeader := ⟨true, true, false⟩
  port := 8080
  tls := 0
  trustedProxies := 0

/-- Make the server with this name the current one. -/
def getServer (self : Settings) (name : Option Str) : Result := do
  let warnings := if name = some [] then [Warning.emptyServerName] else []
  let name := if name = some [] then none else name
  match ← findServer name self.servers 0 with
  | some i => return ({ self with server := i }, warnings)
  | none => return ({ self with
      servers := self.servers ++ [CfgServer.create name]
      server := self.servers.length }, warnings)

def addChecker (self : Settings) (key classname : Str) (args : List Str) : Settings :=
  { self with checkers := self.checkers ++
      [⟨key, args, if classname = str "pam" then .pam else .none⟩] }

/-- Another limit for a realm. It counts even if the value is invalid. -/
def CfgRealm.addLimit (self : CfgRealm) (opt value : Str) :
    Except Fault (CfgRealm × List Warning) :=
  if self.limits.count = LIMITSSZ then .ok (self, [.tooManyRealmLimits])
  else do
    let (limits, valid) ← self.limits.read value
    return ({ self with limits := limits.raise },
      if valid then [] else [.invalidRealmLimit value opt])

/-- The limit is for the first realm with this name. -/
def addRealmLimit (opt name value : Str) :
    List CfgRealm → Except Fault (List CfgRealm × List Warning)
  | [] => .ok ([], [.unknownRealm opt name])
  | realm :: realms =>
    if realm.name = name then
      (realm.addLimit opt value).map fun r => (r.1 :: realms, r.2)
    else (addRealmLimit opt name value realms).map fun r => (realm :: r.1, r.2)

def addRealm (self : Settings) (key : Str) (checkers : List Str) : Settings :=
  { self with realms := self.realms ++ [⟨key, ⟨0, fun _ => none, fun _ => none⟩, checkers⟩] }

def trustedHeaderArg (value : Str) : Option ProxyHeader :=
  if value = str "xfwd" then some ⟨true, false, false⟩
  else if value = str "rfc" then some ⟨false, true, false⟩
  else if value = str "prefer_xfwd" then some ⟨true, true, false⟩
  else if value = str "prefer_rfc" then some ⟨true, true, true⟩
  else none

def protoArg (value : Str) : Option Proto :=
  if strcasecmp value (str "any") then some .any
  else if strcasecmp value (str "ipv4") then some .ipv4
  else if strcasecmp value (str "ipv6") then some .ipv6
  else none

/-- A prefix for NAT64 has 96 bits. -/
def nat64Arg (value : Str) : Option IpAddr :=
  (IpAddr.create value).filter fun a => a.prefixlen == 96

def CfgServer.setOption (self : CfgServer) (key value : Str) : CfgServer × List Warning :=
  let inval := [Warning.invalidSetting value key]
  if key = str "port" then
    match intArg value 1 65535 10 with
    | some port => ({ self with port }, [])
    | none => (self, inval)
  else if key = str "listen" then ({ self with listen := self.listen ++ [value] }, [])
  else if key = str "proto" then
    match protoArg value with
    | some proto => ({ self with proto }, [])
    | none => (self, inval)
  else if key = str "tls" then
    match boolArg value with
    | some tls => ({ self with tls }, [])
    | none => (self, inval)
  else if key = str "tls_cert_file" then ({ self with tlsCert := some value }, [])
  else if key = str "tls_key_file" then ({ self with tlsKey := some value }, [])
  else if key = str "trusted_proxies" then
    match intArg value 0 16 10 with
    | some trustedProxies => ({ self with trustedProxies }, [])
    | none => (self, inval)
  else if key = str "trusted_header" then
    match trustedHeaderArg value with
    | some trustedHeader => ({ self with trustedHeader }, [])
    | none => (self, inval)
  else if key = str "nat64_prefix" then
    -- the old prefix is gone, whatever the value is
    match nat64Arg value with
    | some a => ({ self with nat64Prefix := some a }, [])
    | none => ({ self with nat64Prefix := none }, inval)
  else (self, [.unknownServerOption key])

/-- The current server gets the setting. -/
def setServerOption (key value : Str) : ℕ → List CfgServer → List CfgServer × List Warning
  | _, [] => ([], [])
  | 0, s :: rest => ((s.setOption key value).1 :: rest, (s.setOption key value).2)
  | i + 1, s :: rest =>
    (s :: (setServerOption key value i rest).1, (setServerOption key value i rest).2)

/-- A user id has 32 bits. -/
def toId (n : ℤ) : ℕ := (n % 2 ^ 32).toNat

def parseUser (accounts : Accounts) (self : Settings) (s : Str) : Option Settings := do
  let (tuid, p) ← match longArg s with
    | none => (accounts.getpwnam s).map fun p => ((p.uid : ℤ), p)
    | some tuid => (accounts.getpwuid (toId tuid)).map fun p => (tuid, p)
  return { self with uid := tuid, gid := if self.gid = -1 then p.gid else self.gid }

def parseGroup (accounts : Accounts) (self : Settings) (s : Str) : Option Settings := do
  let tgid ← match longArg s with
    | none => (accounts.getgrnam s).map fun g => (g : ℤ)
    | some tgid => (accounts.getgrgid (toId tgid)).map fun _ => tgid
  return { self with gid := tgid }

/-- Another limit, which counts if its value is valid. -/
def addLimit (self : Limits) (key value : Str) (tooMany : Warning) :
    Except Fault (Limits × List Warning) :=
  if self.count = LIMITSSZ then .ok (self, [tooMany])
  else do
    let (limits, valid) ← self.read value
    if valid then return (limits.raise, []) else return (limits, [.invalidSetting value key])

def setPidfile (self : Settings) (key value : Str) : Settings :=
  if key = str "pidfile" ∧ self.pidfile = none then { self with pidfile := some value } else self

/-- The options behind the pidfile. -/
def setOtherOption (self : Settings) (key value : Str) : Result :=
  if key = str "resolveHosts" then
    if self.resolveHosts < 0 then
      match boolArg value with
      | some resolveHosts => .ok ({ self with resolveHosts }, [])
      | none => .ok (self, [.invalidSetting value key])
    else .ok (self, [])
  else if key = str "session_limit" then do
    let (sessionLimits, warnings) ← addLimit self.sessionLimits key value .tooManySessionLimits
    return ({ self with sessionLimits }, warnings)
  else if key = str "login_fail_limit" then do
    let (loginLimits, warnings) ← addLimit self.loginLimits key value .tooManyLoginLimits
    return ({ self with loginLimits }, warnings)
  else .ok (self, [.unknownOption key])

/-- The pidfile is set, and then looked up among the options behind it. -/
def setOption (accounts : Accounts) (self : Settings) (key value : Str) : Result :=
  if key = str "user" then
    if self.uid < 0 then
      match parseUser accounts self value with
      | some self => .ok (self, [])
      | none => .ok (self, [.unknownUser value])
    else .ok (self, [])
  else if key = str "group" then
    if self.gid < 0 then
      match parseGroup accounts self value with
      | some self => .ok (self, [])
      | none => .ok (self, [.unknownGroup value])
    else .ok (self, [])
  else setOtherOption (setPidfile self key value) key value

/-- The section with this name. -/
def openSection (self : Settings) (start : Str) : Result :=
  if start = str "global" then .ok ({ self with currentSection := .global }, [])
  else if start = str "checkers" then .ok ({ self with currentSection := .checkers }, [])
  else if start = str "realms" then .ok ({ self with currentSection := .realms }, [])
  else if (str "server").isPrefixOf start then
    match start.drop 6 with
    | [] => getServer { self with currentSection := .server } none
    | c :: name =>
      if c = chr ':' then getServer { self with currentSection := .server } (some name)
      else .ok ({ self with currentSection := .invalid }, [.unknownSection start])
  else .ok ({ self with currentSection := .invalid }, [.unknownSection start])

/-! ### Readers -/

def isComment (c : Byte) : Bool := c == chr ';' || c == chr '#'

def readKeyValue (lp : ℕ) : Prog (Option (ℕ × ℕ)) := do
  let c ← load lp
  if c = chr '=' then return none
  else
    match ← strchr lp (chr '=') with
    | none => return none
    | some v => do
      let kend ← scanBack isspace v
      let v ← scan isspace (v + 1)
      let c ← load v
      if c = 0 ∨ isComment c then return none
      else do
        let vend ← scan (fun b => b != 0 && !isComment b) v
        let vend ← scanBack isspace vend
        store kend 0
        store vend 0
        return some (lp, v)

/-- The tokens from here on, unless their number reaches the size of the array. An array
of eight pointers takes no more than eight, so ten rounds are enough. -/
def readList : ℕ → ℕ → List ℕ → Prog (Option (List ℕ))
  | 0, _, _ => fail .overflow
  | fuel + 1, saved, args => do
    match ← strtok (chr ':') saved with
    | (none, _) => return some args
    | (some arg, saved) =>
      if args.length = ARGSSZ then return none
      else if args.length < 8 then readList fuel saved (args ++ [arg])
      else fail .overflow

def readChecker (self : Settings) (lp : ℕ) : Prog (Settings × List Warning) := do
  match ← readKeyValue lp with
  | none => return (self, [.malformedLine])
  | some (k, v) => do
    let (classname, saved) ← strtok (chr ':') v
    match ← readList 10 saved [] with
    | none => do
      let key ← readStr k
      return (self, [.tooManyArguments key])
    | some args => do
      let key ← readStr k
      match classname with
      | none => fail .null
      | some classname => do
        let classname ← readStr classname
        let args ← args.mapM readStr
        return (addChecker self key classname args, [])

def loginFailLimit : Str := str "_login_fail_limit"

/-- Where the name of a realm ends, if the key is the name of its limit. -/
def limitKey (key : Str) : Option ℕ :=
  match key.tails.findIdx? (loginFailLimit.isPrefixOf ·) with
  | some n => if key.drop n = loginFailLimit then some n else none
  | none => none

def readRealm (self : Settings) (lp : ℕ) : Prog (Settings × List Warning) := do
  match ← readKeyValue lp with
  | none => return (self, [.malformedLine])
  | some (k, v) => do
    let key ← readStr k
    match limitKey key with
    | some n => do
      store (k + n) 0
      let value ← readStr v
      let (realms, warnings) ←
        lift (addRealmLimit (key.drop (n + 1)) (key.take n) value self.realms)
      return ({ self with realms }, warnings)
    | none =>
      match ← readList 10 v [] with
      | none => return (self, [.tooManyCheckers key])
      | some checkers => do
        let checkers ← checkers.mapM readStr
        return (addRealm self key checkers, [])

def readServer (self : Settings) (lp : ℕ) : Prog (Settings × List Warning) := do
  match ← readKeyValue lp with
  | none => return (self, [.malformedLine])
  | some (k, v) => do
    let key ← readStr k
    let value ← readStr v
    let (servers, warnings) := setServerOption key value self.server self.servers
    return ({ self with servers }, warnings)

def readOption (accounts : Accounts) (self : Settings) (lp : ℕ) :
    Prog (Settings × List Warning) := do
  match ← readKeyValue lp with
  | none => return (self, [.malformedLine])
  | some (k, v) => do
    let key ← readStr k
    let value ← readStr v
    lift (setOption accounts self key value)

/-- The loop over the name stops at a blank or a bracket, not at the end of the line. -/
def readSection (self : Settings) (lp : ℕ) : Prog (Settings × List Warning) := do
  let start ← scan isspace (lp + 1)
  let c ← load start
  if c = 0 ∨ c = chr ']' then return (self, [.malformedSection])
  else do
    let stop ← scan (fun b => !isspace b && b != chr ']') start
    let lp ← scan isspace stop
    let c ← load lp
    if c ≠ chr ']' then return (self, [.malformedSection])
    else do
      let lp ← scan isspace (lp + 1)
      let c ← load lp
      if c ≠ 0 ∧ ¬ isComment c then return (self, [.malformedSection])
      else do
        store stop 0
        let name ← readStr start
        if (str "server:").isPrefixOf name then do
          store (start + 6) 0
          lift (openSection self name)
        else lift (openSection self name)

/-- What is done with a line, in the section that it stands in. -/
def readLine (accounts : Accounts) (self : Settings) (lp : ℕ) : Prog (Settings × List Warning) := do
  let lp ← scan isspace lp
  let c ← load lp
  if c = 0 ∨ isComment c then return (self, [])
  else if c = chr '[' then readSection self lp
  else
    match self.currentSection with
    | .invalid => return (self, [])
    | .global => readOption accounts self lp
    | .checkers => readChecker self lp
    | .realms => readRealm self lp
    | .server => readServer self lp

/-! ### The file -/

def LINEBUFSZ : ℕ := 1024

def nl : Byte := chr '\n'

/-- What one call of `fgets` reads. -/
def fgets (file : List Byte) : List Byte :=
  let part := file.take (LINEBUFSZ - 1)
  part.take ((part.takeWhile (· != nl)).length + 1)

def chunksLoop : ℕ → List Byte → List (List Byte)
  | 0, _ => []
  | fuel + 1, file =>
    if file = [] then [] else fgets file :: chunksLoop fuel (file.drop (fgets file).length)

/-- What the calls of `fgets` read, up to the end of the file. -/
def chunks (file : List Byte) : List (List Byte) := chunksLoop file.length file

structure Reader where
  config : Settings
  linebuf : List Byte
  skipping : Bool
  warnings : List Warning

/-- One call of `fgets` and what follows it. With `cut` the memory of the readers ends with
the line, so that they fault if they look behind it. -/
def readChunk (accounts : Accounts) (cut : Bool) (self : Reader) (chunk : List Byte) :
    Except Fault Reader :=
  let linebuf := chunk ++ 0 :: self.linebuf.drop (chunk.length + 1)
  let lp := cstr chunk
  if self.skipping then .ok { self with linebuf, skipping := !lp.contains nl }
  else if lp.contains nl then
    let stop := (lp.takeWhile (· != nl)).length
    let linebuf := linebuf.set stop 0
    let memory := if cut then linebuf.take (stop + 1) else linebuf
    (readLine accounts self.config 0 memory).map fun r =>
      ⟨r.1.1, r.2 ++ linebuf.drop r.2.length, false, self.warnings ++ r.1.2⟩
  else .ok { self with
    linebuf, skipping := true, warnings := self.warnings ++ [.lineTooLong] }

/-- The buffer is not initialised, so its bytes are given. -/
def readConfigFile (accounts : Accounts) (cut : Bool) (self : Settings) (linebuf : List Byte)
    (file : List Byte) : Except Fault Reader :=
  (chunks file).foldlM (readChunk accounts cut)
    ⟨{ self with currentSection := .global }, linebuf, false, []⟩

end Swad.Config
