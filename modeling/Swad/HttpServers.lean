import Swad.SoundSettings

/-!
The servers that are made of the settings, one after the other. Whether a server can be created
is decided by the network, which every attempt may change, so its answers are a parameter. A
server that cannot be created is only warned about.
-/
namespace Swad.HttpServers

open Bytes Ipaddr Proxylist Config SoundSettings

variable {N : Type}

/-- What the network is asked for. -/
structure TcpServerOpts where
  port : ℤ
  bindhosts : List Str
  tls : Option (Option Str × Option Str)
  proto : Proto
  numericHosts : Bool
  deriving DecidableEq

structure HttpServerOpts where
  serverOpts : TcpServerOpts
  nat64Prefix : Option IpAddr
  trustedHeader : ProxyHeader
  trustedProxies : ℤ

namespace HttpServerOpts

def create (port : ℤ) : HttpServerOpts where
  serverOpts := ⟨port, [], none, .any, false⟩
  nat64Prefix := none
  trustedHeader := ⟨true, true, false⟩
  trustedProxies := 0

def bind (self : HttpServerOpts) (bindhost : Str) : HttpServerOpts :=
  { self with serverOpts :=
    { self.serverOpts with bindhosts := self.serverOpts.bindhosts ++ [bindhost] } }

def enableTls (self : HttpServerOpts) (certfile keyfile : Option Str) : HttpServerOpts :=
  { self with serverOpts := { self.serverOpts with tls := some (certfile, keyfile) } }

def numericHosts (self : HttpServerOpts) : HttpServerOpts :=
  { self with serverOpts := { self.serverOpts with numericHosts := true } }

def setProto (self : HttpServerOpts) (proto : Proto) : HttpServerOpts :=
  { self with serverOpts := { self.serverOpts with proto } }

def setTrustedProxies (self : HttpServerOpts) (num : ℤ) : HttpServerOpts :=
  { self with trustedProxies := if num < 0 then 0 else num }

def setTrustedHeader (self : HttpServerOpts) (trusted : ProxyHeader) : HttpServerOpts :=
  { self with trustedHeader := trusted }

def setNat64Prefix (self : HttpServerOpts) (pre : Option IpAddr) : HttpServerOpts :=
  { self with nat64Prefix := pre }

end HttpServerOpts

structure HttpServer where
  server : TcpServerOpts
  nat64Prefix : Option IpAddr
  trustedHeader : ProxyHeader
  trustedProxies : ℤ

/-- The server, if the network has one, and the network after the attempt. -/
def HttpServer.create (createTcp : N → TcpServerOpts → Bool × N) (net : N)
    (opts : HttpServerOpts) : Option HttpServer × N :=
  let (made, net) := createTcp net opts.serverOpts
  (if made then
    some ⟨opts.serverOpts, opts.nat64Prefix, opts.trustedHeader, opts.trustedProxies⟩
  else none, net)

/-- Hosts are not resolved unless that was asked for. -/
def resolveHosts (config : Settings) : ℤ :=
  if config.resolveHosts < 0 then 0 else config.resolveHosts

def nat64Prefix (s : CfgServer) : Option IpAddr :=
  match s.nat64Prefix with
  | some pre => some pre
  | none => IpAddr.create (str "64:ff9b::/96")

/-- The options that the startup makes for a server. -/
def serverOpts (config : Settings) (s : CfgServer) : HttpServerOpts :=
  let opts := s.listen.foldl HttpServerOpts.bind (HttpServerOpts.create s.port)
  let opts := if s.tls ≠ 0 then opts.enableTls s.tlsCert s.tlsKey else opts
  let opts := opts.setProto s.proto
  let opts := if resolveHosts config = 0 then opts.numericHosts else opts
  let opts := opts.setTrustedProxies s.trustedProxies
  let opts := opts.setTrustedHeader s.trustedHeader
  opts.setNat64Prefix (nat64Prefix s)

def couldNotCreate : Option Str → Str
  | some name => str "Could not create server `" ++ name ++ str "'"
  | none => str "Could not create default server"

/-- The loop over the servers of the settings: those that are created, what is logged about the
others, and the network at the end. -/
def createServers (createTcp : N → TcpServerOpts → Bool × N) (config : Settings) :
    List CfgServer → N → List HttpServer × List Str × N
  | [], net => ([], [], net)
  | s :: rest, net =>
    match HttpServer.create createTcp net (serverOpts config s) with
    | (some server, net) =>
      let (servers, log, net) := createServers createTcp config rest net
      (server :: servers, log, net)
    | (none, net) =>
      let (servers, log, net) := createServers createTcp config rest net
      (servers, couldNotCreate s.name :: log, net)

/-! ### The servers of the settings -/

/-- The prefix of NAT64 if none is configured. -/
def wellKnown : IpAddr :=
  ⟨[0, 0x64, 0xff, 0x9b, 0, 0, 0, 0, 0, 0, 0, 0, 0, 0, 0, 0], 96, .ipv6⟩

/-- A server with the settings of a section. -/
def serverOf (config : Settings) (s : CfgServer) : HttpServer where
  server :=
    { port := s.port
      bindhosts := s.listen
      tls := if s.tls ≠ 0 then some (s.tlsCert, s.tlsKey) else none
      proto := s.proto
      numericHosts := decide (config.resolveHosts ≤ 0) }
  nat64Prefix := some (s.nat64Prefix.getD wellKnown)
  trustedHeader := s.trustedHeader
  trustedProxies := max 0 s.trustedProxies

/-- The answers of the network to the attempts for some servers. -/
def answers (createTcp : N → TcpServerOpts → Bool × N) : List TcpServerOpts → N → List Bool
  | [], _ => []
  | opts :: rest, net => (createTcp net opts).1 :: answers createTcp rest (createTcp net opts).2

/-- The servers of the settings, each with whether the network has it. -/
def attempts (createTcp : N → TcpServerOpts → Bool × N) (config : Settings) (net : N) :
    List (CfgServer × Bool) :=
  config.servers.zip
    (answers createTcp (config.servers.map fun s => (serverOf config s).server) net)

section creation

variable {createTcp : N → TcpServerOpts → Bool × N} {config : Settings} {net : N}

theorem create_wellKnown : IpAddr.create (str "64:ff9b::/96") = some wellKnown := by
  decide +kernel

theorem bind_all (hosts : List Str) (opts : HttpServerOpts) :
    hosts.foldl HttpServerOpts.bind opts =
      { opts with serverOpts :=
        { opts.serverOpts with bindhosts := opts.serverOpts.bindhosts ++ hosts } } := by
  induction hosts generalizing opts with
  | nil => rw [List.foldl_nil, List.append_nil]
  | cons host hosts ih =>
    rw [List.foldl_cons, ih, HttpServerOpts.bind, List.append_assoc]
    rfl

theorem resolveHosts_iff : resolveHosts config = 0 ↔ config.resolveHosts ≤ 0 := by
  unfold resolveHosts
  split
  · next hneg => exact iff_of_true rfl (le_of_lt hneg)
  · next hneg => omega

/-- The options are the settings of the section. -/
theorem serverOpts_eq (config : Settings) (s : CfgServer) :
    serverOpts config s = ⟨(serverOf config s).server, (serverOf config s).nat64Prefix,
      (serverOf config s).trustedHeader, (serverOf config s).trustedProxies⟩ := by
  have hnat64 : nat64Prefix s = some (s.nat64Prefix.getD wellKnown) := by
    unfold nat64Prefix
    cases s.nat64Prefix with
    | some pre => rfl
    | none => exact create_wellKnown
  have htrusted : (if s.trustedProxies < 0 then 0 else s.trustedProxies) =
      max 0 s.trustedProxies := by
    split
    · omega
    · omega
  unfold serverOpts
  rw [bind_all, hnat64]
  by_cases hhosts : config.resolveHosts ≤ 0 <;> by_cases htls : s.tls = 0 <;>
    simp [serverOf, HttpServerOpts.create, HttpServerOpts.enableTls, HttpServerOpts.setProto,
      HttpServerOpts.numericHosts, HttpServerOpts.setTrustedProxies,
      HttpServerOpts.setTrustedHeader, HttpServerOpts.setNat64Prefix, htrusted, resolveHosts_iff,
      hhosts, htls]

theorem create_serverOpts (net : N) (s : CfgServer) :
    HttpServer.create createTcp net (serverOpts config s) =
      (if (createTcp net (serverOf config s).server).1 then some (serverOf config s) else none,
        (createTcp net (serverOf config s).server).2) := by
  unfold HttpServer.create
  rw [serverOpts_eq]

/-- The loop creates the servers that the network has, and warns about the others. -/
theorem createServers_spec (servers : List CfgServer) (net : N) :
    let tried := servers.zip
      (answers createTcp (servers.map fun s => (serverOf config s).server) net)
    (createServers createTcp config servers net).1 =
        (tried.filter Prod.snd).map (fun t => serverOf config t.1) ∧
      (createServers createTcp config servers net).2.1 =
        (tried.filter fun t => !t.2).map fun t => couldNotCreate t.1.name := by
  induction servers generalizing net with
  | nil => exact ⟨rfl, rfl⟩
  | cons s rest ih =>
    obtain ⟨hservers, hlog⟩ := ih (createTcp net (serverOf config s).server).2
    unfold createServers
    rw [create_serverOpts, List.map_cons, answers, List.zip_cons_cons]
    cases hmade : (createTcp net (serverOf config s).server).1 with
    | true =>
      refine ⟨?_, ?_⟩
      · rw [List.filter_cons_of_pos rfl, List.map_cons, ← hservers]
        rfl
      · rw [List.filter_cons_of_neg Bool.false_ne_true, ← hlog]
        rfl
    | false =>
      refine ⟨?_, ?_⟩
      · rw [List.filter_cons_of_neg Bool.false_ne_true, ← hservers]
        rfl
      · rw [List.filter_cons_of_pos rfl, List.map_cons, ← hlog]
        rfl

end creation

end Swad.HttpServers
