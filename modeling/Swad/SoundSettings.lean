import Swad.Arguments
import Swad.FixedArrays
import Swad.LimitSettings

/-!
Settings that the startup can rely on, whatever the command line and the file contain. The
first server has no name and the others have different ones, every number is in the range
that is asked for, a limit that counts was a valid pair, and of the realms with one name only
the first can have limits.
-/
namespace Swad.SoundSettings

open Bytes Util Ipaddr Proxylist StringPrograms Config ConfigLines LineIsolation PairedRuns
open FileChunks IgnoredLines FixedArrays Arguments

structure SoundServer (s : CfgServer) : Prop where
  port : 1 ≤ s.port ∧ s.port ≤ 65535
  tls : s.tls = 0 ∨ s.tls = 1
  trustedProxies : 0 ≤ s.trustedProxies ∧ s.trustedProxies ≤ 16
  trustedHeader : s.trustedHeader.xfwd = true ∨ s.trustedHeader.rfc = true
  nat64Prefix : ∀ a, s.nat64Prefix = some a → a.prefixlen = 96

/-- The numbers of a valid pair, of which the seconds keep 16 bits. -/
def ValidPair (pair : Option ℕ × Option ℕ) : Prop :=
  ∃ S L : ℕ, 1 ≤ S ∧ S ≤ 86400 ∧ 1 ≤ L ∧ L ≤ 1024 ∧ pair = (some (S % 2 ^ 16), some L)

/-- All pairs that count are valid, and within the arrays. -/
def ValidLimits (self : Limits) : Prop :=
  ∀ num < self.count, ∃ pair, LimitSettings.limitAt self num = .ok (some pair) ∧ ValidPair pair

/-- The entries that were ever written are in range. -/
structure WrittenLimits (a : Limits) : Prop where
  seconds : ∀ i s, a.seconds i = some s → ∃ S, 1 ≤ S ∧ S ≤ 86400 ∧ s = S % 2 ^ 16
  limits : ∀ i l, a.limits i = some l → 1 ≤ l ∧ l ≤ 1024

/-- The first realm of a name gets the limits that the lines give to the name. -/
def FirstLimited (realms : List CfgRealm) : Prop :=
  realms.Pairwise fun a b => a.name = b.name → b.limits.count = 0

structure SoundServers (servers : List CfgServer) (server : ℕ) : Prop where
  current : server < servers.length
  named : ∃ names : List Str, servers.map CfgServer.name = none :: names.map some ∧
    names.Nodup ∧ [] ∉ names
  sound : ∀ s ∈ servers, SoundServer s

structure Sound (a : Settings) : Prop where
  servers : SoundServers a.servers a.server
  resolveHosts : a.resolveHosts = -1 ∨ a.resolveHosts = 0 ∨ a.resolveHosts = 1
  sessionLimits : ValidLimits a.sessionLimits
  loginLimits : ValidLimits a.loginLimits
  realms : FirstLimited a.realms
  written : ∀ realm ∈ a.realms, WrittenLimits realm.limits

section values

theorem boolArg_cases {s : Str} {v : ℤ} (h : boolArg s = some v) : v = 0 ∨ v = 1 := by
  unfold boolArg at h
  split at h
  · exact Or.inr (Option.some.inj h).symm
  · split at h
    · exact Or.inl (Option.some.inj h).symm
    · cases h

theorem trustedHeaderArg_some {value : Str} {header : ProxyHeader}
    (h : trustedHeaderArg value = some header) : header.xfwd = true ∨ header.rfc = true := by
  unfold trustedHeaderArg at h
  repeat' split at h
  all_goals first
    | (obtain rfl := Option.some.inj h; simp)
    | cases h

/-- A valid value is a valid pair, and the seconds are in range even if the limit is not. -/
theorem limitsArg_range (value : Str) :
    (∀ s, (limitsArg value).1 = some s → ∃ S, 1 ≤ S ∧ S ≤ 86400 ∧ s = S % 2 ^ 16) ∧
      ∀ l, (limitsArg value).2 = some l →
        1 ≤ l ∧ l ≤ 1024 ∧ ∃ s, (limitsArg value).1 = some s := by
  rw [LimitSettings.limitsArg_eq]
  constructor
  · intro s hs
    obtain ⟨S, hS, rfl⟩ := Option.map_eq_some_iff.mp hs
    obtain ⟨hmin, hmax⟩ := LimitSettings.secondsArg_bounds hS
    exact ⟨S.toNat, by omega, by omega, rfl⟩
  · intro l hl
    obtain ⟨S, hS, hlimit⟩ := Option.bind_eq_some_iff.mp hl
    obtain ⟨L, hL, rfl⟩ := Option.map_eq_some_iff.mp hlimit
    obtain ⟨hmin, hmax⟩ := LimitSettings.intArg_bounds hL
    exact ⟨by omega, by omega, S.toNat % 2 ^ 16, by dsimp only; rw [hS]; rfl⟩

end values

section limits

variable {self next : Limits} {value : Str} {valid : Bool}

/-- What is read lies behind the limits that count. -/
theorem limitAt_read (h : self.read value = .ok (next, valid)) {num : ℕ} (hnum : num < self.count) :
    LimitSettings.limitAt next num = LimitSettings.limitAt self num := by
  have hsame := read_old h
  unfold LimitSettings.limitAt
  rw [← hsame.count]
  split
  · rfl
  split
  · next h8 => rw [hsame.seconds ⟨num, h8⟩ hnum, hsame.limits ⟨num, h8⟩ hnum]
  · rfl

theorem ValidLimits.read (hself : ValidLimits self) (h : self.read value = .ok (next, valid)) :
    ValidLimits next := by
  intro num hnum
  rw [← (read_old h).count] at hnum
  rw [limitAt_read h hnum]
  exact hself num hnum

/-- A valid value counts as the next pair. -/
theorem ValidLimits.raise (hself : ValidLimits self) (h : self.read value = .ok (next, true)) :
    ValidLimits next.raise := by
  have hold := ValidLimits.read hself h
  obtain ⟨hcount, hvalid, ⟨seconds, hseconds, hsnext⟩, limits, hlimits, hlnext⟩ :=
    LimitSettings.read_inv h
  obtain ⟨l, hl⟩ := Option.isSome_iff_exists.mp hvalid.symm
  obtain ⟨hlmin, hlmax, s, hs⟩ := (limitsArg_range value).2 l hl
  obtain ⟨S, hSmin, hSmax, hS⟩ := (limitsArg_range value).1 s hs
  obtain ⟨h8, hsentry⟩ := (LimitSettings.setEntry_inv hseconds).2 s hs
  obtain ⟨_, hlentry⟩ := (LimitSettings.setEntry_inv hlimits).2 l hl
  intro num hnum
  have hraise : ∀ n : ℕ, n ≤ next.count → LimitSettings.limitAt next.raise n =
      if h : n < 8 then .ok (some (next.seconds ⟨n, h⟩, next.limits ⟨n, h⟩)) else .error .outside := by
    intro n hn
    unfold LimitSettings.limitAt Limits.raise
    rw [if_neg (by dsimp only; omega)]
  rcases Nat.lt_or_ge num next.count with hlt | hge
  · obtain ⟨pair, hpair, hvalidPair⟩ := hold num hlt
    refine ⟨pair, ?_, hvalidPair⟩
    rw [hraise num hlt.le, ← hpair]
    unfold LimitSettings.limitAt
    rw [if_neg (by omega)]
  · have hlast : num = self.count := by
      unfold Limits.raise at hnum
      dsimp only at hnum
      omega
    refine ⟨(some s, some l), ?_, S, l, hSmin, hSmax, hlmin, hlmax, by rw [hS]⟩
    rw [hraise num (by omega)]
    subst hlast
    rw [dif_pos h8, hsnext, hlnext, hsentry, hlentry]

theorem ValidLimits.addLimit {key : Str} {tooMany : Warning} {ws : List Warning}
    (hself : ValidLimits self) (h : addLimit self key value tooMany = .ok (next, ws)) :
    ValidLimits next := by
  unfold Config.addLimit at h
  split at h
  · obtain ⟨rfl, _⟩ := Prod.mk.inj (Except.ok.inj h)
    exact hself
  obtain ⟨⟨limits, valid⟩, hread, h⟩ := bind_inv h
  cases valid with
  | false =>
    obtain ⟨rfl, _⟩ := Prod.mk.inj (Except.ok.inj h)
    exact hself.read hread
  | true =>
    obtain ⟨rfl, _⟩ := Prod.mk.inj (Except.ok.inj h)
    exact hself.raise hread

/-- An entry is an old one or the one that is written. -/
theorem setEntry_mem {entries entries' : Fin 8 → Option ℕ} {n : ℕ} {v : Option ℕ} {i : Fin 8}
    {s : ℕ} (h : setEntry entries n v = .ok entries') (hs : entries' i = some s) :
    entries i = some s ∨ v = some s := by
  obtain ⟨hold, hnew⟩ := LimitSettings.setEntry_inv h
  by_cases hi : (i : ℕ) = n
  · cases v with
    | none =>
      unfold setEntry at h
      rw [Except.ok.inj h]
      exact Or.inl hs
    | some w =>
      obtain ⟨h8, hentry⟩ := hnew w rfl
      obtain rfl : i = ⟨n, h8⟩ := Fin.ext hi
      exact Or.inr (hentry.symm.trans hs)
  · exact Or.inl ((hold i i.isLt hi).symm.trans hs)

theorem WrittenLimits.read (hself : WrittenLimits self) (h : self.read value = .ok (next, valid)) :
    WrittenLimits next := by
  obtain ⟨_, _, ⟨seconds, hseconds, hsnext⟩, limits, hlimits, hlnext⟩ := LimitSettings.read_inv h
  constructor
  · intro i s hs
    rw [hsnext] at hs
    rcases setEntry_mem hseconds hs with hold | hnew
    · exact hself.seconds i s hold
    · exact (limitsArg_range value).1 s hnew
  · intro i l hl
    rw [hlnext] at hl
    rcases setEntry_mem hlimits hl with hold | hnew
    · exact hself.limits i l hold
    · obtain ⟨hmin, hmax, _⟩ := (limitsArg_range value).2 l hnew
      exact ⟨hmin, hmax⟩

end limits

section realms

variable {realms next : List CfgRealm} {realm realm' : CfgRealm} {opt name value : Str}
  {ws : List Warning}

theorem addLimit_keeps (h : realm.addLimit opt value = .ok (realm', ws)) :
    realm'.name = realm.name ∧ realm'.checkers = realm.checkers ∧
      (WrittenLimits realm.limits → WrittenLimits realm'.limits) := by
  unfold CfgRealm.addLimit at h
  split at h
  · obtain ⟨rfl, _⟩ := Prod.mk.inj (Except.ok.inj h)
    exact ⟨rfl, rfl, id⟩
  obtain ⟨⟨limits, valid⟩, hread, h⟩ := bind_inv h
  obtain ⟨rfl, _⟩ := Prod.mk.inj (Except.ok.inj h)
  refine ⟨rfl, rfl, fun hwritten => ?_⟩
  have hlimits := hwritten.read hread
  exact ⟨hlimits.seconds, hlimits.limits⟩

/-- At most the first realm with the name is another one. -/
theorem addRealmLimit_first (h : addRealmLimit opt name value realms = .ok (next, ws)) :
    next = realms ∨ ∃ pre realm realm' post, realms = pre ++ realm :: post ∧
      realm.name = name ∧ (∀ r ∈ pre, r.name ≠ name) ∧ next = pre ++ realm' :: post ∧
      realm.addLimit opt value = .ok (realm', ws) := by
  induction realms generalizing next with
  | nil => exact Or.inl (Prod.mk.inj (Except.ok.inj h)).1.symm
  | cons first rest ih =>
    unfold addRealmLimit at h
    split at h
    · next hname =>
      obtain ⟨⟨realm', ws'⟩, hlimit, h⟩ := map_inv h
      obtain ⟨rfl, rfl⟩ := Prod.mk.inj h
      exact Or.inr ⟨[], first, realm', rest, rfl, hname, fun r hr => absurd hr List.not_mem_nil, rfl,
        hlimit⟩
    · next hname =>
      obtain ⟨⟨rest', ws'⟩, hrest, h⟩ := map_inv h
      obtain ⟨rfl, rfl⟩ := Prod.mk.inj h
      rcases ih hrest with heq | ⟨pre, realm, realm', post, heq, hrealm, hpre, hnext, hlimit⟩
      · exact Or.inl (congrArg (first :: ·) heq)
      · refine Or.inr ⟨first :: pre, realm, realm', post, by rw [heq, List.cons_append], hrealm,
          ?_, by dsimp only at hnext ⊢; rw [hnext, List.cons_append], hlimit⟩
        intro r hr
        rcases List.mem_cons.mp hr with rfl | hr
        · exact hname
        · exact hpre r hr

theorem FirstLimited.addRealmLimit (hself : FirstLimited realms)
    (h : addRealmLimit opt name value realms = .ok (next, ws)) : FirstLimited next := by
  rcases addRealmLimit_first h with rfl | ⟨pre, realm, realm', post, rfl, hname, hpre, rfl, hlimit⟩
  · exact hself
  obtain ⟨hsame, _, _⟩ := addLimit_keeps hlimit
  unfold FirstLimited at hself ⊢
  rw [List.pairwise_append, List.pairwise_cons] at hself ⊢
  obtain ⟨hbefore, ⟨hrealm, hpost⟩, hacross⟩ := hself
  refine ⟨hbefore, ⟨?_, hpost⟩, ?_⟩
  · rw [hsame]
    exact hrealm
  · intro a ha b hb heq
    rcases List.mem_cons.mp hb with rfl | hb
    · rw [hsame, hname] at heq
      exact absurd heq (hpre a ha)
    · exact hacross a ha b (List.mem_cons_of_mem _ hb) heq

theorem written_addRealmLimit (hself : ∀ r ∈ realms, WrittenLimits r.limits)
    (h : addRealmLimit opt name value realms = .ok (next, ws)) :
    ∀ r ∈ next, WrittenLimits r.limits := by
  rcases addRealmLimit_first h with rfl | ⟨pre, realm, realm', post, rfl, _, _, rfl, hlimit⟩
  · exact hself
  obtain ⟨_, _, hwritten⟩ := addLimit_keeps hlimit
  intro r hr
  rcases List.mem_append.mp hr with hr | hr
  · exact hself r (List.mem_append_left _ hr)
  rcases List.mem_cons.mp hr with rfl | hr
  · exact hwritten (hself realm (List.mem_append_right _ List.mem_cons_self))
  · exact hself r (List.mem_append_right _ (List.mem_cons_of_mem _ hr))

end realms

section servers

variable {s : CfgServer} {servers : List CfgServer} {server i : ℕ} {key value : Str}

theorem SoundServer.create (name : Option Str) : SoundServer (CfgServer.create name) :=
  ⟨show (1 : ℤ) ≤ 8080 ∧ (8080 : ℤ) ≤ 65535 by decide, Or.inl rfl,
    show (0 : ℤ) ≤ 0 ∧ (0 : ℤ) ≤ 16 by decide, Or.inl rfl, nofun⟩

theorem SoundServer.setOption (hself : SoundServer s) (key value : Str) :
    SoundServer (s.setOption key value).1 ∧ (s.setOption key value).1.name = s.name := by
  obtain ⟨hport, htls, hproxies, hheader, hprefix⟩ := hself
  unfold CfgServer.setOption
  split
  · cases harg : intArg value 1 65535 10 with
    | none => exact ⟨⟨hport, htls, hproxies, hheader, hprefix⟩, rfl⟩
    | some port =>
      exact ⟨⟨LimitSettings.intArg_bounds harg, htls, hproxies, hheader, hprefix⟩, rfl⟩
  split
  · exact ⟨⟨hport, htls, hproxies, hheader, hprefix⟩, rfl⟩
  split
  · cases protoArg value <;> exact ⟨⟨hport, htls, hproxies, hheader, hprefix⟩, rfl⟩
  split
  · cases harg : boolArg value with
    | none => exact ⟨⟨hport, htls, hproxies, hheader, hprefix⟩, rfl⟩
    | some tls => exact ⟨⟨hport, boolArg_cases harg, hproxies, hheader, hprefix⟩, rfl⟩
  split
  · exact ⟨⟨hport, htls, hproxies, hheader, hprefix⟩, rfl⟩
  split
  · exact ⟨⟨hport, htls, hproxies, hheader, hprefix⟩, rfl⟩
  split
  · cases harg : intArg value 0 16 10 with
    | none => exact ⟨⟨hport, htls, hproxies, hheader, hprefix⟩, rfl⟩
    | some proxies =>
      exact ⟨⟨hport, htls, LimitSettings.intArg_bounds harg, hheader, hprefix⟩, rfl⟩
  split
  · cases harg : trustedHeaderArg value with
    | none => exact ⟨⟨hport, htls, hproxies, hheader, hprefix⟩, rfl⟩
    | some header =>
      exact ⟨⟨hport, htls, hproxies, trustedHeaderArg_some harg, hprefix⟩, rfl⟩
  split
  · cases harg : nat64Arg value with
    | none => exact ⟨⟨hport, htls, hproxies, hheader, nofun⟩, rfl⟩
    | some a =>
      refine ⟨⟨hport, htls, hproxies, hheader, fun a' ha => ?_⟩, rfl⟩
      obtain rfl := Option.some.inj ha
      have hfilter := (Option.filter_eq_some_iff.mp harg).2
      exact eq_of_beq hfilter
  · exact ⟨⟨hport, htls, hproxies, hheader, hprefix⟩, rfl⟩

theorem SoundServers.setServerOption (hself : SoundServers servers server) (key value : Str) :
    SoundServers (setServerOption key value server servers).1 server := by
  rcases setServerOption_inv key value server servers with
    ⟨_, heq⟩ | ⟨pre, s, post, _, _, hservers, heq⟩
  · rw [heq]
    exact hself
  rw [heq]
  subst hservers
  obtain ⟨hsound, hname⟩ :=
    (hself.sound s (List.mem_append_right _ List.mem_cons_self)).setOption key value
  refine ⟨?_, ?_, ?_⟩
  · have hcurrent := hself.current
    rw [List.length_append, List.length_cons] at hcurrent ⊢
    exact hcurrent
  · have hnamed := hself.named
    rw [List.map_append, List.map_cons] at hnamed ⊢
    rw [hname]
    exact hnamed
  · intro t ht
    rcases List.mem_append.mp ht with ht | ht
    · exact hself.sound t (List.mem_append_left _ ht)
    rcases List.mem_cons.mp ht with rfl | ht
    · exact hsound
    · exact hself.sound t (List.mem_append_right _ (List.mem_cons_of_mem _ ht))

/-- The servers behind the first are searched for a name without a fault. -/
theorem findServer_spec {names : List Str} {name : Str}
    (h : servers.map CfgServer.name = names.map some) (i : ℕ) :
    (name ∉ names ∧ findServer (some name) servers i = .ok none) ∨
      ∃ n < servers.length, findServer (some name) servers i = .ok (some (i + n)) := by
  induction servers generalizing names i with
  | nil =>
    rw [List.map_nil] at h
    rw [List.map_eq_nil_iff.mp h.symm]
    exact Or.inl ⟨List.not_mem_nil, rfl⟩
  | cons s rest ih =>
    cases names with
    | nil => cases h
    | cons m names =>
      obtain ⟨hm, hrest⟩ := List.cons.inj h
      unfold findServer
      rw [hm]
      dsimp only
      by_cases heq : name = m
      · rw [if_pos heq]
        exact Or.inr ⟨0, Nat.zero_lt_succ _, rfl⟩
      rw [if_neg heq]
      rcases ih hrest (i + 1) with ⟨hnot, hfind⟩ | ⟨n, hn, hfind⟩
      · refine Or.inl ⟨fun hmem => ?_, hfind⟩
        rcases List.mem_cons.mp hmem with hname | hmem
        · exact heq hname
        · exact hnot hmem
      · refine Or.inr ⟨n + 1, Nat.succ_lt_succ hn, ?_⟩
        rw [hfind, Nat.add_assoc, Nat.add_comm 1 n]

theorem findServer_none {first : CfgServer} {rest : List CfgServer} (h : first.name = none)
    (i : ℕ) : findServer none (first :: rest) i = .ok (some i) := by
  unfold findServer
  rw [h]

theorem findServer_behind {first : CfgServer} {rest : List CfgServer} (h : first.name = none)
    (name : Str) (i : ℕ) :
    findServer (some name) (first :: rest) i = findServer (some name) rest (i + 1) := by
  rw [findServer.eq_def]
  dsimp only
  rw [h]

/-- A section that names a server makes it the current one, and the last if it is new. -/
theorem getServer_sound {a : Settings} (hself : SoundServers a.servers a.server)
    (name : Option Str) : ∃ servers server ws,
      getServer a name = .ok ({ a with servers, server }, ws) ∧ SoundServers servers server := by
  obtain ⟨hcurrent, ⟨names, hnames, hnodup, hempty⟩, hsound⟩ := hself
  obtain ⟨first, rest, hservers⟩ : ∃ first rest, a.servers = first :: rest := by
    cases hs : a.servers with
    | nil =>
      rw [hs] at hcurrent
      exact absurd hcurrent (Nat.not_lt_zero _)
    | cons first rest => exact ⟨first, rest, rfl⟩
  rw [hservers, List.map_cons] at hnames
  obtain ⟨hfirst, hrest⟩ := List.cons.inj hnames
  have hfound : ∀ n, n < a.servers.length → SoundServers a.servers n := fun n hn =>
    ⟨hn, ⟨names, by rw [hservers, List.map_cons, hfirst, hrest], hnodup, hempty⟩, hsound⟩
  unfold getServer
  dsimp only
  generalize (if name = some [] then [Warning.emptyServerName] else []) = ws
  by_cases hname : name = some []
  · rw [if_pos hname, hservers, findServer_none hfirst]
    exact ⟨_, 0, ws, rfl, hservers ▸ hfound 0 (by rw [hservers]; exact Nat.zero_lt_succ _)⟩
  rw [if_neg hname]
  cases name with
  | none =>
    rw [hservers, findServer_none hfirst]
    exact ⟨_, 0, ws, rfl, hservers ▸ hfound 0 (by rw [hservers]; exact Nat.zero_lt_succ _)⟩
  | some name =>
    have hne : name ≠ [] := fun heq => hname (congrArg some heq)
    have hsearch : findServer (some name) a.servers 0 = findServer (some name) rest 1 := by
      rw [hservers, findServer_behind hfirst]
    rw [hsearch]
    rcases findServer_spec hrest 1 with ⟨hnot, hfind⟩ | ⟨n, hn, hfind⟩
    · rw [hfind]
      refine ⟨_, a.servers.length, ws, rfl, ?_, ⟨names ++ [name], ?_, ?_, ?_⟩, ?_⟩
      · rw [List.length_append]
        exact Nat.lt_succ_self _
      · rw [List.map_append, hservers, List.map_cons, hfirst, hrest, List.map_append]
        rfl
      · exact List.nodup_append.mpr ⟨hnodup, List.nodup_singleton _, fun a ha b hb heq =>
          hnot (by rw [← List.mem_singleton.mp hb, ← heq]; exact ha)⟩
      · intro hmem
        rcases List.mem_append.mp hmem with hmem | hmem
        · exact hempty hmem
        · exact hne (List.mem_singleton.mp hmem).symm
      · intro s hs
        rcases List.mem_append.mp hs with hs | hs
        · exact hsound s hs
        · rw [List.mem_singleton.mp hs]
          exact SoundServer.create _
    · rw [hfind]
      refine ⟨_, 1 + n, ws, rfl, hfound (1 + n) ?_⟩
      rw [hservers, List.length_cons]
      omega

end servers

section lines

variable {accounts : Accounts} {a b : Settings} {key value start : Str} {ws : List Warning}

/-- Every section can be opened: the names of all servers but the first can be compared. -/
theorem Sound.openSection (h : Sound a) (start : Str) :
    ∃ b ws, openSection a start = .ok (b, ws) ∧ Sound b := by
  have hsame : ∀ currentSection, Sound { a with currentSection } := fun _ =>
    ⟨h.servers, h.resolveHosts, h.sessionLimits, h.loginLimits, h.realms, h.written⟩
  have hserver : ∀ name, ∃ b ws,
      getServer { a with currentSection := .server } name = .ok (b, ws) ∧ Sound b := by
    intro name
    obtain ⟨servers, server, ws, hget, hservers⟩ :=
      getServer_sound (a := { a with currentSection := .server }) h.servers name
    exact ⟨_, ws, hget, hservers, h.resolveHosts, h.sessionLimits, h.loginLimits, h.realms,
      h.written⟩
  unfold Config.openSection
  split
  · exact ⟨_, _, rfl, hsame .global⟩
  split
  · exact ⟨_, _, rfl, hsame .checkers⟩
  split
  · exact ⟨_, _, rfl, hsame .realms⟩
  split
  · split
    · exact hserver none
    · split
      · exact hserver _
      · exact ⟨_, _, rfl, hsame .invalid⟩
  · exact ⟨_, _, rfl, hsame .invalid⟩

theorem Sound.ids (h : Sound a) (uid gid : ℤ) : Sound { a with uid, gid } :=
  ⟨h.servers, h.resolveHosts, h.sessionLimits, h.loginLimits, h.realms, h.written⟩

theorem Sound.pidfile (h : Sound a) (pidfile : Option Str) : Sound { a with pidfile } :=
  ⟨h.servers, h.resolveHosts, h.sessionLimits, h.loginLimits, h.realms, h.written⟩

theorem Sound.parseUser (h : Sound a) (hparse : parseUser accounts a value = some b) :
    Sound b := by
  obtain ⟨_, _, _, _, heq⟩ := parseUser_ids hparse
  exact heq ▸ h.ids b.uid b.gid

theorem Sound.parseGroup (h : Sound a) (hparse : parseGroup accounts a value = some b) :
    Sound b := by
  obtain ⟨_, _, _, heq⟩ := parseGroup_ids hparse
  exact heq ▸ h.ids a.uid b.gid

theorem Sound.setOtherOption (h : Sound a) (hset : setOtherOption a key value = .ok (b, ws)) :
    Sound b := by
  unfold Config.setOtherOption at hset
  split at hset
  · split at hset
    · split at hset
      · next v hv =>
        obtain ⟨rfl, _⟩ := Prod.mk.inj (Except.ok.inj hset)
        exact ⟨h.servers, Or.inr (boolArg_cases hv), h.sessionLimits, h.loginLimits, h.realms,
          h.written⟩
      · obtain ⟨rfl, _⟩ := Prod.mk.inj (Except.ok.inj hset)
        exact h
    · obtain ⟨rfl, _⟩ := Prod.mk.inj (Except.ok.inj hset)
      exact h
  split at hset
  · obtain ⟨⟨limits, _⟩, hadd, hset⟩ := bind_inv hset
    obtain ⟨rfl, _⟩ := Prod.mk.inj (Except.ok.inj hset)
    exact ⟨h.servers, h.resolveHosts, h.sessionLimits.addLimit hadd, h.loginLimits, h.realms,
      h.written⟩
  split at hset
  · obtain ⟨⟨limits, _⟩, hadd, hset⟩ := bind_inv hset
    obtain ⟨rfl, _⟩ := Prod.mk.inj (Except.ok.inj hset)
    exact ⟨h.servers, h.resolveHosts, h.sessionLimits, h.loginLimits.addLimit hadd, h.realms,
      h.written⟩
  · obtain ⟨rfl, _⟩ := Prod.mk.inj (Except.ok.inj hset)
    exact h

theorem Sound.setOption (h : Sound a) (hset : setOption accounts a key value = .ok (b, ws)) :
    Sound b := by
  unfold Config.setOption at hset
  split at hset
  · split at hset
    · split at hset
      · next c hc =>
        obtain ⟨rfl, _⟩ := Prod.mk.inj (Except.ok.inj hset)
        exact h.parseUser hc
      · obtain ⟨rfl, _⟩ := Prod.mk.inj (Except.ok.inj hset)
        exact h
    · obtain ⟨rfl, _⟩ := Prod.mk.inj (Except.ok.inj hset)
      exact h
  split at hset
  · split at hset
    · split at hset
      · next c hc =>
        obtain ⟨rfl, _⟩ := Prod.mk.inj (Except.ok.inj hset)
        exact h.parseGroup hc
      · obtain ⟨rfl, _⟩ := Prod.mk.inj (Except.ok.inj hset)
        exact h
    · obtain ⟨rfl, _⟩ := Prod.mk.inj (Except.ok.inj hset)
      exact h
  · refine Sound.setOtherOption (a := setPidfile a key value) ?_ hset
    unfold setPidfile
    split
    · exact h.pidfile _
    · exact h

theorem Sound.checkerLine (h : Sound a) (hset : checkerLine a key value = .ok (b, ws)) :
    Sound b := by
  unfold ConfigLines.checkerLine at hset
  split at hset
  · cases hset
  obtain ⟨args, _, hset⟩ := map_inv hset
  cases args with
  | none =>
    obtain ⟨rfl, _⟩ := Prod.mk.inj hset
    exact h
  | some args =>
    obtain ⟨rfl, _⟩ := Prod.mk.inj hset
    exact ⟨h.servers, h.resolveHosts, h.sessionLimits, h.loginLimits, h.realms, h.written⟩

/-- A new realm has no limits yet, whatever its name is. -/
theorem Sound.addRealm (h : Sound a) (key : Str) (checkers : List Str) :
    Sound (addRealm a key checkers) := by
  refine ⟨h.servers, h.resolveHosts, h.sessionLimits, h.loginLimits, ?_, ?_⟩
  · refine List.pairwise_append.mpr ⟨h.realms, List.pairwise_singleton _ _, ?_⟩
    intro c _ d hd _
    rw [List.mem_singleton.mp hd]
  · intro r hr
    rcases List.mem_append.mp hr with hr | hr
    · exact h.written r hr
    · rw [List.mem_singleton.mp hr]
      exact ⟨nofun, nofun⟩

theorem Sound.realmLine (h : Sound a) (hset : realmLine a key value = .ok (b, ws)) :
    Sound b := by
  unfold ConfigLines.realmLine at hset
  split at hset
  · obtain ⟨⟨realms, _⟩, hadd, hset⟩ := map_inv hset
    obtain ⟨rfl, _⟩ := Prod.mk.inj hset
    exact ⟨h.servers, h.resolveHosts, h.sessionLimits, h.loginLimits,
      FirstLimited.addRealmLimit h.realms hadd, written_addRealmLimit h.written hadd⟩
  · obtain ⟨checkers, _, hset⟩ := map_inv hset
    cases checkers with
    | none =>
      obtain ⟨rfl, _⟩ := Prod.mk.inj hset
      exact h
    | some checkers =>
      obtain ⟨rfl, _⟩ := Prod.mk.inj hset
      exact h.addRealm key checkers

/-- What a line in a section does, whatever the section is. -/
theorem Sound.settingLine (h : Sound a) (hset : settingLine accounts a key value = .ok (b, ws)) :
    Sound b := by
  unfold IgnoredLines.settingLine at hset
  split at hset
  · obtain ⟨rfl, _⟩ := Prod.mk.inj (Except.ok.inj hset)
    exact h
  · exact h.setOption hset
  · exact h.checkerLine hset
  · exact h.realmLine hset
  · obtain ⟨rfl, _⟩ := Prod.mk.inj (Except.ok.inj hset)
    exact ⟨h.servers.setServerOption key value, h.resolveHosts, h.sessionLimits, h.loginLimits,
      h.realms, h.written⟩

end lines

/-! ### Runs -/

section runs

variable {accounts : Accounts} {P : Settings → Prop} {self next : Reader} {chunk : List Byte}

/-- What sections and settings keep, every call of the reader keeps. -/
theorem readChunk_keeps {cut : Bool}
    (hopen : ∀ {a b start ws}, P a → openSection a start = .ok (b, ws) → P b)
    (hset : ∀ {a b key value ws}, P a → settingLine accounts a key value = .ok (b, ws) → P b)
    (hself : P self.config) (h : readChunk accounts cut self chunk = .ok next) :
    P next.config := by
  cases hskip : self.skipping with
  | true =>
    obtain ⟨linebuf, hread⟩ := @readChunk_skip accounts cut self hskip chunk
    rw [← Except.ok.inj (hread.symm.trans h)]
    exact hself
  | false =>
    cases hline : lineOf chunk with
    | none =>
      obtain ⟨linebuf, hread⟩ := @readChunk_long accounts cut self chunk hskip hline
      rw [← Except.ok.inj (hread.symm.trans h)]
      exact hself
    | some line =>
      obtain ⟨h0, _⟩ := linebuf_eq hline []
      obtain ⟨rest, hread⟩ := @readChunk_line accounts self chunk line cut hskip hline
      obtain ⟨⟨⟨config, warnings⟩, m⟩, hrun, hnext⟩ := map_inv (hread.symm.trans h)
      rw [← hnext]
      show P config
      generalize hmemory : line ++ 0 :: (if cut then [] else rest) = memory at hrun
      have hdrop : memory.drop 0 = line ++ 0 :: (if cut then [] else rest) := hmemory.symm
      by_cases hheader : (line.dropWhile isspace).head? = some (chr '[')
      · rw [readLine_header hdrop hheader] at hrun
        rcases readSection_inv hrun with hmalformed | ⟨start, hstart⟩
        · rw [(Prod.mk.inj hmalformed).1]
          exact hself
        · exact hopen hself hstart
      · have hterm : Terminated line := fun hhead => absurd hhead hheader
        have hyields : Yields (readLine accounts self.config _) _
            (lineEffect accounts self.config line) := readLine_run hdrop h0 hterm
        unfold Yields at hyields
        rw [hrun] at hyields
        rcases lineEffect_setting accounts self.config hheader with
          ⟨key, value, _, heffect⟩ | ⟨_, ws, heffect⟩
        · exact hset hself (heffect.symm.trans hyields.symm)
        · rw [heffect] at hyields
          rw [(Prod.mk.inj (Except.ok.inj hyields)).1]
          exact hself

theorem readConfigFile_keeps {cut : Bool} {start : Settings} {linebuf file : List Byte}
    (hopen : ∀ {a b start ws}, P a → openSection a start = .ok (b, ws) → P b)
    (hset : ∀ {a b key value ws}, P a → settingLine accounts a key value = .ok (b, ws) → P b)
    (hstart : P { start with currentSection := .global })
    (h : readConfigFile accounts cut start linebuf file = .ok self) : P self.config :=
  foldlM_keeps (P := fun reader => P reader.config) hstart
    (fun _ _ _ _ _ _ _ hself hread => readChunk_keeps hopen hset hself hread)
    (chunks file) [] self (List.append_nil _).symm h

end runs

section arguments

variable {accounts : Accounts} {self next : Flags} {o : Str}

theorem Sound.optArg (h : Sound self.line.config) (hopt : optArg accounts self o = .ok next) :
    Sound next.line.config := by
  unfold Arguments.optArg at hopt
  split at hopt
  · cases hopt
  split at hopt
  · cases hopt
  next flag _ line hline =>
  obtain rfl := Except.ok.inj hopt
  unfold applyOption at hline
  split at hline
  · rw [← Option.some.inj hline]
    exact h
  split at hline
  · obtain ⟨config, hconfig, rfl⟩ := Option.map_eq_some_iff.mp hline
    exact h.parseGroup hconfig
  split at hline
  · rw [← Option.some.inj hline]
    exact h.pidfile _
  split at hline
  · obtain ⟨config, hconfig, rfl⟩ := Option.map_eq_some_iff.mp hline
    exact h.parseUser hconfig
  · cases hline

theorem Sound.readFlags (h : Sound self.line.config)
    (hread : readFlags accounts self o = .ok next) : Sound next.line.config := by
  have hresolve : ∀ {line : CommandLine} {v : ℤ}, Sound line.config → v = 0 ∨ v = 1 →
      Sound (Arguments.resolveHosts line v).config := fun hline hv =>
    ⟨hline.servers, Or.inr hv, hline.sessionLimits, hline.loginLimits, hline.realms, hline.written⟩
  induction o generalizing self with
  | nil =>
    obtain rfl := Except.ok.inj hread
    exact h
  | cons c rest ih =>
    unfold Arguments.readFlags at hread
    split at hread
    · exact h.optArg hread
    have hseen : Sound
        (if c ∈ onceflags then { self with seen := c :: self.seen } else self).line.config := by
      split
      · exact h
      · exact h
    generalize (if c ∈ onceflags then { self with seen := c :: self.seen } else self) = self₁
      at hread hseen
    dsimp only at hread
    split at hread
    · obtain ⟨self₂, hadded, hread⟩ := bind_inv hread
      unfold addArg at hadded
      split at hadded
      · cases hadded
      · refine ih ?_ hread
        rw [← Except.ok.inj hadded]
        exact hseen
    split at hread
    · refine ih ?_ hread
      exact hresolve hseen (Or.inl rfl)
    split at hread
    · refine ih ?_ hread
      exact hseen
    split at hread
    · cases hread
    split at hread
    · refine ih ?_ hread
      exact hresolve hseen (Or.inr rfl)
    split at hread
    · cases hread
    split at hread
    · refine ih ?_ hread
      exact hseen
    · exact hseen.optArg hread

theorem Sound.readArguments {start : Settings} {argv : List Str} (h : Sound start)
    (hread : readArguments accounts start argv = .ok next) : Sound next.line.config := by
  have hone : ∀ {self next : Flags} {o : Str}, Sound self.line.config →
      readArgument accounts self o = .ok next → Sound next.line.config := by
    intro self next o hself harg
    unfold readArgument at harg
    split at harg
    · obtain rfl := Except.ok.inj harg
      exact hself
    split at harg
    · split at harg
      · cases harg
      · exact hself.readFlags harg
    split at harg
    · exact hself.optArg harg
    · cases harg
  unfold Arguments.readArguments at hread
  obtain ⟨self, hfold, hread⟩ := bind_inv hread
  split at hread
  · cases hread
  obtain rfl := Except.ok.inj hread
  exact foldlM_keeps (P := fun flags => Sound flags.line.config) h
    (fun _ _ _ _ _ _ _ hself harg => hone hself harg) argv.tail [] self
    (List.append_nil _).symm hfold

end arguments

theorem sound_startSettings : Sound startSettings where
  servers := by
    refine ⟨Nat.zero_lt_one, ⟨[], rfl, List.nodup_nil, List.not_mem_nil⟩, ?_⟩
    intro s hs
    rw [List.mem_singleton.mp hs]
    exact SoundServer.create none
  resolveHosts := Or.inl rfl
  sessionLimits := nofun
  loginLimits := nofun
  realms := List.Pairwise.nil
  written := nofun

theorem reading_sound (accounts : Accounts) (argv : List Str) (linebuf file : List Byte)
    {flags : Flags} {reader : Reader}
    (hargs : readArguments accounts startSettings argv = .ok flags)
    (hfile : readConfigFile accounts false flags.line.config linebuf file = .ok reader) :
    Sound reader.config := by
  have hstart := sound_startSettings.readArguments hargs
  refine readConfigFile_keeps (fun ha hopen => ?_) (fun ha hset => ha.settingLine hset) ?_ hfile
  · obtain ⟨b, ws, hok, hb⟩ := ha.openSection _
    rw [(Prod.mk.inj (Except.ok.inj (hopen.symm.trans hok))).1]
    exact hb
  · exact ⟨hstart.servers, hstart.resolveHosts, hstart.sessionLimits, hstart.loginLimits,
      hstart.realms, hstart.written⟩

/-- Whatever the command line and the file are, the settings are sound when the file is read,
and any section can be opened behind it: no missing name of a server is compared. -/
theorem settings_sound (accounts : Accounts) (argv : List Str) (linebuf file : List Byte)
    {flags : Flags} {reader : Reader}
    (hargs : readArguments accounts startSettings argv = .ok flags)
    (hfile : readConfigFile accounts false flags.line.config linebuf file = .ok reader) :
    Sound reader.config ∧
      ∀ start, ∃ next ws, openSection reader.config start = .ok (next, ws) ∧ Sound next := by
  have hsound := reading_sound accounts argv linebuf file hargs hfile
  exact ⟨hsound, hsound.openSection⟩

section samples

/-- A second server, and a realm that is defined twice with a limit in between. -/
def twiceDefined : List Byte :=
  str "[server:b]\nport=80\n[realms]\nr=c\nr_login_fail_limit=60:5\nr=d\n"

theorem settings_sound_sample : ∃ flags reader,
    readArguments noAccounts startSettings [str "swad", str "-r"] = .ok flags ∧
      readConfigFile noAccounts false flags.line.config emptyBuf twiceDefined = .ok reader ∧
        Sound reader.config ∧ ∃ next ws,
          openSection reader.config (str "server:b") = .ok (next, ws) ∧ Sound next := by
  have hargs : readArguments noAccounts startSettings [str "swad", str "-r"] =
    .ok ⟨⟨{ startSettings with resolveHosts := 1 }, none, 0, 0⟩, false, [], [], []⟩ := rfl
  have hdefined : (readConfigFile noAccounts false { startSettings with resolveHosts := 1 } emptyBuf
      twiceDefined).toOption.isSome = true := by decide +kernel
  cases hfile : readConfigFile noAccounts false { startSettings with resolveHosts := 1 } emptyBuf
      twiceDefined with
  | error e =>
    rw [hfile] at hdefined
    cases hdefined
  | ok reader =>
    obtain ⟨hsound, hopen⟩ :=
      settings_sound noAccounts [str "swad", str "-r"] emptyBuf twiceDefined hargs hfile
    exact ⟨_, reader, hargs, hfile, hsound, hopen (str "server:b")⟩

end samples

end Swad.SoundSettings
