import Swad.ConfigLines
import Swad.PairedRuns

/-!
What the rest of the server can see of the configuration, and when two configurations
cannot be told apart, whatever lines follow. They may differ in what is written behind the
limits that count, and in a server that has the default prefix or none.
-/
namespace Swad.VisibleSettings

open Bytes Util Ipaddr StringPrograms Config ConfigLines PairedRuns

/-! ### Accessors -/

def defaultPrefix : Option IpAddr := IpAddr.create (str "64:ff9b::/96")

def entry (entries : Fin 8 → Option ℕ) (num : ℕ) : Option ℕ :=
  if h : num < 8 then entries ⟨num, h⟩ else none

/-- The limit with a number, if it counts. -/
def limitAt (self : Limits) (num : ℕ) : Option (Option ℕ × Option ℕ) :=
  if self.count ≤ num then none else some (entry self.seconds num, entry self.limits num)

structure RealmView where
  name : Str
  checker : ℕ → Option Str
  loginFailLimit : ℕ → Option (Option ℕ × Option ℕ)

def realmView (self : CfgRealm) : RealmView :=
  ⟨self.name, fun num => self.checkers[num]?, limitAt self.limits⟩

/-- A server as it is seen, with the default prefix if it has none. -/
def serverView (self : CfgServer) : CfgServer :=
  { self with nat64Prefix := self.nat64Prefix.or defaultPrefix }

structure View where
  checker : ℕ → Option CfgChecker
  realm : ℕ → Option RealmView
  server : ℕ → Option CfgServer
  uid : ℤ
  gid : ℤ
  pidfile : Str
  resolveHosts : ℤ
  sessionLimit : ℕ → Option (Option ℕ × Option ℕ)
  loginFailLimit : ℕ → Option (Option ℕ × Option ℕ)

/-- The results of all accessors. -/
def view (defpidfile : Str) (self : Settings) : View where
  checker num := self.checkers[num]?
  realm num := self.realms[num]?.map realmView
  server num := self.servers[num]?.map serverView
  uid := self.uid
  gid := self.gid
  pidfile := self.pidfile.getD defpidfile
  resolveHosts := if self.resolveHosts < 0 then 0 else self.resolveHosts
  sessionLimit := limitAt self.sessionLimits
  loginFailLimit := limitAt self.loginLimits

/-! ### Settings that look alike -/

structure AlikeLimits (a b : Limits) : Prop where
  count : a.count = b.count
  seconds : ∀ i : Fin 8, i < a.count → a.seconds i = b.seconds i
  limits : ∀ i : Fin 8, i < a.count → a.limits i = b.limits i

def AlikeServer (a b : CfgServer) : Prop :=
  ∃ p, b = { a with nat64Prefix := p } ∧ a.nat64Prefix.or defaultPrefix = p.or defaultPrefix

def Alike (a b : Settings) : Prop :=
  ∃ servers sessionLimits loginLimits,
    b = { a with servers, sessionLimits, loginLimits } ∧
    List.Forall₂ AlikeServer a.servers servers ∧
    AlikeLimits a.sessionLimits sessionLimits ∧ AlikeLimits a.loginLimits loginLimits

/-- Both readers leave settings that look alike, and report the same. -/
abbrev AlikeResult : Result → Result → Prop :=
  Paired fun a b => Alike a.1 b.1 ∧ a.2 = b.2

section limits

variable {a b : Limits}

theorem AlikeLimits.refl (a : Limits) : AlikeLimits a a := ⟨rfl, fun _ _ => rfl, fun _ _ => rfl⟩

theorem AlikeLimits.limitAt_eq (h : AlikeLimits a b) : limitAt a = limitAt b := by
  funext num
  unfold limitAt entry
  rw [h.count]
  by_cases hle : b.count ≤ num
  · rw [if_pos hle, if_pos hle]
  rw [if_neg hle, if_neg hle]
  have hlt : num < a.count := by
    have hcount := h.count
    omega
  by_cases h8 : num < 8
  · rw [dif_pos h8, dif_pos h8, dif_pos h8, dif_pos h8, h.seconds ⟨num, h8⟩ hlt,
      h.limits ⟨num, h8⟩ hlt]
  · rw [dif_neg h8, dif_neg h8, dif_neg h8, dif_neg h8]

/-- What is written into two arrays is the same, wherever they were the same before. -/
theorem setEntry_alike {entries entries' : Fin 8 → Option ℕ} (n : ℕ) (v : Option ℕ)
    (h : ∀ i : Fin 8, i < n → entries i = entries' i) :
    Paired (fun x y => (∀ i : Fin 8, i < n → x i = y i) ∧
      (v.isSome → ∀ i : Fin 8, i < n + 1 → x i = y i)) (setEntry entries n v)
      (setEntry entries' n v) := by
  unfold setEntry
  split
  · exact ⟨h, fun hsome => nomatch hsome⟩
  · next w =>
    by_cases hn : n < 8
    · rw [dif_pos hn, dif_pos hn]
      have hnext : ∀ i : Fin 8, i < n + 1 →
          Function.update entries ⟨n, hn⟩ (some w) i = Function.update entries' ⟨n, hn⟩ (some w) i := by
        intro i hi
        by_cases heq : i = ⟨n, hn⟩
        · rw [heq, Function.update_self, Function.update_self]
        · have hlt : (i : ℕ) < n := by
            have hne : (i : ℕ) ≠ n := fun hval => heq (Fin.ext hval)
            omega
          rw [Function.update_of_ne heq, Function.update_of_ne heq, h i hlt]
      exact ⟨fun i hi => hnext i (by omega), fun _ => hnext⟩
    · rw [dif_neg hn, dif_neg hn]
      rfl

/-- A valid value is a pair. -/
theorem limitsArg_isSome (value : Str) (h : (limitsArg value).2.isSome) :
    (limitsArg value).1.isSome := by
  unfold limitsArg at h ⊢
  split at h
  · cases h
  · split at h
    · cases h
    · rfl

theorem AlikeLimits.read (h : AlikeLimits a b) (value : Str) :
    Paired (fun x y => AlikeLimits x.1 y.1 ∧ x.2 = y.2 ∧
      (x.2 = true → AlikeLimits x.1.raise y.1.raise)) (a.read value) (b.read value) := by
  have hvalid := limitsArg_isSome value
  unfold Limits.read
  generalize limitsArg value = arg at hvalid ⊢
  dsimp only
  rw [← h.count]
  apply paired_bind (setEntry_alike a.count arg.1 h.seconds)
  intro seconds seconds' hseconds
  apply paired_bind (setEntry_alike a.count arg.2 h.limits)
  intro limits limits' hlimits
  exact ⟨⟨rfl, hseconds.1, hlimits.1⟩, rfl, fun hsome =>
    ⟨rfl, hseconds.2 (hvalid hsome), hlimits.2 hsome⟩⟩

theorem addLimit_alike (h : AlikeLimits a b) (key value : Str) (tooMany : Warning) :
    Paired (fun x y => AlikeLimits x.1 y.1 ∧ x.2 = y.2) (addLimit a key value tooMany)
      (addLimit b key value tooMany) := by
  unfold addLimit
  rw [h.count]
  by_cases hfull : b.count = LIMITSSZ
  · rw [if_pos hfull, if_pos hfull]
    exact ⟨h, rfl⟩
  rw [if_neg hfull, if_neg hfull]
  apply paired_bind (h.read value)
  rintro ⟨limits, valid⟩ ⟨limits', valid'⟩ ⟨hlimits, hvalid, hraise⟩
  obtain rfl : valid = valid' := hvalid
  cases valid with
  | false => exact ⟨hlimits, rfl⟩
  | true => exact ⟨hraise rfl, rfl⟩

end limits

section servers

variable {key value : Str}

theorem AlikeServer.refl (a : CfgServer) : AlikeServer a a := ⟨a.nat64Prefix, rfl, rfl⟩

theorem AlikeServer.view_eq {a b : CfgServer} (h : AlikeServer a b) :
    serverView a = serverView b := by
  obtain ⟨p, rfl, hp⟩ := h
  unfold serverView
  rw [hp]

/-- All options but one leave the prefix alone. -/
theorem setOption_elsewhere (self : CfgServer) (p : Option IpAddr) (h : key ≠ str "nat64_prefix") :
    CfgServer.setOption { self with nat64Prefix := p } key value =
        ({ (self.setOption key value).1 with nat64Prefix := p }, (self.setOption key value).2) ∧
      (self.setOption key value).1.nat64Prefix = self.nat64Prefix := by
  unfold CfgServer.setOption
  simp only [h, if_false]
  split
  · cases intArg value 1 65535 10 <;> exact ⟨rfl, rfl⟩
  split
  · exact ⟨rfl, rfl⟩
  split
  · cases protoArg value <;> exact ⟨rfl, rfl⟩
  split
  · cases boolArg value <;> exact ⟨rfl, rfl⟩
  split
  · exact ⟨rfl, rfl⟩
  split
  · exact ⟨rfl, rfl⟩
  split
  · cases intArg value 0 16 10 <;> exact ⟨rfl, rfl⟩
  split
  · cases trustedHeaderArg value <;> exact ⟨rfl, rfl⟩
  · exact ⟨rfl, rfl⟩

theorem setOption_nat64 (self : CfgServer) :
    self.setOption (str "nat64_prefix") value = ({ self with nat64Prefix := nat64Arg value },
      if (nat64Arg value).isSome then [] else [.invalidSetting value (str "nat64_prefix")]) := by
  unfold CfgServer.setOption
  have h : str "nat64_prefix" ≠ str "port" ∧ str "nat64_prefix" ≠ str "listen" ∧
      str "nat64_prefix" ≠ str "proto" ∧ str "nat64_prefix" ≠ str "tls" ∧
      str "nat64_prefix" ≠ str "tls_cert_file" ∧ str "nat64_prefix" ≠ str "tls_key_file" ∧
      str "nat64_prefix" ≠ str "trusted_proxies" ∧ str "nat64_prefix" ≠ str "trusted_header" := by
    decide
  simp only [h, if_false, if_true]
  cases nat64Arg value <;> rfl

/-- The same setting, whatever the prefix was. -/
theorem AlikeServer.setOption {a b : CfgServer} (h : AlikeServer a b) :
    AlikeServer (a.setOption key value).1 (b.setOption key value).1 ∧
      (a.setOption key value).2 = (b.setOption key value).2 := by
  obtain ⟨p, rfl, hp⟩ := h
  by_cases hkey : key = str "nat64_prefix"
  · subst hkey
    rw [setOption_nat64, setOption_nat64]
    exact ⟨AlikeServer.refl _, rfl⟩
  · obtain ⟨heq, hold⟩ := @setOption_elsewhere key value a p hkey
    rw [heq]
    exact ⟨⟨p, rfl, by rw [hold, hp]⟩, rfl⟩

theorem serverView_eq {as bs : List CfgServer} (h : List.Forall₂ AlikeServer as bs) :
    as.map serverView = bs.map serverView := by
  induction h with
  | nil => rfl
  | cons hab _ ih => rw [List.map_cons, List.map_cons, hab.view_eq, ih]

theorem setServerOption_alike {i : ℕ} {as bs : List CfgServer}
    (h : List.Forall₂ AlikeServer as bs) :
    List.Forall₂ AlikeServer (setServerOption key value i as).1 (setServerOption key value i bs).1 ∧
      (setServerOption key value i as).2 = (setServerOption key value i bs).2 := by
  induction h generalizing i with
  | nil => cases i <;> exact ⟨List.Forall₂.nil, rfl⟩
  | cons hab hrest ih =>
    cases i with
    | zero => exact ⟨List.Forall₂.cons hab.setOption.1 hrest, hab.setOption.2⟩
    | succ i => exact ⟨List.Forall₂.cons hab ih.1, ih.2⟩

theorem findServer_alike {as bs : List CfgServer} (h : List.Forall₂ AlikeServer as bs)
    (name : Option Str) (i : ℕ) : findServer name as i = findServer name bs i := by
  induction h generalizing i with
  | nil => rfl
  | cons hab hrest ih =>
    obtain ⟨p, rfl, hp⟩ := hab
    unfold findServer
    rw [ih]

end servers

section settings

variable {accounts : Accounts} {a b : Settings} {key value : Str}

theorem Alike.refl (a : Settings) : Alike a a :=
  ⟨a.servers, a.sessionLimits, a.loginLimits, rfl,
    List.forall₂_same.mpr fun s _ => AlikeServer.refl s,
    AlikeLimits.refl _, AlikeLimits.refl _⟩

theorem Alike.view_eq (h : Alike a b) (defpidfile : Str) : view defpidfile a = view defpidfile b := by
  obtain ⟨servers, sessionLimits, loginLimits, rfl, hservers, hsession, hlogin⟩ := h
  have hserver : (fun num : ℕ => a.servers[num]?.map serverView) =
      fun num : ℕ => servers[num]?.map serverView := by
    funext num
    rw [← List.getElem?_map, ← List.getElem?_map, serverView_eq hservers]
  unfold view
  dsimp only
  rw [hsession.limitAt_eq, hlogin.limitAt_eq, hserver]

theorem setOtherOption_alike (h : Alike a b) :
    AlikeResult (setOtherOption a key value) (setOtherOption b key value) := by
  obtain ⟨servers, sessionLimits, loginLimits, rfl, hservers, hsession, hlogin⟩ := h
  unfold setOtherOption
  dsimp only
  split
  · split
    · split
      · exact ⟨⟨_, _, _, rfl, hservers, hsession, hlogin⟩, rfl⟩
      · exact ⟨⟨_, _, _, rfl, hservers, hsession, hlogin⟩, rfl⟩
    · exact ⟨⟨_, _, _, rfl, hservers, hsession, hlogin⟩, rfl⟩
  split
  · apply paired_bind (addLimit_alike hsession _ _ _)
    rintro ⟨limits, _⟩ ⟨limits', _⟩ ⟨hlimits, hws⟩
    exact ⟨⟨_, _, _, rfl, hservers, hlimits, hlogin⟩, hws⟩
  split
  · apply paired_bind (addLimit_alike hlogin _ _ _)
    rintro ⟨limits, _⟩ ⟨limits', _⟩ ⟨hlimits, hws⟩
    exact ⟨⟨_, _, _, rfl, hservers, hsession, hlimits⟩, hws⟩
  · exact ⟨⟨_, _, _, rfl, hservers, hsession, hlogin⟩, rfl⟩

theorem setPidfile_alike (h : Alike a b) :
    Alike (setPidfile a key value) (setPidfile b key value) := by
  obtain ⟨servers, sessionLimits, loginLimits, rfl, hservers, hsession, hlogin⟩ := h
  unfold setPidfile
  split
  all_goals exact ⟨_, _, _, rfl, hservers, hsession, hlogin⟩

theorem parseUser_alike (h : Alike a b) (s : Str) :
    (parseUser accounts a s = none ∧ parseUser accounts b s = none) ∨
      ∃ a' b', parseUser accounts a s = some a' ∧ parseUser accounts b s = some b' ∧
        Alike a' b' := by
  obtain ⟨servers, sessionLimits, loginLimits, rfl, hservers, hsession, hlogin⟩ := h
  unfold parseUser
  cases longArg s with
  | none =>
    cases accounts.getpwnam s with
    | none => exact Or.inl ⟨rfl, rfl⟩
    | some p => exact Or.inr ⟨_, _, rfl, rfl, _, _, _, rfl, hservers, hsession, hlogin⟩
  | some tuid =>
    dsimp only
    cases accounts.getpwuid (toId tuid) with
    | none => exact Or.inl ⟨rfl, rfl⟩
    | some p => exact Or.inr ⟨_, _, rfl, rfl, _, _, _, rfl, hservers, hsession, hlogin⟩

theorem parseGroup_alike (h : Alike a b) (s : Str) :
    (parseGroup accounts a s = none ∧ parseGroup accounts b s = none) ∨
      ∃ a' b', parseGroup accounts a s = some a' ∧ parseGroup accounts b s = some b' ∧
        Alike a' b' := by
  obtain ⟨servers, sessionLimits, loginLimits, rfl, hservers, hsession, hlogin⟩ := h
  unfold parseGroup
  cases longArg s with
  | none =>
    cases accounts.getgrnam s with
    | none => exact Or.inl ⟨rfl, rfl⟩
    | some g => exact Or.inr ⟨_, _, rfl, rfl, _, _, _, rfl, hservers, hsession, hlogin⟩
  | some tgid =>
    dsimp only
    cases accounts.getgrgid (toId tgid) with
    | none => exact Or.inl ⟨rfl, rfl⟩
    | some g => exact Or.inr ⟨_, _, rfl, rfl, _, _, _, rfl, hservers, hsession, hlogin⟩

theorem Alike.uid_eq (h : Alike a b) : a.uid = b.uid := by
  obtain ⟨_, _, _, rfl, _⟩ := h
  rfl

theorem Alike.gid_eq (h : Alike a b) : a.gid = b.gid := by
  obtain ⟨_, _, _, rfl, _⟩ := h
  rfl

theorem Alike.section_eq (h : Alike a b) : a.currentSection = b.currentSection := by
  obtain ⟨_, _, _, rfl, _⟩ := h
  rfl

theorem setOption_alike (h : Alike a b) :
    AlikeResult (setOption accounts a key value) (setOption accounts b key value) := by
  unfold setOption
  rw [h.uid_eq, h.gid_eq]
  split
  · split
    · rcases @parseUser_alike accounts a b h value with ⟨ha, hb⟩ | ⟨a', b', ha, hb, halike⟩
      · rw [ha, hb]
        exact ⟨h, rfl⟩
      · rw [ha, hb]
        exact ⟨halike, rfl⟩
    · exact ⟨h, rfl⟩
  split
  · split
    · rcases @parseGroup_alike accounts a b h value with ⟨ha, hb⟩ | ⟨a', b', ha, hb, halike⟩
      · rw [ha, hb]
        exact ⟨h, rfl⟩
      · rw [ha, hb]
        exact ⟨halike, rfl⟩
    · exact ⟨h, rfl⟩
  · exact setOtherOption_alike (setPidfile_alike h)

theorem getServer_alike (h : Alike a b) (name : Option Str) :
    AlikeResult (getServer a name) (getServer b name) := by
  obtain ⟨servers, sessionLimits, loginLimits, rfl, hservers, hsession, hlogin⟩ := h
  unfold getServer
  dsimp only
  rw [← findServer_alike hservers]
  apply paired_bind (paired_refl (R := Eq) (fun _ => rfl) _)
  rintro found _ rfl
  cases found with
  | none =>
    refine ⟨⟨_, _, _, ?_, List.rel_append hservers (List.Forall₂.cons (AlikeServer.refl _) .nil),
      hsession, hlogin⟩, rfl⟩
    rw [hservers.length_eq]
  | some i => exact ⟨⟨_, _, _, rfl, hservers, hsession, hlogin⟩, rfl⟩

theorem Alike.enter (h : Alike a b) (name : CfgSection) :
    Alike { a with currentSection := name } { b with currentSection := name } := by
  obtain ⟨servers, sessionLimits, loginLimits, rfl, hservers, hsession, hlogin⟩ := h
  exact ⟨_, _, _, rfl, hservers, hsession, hlogin⟩

theorem openSection_alike (h : Alike a b) (start : Str) :
    AlikeResult (openSection a start) (openSection b start) := by
  unfold openSection
  split
  · exact ⟨h.enter _, rfl⟩
  split
  · exact ⟨h.enter _, rfl⟩
  split
  · exact ⟨h.enter _, rfl⟩
  split
  · split
    · exact getServer_alike (h.enter _) _
    · split
      · exact getServer_alike (h.enter _) _
      · exact ⟨h.enter _, rfl⟩
  · exact ⟨h.enter _, rfl⟩

theorem sectionLine_alike (h : Alike a b) (lp : Str) :
    AlikeResult (sectionLine a lp) (sectionLine b lp) := by
  unfold sectionLine
  dsimp only
  split
  · exact ⟨h, rfl⟩
  split
  · exact ⟨h, rfl⟩
  split
  · exact ⟨h, rfl⟩
  split
  · exact openSection_alike h _
  · exact ⟨h, rfl⟩

theorem checkerLine_alike (h : Alike a b) :
    AlikeResult (checkerLine a key value) (checkerLine b key value) := by
  unfold checkerLine
  split
  · rfl
  · apply paired_map (paired_refl (R := Eq) (fun _ => rfl) _)
    rintro args _ rfl
    cases args with
    | none => exact ⟨h, rfl⟩
    | some args =>
      obtain ⟨servers, sessionLimits, loginLimits, rfl, hservers, hsession, hlogin⟩ := h
      exact ⟨⟨_, _, _, rfl, hservers, hsession, hlogin⟩, rfl⟩

theorem realmLine_alike (h : Alike a b) :
    AlikeResult (realmLine a key value) (realmLine b key value) := by
  obtain ⟨servers, sessionLimits, loginLimits, rfl, hservers, hsession, hlogin⟩ := h
  unfold realmLine
  split
  · apply paired_map (paired_refl (R := Eq) (fun _ => rfl) _)
    rintro realms _ rfl
    exact ⟨⟨_, _, _, rfl, hservers, hsession, hlogin⟩, rfl⟩
  · apply paired_map (paired_refl (R := Eq) (fun _ => rfl) _)
    rintro checkers _ rfl
    cases checkers with
    | none => exact ⟨⟨_, _, _, rfl, hservers, hsession, hlogin⟩, rfl⟩
    | some checkers => exact ⟨⟨_, _, _, rfl, hservers, hsession, hlogin⟩, rfl⟩

theorem serverLine_alike (h : Alike a b) :
    Alike (serverLine a key value).1 (serverLine b key value).1 ∧
      (serverLine a key value).2 = (serverLine b key value).2 := by
  obtain ⟨servers, sessionLimits, loginLimits, rfl, hservers, hsession, hlogin⟩ := h
  have hset := @setServerOption_alike key value a.server a.servers servers hservers
  exact ⟨⟨_, _, _, rfl, hset.1, hsession, hlogin⟩, hset.2⟩

/-- The same line does the same to settings that look alike. -/
theorem lineEffect_alike (h : Alike a b) (line : Str) :
    AlikeResult (lineEffect accounts a line) (lineEffect accounts b line) := by
  unfold lineEffect
  dsimp only
  rw [h.section_eq]
  split
  · exact ⟨h, rfl⟩
  split
  · exact ⟨h, rfl⟩
  split
  · exact sectionLine_alike h _
  split
  · exact ⟨h, rfl⟩
  split
  · exact ⟨h, rfl⟩
  split
  · exact ⟨h, rfl⟩
  · exact setOption_alike h
  · exact checkerLine_alike h
  · exact realmLine_alike h
  · exact serverLine_alike h

end settings

end Swad.VisibleSettings
