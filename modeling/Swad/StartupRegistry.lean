import Mathlib.Data.List.Range
import Swad.Authenticator
import Swad.HttpServers

/-!
The startup, from the settings to the checkers, the realms, the limiters and the servers. A
checker or a realm replaces an earlier one with its name, a limit without seconds divides by
zero, and without any server the startup fails. What an entry holds that was never written, and
which servers the network has, are parameters.
-/
namespace Swad.StartupRegistry

open Bytes Tables Config Ratelimit Authenticator PairedRuns SoundSettings LineIsolation
open FixedArrays Arguments HttpServers

/-- A loop of the startup over some limits, up to the first number that has none. -/
def limitsLoop (stale : ℕ → ℕ × ℕ) (self : Limits) : ℕ → ℕ → Option (List (ℕ × ℕ))
  | 0, _ => none
  | fuel + 1, num =>
    match LimitSettings.limitAt self num with
    | .error _ => none
    | .ok none => some []
    | .ok (some (seconds, limit)) =>
      (limitsLoop stale self fuel (num + 1)).map
        ((seconds.getD (u16 (stale num).1), limit.getD (u16 (stale num).2)) :: ·)

def limitsOf (stale : Limits → ℕ → ℕ × ℕ) (self : Limits) : Option (List (ℕ × ℕ)) :=
  limitsLoop (stale self) self (self.count + 1) 0

/-- The options are made when the first limit is added. -/
def addLimits (opts : Option RateLimitOpts) (limits : List (ℕ × ℕ)) :
    Option (Option RateLimitOpts) :=
  limits.foldlM (fun opts limit =>
    (LimitSettings.addLimit (opts.getD RateLimitOpts.create) limit.1 limit.2).map some) opts

/-- The limits of new sessions if none are configured. -/
def sessionDefaults : RateLimitOpts :=
  ((RateLimitOpts.create.addLimit 5 3).addLimit 60 5).addLimit 3600 25

section startup

variable {W N : Type} (pam : Option Str → CredentialsChecker W) (stale : Limits → ℕ → ℕ × ℕ)
  (createTcp : N → TcpServerOpts → Bool × N)

def registerChecker (checkers : Table Str (CredentialsChecker W)) (c : CfgChecker) :
    Table Str (CredentialsChecker W) :=
  match c.checkerClass with
  | .none => checkers
  | .pam => checkers.insert c.name (pam c.args.head?)

def createRealm (r : CfgRealm) : Option Realm := do
  let limits ← limitsOf stale r.limits
  let limitOpts ← addLimits none limits
  return ⟨r.checkers, limitOpts⟩

def registerRealm (realms : Table Str Realm) (r : CfgRealm) : Option (Table Str Realm) :=
  (createRealm stale r).map fun realm => realms.insert r.name realm

/-- The limiter of new sessions, and what logins need. -/
def register (config : Settings) : Option (RateLimit × Registry W) := do
  let sessionLimits ← limitsOf stale config.sessionLimits
  let createLimitOpts ← addLimits none sessionLimits
  let loginLimits ← limitsOf stale config.loginLimits
  let defaultLimitOpts ← addLimits none loginLimits
  let realms ← config.realms.foldlM (registerRealm stale) ∅
  return (RateLimit.create (createLimitOpts.getD sessionDefaults),
    ⟨config.checkers.foldl (registerChecker pam) ∅, realms, defaultLimitOpts⟩)

def EXIT_FAILURE : ℕ := 1

/-- What the startup leaves behind, with what it logs and returns. -/
structure Startup (W N : Type) where
  limiter : RateLimit
  registry : Registry W
  servers : List HttpServer
  net : N
  log : List Str
  rc : ℕ

/-- There is none if the startup divides by zero or reads behind an array. -/
def prestartup (net : N) (config : Settings) : Option (Startup W N) := do
  let (limiter, registry) ← register pam stale config
  let (servers, log, net) := createServers createTcp config config.servers net
  if servers = [] then
    return ⟨limiter, registry, servers, net, log ++ [str "Could not create any servers"],
      EXIT_FAILURE⟩
  else return ⟨limiter, registry, servers, net, log, 0⟩

end startup

/-! ### Limits -/

section limits

variable {stale : Limits → ℕ → ℕ × ℕ} {self : Limits}

/-- The numbers that are used for a limit. -/
def pairOf (stale : Limits → ℕ → ℕ × ℕ) (self : Limits) (num : ℕ) : ℕ × ℕ :=
  ((VisibleSettings.entry self.seconds num).getD (u16 (stale self num).1),
    (VisibleSettings.entry self.limits num).getD (u16 (stale self num).2))

def pairs (stale : Limits → ℕ → ℕ × ℕ) (self : Limits) : List (ℕ × ℕ) :=
  (List.range self.count).map (pairOf stale self)

theorem limitsLoop_eq (fuel num : ℕ) (hfuel : num + fuel = self.count + 1) (hfuel0 : 0 < fuel)
    (h8 : num ≤ 8) :
    limitsLoop (stale self) self fuel num =
      if self.count ≤ 8 then
        some ((List.range' num (self.count - num)).map (pairOf stale self))
      else none := by
  induction fuel generalizing num with
  | zero => cases hfuel0
  | succ fuel ih =>
    unfold limitsLoop LimitSettings.limitAt
    rcases Nat.lt_or_ge num self.count with hlt | hge
    · rw [if_neg (by omega)]
      by_cases hin : num < 8
      · rw [dif_pos hin]
        dsimp only
        rw [ih (num + 1) (by omega) (by omega) (by omega)]
        have hsplit : self.count - num = (self.count - (num + 1)) + 1 := by omega
        rw [hsplit, List.range'_succ, List.map_cons]
        by_cases hcount : self.count ≤ 8
        · rw [if_pos hcount, if_pos hcount, Option.map_some]
          congr 2
          unfold pairOf VisibleSettings.entry
          rw [dif_pos hin, dif_pos hin]
        · rw [if_neg hcount, if_neg hcount]
          rfl
      · rw [dif_neg hin, if_neg (by omega)]
    · rw [if_pos hge, if_pos (by omega), Nat.sub_eq_zero_of_le hge]
      rfl

/-- The loop stays in the arrays if at most eight limits count. -/
theorem limitsOf_eq : limitsOf stale self =
    if self.count ≤ 8 then some (pairs stale self) else none := by
  unfold limitsOf pairs
  rw [limitsLoop_eq (self.count + 1) 0 (Nat.zero_add _) (Nat.succ_pos _) (Nat.zero_le _),
    Nat.sub_zero, List.range_eq_range']

/-- Options for some limits: none, if there are no limits. -/
def optsOf : List (ℕ × ℕ) → Option RateLimitOpts
  | [] => none
  | limit :: limits => some ⟨(limit :: limits).map fun l => newLimit l.1 l.2⟩

theorem addLimit_zero (opts : RateLimitOpts) (limit : ℕ) :
    LimitSettings.addLimit opts 0 limit = none := rfl

theorem addLimit_some (opts : RateLimitOpts) {limit : ℕ × ℕ} (h0 : limit.1 ≠ 0)
    (hlt : limit.1 ≤ 65535) : LimitSettings.addLimit opts limit.1 limit.2 =
      some ⟨opts.limits ++ [newLimit limit.1 limit.2]⟩ := by
  have hres := newLimit_res_pos limit.1 limit.2 (Nat.pos_of_ne_zero h0) hlt
  exact LimitSettings.addLimit_eq opts (Nat.ne_of_gt hres)

theorem addLimits_some {limits : List (ℕ × ℕ)} (h : ∀ l ∈ limits, l.1 ≠ 0 ∧ l.1 ≤ 65535)
    (opts : RateLimitOpts) :
    addLimits (some opts) limits =
      some (some ⟨opts.limits ++ limits.map fun l => newLimit l.1 l.2⟩) := by
  induction limits generalizing opts with
  | nil =>
    rw [List.map_nil, List.append_nil]
    rfl
  | cons limit limits ih =>
    obtain ⟨hne, hlt⟩ := h limit List.mem_cons_self
    unfold addLimits
    rw [List.foldlM_cons, Option.getD_some, addLimit_some opts hne hlt]
    refine (ih (fun l hl => h l (List.mem_cons_of_mem _ hl)) _).trans ?_
    rw [List.append_assoc, List.map_cons]
    rfl

/-- All limits are added unless one of them has no seconds. -/
theorem addLimits_eq {limits : List (ℕ × ℕ)} (h : ∀ l ∈ limits, l.1 ≤ 65535) :
    addLimits none limits = if ∀ l ∈ limits, l.1 ≠ 0 then some (optsOf limits) else none := by
  by_cases hall : ∀ l ∈ limits, l.1 ≠ 0
  · rw [if_pos hall]
    cases limits with
    | nil => rfl
    | cons limit limits =>
      have hrest : ∀ l ∈ limits, l.1 ≠ 0 ∧ l.1 ≤ 65535 := fun l hl =>
        ⟨hall l (List.mem_cons_of_mem _ hl), h l (List.mem_cons_of_mem _ hl)⟩
      unfold addLimits
      rw [List.foldlM_cons, Option.getD_none,
        addLimit_some _ (hall limit List.mem_cons_self) (h limit List.mem_cons_self)]
      exact addLimits_some hrest _
  · rw [if_neg hall]
    rw [not_forall] at hall
    obtain ⟨l, hl⟩ := hall
    rw [Classical.not_imp, not_not] at hl
    obtain ⟨hmem, hzero⟩ := hl
    obtain ⟨pre, post, rfl⟩ := List.append_of_mem hmem
    unfold addLimits
    rw [List.foldlM_append]
    cases pre.foldlM (fun (opts : Option RateLimitOpts) (limit : ℕ × ℕ) =>
      (LimitSettings.addLimit (opts.getD RateLimitOpts.create) limit.1 limit.2).map some) none with
    | none => rfl
    | some opts =>
      rw [Option.bind_eq_bind, Option.bind_some, List.foldlM_cons, hzero, addLimit_zero]
      rfl

/-- The startup comes past these limits, and so do its divisions. -/
def Passable (stale : Limits → ℕ → ℕ × ℕ) (self : Limits) : Prop :=
  self.count ≤ 8 ∧ ∀ l ∈ pairs stale self, l.1 ≠ 0

/-- No number that counts has more than 16 bits. -/
def Narrow (stale : Limits → ℕ → ℕ × ℕ) (self : Limits) : Prop :=
  ∀ l ∈ pairs stale self, l.1 ≤ 65535

theorem narrow_written (h : WrittenLimits self) : Narrow stale self := by
  intro l hl
  obtain ⟨num, _, rfl⟩ := List.mem_map.mp hl
  have hstale : u16 (stale self num).1 ≤ 65535 := by
    unfold u16
    omega
  unfold pairOf VisibleSettings.entry
  dsimp only
  by_cases h8 : num < 8
  · rw [dif_pos h8]
    cases hs : self.seconds ⟨num, h8⟩ with
    | none => exact hstale
    | some s =>
      obtain ⟨S, _, _, rfl⟩ := h.seconds ⟨num, h8⟩ s hs
      rw [Option.getD_some]
      omega
  · rw [dif_neg h8]
    exact hstale

theorem pairOf_valid (h : ValidLimits self) {num : ℕ} (hnum : num < self.count) :
    ∃ S L : ℕ, 1 ≤ S ∧ S ≤ 86400 ∧ 1 ≤ L ∧ L ≤ 1024 ∧
      pairOf stale self num = (S % 2 ^ 16, L) := by
  obtain ⟨pair, hpair, S, L, hS, hS', hL, hL', rfl⟩ := h num hnum
  unfold LimitSettings.limitAt at hpair
  rw [if_neg (by omega)] at hpair
  split at hpair
  · next h8 =>
    obtain ⟨hs, hl⟩ := Prod.mk.inj (Option.some.inj (Except.ok.inj hpair))
    refine ⟨S, L, hS, hS', hL, hL', ?_⟩
    unfold pairOf VisibleSettings.entry
    rw [dif_pos h8, dif_pos h8, hs, hl]
    rfl
  · cases hpair

theorem narrow_valid (h : ValidLimits self) : Narrow stale self := by
  intro l hl
  obtain ⟨num, hnum, rfl⟩ := List.mem_map.mp hl
  obtain ⟨S, L, _, _, _, _, hpair⟩ := pairOf_valid h (List.mem_range.mp hnum)
  rw [hpair]
  dsimp only
  omega

theorem limits_added (h : Narrow stale self) :
    (limitsOf stale self).bind (addLimits none) = some (optsOf (pairs stale self)) ∧
        Passable stale self ∨
      (limitsOf stale self).bind (addLimits none) = none ∧ ¬ Passable stale self := by
  unfold Passable
  rw [limitsOf_eq]
  by_cases hcount : self.count ≤ 8
  · rw [if_pos hcount, Option.bind_some, addLimits_eq h]
    by_cases hall : ∀ l ∈ pairs stale self, l.1 ≠ 0
    · rw [if_pos hall]
      exact Or.inl ⟨rfl, hcount, hall⟩
    · rw [if_neg hall]
      exact Or.inr ⟨rfl, fun hand => hall hand.2⟩
  · rw [if_neg hcount]
    exact Or.inr ⟨rfl, fun hand => hcount hand.1⟩

end limits

/-! ### Checkers and realms -/

section tables

variable {W : Type} {pam : Option Str → CredentialsChecker W} {stale : Limits → ℕ → ℕ × ℕ}
  {checkers : Table Str (CredentialsChecker W)} {realms next : Table Str Realm}

/-- The last one with a name that is for PAM. -/
def lastPam (config : Settings) (name : Str) : Option CfgChecker :=
  config.checkers.reverse.find? fun c => c.name = name ∧ c.checkerClass = .pam

def lastRealm (config : Settings) (name : Str) : Option CfgRealm :=
  config.realms.reverse.find? fun r => r.name = name

theorem registerChecker_lookup (c : CfgChecker) (name : Str) :
    (registerChecker pam checkers c).lookup name =
      if c.name = name ∧ c.checkerClass = .pam then some (pam c.args.head?)
      else checkers.lookup name := by
  unfold registerChecker
  cases hclass : c.checkerClass with
  | none => rw [if_neg (by simp)]
  | pam =>
    dsimp only
    by_cases hname : c.name = name
    · rw [if_pos ⟨hname, rfl⟩, ← hname, AList.lookup_insert]
    · rw [if_neg fun hand => hname hand.1, AList.lookup_insert_ne (Ne.symm hname)]

theorem checkers_lookup (cs : List CfgChecker) (name : Str) :
    (cs.foldl (registerChecker pam) ∅).lookup name =
      (cs.reverse.find? fun c => c.name = name ∧ c.checkerClass = .pam).map fun c =>
        pam c.args.head? := by
  induction cs using List.reverseRecOn with
  | nil => rfl
  | append_singleton cs c ih =>
    rw [List.foldl_append, List.foldl_cons, List.foldl_nil, registerChecker_lookup, ih,
      List.reverse_append, List.reverse_singleton, List.singleton_append]
    by_cases hc : c.name = name ∧ c.checkerClass = .pam
    · rw [if_pos hc, List.find?_cons_of_pos (by simpa using hc)]
      rfl
    · rw [if_neg hc, List.find?_cons_of_neg (by simpa using hc)]

/-- A realm as it is registered. -/
def realmOf (stale : Limits → ℕ → ℕ × ℕ) (r : CfgRealm) : Realm :=
  ⟨r.checkers, optsOf (pairs stale r.limits)⟩

theorem createRealm_cases {r : CfgRealm} (h : Narrow stale r.limits) :
    createRealm stale r = some (realmOf stale r) ∧ Passable stale r.limits ∨
      createRealm stale r = none ∧ ¬ Passable stale r.limits := by
  have hcreate : createRealm stale r =
      ((limitsOf stale r.limits).bind (addLimits none)).map fun opts => ⟨r.checkers, opts⟩ := by
    unfold createRealm
    cases limitsOf stale r.limits with
    | none => rfl
    | some limits =>
      rw [Option.bind_some]
      show (addLimits none limits).bind _ = _
      cases addLimits none limits <;> rfl
  rw [hcreate]
  rcases limits_added h with ⟨hadd, hpass⟩ | ⟨hadd, hpass⟩
  · exact Or.inl ⟨by rw [hadd]; rfl, hpass⟩
  · exact Or.inr ⟨by rw [hadd]; rfl, hpass⟩

theorem registerRealms_cases {rs : List CfgRealm} (h : ∀ r ∈ rs, Narrow stale r.limits) :
    ((∃ realms, rs.foldlM (registerRealm stale) ∅ = some realms ∧ ∀ name, realms.lookup name =
        (rs.reverse.find? fun r => r.name = name).map (realmOf stale)) ∧
          ∀ r ∈ rs, Passable stale r.limits) ∨
      rs.foldlM (registerRealm stale) ∅ = none ∧ ¬ ∀ r ∈ rs, Passable stale r.limits := by
  induction rs using List.reverseRecOn with
  | nil => exact Or.inl ⟨⟨∅, rfl, fun _ => rfl⟩, nofun⟩
  | append_singleton rs r ih =>
    rw [List.foldlM_append]
    have hr := h r (List.mem_append_right _ (List.mem_singleton_self r))
    rcases ih fun r' hr' => h r' (List.mem_append_left _ hr') with
      ⟨⟨realms, hfold, hlookup⟩, hall⟩ | ⟨hfold, hnot⟩
    · rw [hfold, Option.bind_eq_bind, Option.bind_some, List.foldlM_cons]
      unfold registerRealm
      rcases createRealm_cases hr with ⟨hcreate, hpass⟩ | ⟨hcreate, hpass⟩
      · refine Or.inl ⟨⟨realms.insert r.name (realmOf stale r), by rw [hcreate]; rfl, ?_⟩, ?_⟩
        · intro name
          rw [List.reverse_append, List.reverse_singleton, List.singleton_append]
          by_cases hname : r.name = name
          · rw [List.find?_cons_of_pos (by simpa using hname), ← hname, AList.lookup_insert]
            rfl
          · rw [List.find?_cons_of_neg (by simpa using hname),
              AList.lookup_insert_ne (Ne.symm hname), hlookup]
        · intro r' hr'
          rcases List.mem_append.mp hr' with hr' | hr'
          · exact hall r' hr'
          · rw [List.mem_singleton.mp hr']
            exact hpass
      · refine Or.inr ⟨by rw [hcreate]; rfl, fun hall' => hpass ?_⟩
        exact hall' r (List.mem_append_right _ (List.mem_singleton_self r))
    · rw [hfold]
      exact Or.inr ⟨rfl, fun hall' => hnot fun r' hr' => hall' r' (List.mem_append_left _ hr')⟩

end tables

/-! ### From the settings to the registry -/

section startup

variable {W N : Type} {pam : Option Str → CredentialsChecker W} {stale : Limits → ℕ → ℕ × ℕ}
  {createTcp : N → TcpServerOpts → Bool × N} {net : N} {config : Settings}

/-- All the limits of the settings can be used. -/
structure AllPassable (stale : Limits → ℕ → ℕ × ℕ) (config : Settings) : Prop where
  session : Passable stale config.sessionLimits
  login : Passable stale config.loginLimits
  realms : ∀ r ∈ config.realms, Passable stale r.limits

/-- The checkers, the realms and the limits are those of the settings, the last of a name. -/
structure Registered (pam : Option Str → CredentialsChecker W) (stale : Limits → ℕ → ℕ × ℕ)
    (config : Settings) (limiter : RateLimit) (registry : Registry W) : Prop where
  session : limiter =
    RateLimit.create ((optsOf (pairs stale config.sessionLimits)).getD sessionDefaults)
  login : registry.defaultLimitOpts = optsOf (pairs stale config.loginLimits)
  checkers : ∀ name, registry.checkers.lookup name =
    (lastPam config name).map fun c => pam c.args.head?
  realms : ∀ name, registry.realms.lookup name = (lastRealm config name).map (realmOf stale)

theorem register_cases (h : Sound config) :
    (∃ limiter registry, register pam stale config = some (limiter, registry) ∧
        Registered pam stale config limiter registry ∧ AllPassable stale config) ∨
      register pam stale config = none ∧ ¬ AllPassable stale config := by
  have hstep : ∀ {α β : Type} (limits : Limits) (k : Option RateLimitOpts → Option β)
      (f : Option (List (ℕ × ℕ))), f = limitsOf stale limits →
      (f >>= fun l => addLimits none l >>= k) =
        ((limitsOf stale limits).bind (addLimits none)).bind k := by
    intro _ β limits k f hf
    rw [hf]
    cases limitsOf stale limits <;> rfl
  unfold register
  rw [hstep (α := Unit) config.sessionLimits _ _ rfl]
  rcases limits_added (narrow_valid h.sessionLimits) with
    ⟨hsession, hpass⟩ | ⟨hsession, hnot⟩
  · rw [hsession, Option.bind_some, hstep (α := Unit) config.loginLimits _ _ rfl]
    rcases limits_added (narrow_valid h.loginLimits) with
      ⟨hlogin, hpass'⟩ | ⟨hlogin, hnot⟩
    · rw [hlogin, Option.bind_some]
      rcases registerRealms_cases
          (fun r hr => narrow_written (h.written r hr)) with
        ⟨⟨realms, hrealms, hlookup⟩, hall⟩ | ⟨hrealms, hnot⟩
      · rw [hrealms]
        refine Or.inl ⟨_, _, rfl, ⟨rfl, rfl, ?_, hlookup⟩, hpass, hpass', hall⟩
        exact checkers_lookup config.checkers
      · rw [hrealms]
        exact Or.inr ⟨rfl, fun hall => hnot hall.realms⟩
    · rw [hlogin]
      exact Or.inr ⟨rfl, fun hall => hnot hall.login⟩
  · rw [hsession]
    exact Or.inr ⟨rfl, fun hall => hnot hall.session⟩

/-- A startup has registered everything, and fails if the network has no server. -/
theorem prestartup_some {started : Startup W N}
    (h : prestartup pam stale createTcp net config = some started) :
    register pam stale config = some (started.limiter, started.registry) ∧
      started.servers = ((attempts createTcp config net).filter Prod.snd).map
        (fun t => serverOf config t.1) ∧
      started.log = ((attempts createTcp config net).filter fun t => !t.2).map
          (fun t => couldNotCreate t.1.name) ++
        (if started.servers = [] then [str "Could not create any servers"] else []) ∧
      started.rc = if started.servers = [] then EXIT_FAILURE else 0 := by
  obtain ⟨hservers, hlog⟩ := @createServers_spec _ createTcp config config.servers net
  unfold prestartup at h
  obtain ⟨⟨limiter, registry⟩, hregister, h⟩ := Option.bind_eq_some_iff.mp h
  dsimp only at h
  split at h
  · next hnone =>
    obtain rfl := Option.some.inj h
    refine ⟨hregister, hservers, ?_, (if_pos hnone).symm⟩
    rw [if_pos hnone]
    exact congrArg (· ++ _) hlog
  · next hsome =>
    obtain rfl := Option.some.inj h
    refine ⟨hregister, hservers, ?_, (if_neg hsome).symm⟩
    rw [if_neg hsome, List.append_nil]
    exact hlog

theorem prestartup_isSome (pam : Option Str → CredentialsChecker W) (stale : Limits → ℕ → ℕ × ℕ)
    (createTcp : N → TcpServerOpts → Bool × N) (net : N) (config : Settings) :
    (prestartup pam stale createTcp net config).isSome = (register pam stale config).isSome := by
  unfold prestartup
  cases register pam stale config with
  | none => rfl
  | some registered =>
    show (if _ then _ else _ : Option (Startup W N)).isSome = true
    split
    · rfl
    · rfl

theorem registered (h : Sound config) {started : Startup W N}
    (hstart : prestartup pam stale createTcp net config = some started) :
    Registered pam stale config started.limiter started.registry := by
  obtain ⟨hregister, -⟩ := prestartup_some hstart
  rcases register_cases h with ⟨limiter', registry', heq, hregistered, _⟩ | ⟨heq, _⟩
  · obtain ⟨rfl, rfl⟩ := Prod.mk.inj (Option.some.inj (heq.symm.trans hregister))
    exact hregistered
  · rw [heq] at hregister
    cases hregister

/-- Something is created if the network has one of the servers. -/
theorem servers_ne_nil {started : Startup W N}
    (h : prestartup pam stale createTcp net config = some started) :
    started.servers ≠ [] ↔ ∃ t ∈ attempts createTcp config net, t.2 = true := by
  rw [(prestartup_some h).2.1, ne_eq, List.map_eq_nil_iff, List.filter_eq_nil_iff]
  simp only [not_forall, not_not, exists_prop]

/-- What a server that was created was made of. -/
theorem server_spec (h : Sound config) {started : Startup W N}
    (hstart : prestartup pam stale createTcp net config = some started) {server : HttpServer}
    (hserver : server ∈ started.servers) : ∃ s ∈ config.servers, server = serverOf config s ∧
      1 ≤ server.server.port ∧ server.server.port ≤ 65535 ∧ 0 ≤ server.trustedProxies ∧
        server.trustedProxies ≤ 16 ∧ ∃ pre, server.nat64Prefix = some pre ∧ pre.prefixlen = 96 := by
  rw [(prestartup_some hstart).2.1] at hserver
  obtain ⟨⟨s, made⟩, ht, rfl⟩ := List.mem_map.mp hserver
  have hs : s ∈ config.servers := (List.of_mem_zip (List.mem_filter.mp ht).1).1
  obtain ⟨hport, -, hproxies, -, hprefix⟩ := h.servers.sound s hs
  refine ⟨s, hs, rfl, hport.1, hport.2, le_max_left _ _, max_le (by decide) hproxies.2, _, rfl, ?_⟩
  cases hpre : s.nat64Prefix with
  | none => rfl
  | some pre => exact hprefix pre hpre

/-- The realm of a name that is registered has no limits if it is not the first. -/
theorem later_unlimited {realms : List CfgRealm} (h : FirstLimited realms) {name : Str}
    (htwice : 2 ≤ (realms.filter fun r => r.name = name).length) {r : CfgRealm}
    (hlast : (realms.reverse.find? fun r => r.name = name) = some r) : r.limits.count = 0 := by
  rw [List.find?_eq_some_iff_append] at hlast
  obtain ⟨hname, after, before, hrealms, hafter⟩ := hlast
  have hsplit : realms = before.reverse ++ r :: after.reverse := by
    rw [← List.reverse_reverse realms, hrealms, List.reverse_append, List.reverse_cons,
      List.append_assoc, List.singleton_append]
  have hname' : r.name = name := by simpa using hname
  have hnone : (after.reverse.filter fun r => r.name = name) = [] := by
    rw [List.filter_eq_nil_iff]
    intro a ha
    simpa using hafter a (List.mem_reverse.mp ha)
  rw [hsplit, List.filter_append, List.filter_cons_of_pos (by simpa using hname'), hnone,
    List.length_append, List.length_singleton] at htwice
  obtain ⟨first, hfirst⟩ := List.exists_mem_of_length_pos
    (show 0 < (before.reverse.filter fun r => r.name = name).length by omega)
  obtain ⟨hmem, hfirstName⟩ := List.mem_filter.mp hfirst
  unfold FirstLimited at h
  rw [hsplit, List.pairwise_append] at h
  have hsame : first.name = r.name := by
    rw [hname']
    simpa using hfirstName
  exact h.2.2 first hmem r List.mem_cons_self hsame

/-- The startup succeeds if all limits can be used and the network has one of the servers. -/
theorem succeeds_iff (h : Sound config) :
    (∃ started, prestartup pam stale createTcp net config = some started ∧ started.rc = 0) ↔
      AllPassable stale config ∧ ∃ t ∈ attempts createTcp config net, t.2 = true := by
  have hsome := prestartup_isSome pam stale createTcp net config
  rcases @register_cases _ pam stale _ h with ⟨limiter, registry, heq, _, hall⟩ | ⟨heq, hnot⟩
  · rw [heq] at hsome
    obtain ⟨started, hstart⟩ := Option.isSome_iff_exists.mp hsome
    obtain ⟨-, -, -, hrc⟩ := prestartup_some hstart
    rw [← servers_ne_nil hstart]
    constructor
    · rintro ⟨started', hstart', hzero⟩
      obtain rfl := Option.some.inj (hstart.symm.trans hstart')
      refine ⟨hall, fun hnone => ?_⟩
      rw [hrc, if_pos hnone] at hzero
      cases hzero
    · rintro ⟨-, hservers⟩
      exact ⟨started, hstart, hrc.trans (if_neg hservers)⟩
  · rw [heq] at hsome
    constructor
    · rintro ⟨started, hstart, -⟩
      rw [hstart] at hsome
      cases hsome
    · rintro ⟨hall, -⟩
      exact absurd hall hnot

/-- The limits of a realm that is defined again are the default ones. -/
theorem limitOpts_twice (h : Sound config) {started : Startup W N}
    (hstart : prestartup pam stale createTcp net config = some started) {name : Str}
    (htwice : 2 ≤ (config.realms.filter fun r => r.name = name).length) :
    ∃ realm, started.registry.realms.lookup name = some realm ∧
      limitOpts started.registry realm =
        (optsOf (pairs stale config.loginLimits)).getD defaultLimits := by
  have hregistered := registered h hstart
  cases hlast : lastRealm config name with
  | none =>
    unfold lastRealm at hlast
    rw [List.find?_eq_none] at hlast
    have hnil : (config.realms.filter fun r => r.name = name) = [] := by
      rw [List.filter_eq_nil_iff]
      exact fun r hr => hlast r (List.mem_reverse.mpr hr)
    rw [hnil] at htwice
    cases htwice
  | some r =>
    have hcount := later_unlimited h.realms htwice hlast
    refine ⟨realmOf stale r, by rw [hregistered.realms, hlast]; rfl, ?_⟩
    have hpairs : pairs stale r.limits = [] := by
      unfold pairs
      rw [hcount]
      rfl
    unfold limitOpts realmOf
    dsimp only
    rw [hpairs, hregistered.login]
    rfl

/-- Whatever was read, the startup succeeds if and only if at most eight limits count in each
place, none of them has no seconds, and the network has one of the servers. What it registers is
then known, and the limits of a realm that is defined again are the default ones. The servers are
those of the settings that the network has. -/
theorem startup_iff (pam : Option Str → CredentialsChecker W) (stale : Limits → ℕ → ℕ × ℕ)
    (createTcp : N → TcpServerOpts → Bool × N) (net : N) (accounts : Accounts) (argv : List Str)
    (linebuf file : List Byte) {flags : Flags} {reader : Reader}
    (hargs : readArguments accounts startSettings argv = .ok flags)
    (hfile : readConfigFile accounts false flags.line.config linebuf file = .ok reader) :
    ((∃ started, prestartup pam stale createTcp net reader.config = some started ∧
        started.rc = 0) ↔
      AllPassable stale reader.config ∧
        ∃ t ∈ attempts createTcp reader.config net, t.2 = true) ∧
      ∀ started, prestartup pam stale createTcp net reader.config = some started →
        Registered pam stale reader.config started.limiter started.registry ∧
          (∀ name, 2 ≤ (reader.config.realms.filter fun r => r.name = name).length →
            ∃ realm, started.registry.realms.lookup name = some realm ∧
              limitOpts started.registry realm =
                (optsOf (pairs stale reader.config.loginLimits)).getD defaultLimits) ∧
          started.servers = ((attempts createTcp reader.config net).filter Prod.snd).map
            (fun t => serverOf reader.config t.1) ∧
          (∀ server ∈ started.servers, 1 ≤ server.server.port ∧ server.server.port ≤ 65535 ∧
            0 ≤ server.trustedProxies ∧ server.trustedProxies ≤ 16 ∧
              ∃ pre, server.nat64Prefix = some pre ∧ pre.prefixlen = 96) ∧
          started.log = ((attempts createTcp reader.config net).filter fun t => !t.2).map
              (fun t => couldNotCreate t.1.name) ++
            (if started.servers = [] then [str "Could not create any servers"] else []) ∧
          started.rc = if started.servers = [] then EXIT_FAILURE else 0 := by
  have hsound := reading_sound accounts argv linebuf file hargs hfile
  refine ⟨succeeds_iff hsound, fun started hstart => ?_⟩
  obtain ⟨-, hservers, hlog, hrc⟩ := prestartup_some hstart
  refine ⟨registered hsound hstart, fun name htwice => limitOpts_twice hsound hstart htwice,
    hservers, fun server hserver => ?_, hlog, hrc⟩
  obtain ⟨s, -, -, hspec⟩ := server_spec hsound hstart hserver
  exact hspec

end startup

/-! ### Logins -/

section logins

variable {W N : Type} {registry : Registry W}

theorem login_accepted {self : AuthInfos} {name : Str} {attempt : Attempt} {w : W}
    (h : (login registry self name attempt w).verdict = .accepted) :
    ∃ realm u, registry.realms.lookup name = some realm ∧ u.username = attempt.user ∧
      AcceptedBy registry realm.checkers attempt.pw w u := by
  obtain ⟨-, -, haccepted⟩ := @login_spec _ registry self name attempt w _ rfl
  obtain ⟨realm, u, hrealm, -, hname, haccepts⟩ := haccepted h
  exact ⟨realm, u, hrealm, hname, haccepts⟩

/-- Whatever was read and whatever was done in the session before, a login is only accepted
if PAM accepts it, in the service of a checker that the last definition of the realm names and
in the world that the checkers before it leave when they refuse. -/
theorem accepted_by_service (pam : Option Str → CredentialsChecker W)
    (stale : Limits → ℕ → ℕ × ℕ) (createTcp : N → TcpServerOpts → Bool × N) (net : N)
    (accounts : Accounts) (argv : List Str) (linebuf file : List Byte) {flags : Flags}
    {reader : Reader} (hargs : readArguments accounts startSettings argv = .ok flags)
    (hfile : readConfigFile accounts false flags.line.config linebuf file = .ok reader)
    {started : Startup W N}
    (hstart : prestartup pam stale createTcp net reader.config = some started)
    {self : AuthInfos} {name : Str} {attempt : Attempt} {w : W}
    (h : (login started.registry self name attempt w).verdict = .accepted) :
    ∃ realm checker before after w₁, lastRealm reader.config name = some realm ∧
      realm.checkers = before ++ checker.name :: after ∧
        lastPam reader.config checker.name = some checker ∧
          Refused started.registry attempt.user attempt.pw before w w₁ ∧
            (pam checker.args.head? w₁ attempt.user attempt.pw).1.1 = true := by
  have hregistered := registered (reading_sound accounts argv linebuf file hargs hfile) hstart
  obtain ⟨realm, u, hrealm, hname, before, after, check, w₁, w₂, hsplit, hrefused, hlookup,
    hcheck⟩ := login_accepted h
  rw [hregistered.realms] at hrealm
  obtain ⟨r, hr, rfl⟩ := Option.map_eq_some_iff.mp hrealm
  rw [hregistered.checkers] at hlookup
  obtain ⟨c, hc, rfl⟩ := Option.map_eq_some_iff.mp hlookup
  have hchecker : c.name = u.checker := by
    have hfound := List.find?_some hc
    simp only [Bool.decide_and, Bool.and_eq_true, decide_eq_true_eq] at hfound
    exact hfound.1
  rw [hname] at hrefused hcheck
  rw [← hchecker] at hsplit hc
  refine ⟨r, c, before, after, w₁, hr, hsplit, hc, hrefused, ?_⟩
  rw [hcheck]

end logins

section samples

/-- A checker that accepts every login. -/
def acceptAll (_ : Option Str) : CredentialsChecker Unit := fun w _ _ => ((true, none), w)

def zeroMemory (_ : Limits) (_ : ℕ) : ℕ × ℕ := (0, 0)

/-- A port can be taken once. -/
def freePorts (used : List ℤ) (opts : TcpServerOpts) : Bool × List ℤ :=
  if opts.port ∈ used then (false, used) else (true, opts.port :: used)

/-- The second inquiry is accepted, in every service. -/
def acceptSecond (_ : Option Str) : CredentialsChecker ℕ :=
  fun inquiries _ _ => ((decide (inquiries = 1), none), inquiries + 1)

def twoCheckers : List Byte :=
  str "[checkers]\nd=pam:first\ne=pam:second\n[realms]\nr=d:e\n"

theorem exists_ok_of_any {r : Except ε α} {p : α → Bool} (h : r.toOption.any p = true) :
    ∃ a, r = .ok a ∧ p a = true := by
  cases r with
  | error e => cases h
  | ok a => exact ⟨a, rfl, h⟩

theorem noArguments : readArguments noAccounts startSettings [str "swad"] =
    .ok ⟨⟨startSettings, none, 0, 0⟩, false, [], [], []⟩ := rfl

/-- The limit of the realm is lost. One server of two is enough. -/
theorem startup_iff_sample : ∃ reader started realm,
    readConfigFile noAccounts false startSettings emptyBuf twiceDefined = .ok reader ∧
      prestartup acceptAll zeroMemory freePorts [8080] reader.config = some started ∧
        started.rc = 0 ∧ started.registry.realms.lookup (str "r") = some realm ∧
          limitOpts started.registry realm = defaultLimits ∧
            ¬ ∃ failed, prestartup acceptAll zeroMemory freePorts [8080, 80] reader.config =
              some failed ∧ failed.rc = 0 := by
  have hready : (readConfigFile noAccounts false startSettings emptyBuf twiceDefined).toOption.any
      (fun reader =>
        ((prestartup acceptAll zeroMemory freePorts [8080] reader.config).any (·.rc == 0)) &&
          decide (2 ≤ (reader.config.realms.filter fun r => r.name = str "r").length ∧
            reader.config.loginLimits.count = 0 ∧
              ∀ t ∈ attempts freePorts reader.config [8080, 80], t.2 = false)) = true := by
    decide +kernel
  obtain ⟨reader, hfile, hready⟩ := exists_ok_of_any hready
  simp only [Bool.and_eq_true, decide_eq_true_eq] at hready
  obtain ⟨hany, htwice, hcount, hused⟩ := hready
  obtain ⟨started, hstart, hrc⟩ := (Option.any_eq_true _ _).mp hany
  obtain ⟨-, hstarted⟩ := startup_iff acceptAll zeroMemory freePorts [8080] noAccounts
    [str "swad"] emptyBuf twiceDefined noArguments hfile
  obtain ⟨-, hdefault, -⟩ := hstarted started hstart
  obtain ⟨realm, hrealm, hlimits⟩ := hdefault (str "r") htwice
  refine ⟨reader, started, realm, hfile, hstart, beq_iff_eq.mp hrc, hrealm, ?_, fun hfailed => ?_⟩
  · rw [hlimits, pairs, hcount]
    rfl
  · obtain ⟨-, t, ht, hmade⟩ := (startup_iff acceptAll zeroMemory freePorts [8080, 80] noAccounts
      [str "swad"] emptyBuf twiceDefined noArguments hfile).1.mp hfailed
    rw [hused t ht] at hmade
    cases hmade

/-- The first checker of the realm refuses, and the second one is asked after that. -/
theorem accepted_by_service_sample : ∃ reader started checker before,
    readConfigFile noAccounts false startSettings emptyBuf twoCheckers = .ok reader ∧
      prestartup acceptSecond zeroMemory freePorts [] reader.config = some started ∧
        lastPam reader.config checker.name = some checker ∧
          Refused started.registry (str "user") (str "pw") before 0 1 := by
  have hready : (readConfigFile noAccounts false startSettings emptyBuf twoCheckers).toOption.any
      (fun reader => (prestartup acceptSecond zeroMemory freePorts [] reader.config).any
        fun started => decide ((login started.registry ∅ (str "r")
          ⟨str "user", str "pw", none, none⟩ 0).verdict = .accepted)) = true := by
    decide +kernel
  obtain ⟨reader, hfile, hready⟩ := exists_ok_of_any hready
  obtain ⟨started, hstart, hverdict⟩ := (Option.any_eq_true _ _).mp hready
  obtain ⟨realm, checker, before, after, w₁, -, -, hlast, hrefused, haccept⟩ :=
    accepted_by_service acceptSecond zeroMemory freePorts [] noAccounts [str "swad"] emptyBuf
      twoCheckers noArguments hfile hstart (of_decide_eq_true hverdict)
  obtain rfl : w₁ = 1 := of_decide_eq_true haccept
  exact ⟨reader, started, checker, before, hfile, hstart, hlast, hrefused⟩

end samples

end Swad.StartupRegistry
