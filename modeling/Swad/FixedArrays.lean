import Swad.Arguments
import Swad.IgnoredLines

/-!
The arrays of eight entries that the readers fill: the arguments of a checker, the checkers
of a realm, and the limits of a realm, of sessions and of logins. The tests compare a number
of entries with the size of an array in bytes, so a ninth entry is written behind the array,
or counts; and a checker without a name of its class is looked at all the same. The readers
keep to their arrays exactly as long as no line asks for more.
-/
namespace Swad.FixedArrays

open Bytes Util StringPrograms Config ConfigLines LineIsolation VisibleSettings PairedRuns
  FileChunks IgnoredLines

/-- The key and the value of a line that is a setting. -/
def setting (line : Str) : Option (Str × Str) :=
  match line.dropWhile isspace with
  | [] => none
  | c :: lp => if isComment c ∨ c = chr '[' then none else keyValue (c :: lp)

/-- The limits that a setting adds to. -/
def limitsOf (self : Settings) (key : Str) : Option Limits :=
  match self.currentSection with
  | .global =>
    if key = str "session_limit" then some self.sessionLimits
    else if key = str "login_fail_limit" then some self.loginLimits
    else none
  | .realms => (limitKey key).bind fun n =>
      (self.realms.find? (·.name = key.take n)).map (·.limits)
  | _ => none

/-- The list in the value of a setting. -/
def listOf (self : Settings) (key value : Str) : List Str :=
  match self.currentSection with
  | .checkers => (tokensOf (chr ':') value).drop 1
  | .realms => if limitKey key = none then tokensOf (chr ':') value else []
  | _ => []

/-- How many entries there are in an array, with those of this setting. -/
def entries (self : Settings) (key value : Str) : ℕ :=
  match limitsOf self key with
  | some limits => limits.count + 1
  | none => (listOf self key value).length

/-- A checker has a class, and only eight entries are asked for, unless the test stops the
ninth or nothing is written for it. -/
structure Fits (set : Settings) (key value : Str) : Prop where
  named : set.currentSection = .checkers → tokensOf (chr ':') value ≠ []
  room : 8 < entries set key value → ∃ limits, limitsOf set key = some limits ∧
    (limits.count = LIMITSSZ ∨ set.currentSection = .global ∧ (limitsArg value).1 = none)

/-- No array has more than eight entries. -/
structure Within (set : Settings) : Prop where
  checkers : ∀ checker ∈ set.checkers, checker.args.length ≤ 8
  realms : ∀ realm ∈ set.realms, realm.limits.count ≤ 8 ∧ realm.checkers.length ≤ 8
  sessionLimits : set.sessionLimits.count ≤ 8
  loginLimits : set.loginLimits.count ≤ 8

/-- The arrays are the same. -/
structure SameArrays (a b : Settings) : Prop where
  checkers : b.checkers = a.checkers
  realms : b.realms = a.realms
  sessionLimits : b.sessionLimits = a.sessionLimits
  loginLimits : b.loginLimits = a.loginLimits

theorem SameArrays.within {a b : Settings} (h : SameArrays a b) (ha : Within a) : Within b where
  checkers := h.checkers ▸ ha.checkers
  realms := h.realms ▸ ha.realms
  sessionLimits := h.sessionLimits ▸ ha.sessionLimits
  loginLimits := h.loginLimits ▸ ha.loginLimits

/-! ### One array -/

theorem ignoring_one {w : Warning} (h : w.ignores = true) : Ignoring [w] :=
  ⟨w, List.mem_singleton_self w, h⟩

section limits

variable {self : Limits}

theorem limitsArg_none {value : Str} (h : (limitsArg value).1 = none) :
    (limitsArg value).2 = none := by
  unfold limitsArg at h ⊢
  generalize value.dropWhile (· != chr ':') = rest at h ⊢
  cases rest with
  | nil => rfl
  | cons c limitstr =>
    dsimp only at h ⊢
    generalize intArg (value.takeWhile (· != chr ':')) 1 86400 10 = seconds at h ⊢
    cases seconds with
    | none => rfl
    | some seconds => cases h

/-- A value is written if its seconds are accepted, and then there must be an entry for it. -/
theorem read_cases (self : Limits) (value : Str) :
    ((self.count < 8 ∨ (limitsArg value).1 = none) ∧ ∃ next,
        self.read value = .ok (next, (limitsArg value).2.isSome) ∧ next.count = self.count) ∨
      (8 ≤ self.count ∧ (limitsArg value).1 ≠ none ∧ self.read value = .error .overflow) := by
  have hread : self.read value = do
      let written ← setEntry self.seconds self.count (limitsArg value).1
      let written' ← setEntry self.limits self.count (limitsArg value).2
      return ({ self with seconds := written, limits := written' },
        (limitsArg value).2.isSome) := rfl
  cases hseconds : (limitsArg value).1 with
  | none =>
    rw [hread, hseconds, limitsArg_none hseconds]
    exact Or.inl ⟨Or.inr rfl, _, rfl, rfl⟩
  | some seconds =>
    rw [hread, hseconds]
    by_cases hcount : self.count < 8
    · refine Or.inl ⟨Or.inl hcount, ?_⟩
      rw [setEntry, dif_pos hcount]
      cases (limitsArg value).2 with
      | none => exact ⟨_, rfl, rfl⟩
      | some limit =>
        rw [setEntry, dif_pos hcount]
        exact ⟨_, rfl, rfl⟩
    · refine Or.inr ⟨Nat.le_of_not_lt hcount, Option.some_ne_none seconds, ?_⟩
      rw [setEntry, dif_neg hcount]
      rfl

/-- An entry behind the eighth is reported and cannot be seen, or it is written. -/
theorem addLimit_cases (self : Limits) (key value : Str) {tooMany : Warning}
    (hmany : tooMany.ignores = true) :
    ((self.count < 8 ∨ self.count = LIMITSSZ ∨ (limitsArg value).1 = none) ∧ ∃ next ws,
        addLimit self key value tooMany = .ok (next, ws) ∧
        (8 ≤ self.count → AlikeLimits self next ∧ Ignoring ws) ∧
        (self.count ≤ 8 → next.count ≤ 8)) ∨
      (¬ (self.count < 8 ∨ self.count = LIMITSSZ ∨ (limitsArg value).1 = none) ∧
        addLimit self key value tooMany = .error .overflow) := by
  have hinvalid : (Warning.invalidSetting value key).ignores = true :=
    show (Warning.invalidSetting [] []).ignores = true by decide
  unfold addLimit
  by_cases hfull : self.count = LIMITSSZ
  · rw [if_pos hfull]
    exact Or.inl ⟨Or.inr (Or.inl hfull), self, [tooMany], rfl,
      fun _ => ⟨AlikeLimits.refl self, ignoring_one hmany⟩, fun h => h⟩
  rw [if_neg hfull]
  rcases read_cases self value with ⟨hroom, next, hread, hcount⟩ | ⟨hcount, hseconds, hread⟩
  · refine Or.inl ⟨hroom.imp_right Or.inr, ?_⟩
    rw [hread]
    cases hlimit : (limitsArg value).2 with
    | none =>
      rw [hlimit] at hread
      exact ⟨next, [.invalidSetting value key], rfl,
        fun _ => ⟨read_old hread, ignoring_one hinvalid⟩, fun h => by rwa [hcount]⟩
    | some limit =>
      have hlt : self.count < 8 := by
        refine hroom.resolve_right fun hnone => ?_
        rw [limitsArg_none hnone] at hlimit
        cases hlimit
      refine ⟨next.raise, [], rfl, fun h => absurd hlt (Nat.not_lt_of_le h), fun _ => ?_⟩
      show next.count + 1 ≤ 8
      omega
  · refine Or.inr ⟨?_, by rw [hread]; rfl⟩
    rintro (hlt | hsize | hnone)
    · omega
    · exact hfull hsize
    · exact hseconds hnone

/-- A limit for a realm counts, or is written, unless the test stops it. -/
theorem addRealmLimit_one (realm : CfgRealm) (opt value : Str) :
    ((realm.limits.count < 8 ∨ realm.limits.count = LIMITSSZ) ∧ ∃ next ws,
        realm.addLimit opt value = .ok (next, ws) ∧ next.checkers = realm.checkers ∧
        (8 ≤ realm.limits.count → next = realm ∧ Ignoring ws) ∧
        (realm.limits.count ≤ 8 → next.limits.count ≤ 8)) ∨
      (8 ≤ realm.limits.count ∧ realm.limits.count ≠ LIMITSSZ ∧
        (realm.addLimit opt value = .error .overflow ∨ ∃ next ws,
          realm.addLimit opt value = .ok (next, ws) ∧
          next.limits.count = realm.limits.count + 1)) := by
  unfold CfgRealm.addLimit
  by_cases hfull : realm.limits.count = LIMITSSZ
  · rw [if_pos hfull]
    exact Or.inl ⟨Or.inr hfull, realm, [.tooManyRealmLimits], rfl, rfl,
      fun _ => ⟨rfl, ignoring_one (by decide)⟩, fun h => h⟩
  rw [if_neg hfull]
  rcases read_cases realm.limits value with ⟨_, next, hread, hcount⟩ | ⟨hcount, _, hread⟩
  · rw [hread]
    by_cases hlt : realm.limits.count < 8
    · refine Or.inl ⟨Or.inl hlt, _, _, rfl, rfl, fun h => absurd hlt (Nat.not_lt_of_le h),
        fun _ => ?_⟩
      show next.count + 1 ≤ 8
      omega
    · exact Or.inr ⟨Nat.le_of_not_lt hlt, hfull, Or.inr ⟨_, _, rfl, congrArg (· + 1) hcount⟩⟩
  · rw [hread]
    exact Or.inr ⟨hcount, hfull, Or.inl rfl⟩

/-- A list is read if it has room. -/
theorem tokens_eq (fuel : ℕ) (s : Str) (args : List Str) (hargs : args.length ≤ 8)
    (hfuel : 8 < args.length + fuel) :
    tokens fuel s args = if (args ++ tokensOf (chr ':') s).length ≤ 8
      then .ok (some (args ++ tokensOf (chr ':') s)) else .error .overflow := by
  induction fuel generalizing s args with
  | zero => omega
  | succ fuel ih =>
    unfold tokens
    cases hnext : nextToken (chr ':') s with
    | none =>
      rw [tokensOf_none hnext, List.append_nil, if_pos hargs]
    | some found =>
      obtain ⟨arg, rest⟩ := found
      have hsize : args.length ≠ ARGSSZ := by
        have hbytes : ARGSSZ = 64 := rfl
        omega
      dsimp only
      rw [if_neg hsize, tokensOf_some hnext]
      by_cases hlt : args.length < 8
      · have hone : (args ++ [arg]).length = args.length + 1 := by
          rw [List.length_append, List.length_singleton]
        rw [if_pos hlt, ih rest (args ++ [arg]) (by omega) (by omega), List.append_assoc,
          List.singleton_append]
      · rw [if_neg hlt, if_neg]
        rw [List.length_append, List.length_cons]
        omega

end limits

/-! ### One setting -/

/-- The setting is read, and what is behind the eighth entry is reported and cannot be seen. -/
def Reported (self : Settings) (key value : Str) (result : Result) : Prop :=
  ∃ next ws, result = .ok (next, ws) ∧
    (8 < entries self key value → Alike self next ∧ Ignoring ws) ∧ (Within self → Within next)

/-- The reader faults, or what is behind the eighth entry can be seen. -/
def Lost (self : Settings) (key value : Str) (result : Result) : Prop :=
  result = .error .overflow ∨ result = .error .null ∨
    ∃ next ws, result = .ok (next, ws) ∧ 8 < entries self key value ∧ ¬ Alike self next

/-- The setting fits and is read, or it does not and is lost. -/
def Settled (self : Settings) (key value : Str) (result : Result) : Prop :=
  (Fits self key value ∧ Reported self key value result) ∨
    (¬ Fits self key value ∧ Lost self key value result)

section settings

variable {accounts : Accounts} {self : Settings} {key value : Str}

/-- Only a checker has a class. -/
theorem named_of_ne {s : CfgSection} (hsection : self.currentSection = s) (hs : s ≠ .checkers) :
    self.currentSection = .checkers → tokensOf (chr ':') value ≠ [] :=
  fun h => absurd (hsection.symm.trans h) hs

theorem fits_of_le (hnamed : self.currentSection = .checkers → tokensOf (chr ':') value ≠ [])
    (h : entries self key value ≤ 8) : Fits self key value :=
  ⟨hnamed, fun hlt => absurd h (Nat.not_le_of_lt hlt)⟩

theorem not_fits_list (h : 8 < entries self key value) (hnone : limitsOf self key = none) :
    ¬ Fits self key value := by
  intro hfits
  obtain ⟨limits, hsome, _⟩ := hfits.room h
  rw [hnone] at hsome
  cases hsome

theorem reported_of_le {next : Settings} {ws : List Warning} (h : entries self key value ≤ 8)
    (hwithin : Within self → Within next) : Reported self key value (.ok (next, ws)) :=
  ⟨next, ws, rfl, fun hlt => absurd h (Nat.not_le_of_lt hlt), hwithin⟩

/-- A setting without entries. -/
theorem settled_same {s : CfgSection} (hsection : self.currentSection = s) (hs : s ≠ .checkers)
    (hentries : entries self key value = 0) {next : Settings} {ws : List Warning}
    (hsame : SameArrays self next) : Settled self key value (.ok (next, ws)) := by
  have hle : entries self key value ≤ 8 := by omega
  exact Or.inl ⟨fits_of_le (named_of_ne hsection hs) hle, reported_of_le hle hsame.within⟩

theorem checkerLine_cases (hsection : self.currentSection = .checkers) (key value : Str) :
    Settled self key value (checkerLine self key value) := by
  have hlimits : limitsOf self key = none := by rw [limitsOf, hsection]
  have hentries : entries self key value = ((tokensOf (chr ':') value).drop 1).length := by
    rw [entries, hlimits, listOf, hsection]
  unfold checkerLine
  cases hnext : nextToken (chr ':') value with
  | none =>
    exact Or.inr ⟨fun hfits => hfits.named hsection (tokensOf_none hnext), Or.inr (Or.inl rfl)⟩
  | some found =>
    obtain ⟨classname, rest⟩ := found
    have htokens := tokensOf_some hnext
    rw [htokens, List.drop_one, List.tail_cons] at hentries
    dsimp only
    rw [tokens_eq 10 rest [] (Nat.zero_le 8) (by decide), List.nil_append, ← hentries]
    by_cases hle : entries self key value ≤ 8
    · have hnamed : tokensOf (chr ':') value ≠ [] := by
        rw [htokens]
        exact List.cons_ne_nil _ _
      rw [if_pos hle]
      refine Or.inl ⟨fits_of_le (fun _ => hnamed) hle, reported_of_le hle fun hwithin => ?_⟩
      refine ⟨fun checker hmem => ?_, hwithin.realms, hwithin.sessionLimits, hwithin.loginLimits⟩
      rcases List.mem_append.mp hmem with hmem | hmem
      · exact hwithin.checkers checker hmem
      · rw [List.mem_singleton.mp hmem]
        exact hentries ▸ hle
    · rw [if_neg hle]
      exact Or.inr ⟨not_fits_list (Nat.lt_of_not_le hle) hlimits, Or.inl rfl⟩

/-- A realm with its checkers. -/
theorem realmList_cases (hsection : self.currentSection = .realms) (hkey : limitKey key = none)
    (value : Str) :
    Settled self key value (realmLine self key value) := by
  have hlimits : limitsOf self key = none := by
    rw [limitsOf, hsection, hkey]
    rfl
  have hentries : entries self key value = (tokensOf (chr ':') value).length := by
    rw [entries, hlimits, listOf, hsection]
    exact congrArg List.length (if_pos hkey)
  have hnamed : self.currentSection = .checkers → tokensOf (chr ':') value ≠ [] :=
    named_of_ne hsection (by decide)
  unfold realmLine
  rw [hkey]
  dsimp only
  rw [tokens_eq 10 value [] (Nat.zero_le 8) (by decide), List.nil_append, ← hentries]
  by_cases hle : entries self key value ≤ 8
  · rw [if_pos hle]
    refine Or.inl ⟨fits_of_le hnamed hle, reported_of_le hle fun hwithin => ?_⟩
    refine ⟨hwithin.checkers, fun realm hmem => ?_, hwithin.sessionLimits, hwithin.loginLimits⟩
    rcases List.mem_append.mp hmem with hmem | hmem
    · exact hwithin.realms realm hmem
    · rw [List.mem_singleton.mp hmem]
      exact ⟨Nat.zero_le 8, hentries ▸ hle⟩
  · rw [if_neg hle]
    exact Or.inr ⟨not_fits_list (Nat.lt_of_not_le hle) hlimits, Or.inl rfl⟩

theorem Within.replace {pre post : List CfgRealm} {realm realm' : CfgRealm}
    (h : Within self) (hrealms : self.realms = pre ++ realm :: post)
    (hcount : realm.limits.count ≤ 8 → realm'.limits.count ≤ 8)
    (hcheckers : realm'.checkers = realm.checkers) :
    Within { self with realms := pre ++ realm' :: post } where
  checkers := h.checkers
  realms := by
    have hold := hrealms ▸ h.realms
    intro r hmem
    rcases List.mem_append.mp hmem with hmem | hmem
    · exact hold r (List.mem_append_left _ hmem)
    rcases List.mem_cons.mp hmem with rfl | hmem
    · have hrealm := hold realm (List.mem_append_right _ List.mem_cons_self)
      exact ⟨hcount hrealm.1, hcheckers ▸ hrealm.2⟩
    · exact hold r (List.mem_append_right _ (List.mem_cons_of_mem _ hmem))
  sessionLimits := h.sessionLimits
  loginLimits := h.loginLimits

/-- A limit for a realm. -/
theorem realmLimit_cases (hsection : self.currentSection = .realms) {n : ℕ}
    (hkey : limitKey key = some n) (value : Str) :
    Settled self key value (realmLine self key value) := by
  have hlimits : limitsOf self key =
      (self.realms.find? (·.name = key.take n)).map (·.limits) := by
    rw [limitsOf, hsection, hkey]
    rfl
  have hnamed : self.currentSection = .checkers → tokensOf (chr ':') value ≠ [] :=
    named_of_ne hsection (by decide)
  unfold realmLine
  rw [hkey]
  dsimp only
  rcases addRealmLimit_cases (key.drop (n + 1)) (key.take n) value self.realms with
    ⟨hnone, hadd⟩ | ⟨pre, realm, post, hfind, hrealms, hadd⟩
  · have hentries : entries self key value = 0 := by
      rw [entries, hlimits, hnone, Option.map_none, listOf, hsection]
      dsimp only
      rw [if_neg (by rw [hkey]; exact Option.some_ne_none n)]
      rfl
    rw [hadd]
    exact settled_same hsection (by decide) hentries ⟨rfl, rfl, rfl, rfl⟩
  rw [hfind, Option.map_some] at hlimits
  have hentries : entries self key value = realm.limits.count + 1 := by rw [entries, hlimits]
  rw [hadd]
  rcases addRealmLimit_one realm (key.drop (n + 1)) value with
    ⟨hroom, next, ws, hone, hcheckers, hbehind, hcount⟩ | ⟨hfull, hsize, hone⟩
  · rw [hone]
    refine Or.inl ⟨⟨hnamed, fun hlt => ⟨_, hlimits, Or.inl ?_⟩⟩, _, _, rfl, fun hlt => ?_,
      fun hwithin => hwithin.replace hrealms hcount hcheckers⟩
    · exact hroom.resolve_left (by omega)
    · obtain ⟨heq, hignoring⟩ := hbehind (by omega)
      rw [heq]
      have hsame : { self with realms := pre ++ realm :: post } = self := by rw [← hrealms]
      exact ⟨hsame ▸ Alike.refl self, hignoring⟩
  · have hnot : ¬ Fits self key value := by
      intro hfits
      obtain ⟨limits, hsome, hspared⟩ := hfits.room (by omega)
      rw [hlimits] at hsome
      obtain rfl := Option.some.inj hsome
      rcases hspared with hcount | ⟨hglobal, _⟩
      · exact hsize hcount
      · rw [hsection] at hglobal
        cases hglobal
    refine Or.inr ⟨hnot, ?_⟩
    rcases hone with hone | ⟨next, ws, hone, hcount⟩
    · rw [hone]
      exact Or.inl rfl
    · rw [hone]
      refine Or.inr (Or.inr ⟨_, _, rfl, by omega, fun halike => ?_⟩)
      -- the realm that counts one limit more is seen
      obtain ⟨_, _, _, hnext, _⟩ := halike
      have hsame := (congrArg Settings.realms hnext).trans hrealms
      have hrealm : next = realm := (List.cons.inj (List.append_cancel_left hsame)).1
      rw [hrealm] at hcount
      omega

/-- The options that have arrays. -/
theorem setOption_session (accounts : Accounts) (self : Settings) (value : Str) :
    setOption accounts self (str "session_limit") value =
      (addLimit self.sessionLimits (str "session_limit") value .tooManySessionLimits).map
        fun r => ({ self with sessionLimits := r.1 }, r.2) := by
  unfold setOption setOtherOption
  rw [if_neg (by decide), if_neg (by decide), setPidfile_other (Or.inl (by decide)),
    if_neg (by decide), if_pos rfl]
  cases addLimit self.sessionLimits (str "session_limit") value .tooManySessionLimits <;> rfl

theorem setOption_login (accounts : Accounts) (self : Settings) (value : Str) :
    setOption accounts self (str "login_fail_limit") value =
      (addLimit self.loginLimits (str "login_fail_limit") value .tooManyLoginLimits).map
        fun r => ({ self with loginLimits := r.1 }, r.2) := by
  unfold setOption setOtherOption
  rw [if_neg (by decide), if_neg (by decide), setPidfile_other (Or.inl (by decide)),
    if_neg (by decide), if_neg (by decide), if_pos rfl]
  cases addLimit self.loginLimits (str "login_fail_limit") value .tooManyLoginLimits <;> rfl

theorem parseUser_same {next : Settings} (h : parseUser accounts self value = some next) :
    SameArrays self next := by
  rw [Arguments.parseUser_eq] at h
  obtain ⟨u, _, rfl⟩ := Option.map_eq_some_iff.mp h
  exact ⟨rfl, rfl, rfl, rfl⟩

theorem parseGroup_same {next : Settings} (h : parseGroup accounts self value = some next) :
    SameArrays self next := by
  rw [Arguments.parseGroup_eq] at h
  obtain ⟨gid, _, rfl⟩ := Option.map_eq_some_iff.mp h
  exact ⟨rfl, rfl, rfl, rfl⟩

/-- The other options leave the arrays alone. -/
theorem setOption_other (accounts : Accounts) (self : Settings) (value : Str)
    (hsession : key ≠ str "session_limit") (hlogin : key ≠ str "login_fail_limit") :
    ∃ next ws, setOption accounts self key value = .ok (next, ws) ∧ SameArrays self next := by
  have hsame : SameArrays self self := ⟨rfl, rfl, rfl, rfl⟩
  have hpidfile : SameArrays self (setPidfile self key value) := by
    unfold setPidfile
    split
    · exact ⟨rfl, rfl, rfl, rfl⟩
    · exact hsame
  unfold setOption
  split
  · split
    · cases hparse : parseUser accounts self value with
      | none => exact ⟨_, _, rfl, hsame⟩
      | some next => exact ⟨_, _, rfl, parseUser_same hparse⟩
    · exact ⟨_, _, rfl, hsame⟩
  split
  · split
    · cases hparse : parseGroup accounts self value with
      | none => exact ⟨_, _, rfl, hsame⟩
      | some next => exact ⟨_, _, rfl, parseGroup_same hparse⟩
    · exact ⟨_, _, rfl, hsame⟩
  generalize setPidfile self key value = mid at hpidfile
  unfold setOtherOption
  rw [if_neg hsession, if_neg hlogin]
  split
  · split
    · cases boolArg value with
      | none => exact ⟨_, _, rfl, hpidfile⟩
      | some resolveHosts => exact ⟨_, _, rfl, ⟨hpidfile.checkers, hpidfile.realms,
          hpidfile.sessionLimits, hpidfile.loginLimits⟩⟩
    · exact ⟨_, _, rfl, hpidfile⟩
  · exact ⟨_, _, rfl, hpidfile⟩

/-- One more limit in an array of the global section. -/
theorem globalLimit_cases (hsection : self.currentSection = .global) {limits : Limits}
    (hlimits : limitsOf self key = some limits) {tooMany : Warning}
    (hmany : tooMany.ignores = true) (put : Limits → Settings)
    (halike : ∀ next, AlikeLimits limits next → Alike self (put next))
    (hwithin : ∀ next : Limits, Within self → (limits.count ≤ 8 → next.count ≤ 8) →
      Within (put next)) (value : Str) :
    Settled self key value ((addLimit limits key value tooMany).map fun r => (put r.1, r.2)) := by
  have hentries : entries self key value = limits.count + 1 := by rw [entries, hlimits]
  have hnamed : self.currentSection = .checkers → tokensOf (chr ':') value ≠ [] :=
    named_of_ne hsection (by decide)
  rcases addLimit_cases limits key value hmany with
    ⟨hroom, next, ws, hadd, hbehind, hcount⟩ | ⟨hroom, hadd⟩
  · rw [hadd]
    refine Or.inl ⟨⟨hnamed, fun hlt => ⟨limits, hlimits, ?_⟩⟩, put next, ws, rfl, fun hlt => ?_,
      fun h => hwithin next h hcount⟩
    · exact (hroom.resolve_left (by omega)).imp_right fun hnone => ⟨hsection, hnone⟩
    · obtain ⟨hsame, hignoring⟩ := hbehind (by omega)
      exact ⟨halike next hsame, hignoring⟩
  · rw [hadd]
    refine Or.inr ⟨fun hfits => hroom ?_, Or.inl rfl⟩
    by_cases hlt : limits.count < 8
    · exact Or.inl hlt
    obtain ⟨limits', hsome, hspared⟩ := hfits.room (by omega)
    rw [hlimits] at hsome
    obtain rfl := Option.some.inj hsome
    exact Or.inr (hspared.imp_right fun hnone => hnone.2)

theorem setOption_cases (accounts : Accounts) (hsection : self.currentSection = .global)
    (key value : Str) :
    Settled self key value (setOption accounts self key value) := by
  have hservers : List.Forall₂ AlikeServer self.servers self.servers :=
    List.forall₂_same.mpr fun s _ => AlikeServer.refl s
  by_cases hsession : key = str "session_limit"
  · have hlimits : limitsOf self key = some self.sessionLimits := by
      rw [limitsOf, hsection]
      exact if_pos hsession
    rw [hsession, setOption_session]
    rw [hsession] at hlimits
    exact globalLimit_cases hsection hlimits (by decide)
      (fun next => { self with sessionLimits := next })
      (fun next hnext => ⟨_, _, _, rfl, hservers, hnext, AlikeLimits.refl _⟩)
      (fun next h hcount => ⟨h.checkers, h.realms, hcount h.sessionLimits, h.loginLimits⟩) value
  by_cases hlogin : key = str "login_fail_limit"
  · have hlimits : limitsOf self key = some self.loginLimits := by
      rw [limitsOf, hsection]
      exact (if_neg hsession).trans (if_pos hlogin)
    rw [hlogin, setOption_login]
    rw [hlogin] at hlimits
    exact globalLimit_cases hsection hlimits (by decide)
      (fun next => { self with loginLimits := next })
      (fun next hnext => ⟨_, _, _, rfl, hservers, AlikeLimits.refl _, hnext⟩)
      (fun next h hcount => ⟨h.checkers, h.realms, h.sessionLimits, hcount h.loginLimits⟩) value
  have hentries : entries self key value = 0 := by
    rw [entries, limitsOf, listOf, hsection]
    dsimp only
    rw [if_neg hsession, if_neg hlogin]
    rfl
  obtain ⟨next, ws, hset, hsame⟩ := setOption_other accounts self value hsession hlogin
  rw [hset]
  exact settled_same hsection (by decide) hentries hsame

/-- A setting fits, and then it is read and reported as it should be, or it does not, and is
lost. -/
theorem settingLine_cases (accounts : Accounts) (self : Settings) (key value : Str) :
    Settled self key value (settingLine accounts self key value) := by
  unfold settingLine
  cases hsection : self.currentSection with
  | invalid =>
    have hentries : entries self key value = 0 := by
      rw [entries, limitsOf, listOf, hsection]
      rfl
    exact settled_same hsection (by decide) hentries ⟨rfl, rfl, rfl, rfl⟩
  | «global» => exact setOption_cases accounts hsection key value
  | checkers => exact checkerLine_cases hsection key value
  | realms =>
    cases hkey : limitKey key with
    | none => exact realmList_cases hsection hkey value
    | some n => exact realmLimit_cases hsection hkey value
  | server =>
    have hentries : entries self key value = 0 := by
      rw [entries, limitsOf, listOf, hsection]
      rfl
    exact settled_same hsection (by decide) hentries ⟨rfl, rfl, rfl, rfl⟩

end settings

/-! ### One line -/

/-- The reader before the first line. -/
def initial (start : Settings) (linebuf : List Byte) : Reader :=
  ⟨{ start with currentSection := .global }, linebuf, false, []⟩

/-- What the reading of a file does with one of its lines, and the reader before that. -/
def Reads (accounts : Accounts) (cut : Bool) (start : Settings) (linebuf file : List Byte)
    (before : Reader) (line : Str) (outcome : Except Fault Reader) : Prop :=
  ∃ pre chunk post, chunks file = pre ++ chunk :: post ∧
    pre.foldlM (readChunk accounts cut) (initial start linebuf) = .ok before ∧
    before.skipping = false ∧ lineOf chunk = some line ∧
    outcome = readChunk accounts cut before chunk

/-- Nothing is written outside an array, no missing class is looked at, a value of separators
is read, and an entry behind the eighth is reported and ignored. -/
structure Handled (before : Reader) (line : Str) (outcome : Except Fault Reader) : Prop where
  inside : outcome ≠ .error .overflow
  named : setting line ≠ none → outcome ≠ .error .null
  separators : ∀ key value, setting line = some (key, value) →
    tokensOf (chr ':') value = [] → ∃ next, outcome = .ok next
  reported : ∀ key value, setting line = some (key, value) →
    8 < entries before.config key value → ∃ next ws, outcome = .ok next ∧
      Alike before.config next.config ∧ next.warnings = before.warnings ++ ws ∧ Ignoring ws

/-- The line fits, if it is a setting. -/
def LineFits (self : Settings) (line : Str) : Prop :=
  ∀ key value, setting line = some (key, value) → Fits self key value

section lines

variable {accounts : Accounts} {cut : Bool} {before : Reader} {line key value : Str}
  {chunk : List Byte}

/-- A line without a setting opens a section, or leaves the settings alone. -/
theorem lineEffect_setting (accounts : Accounts) (self : Settings)
    (hheader : (line.dropWhile isspace).head? ≠ some (chr '[')) :
    (∃ key value, setting line = some (key, value) ∧
        lineEffect accounts self line = settingLine accounts self key value) ∨
      (setting line = none ∧ ∃ ws, lineEffect accounts self line = .ok (self, ws)) := by
  unfold setting lineEffect
  dsimp only
  cases hlp : line.dropWhile isspace with
  | nil => exact Or.inr ⟨rfl, [], rfl⟩
  | cons c lp =>
    have hbracket : c ≠ chr '[' := by
      rintro rfl
      rw [hlp] at hheader
      exact hheader rfl
    dsimp only
    by_cases hcomment : isComment c = true
    · rw [if_pos (Or.inl hcomment), if_pos hcomment]
      exact Or.inr ⟨rfl, [], rfl⟩
    rw [if_neg (fun h => h.elim hcomment hbracket), if_neg hcomment, if_neg hbracket]
    cases hkv : keyValue (c :: lp) with
    | none =>
      refine Or.inr ⟨rfl, ?_⟩
      by_cases hinvalid : self.currentSection = .invalid
      · rw [if_pos hinvalid]
        exact ⟨[], rfl⟩
      · rw [if_neg hinvalid]
        exact ⟨[.malformedLine], rfl⟩
    | some found =>
      obtain ⟨key, value⟩ := found
      refine Or.inl ⟨key, value, rfl, ?_⟩
      unfold settingLine
      cases self.currentSection <;> rfl

/-- What a line without the name of a section does to the reader. -/
theorem readChunk_effect (hskip : before.skipping = false) (hline : lineOf chunk = some line)
    (hheader : (line.dropWhile isspace).head? ≠ some (chr '[')) :
    (readChunk accounts cut before chunk).map known =
      (lineEffect accounts before.config line).map fun r =>
        ⟨r.1, false, before.warnings ++ r.2⟩ := by
  rw [readChunk_known cut fun _ line' hline' => ?_, chunkEffect, known, hline]
  · dsimp only
    rw [hskip]
    rfl
  · rw [hline] at hline'
    rw [← Option.some.inj hline']
    exact fun hhead => absurd hhead hheader

/-- The name of a section is no setting, and leaves the arrays alone, whatever is behind it. -/
theorem readChunk_header (hskip : before.skipping = false) (hline : lineOf chunk = some line)
    (hheader : (line.dropWhile isspace).head? = some (chr '[')) :
    setting line = none ∧ readChunk accounts cut before chunk ≠ .error .overflow ∧
      ∀ next, readChunk accounts cut before chunk = .ok next →
        SameArrays before.config next.config := by
  have hsetting : setting line = none := by
    unfold setting
    cases hlp : line.dropWhile isspace with
    | nil => rfl
    | cons c lp =>
      rw [hlp] at hheader
      exact if_pos (Or.inr (Option.some.inj hheader))
  obtain ⟨rest, hread⟩ := @readChunk_line accounts before chunk line cut hskip hline
  generalize hmemory : line ++ 0 :: (if cut then [] else rest) = memory at hread
  have hdrop : memory.drop 0 = line ++ 0 :: (if cut then [] else rest) := hmemory.symm
  rw [readLine_header hdrop hheader] at hread
  rw [hread]
  refine ⟨hsetting, fun hfault => ?_, fun next hnext => ?_⟩
  · rcases readSection_error (map_error_inv hfault) with hfault | hfault <;> cases hfault
  · obtain ⟨⟨⟨next', ws⟩, m⟩, hsection, rfl⟩ := map_inv hnext
    rcases readSection_inv hsection with hmalformed | ⟨start, hopen⟩
    · rw [(Prod.mk.inj hmalformed).1]
      exact ⟨rfl, rfl, rfl, rfl⟩
    · obtain ⟨_, _, _, rfl⟩ := openSection_inv hopen
      exact ⟨rfl, rfl, rfl, rfl⟩

/-- The reader has done to its settings and reports what was done with a line. -/
abbrev Follows (before : Reader) (outcome : Except Fault Reader) (result : Result) : Prop :=
  outcome.map known = result.map fun r => ⟨r.1, false, before.warnings ++ r.2⟩

variable {outcome : Except Fault Reader} {result : Result}

theorem handled_of_reported (hsetting : setting line = some (key, value))
    (hfollows : Follows before outcome result) (h : Reported before.config key value result) :
    Handled before line outcome ∧
      (Within before.config → ∀ next, outcome = .ok next → Within next.config) := by
  obtain ⟨next, ws, rfl, hbehind, hwithin⟩ := h
  obtain ⟨reader, rfl, hknown⟩ := map_inv hfollows
  obtain ⟨hconfig, _, hwarnings⟩ := Known.mk.inj hknown
  have hok : ∀ e : Fault, Except.ok reader ≠ .error e := by
    intro e h
    cases h
  refine ⟨⟨hok .overflow, fun _ => hok .null, fun _ _ _ _ => ⟨reader, rfl⟩, ?_⟩, ?_⟩
  · intro key' value' hsetting' hlt
    rw [hsetting] at hsetting'
    obtain ⟨rfl, rfl⟩ := Prod.mk.inj (Option.some.inj hsetting')
    obtain ⟨halike, hignoring⟩ := hbehind hlt
    exact ⟨reader, ws, rfl, hconfig ▸ halike, hwarnings, hignoring⟩
  · intro hold next' hnext'
    rw [← Except.ok.inj hnext', hconfig]
    exact hwithin hold

theorem not_handled_of_lost (hsetting : setting line = some (key, value))
    (hfollows : Follows before outcome result) (h : Lost before.config key value result) :
    ¬ Handled before line outcome := by
  intro hhandled
  rcases h with rfl | rfl | ⟨next, ws, rfl, hlt, hseen⟩
  · exact hhandled.inside (map_error_inv hfollows)
  · refine hhandled.named ?_ (map_error_inv hfollows)
    rw [hsetting]
    exact Option.some_ne_none _
  · obtain ⟨reader, rfl, hknown⟩ := map_inv hfollows
    obtain ⟨next', _, hnext', halike, _⟩ := hhandled.reported key value hsetting hlt
    have hconfig : reader.config = next := congrArg Known.settings hknown
    rw [← Except.ok.inj hnext', hconfig] at halike
    exact hseen halike

/-- Without a setting there is nothing that could be asked of the arrays. -/
theorem handled_of_none (hsetting : setting line = none) (hinside : outcome ≠ .error .overflow) :
    Handled before line outcome ∧ LineFits before.config line := by
  have hno : ∀ {key value}, setting line ≠ some (key, value) := by
    intro key value hsome
    rw [hsetting] at hsome
    cases hsome
  exact ⟨⟨hinside, fun h => absurd hsetting h, fun _ _ h => absurd h hno,
    fun _ _ h => absurd h hno⟩, fun _ _ h => absurd h hno⟩

theorem lineFits_iff {self : Settings} (hsetting : setting line = some (key, value)) :
    LineFits self line ↔ Fits self key value := by
  refine ⟨fun h => h key value hsetting, fun h key' value' hsetting' => ?_⟩
  rw [hsetting] at hsetting'
  obtain ⟨rfl, rfl⟩ := Prod.mk.inj (Option.some.inj hsetting')
  exact h

/-- A line is handled exactly if it fits, and then keeps to the arrays. -/
theorem readChunk_handled (accounts : Accounts) (cut : Bool) (hskip : before.skipping = false)
    (hline : lineOf chunk = some line) :
    (Handled before line (readChunk accounts cut before chunk) ↔
        LineFits before.config line) ∧
      (LineFits before.config line → Within before.config →
        ∀ next, readChunk accounts cut before chunk = .ok next → Within next.config) := by
  by_cases hheader : (line.dropWhile isspace).head? = some (chr '[')
  · obtain ⟨hsetting, hinside, hsame⟩ :=
      @readChunk_header accounts cut before line chunk hskip hline hheader
    obtain ⟨hhandled, hfits⟩ := handled_of_none hsetting hinside
    exact ⟨⟨fun _ => hfits, fun _ => hhandled⟩,
      fun _ hwithin next hnext => (hsame next hnext).within hwithin⟩
  have hfollows : Follows before (readChunk accounts cut before chunk)
      (lineEffect accounts before.config line) := readChunk_effect hskip hline hheader
  rcases lineEffect_setting accounts before.config hheader with
    ⟨key, value, hsetting, hset⟩ | ⟨hsetting, ws, hset⟩
  · rw [hset] at hfollows
    rw [lineFits_iff hsetting]
    rcases settingLine_cases accounts before.config key value with
      ⟨hfits, hreported⟩ | ⟨hfits, hlost⟩
    · obtain ⟨hhandled, hwithin⟩ := handled_of_reported hsetting hfollows hreported
      exact ⟨⟨fun _ => hfits, fun _ => hhandled⟩, fun _ => hwithin⟩
    · have hnot := not_handled_of_lost hsetting hfollows hlost
      exact ⟨⟨fun h => absurd h hnot, fun h => absurd h hfits⟩, fun h => absurd h hfits⟩
  · rw [hset] at hfollows
    obtain ⟨reader, hread, hknown⟩ := map_inv hfollows
    have hconfig : reader.config = before.config := congrArg Known.settings hknown
    rw [hread]
    obtain ⟨hhandled, hfits⟩ := @handled_of_none before line (.ok reader) hsetting
      (by
        intro h
        cases h)
    refine ⟨⟨fun _ => hfits, fun _ => hhandled⟩, fun _ hwithin next hnext => ?_⟩
    rw [← Except.ok.inj hnext, hconfig]
    exact hwithin

end lines

/-! ### One file -/

section files

variable {accounts : Accounts} {cut : Bool} {start : Settings} {linebuf file : List Byte}

/-- Every line of a file is read by one of the calls, or left out. -/
theorem readChunk_reads {pre post : List (List Byte)} {chunk : List Byte} {before : Reader}
    (hchunks : chunks file = pre ++ chunk :: post)
    (hrun : pre.foldlM (readChunk accounts cut) (initial start linebuf) = .ok before) :
    (∃ line, before.skipping = false ∧ lineOf chunk = some line ∧
        Reads accounts cut start linebuf file before line (readChunk accounts cut before chunk)) ∨
      ∃ next, readChunk accounts cut before chunk = .ok next ∧ next.config = before.config := by
  cases hskip : before.skipping with
  | true =>
    obtain ⟨linebuf', hread⟩ := @readChunk_skip accounts cut before hskip chunk
    exact Or.inr ⟨_, hread, rfl⟩
  | false =>
    cases hline : lineOf chunk with
    | none =>
      obtain ⟨linebuf', hread⟩ := @readChunk_long accounts cut before chunk hskip hline
      exact Or.inr ⟨_, hread, rfl⟩
    | some line =>
      exact Or.inl ⟨line, rfl, rfl, pre, chunk, post, hchunks, hrun, hskip, hline, rfl⟩

/-- The lines that a file has the readers read are all handled as they should be exactly if
they fit where they stand, and then no reader leaves an array, and no array counts more than
eight entries at any time. -/
theorem entries_handled_iff (accounts : Accounts) (cut : Bool) (start : Settings)
    (linebuf file : List Byte) :
    ((∀ before line outcome, Reads accounts cut start linebuf file before line outcome →
        Handled before line outcome) ↔
      ∀ before line outcome, Reads accounts cut start linebuf file before line outcome →
        LineFits before.config line) ∧
    (Within start → (∀ before line outcome,
        Reads accounts cut start linebuf file before line outcome →
          LineFits before.config line) →
      readConfigFile accounts cut start linebuf file ≠ .error .overflow ∧
      ∀ pre post reader, chunks file = pre ++ post →
        pre.foldlM (readChunk accounts cut) (initial start linebuf) = .ok reader →
          Within reader.config) := by
  refine ⟨⟨fun h before line outcome hreads => ?_, fun h before line outcome hreads => ?_⟩,
    fun hstart hfits => ⟨fun hfault => ?_, ?_⟩⟩
  · have hhandled := h before line outcome hreads
    obtain ⟨pre, chunk, post, _, _, hskip, hline, rfl⟩ := hreads
    exact (readChunk_handled accounts cut hskip hline).1.mp hhandled
  · have hfit := h before line outcome hreads
    obtain ⟨pre, chunk, post, _, _, hskip, hline, rfl⟩ := hreads
    exact (readChunk_handled accounts cut hskip hline).1.mpr hfit
  · obtain ⟨pre, chunk, post, before, hchunks, hrun, hfail⟩ := foldlM_error_inv hfault
    rcases readChunk_reads hchunks hrun with ⟨line, hskip, hline, hreads⟩ | ⟨next, hread, _⟩
    · have hhandled := (readChunk_handled accounts cut hskip hline).1.mpr (hfits _ _ _ hreads)
      exact hhandled.inside hfail
    · rw [hread] at hfail
      cases hfail
  · refine foldlM_keeps (P := fun reader : Reader => Within reader.config) ?_ ?_
    · exact ⟨hstart.checkers, hstart.realms, hstart.sessionLimits, hstart.loginLimits⟩
    · intro pre chunk post before next hchunks hrun hwithin hread
      rcases readChunk_reads hchunks hrun with
        ⟨line, hskip, hline, hreads⟩ | ⟨next', hread', hconfig⟩
      · exact (readChunk_handled accounts cut hskip hline).2 (hfits _ _ _ hreads) hwithin next hread
      · rw [hread'] at hread
        rw [← Except.ok.inj hread, hconfig]
        exact hwithin

end files

section samples

def nine (line : String) : List Byte := (List.replicate 9 (str line)).flatten

/-- A ninth entry for each of the arrays. -/
def ninthEntries : List (List Byte) :=
  [str "[checkers]\nc=pam:1:2:3:4:5:6:7:8:9\n", str "[realms]\nr=1:2:3:4:5:6:7:8:9\n",
    str "[realms]\nr=c\n" ++ nine "r_login_fail_limit=1:1\n", nine "session_limit=1:1\n",
    nine "login_fail_limit=1:1\n"]

def faultOf (outcome : Except Fault Known) : Option Fault :=
  match outcome with
  | .error e => some e
  | .ok _ => none

/-- The fault of a run over the texts of the lines. -/
def faultAfter (file : List Byte) : Option Fault :=
  faultOf ((chunks file).foldlM (chunkEffect noAccounts)
    ⟨{ startSettings with currentSection := .global }, false, []⟩)

/-- If the names of sections end, the reader has this fault with any contents of its buffer. -/
theorem readConfigFile_fault {file : List Byte} {e : Fault}
    (hend : ∀ chunk ∈ chunks file, ∀ line ∈ lineOf chunk, Terminated line)
    (h : faultAfter file = some e) (cut : Bool) (linebuf : List Byte) :
    readConfigFile noAccounts cut startSettings linebuf file = .error e := by
  have hrun := @run_known noAccounts cut (chunks file) (initial startSettings linebuf)
    (allTerminated_of_forall hend _)
  unfold faultAfter at h
  cases hknown : (chunks file).foldlM (chunkEffect noAccounts)
      ⟨{ startSettings with currentSection := .global }, false, []⟩ with
  | error e' =>
    rw [hknown] at h
    obtain rfl := Option.some.inj h
    exact map_error_inv (hrun.trans hknown)
  | ok next =>
    rw [hknown] at h
    cases h

/-- A ninth entry leaves each of the arrays, and separators have no class. -/
theorem ninth_written :
    (∀ file ∈ ninthEntries, ∀ cut linebuf,
      readConfigFile noAccounts cut startSettings linebuf file = .error .overflow ∧
      ¬ ∀ before line outcome, Reads noAccounts cut startSettings linebuf file before line
        outcome → Handled before line outcome) ∧
    ∀ cut linebuf, readConfigFile noAccounts cut startSettings linebuf
      (str "[checkers]\nc=:\n") = .error .null := by
  have hfaults : ∀ file ∈ ninthEntries,
      (∀ chunk ∈ chunks file, ∀ line ∈ lineOf chunk, Terminated line) ∧
        faultAfter file = some .overflow := by decide +kernel
  have hnull : (∀ chunk ∈ chunks (str "[checkers]\nc=:\n"), ∀ line ∈ lineOf chunk,
      Terminated line) ∧ faultAfter (str "[checkers]\nc=:\n") = some .null := by decide +kernel
  refine ⟨fun file hfile cut linebuf => ?_, readConfigFile_fault hnull.1 hnull.2⟩
  obtain ⟨hend, hfault⟩ := hfaults file hfile
  have hrun := readConfigFile_fault hend hfault cut linebuf
  refine ⟨hrun, fun hall => ?_⟩
  obtain ⟨pre, chunk, post, before, hchunks, hpre, hfail⟩ := foldlM_error_inv hrun
  rcases readChunk_reads hchunks hpre with ⟨line, _, _, hreads⟩ | ⟨next, hread, _⟩
  · exact (hall before line _ hreads).inside hfail
  · rw [hread] at hfail
    cases hfail

theorem within_start : Within startSettings where
  checkers := fun _ h => absurd h List.not_mem_nil
  realms := fun _ h => absurd h List.not_mem_nil
  sessionLimits := Nat.zero_le 8
  loginLimits := Nat.zero_le 8

def emptyBuf : List Byte := List.replicate LINEBUFSZ 0

/-- A test of every line that is read, with the reader before it. -/
theorem lines_pass {accounts : Accounts} {cut : Bool} {start : Settings} {linebuf file : List Byte}
    {test : Reader → Str → Bool}
    (h : ∀ i < (chunks file).length, ((chunks file)[i]?.bind lineOf).all fun line =>
      (((chunks file).take i).foldlM (readChunk accounts cut)
        (initial start linebuf)).toOption.all fun before => test before line)
    {before : Reader} {line : Str} {outcome : Except Fault Reader}
    (hreads : Reads accounts cut start linebuf file before line outcome) :
    test before line = true := by
  obtain ⟨pre, chunk, post, hchunks, hrun, -, hline, -⟩ := hreads
  have hlt : pre.length < (chunks file).length := by
    rw [hchunks, List.length_append, List.length_cons]
    omega
  have hpass := h pre.length hlt
  rw [hchunks, List.getElem?_append_right (le_refl _), Nat.sub_self, List.getElem?_cons_zero,
    Option.bind_some, hline, List.take_left, hrun] at hpass
  exact hpass

def eightLimits : List Byte := (List.replicate 8 (str "session_limit=1:1\n")).flatten

/-- Eight limits for sessions are within their array, and all of them count. -/
theorem eight_within :
    (∃ reader, readConfigFile noAccounts false startSettings emptyBuf eightLimits = .ok reader ∧
      Within reader.config ∧ reader.config.sessionLimits.count = 8) ∧
      ∀ before line outcome, Reads noAccounts false startSettings emptyBuf eightLimits before line
        outcome → Handled before line outcome := by
  obtain ⟨hhandled, hrun⟩ := entries_handled_iff noAccounts false startSettings emptyBuf eightLimits
  have hfits : ∀ before line outcome, Reads noAccounts false startSettings emptyBuf eightLimits
      before line outcome → LineFits before.config line := by
    intro before line outcome hreads key value hsetting
    have hpass := @lines_pass _ _ _ _ _ (fun before line => (setting line).all fun s =>
      decide (before.config.currentSection ≠ .checkers ∧ entries before.config s.1 s.2 ≤ 8))
      (by decide +kernel) _ _ _ hreads
    rw [hsetting] at hpass
    obtain ⟨hsection, hle⟩ := of_decide_eq_true hpass
    exact fits_of_le (fun hother => absurd hother hsection) hle
  obtain ⟨-, hwithin⟩ := hrun within_start hfits
  have hready : (readConfigFile noAccounts false startSettings emptyBuf eightLimits).toOption.any
      (fun reader => reader.config.sessionLimits.count == 8) = true := by decide +kernel
  cases hfile : readConfigFile noAccounts false startSettings emptyBuf eightLimits with
  | error e =>
    rw [hfile] at hready
    cases hready
  | ok reader =>
    rw [hfile] at hready
    exact ⟨⟨reader, rfl, hwithin (chunks eightLimits) [] reader (List.append_nil _).symm hfile,
      beq_iff_eq.mp hready⟩, hhandled.mpr hfits⟩

end samples

end Swad.FixedArrays
