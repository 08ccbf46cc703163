import Swad.FileChunks
import Swad.VisibleSettings

/-!
Lines that a reader reports as ignored. What the rest of the server sees is the same as if
such a line were not in the file, apart from a pidfile in the global section, which is set
before it is reported; a limit for a realm, which counts even if it is invalid; a prefix,
whose predecessor is dropped before the value is looked at; and a line with a NUL before
its end, which takes the next line with it.
-/
namespace Swad.IgnoredLines

open Bytes Util Ipaddr StringPrograms Config ConfigLines LineIsolation VisibleSettings
  PairedRuns FileChunks

/-- One of the reports says that the line is ignored. -/
def Ignoring (warnings : List Warning) : Prop := ∃ w ∈ warnings, w.ignores = true

/-- An option that is ignored leaves alone what can be seen. -/
def HarmlessOption (self : Settings) (key : Str) : Prop :=
  match self.currentSection with
  | .global => key = str "pidfile" → self.pidfile ≠ none
  | .realms => ∀ n, limitKey key = some n →
      ∀ realm, self.realms.find? (·.name = key.take n) = some realm → realm.limits.count = LIMITSSZ
  | .server => key = str "nat64_prefix" →
      ∀ s, self.servers[self.server]? = some s → s.nat64Prefix.or defaultPrefix = defaultPrefix
  | _ => True

def HarmlessText (self : Settings) (text : Str) : Prop :=
  (text.dropWhile isspace).head? = some (chr '[') ∨
    ∀ key value, keyValue (text.dropWhile isspace) = some (key, value) → HarmlessOption self key

/-- A line that does not fit must have its newline seen, if it has one. -/
def Harmless (self : Settings) (line : List Byte) : Prop :=
  match lineOf (fgets line) with
  | none => nl ∈ line → ∃ chunk ∈ chunks line, (lineOf chunk).isSome
  | some text => HarmlessText self text

section limits

variable {a b : Limits} {key value : Str} {ws : List Warning}

theorem not_ignoring_nil : ¬ Ignoring [] := by
  rintro ⟨w, hw, _⟩
  cases hw

/-- Only the entry behind those that count is written. -/
theorem setEntry_old {entries entries' : Fin 8 → Option ℕ} {n : ℕ} {v : Option ℕ}
    (h : setEntry entries n v = .ok entries') (i : Fin 8) (hi : i < n) :
    entries i = entries' i := by
  unfold setEntry at h
  split at h
  · rw [Except.ok.inj h]
  · split at h
    · next w hn =>
      have hne : i ≠ ⟨n, hn⟩ := by
        rintro rfl
        exact Nat.lt_irrefl _ hi
      rw [← Except.ok.inj h, Function.update_of_ne hne]
    · cases h

theorem read_old {valid : Bool} (h : a.read value = .ok (b, valid)) : AlikeLimits a b := by
  obtain ⟨seconds, hseconds, h⟩ := bind_inv h
  obtain ⟨limits, hlimits, h⟩ := bind_inv h
  obtain ⟨rfl, _⟩ := Prod.mk.inj (Except.ok.inj h)
  exact ⟨rfl, setEntry_old hseconds, setEntry_old hlimits⟩

/-- What is written behind the limits that count cannot be seen. -/
theorem addLimit_ignored {tooMany : Warning} (h : addLimit a key value tooMany = .ok (b, ws))
    (hws : Ignoring ws) : AlikeLimits a b := by
  unfold addLimit at h
  split at h
  · obtain ⟨rfl, _⟩ := Prod.mk.inj (Except.ok.inj h)
    exact AlikeLimits.refl a
  obtain ⟨⟨limits, valid⟩, hread, h⟩ := bind_inv h
  cases valid with
  | false =>
    obtain ⟨rfl, _⟩ := Prod.mk.inj (Except.ok.inj h)
    exact read_old hread
  | true =>
    obtain ⟨_, rfl⟩ := Prod.mk.inj (Except.ok.inj h)
    exact absurd hws not_ignoring_nil

end limits

section options

variable {accounts : Accounts} {a b : Settings} {key value : Str} {ws : List Warning}

theorem setOtherOption_ignored (h : setOtherOption a key value = .ok (b, ws))
    (hws : Ignoring ws) : Alike a b := by
  unfold setOtherOption at h
  split at h
  · split at h
    · split at h
      · obtain ⟨_, rfl⟩ := Prod.mk.inj (Except.ok.inj h)
        exact absurd hws not_ignoring_nil
      · obtain ⟨rfl, _⟩ := Prod.mk.inj (Except.ok.inj h)
        exact Alike.refl a
    · obtain ⟨rfl, _⟩ := Prod.mk.inj (Except.ok.inj h)
      exact Alike.refl a
  split at h
  · obtain ⟨⟨limits, _⟩, hadd, h⟩ := bind_inv h
    obtain ⟨rfl, rfl⟩ := Prod.mk.inj (Except.ok.inj h)
    exact ⟨_, _, _, rfl, List.forall₂_same.mpr fun s _ => AlikeServer.refl s,
      addLimit_ignored hadd hws, AlikeLimits.refl _⟩
  split at h
  · obtain ⟨⟨limits, _⟩, hadd, h⟩ := bind_inv h
    obtain ⟨rfl, rfl⟩ := Prod.mk.inj (Except.ok.inj h)
    exact ⟨_, _, _, rfl, List.forall₂_same.mpr fun s _ => AlikeServer.refl s,
      AlikeLimits.refl _, addLimit_ignored hadd hws⟩
  · obtain ⟨rfl, _⟩ := Prod.mk.inj (Except.ok.inj h)
    exact Alike.refl a

theorem setPidfile_other (h : key ≠ str "pidfile" ∨ a.pidfile ≠ none) :
    setPidfile a key value = a := by
  unfold setPidfile
  rw [if_neg]
  rintro ⟨hkey, hnone⟩
  rcases h with h | h
  · exact h hkey
  · exact h hnone

theorem setOption_ignored (h : setOption accounts a key value = .ok (b, ws)) (hws : Ignoring ws) :
    Alike (setPidfile a key value) b := by
  unfold setOption at h
  split at h
  · next huser =>
    rw [setPidfile_other (Or.inl (by rw [huser]; decide))]
    split at h
    · split at h
      · obtain ⟨_, rfl⟩ := Prod.mk.inj (Except.ok.inj h)
        exact absurd hws not_ignoring_nil
      · obtain ⟨rfl, _⟩ := Prod.mk.inj (Except.ok.inj h)
        exact Alike.refl a
    · obtain ⟨rfl, _⟩ := Prod.mk.inj (Except.ok.inj h)
      exact Alike.refl a
  split at h
  · next hgroup =>
    rw [setPidfile_other (Or.inl (by rw [hgroup]; decide))]
    split at h
    · split at h
      · obtain ⟨_, rfl⟩ := Prod.mk.inj (Except.ok.inj h)
        exact absurd hws not_ignoring_nil
      · obtain ⟨rfl, _⟩ := Prod.mk.inj (Except.ok.inj h)
        exact Alike.refl a
    · obtain ⟨rfl, _⟩ := Prod.mk.inj (Except.ok.inj h)
      exact Alike.refl a
  · exact setOtherOption_ignored h hws

theorem getServer_reports {name : Option Str} (h : getServer a name = .ok (b, ws)) :
    ws = [] ∨ ws = [.emptyServerName] := by
  have hreport : (if name = some [] then [Warning.emptyServerName] else []) = [] ∨
      (if name = some [] then [Warning.emptyServerName] else []) = [.emptyServerName] := by
    split
    · exact Or.inr rfl
    · exact Or.inl rfl
  unfold getServer at h
  dsimp only at h
  generalize (if name = some [] then [Warning.emptyServerName] else []) = reports at h hreport
  obtain ⟨found, _, h⟩ := bind_inv h
  cases found with
  | none =>
    obtain ⟨_, rfl⟩ := Prod.mk.inj (Except.ok.inj h)
    exact hreport
  | some i =>
    obtain ⟨_, rfl⟩ := Prod.mk.inj (Except.ok.inj h)
    exact hreport

/-- A section that is unknown is opened all the same. -/
theorem openSection_reports {start : Str} (h : openSection a start = .ok (b, ws)) :
    ¬ Ignoring ws := by
  have hone : ∀ w : Warning, w.ignores = false → ¬ Ignoring [w] := by
    intro w hw hig
    obtain ⟨w', hmem, hig⟩ := hig
    obtain rfl := List.mem_singleton.mp hmem
    rw [hw] at hig
    cases hig
  have hnamed : ∀ c name, getServer c name = .ok (b, ws) → ¬ Ignoring ws := by
    intro c name hget
    rcases getServer_reports hget with rfl | rfl
    · exact not_ignoring_nil
    · exact hone _ (by decide)
  have hunknown : (Warning.unknownSection start).ignores = false :=
    show (Warning.unknownSection []).ignores = false by decide
  unfold openSection at h
  repeat' split at h
  all_goals first
    | exact hnamed _ _ h
    | (obtain ⟨_, rfl⟩ := Prod.mk.inj (Except.ok.inj h)
       first
        | exact not_ignoring_nil
        | exact hone _ hunknown)

theorem checkerLine_ignored (h : checkerLine a key value = .ok (b, ws)) (hws : Ignoring ws) :
    b = a := by
  unfold checkerLine at h
  split at h
  · cases h
  obtain ⟨args, _, h⟩ := map_inv h
  cases args with
  | none => exact (Prod.mk.inj h).1.symm
  | some args =>
    obtain ⟨_, rfl⟩ := Prod.mk.inj h
    exact absurd hws not_ignoring_nil

end options

section realms

variable {a b : Settings} {realm realm' : CfgRealm} {realms realms' : List CfgRealm}
  {opt name key value : Str} {ws : List Warning}

/-- Only the first realm with the name gets the limit. -/
theorem addRealmLimit_cases (opt name value : Str) (realms : List CfgRealm) :
    (realms.find? (·.name = name) = none ∧
        addRealmLimit opt name value realms = .ok (realms, [.unknownRealm opt name])) ∨
      ∃ pre realm post, realms.find? (·.name = name) = some realm ∧
        realms = pre ++ realm :: post ∧
        addRealmLimit opt name value realms =
          (realm.addLimit opt value).map fun r => (pre ++ r.1 :: post, r.2) := by
  induction realms with
  | nil => exact Or.inl ⟨rfl, rfl⟩
  | cons realm realms ih =>
    unfold addRealmLimit
    by_cases hname : realm.name = name
    · rw [if_pos hname]
      exact Or.inr ⟨[], realm, realms, List.find?_cons_of_pos (by simpa using hname), rfl, rfl⟩
    rw [if_neg hname, List.find?_cons_of_neg (by simpa using hname)]
    rcases ih with ⟨hnone, hadd⟩ | ⟨pre, found, post, hfind, hrealms, hadd⟩
    · rw [hadd]
      exact Or.inl ⟨hnone, rfl⟩
    · refine Or.inr ⟨realm :: pre, found, post, hfind, by rw [hrealms, List.cons_append], ?_⟩
      rw [hadd]
      cases found.addLimit opt value <;> rfl

theorem addRealmLimit_inv (h : addRealmLimit opt name value realms = .ok (realms', ws)) :
    (realms.find? (·.name = name) = none ∧ realms' = realms) ∨
      ∃ pre realm realm' post, realms.find? (·.name = name) = some realm ∧
        realms = pre ++ realm :: post ∧ realms' = pre ++ realm' :: post ∧
        realm.addLimit opt value = .ok (realm', ws) := by
  rcases addRealmLimit_cases opt name value realms with
    ⟨hnone, hadd⟩ | ⟨pre, realm, post, hfind, hrealms, hadd⟩
  · rw [hadd] at h
    exact Or.inl ⟨hnone, (Prod.mk.inj (Except.ok.inj h)).1.symm⟩
  · rw [hadd] at h
    obtain ⟨⟨realm', ws'⟩, hlimit, h⟩ := map_inv h
    obtain ⟨rfl, rfl⟩ := Prod.mk.inj h
    exact Or.inr ⟨pre, realm, realm', post, hfind, hrealms, rfl, hlimit⟩

theorem addLimit_full (h : realm.addLimit opt value = .ok (realm', ws))
    (hfull : realm.limits.count = LIMITSSZ) : realm' = realm := by
  unfold CfgRealm.addLimit at h
  rw [if_pos hfull] at h
  exact (Prod.mk.inj (Except.ok.inj h)).1.symm

/-- A limit for a realm counts, even if it is invalid. -/
theorem addLimit_count (h : realm.addLimit opt value = .ok (realm', ws))
    (hfull : realm.limits.count ≠ LIMITSSZ) : realm'.limits.count = realm.limits.count + 1 := by
  unfold CfgRealm.addLimit at h
  rw [if_neg hfull] at h
  obtain ⟨⟨limits, valid⟩, hread, h⟩ := bind_inv h
  obtain ⟨rfl, _⟩ := Prod.mk.inj (Except.ok.inj h)
  exact congrArg (· + 1) (read_old hread).count.symm

theorem realmLine_ignored (h : realmLine a key value = .ok (b, ws)) (hws : Ignoring ws)
    (hfull : ∀ n, limitKey key = some n → ∀ realm,
      a.realms.find? (·.name = key.take n) = some realm → realm.limits.count = LIMITSSZ) :
    b = a := by
  unfold realmLine at h
  split at h
  · next n hn =>
    obtain ⟨⟨realms, ws'⟩, hadd, h⟩ := map_inv h
    obtain ⟨rfl, rfl⟩ := Prod.mk.inj h
    rcases addRealmLimit_inv hadd with ⟨_, heq⟩ | ⟨pre, realm, realm', post, hfind, ha, hb, hlimit⟩
    · dsimp only
      rw [heq]
    · have heq := addLimit_full hlimit (hfull n hn realm hfind)
      dsimp only
      rw [hb, heq, ← ha]
  · obtain ⟨checkers, _, h⟩ := map_inv h
    cases checkers with
    | none => exact (Prod.mk.inj h).1.symm
    | some checkers =>
      obtain ⟨_, rfl⟩ := Prod.mk.inj h
      exact absurd hws not_ignoring_nil

end realms

section servers

variable {a b : Settings} {s : CfgServer} {servers : List CfgServer} {i : ℕ}
  {key value : Str} {ws : List Warning}

/-- A setting that is ignored may only have dropped a prefix. -/
theorem setOption_reports (hws : Ignoring (s.setOption key value).2) :
    (s.setOption key value).1 =
      if key = str "nat64_prefix" then { s with nat64Prefix := none } else s := by
  have hnil := not_ignoring_nil
  by_cases hkey : key = str "nat64_prefix"
  · subst hkey
    rw [setOption_nat64] at hws ⊢
    rw [if_pos rfl]
    cases hvalue : nat64Arg value with
    | none => rfl
    | some p =>
      rw [hvalue] at hws
      exact absurd hws hnil
  rw [if_neg hkey]
  revert hws
  unfold CfgServer.setOption
  simp only [hkey, if_false]
  repeat' split
  all_goals
    intro hws
    first
    | rfl
    | exact absurd hws hnil

theorem setServerOption_inv (key value : Str) (i : ℕ) (servers : List CfgServer) :
    (servers[i]? = none ∧ setServerOption key value i servers = (servers, [])) ∨
      ∃ pre s post, servers[i]? = some s ∧ pre.length = i ∧ servers = pre ++ s :: post ∧
        setServerOption key value i servers =
          (pre ++ (s.setOption key value).1 :: post, (s.setOption key value).2) := by
  induction servers generalizing i with
  | nil => cases i <;> exact Or.inl ⟨rfl, rfl⟩
  | cons s servers ih =>
    cases i with
    | zero => exact Or.inr ⟨[], s, servers, rfl, rfl, rfl, rfl⟩
    | succ i =>
      rcases ih i with ⟨hnone, hset⟩ | ⟨pre, s', post, hsome, hlength, hservers, hset⟩
      · refine Or.inl ⟨hnone, ?_⟩
        rw [setServerOption, hset]
      · refine Or.inr ⟨s :: pre, s', post, hsome, congrArg (· + 1) hlength, ?_, ?_⟩
        · rw [hservers]
          rfl
        · rw [setServerOption, hset]
          rfl

theorem serverLine_ignored (hws : Ignoring (serverLine a key value).2)
    (hpre : key = str "nat64_prefix" →
      ∀ s, a.servers[a.server]? = some s → s.nat64Prefix.or defaultPrefix = defaultPrefix) :
    Alike a (serverLine a key value).1 := by
  unfold serverLine at hws ⊢
  dsimp only at hws ⊢
  rcases setServerOption_inv key value a.server a.servers with
    ⟨_, hset⟩ | ⟨pre, s, post, hsome, _, hservers, hset⟩
  · rw [hset]
    exact Alike.refl a
  rw [hset] at hws ⊢
  refine ⟨_, _, _, rfl, ?_, AlikeLimits.refl _, AlikeLimits.refl _⟩
  have hsame : ∀ l : List CfgServer, List.Forall₂ AlikeServer l l :=
    fun l => List.forall₂_same.mpr fun s _ => AlikeServer.refl s
  rw [hservers]
  refine List.rel_append (hsame pre) (List.Forall₂.cons ?_ (hsame post))
  rw [setOption_reports hws]
  by_cases hkey : key = str "nat64_prefix"
  · rw [if_pos hkey]
    exact ⟨none, rfl, hpre hkey s hsome⟩
  · rw [if_neg hkey]
    exact AlikeServer.refl s

end servers

section lines

variable {accounts : Accounts} {a b : Settings} {ws : List Warning} {m m' : List Byte} {i : ℕ}

/-- What follows the bracket of a section is either malformed, or a section. -/
theorem readSection_ignored (h : readSection a i m = .ok ((b, ws), m')) (hws : Ignoring ws) :
    b = a := by
  rcases readSection_inv h with hmalformed | ⟨start, hopen⟩
  · exact (Prod.mk.inj hmalformed).1
  · exact absurd hws (openSection_reports hopen)

/-- What is done with a setting. -/
def settingLine (accounts : Accounts) (a : Settings) (key value : Str) : Result :=
  match a.currentSection with
  | .invalid => .ok (a, [])
  | .global => setOption accounts a key value
  | .checkers => checkerLine a key value
  | .realms => realmLine a key value
  | .server => .ok (serverLine a key value)

/-- A line that is ignored is malformed, or a setting. -/
theorem lineEffect_inv {text : Str} (h : lineEffect accounts a text = .ok (b, ws))
    (hws : Ignoring ws) (hheader : (text.dropWhile isspace).head? ≠ some (chr '[')) :
    (keyValue (text.dropWhile isspace) = none ∧ b = a) ∨
      ∃ key value, keyValue (text.dropWhile isspace) = some (key, value) ∧
        settingLine accounts a key value = .ok (b, ws) := by
  have hsilent : ∀ {c}, Except.ok (ε := Fault) (c, []) = .ok (b, ws) → False := by
    intro c hok
    exact not_ignoring_nil ((Prod.mk.inj (Except.ok.inj hok)).2 ▸ hws)
  unfold lineEffect at h
  dsimp only at h
  split at h
  · exact (hsilent h).elim
  next c l hlp =>
  rw [hlp] at hheader
  split at h
  · exact (hsilent h).elim
  split at h
  · next hc => exact absurd (congrArg some hc) hheader
  split at h
  · exact (hsilent h).elim
  split at h
  · next hkv => exact Or.inl ⟨hkv, (Prod.mk.inj (Except.ok.inj h)).1.symm⟩
  · next key value hkv => exact Or.inr ⟨key, value, hkv, h⟩

/-- A setting that is ignored and harmless leaves alone what can be seen. -/
theorem settingLine_ignored {key value : Str} (h : settingLine accounts a key value = .ok (b, ws))
    (hws : Ignoring ws) (hkey : HarmlessOption a key) : Alike a b := by
  unfold HarmlessOption at hkey
  unfold settingLine at h
  cases hsection : a.currentSection with
  | invalid =>
    rw [hsection] at h
    exact absurd ((Prod.mk.inj (Except.ok.inj h)).2 ▸ hws) not_ignoring_nil
  | global =>
    rw [hsection] at h hkey
    have halike := setOption_ignored h hws
    rw [setPidfile_other (not_or_of_imp hkey)] at halike
    exact halike
  | checkers =>
    rw [hsection] at h
    rw [checkerLine_ignored h hws]
    exact Alike.refl a
  | realms =>
    rw [hsection] at h hkey
    rw [realmLine_ignored h hws hkey]
    exact Alike.refl a
  | server =>
    rw [hsection] at h hkey
    have hline : Ignoring (serverLine a key value).2 → Alike a (serverLine a key value).1 :=
      fun hws => serverLine_ignored hws hkey
    rw [Except.ok.inj h] at hline
    exact hline hws

theorem lineEffect_ignored {text : Str} (h : lineEffect accounts a text = .ok (b, ws))
    (hws : Ignoring ws) (hheader : (text.dropWhile isspace).head? ≠ some (chr '['))
    (hharmless : HarmlessText a text) : Alike a b := by
  rcases lineEffect_inv h hws hheader with ⟨_, rfl⟩ | ⟨key, value, hkv, hsetting⟩
  · exact Alike.refl b
  · exact settingLine_ignored hsetting hws (hharmless.resolve_left hheader key value hkv)

theorem readLine_ignored {text rest : List Byte} (h0 : (0 : Byte) ∉ text)
    (h : readLine accounts a 0 (text ++ 0 :: rest) = .ok ((b, ws), m')) (hws : Ignoring ws)
    (hharmless : HarmlessText a text) : Alike a b := by
  by_cases hheader : (text.dropWhile isspace).head? = some (chr '[')
  · have hdrop : (text ++ 0 :: rest).drop 0 = text ++ 0 :: rest := rfl
    rw [readLine_header hdrop hheader] at h
    rw [readSection_ignored h hws]
    exact Alike.refl a
  · have hterm : Terminated text := fun hhead => absurd hhead hheader
    have hyields : Yields (readLine accounts a 0) (text ++ 0 :: rest)
        (lineEffect accounts a text) := readLine_run rfl h0 hterm
    unfold Yields at hyields
    rw [h] at hyields
    exact lineEffect_ignored hyields.symm hws hheader hharmless

end lines

section runs

variable {accounts : Accounts} {self next : Reader} {a b : Known} {u : List Byte}

def KnownAlike (a b : Known) : Prop := Alike a.settings b.settings ∧ a.skipping = b.skipping

theorem chunkEffect_alike (a b : Known) (chunk : List Byte) (h : KnownAlike a b) :
    Paired KnownAlike (chunkEffect accounts a chunk) (chunkEffect accounts b chunk) := by
  unfold chunkEffect
  rw [h.2]
  split
  · exact ⟨h.1, rfl⟩
  split
  · exact paired_map (lineEffect_alike h.1 _) fun r r' hr => ⟨hr.1, rfl⟩
  · exact ⟨h.1, rfl⟩

theorem allTerminated_alike {cs : List (List Byte)} (hterm : AllTerminated accounts a cs)
    (h : KnownAlike a b) : AllTerminated accounts b cs := by
  induction cs generalizing a b with
  | nil => trivial
  | cons c cs ih =>
    obtain ⟨hline, hrest⟩ := hterm
    refine ⟨fun hskip => hline (h.2.trans hskip), fun next' hnext' => ?_⟩
    have hpaired := @chunkEffect_alike accounts a b c h
    rw [hnext'] at hpaired
    cases hnext : chunkEffect accounts a c with
    | error e =>
      rw [hnext] at hpaired
      cases hpaired
    | ok next =>
      rw [hnext] at hpaired
      exact ih (hrest next hnext) hpaired

/-- What is seen of a configuration after its file was read, unless there is a fault. -/
def seen (defpidfile : Str) (r : Except Fault Reader) : Except Fault View :=
  r.map fun self => view defpidfile self.config

theorem seen_known (defpidfile : Str) (r : Except Fault Reader) :
    seen defpidfile r = (r.map known).map fun k => view defpidfile k.settings := by
  cases r <;> rfl

/-- Readers whose settings look alike see the same in the rest of the file. -/
theorem rest_seen (halike : Alike self.config next.config) (hskip : self.skipping = next.skipping)
    {cs : List (List Byte)} (hterm : AllTerminated accounts (known self) cs) (defpidfile : Str) :
    seen defpidfile (cs.foldlM (readChunk accounts false) next) =
      seen defpidfile (cs.foldlM (readChunk accounts false) self) := by
  have hknown : KnownAlike (known self) (known next) := ⟨halike, hskip⟩
  rw [seen_known, seen_known, run_known false hterm,
    run_known false (allTerminated_alike hterm hknown)]
  exact (paired_map_eq (paired_foldlM chunkEffect_alike cs hknown)
    fun k k' hk => hk.1.view_eq defpidfile).symm

/-- What the reader reports from one state to a later one. -/
def Reported (self next : Reader) : Prop :=
  Ignoring (next.warnings.drop self.warnings.length)

theorem head_chunks (hu : u ≠ []) : (chunks u).head? = some (fgets u) := by
  rw [chunks_cons hu]
  rfl

/-- A line that fits is one call. -/
theorem fits_of_lineOf {text : Str} (hu : nl ∉ u) (h : lineOf (fgets (u ++ [nl])) = some text) :
    fgets (u ++ [nl]) = u ++ [nl] ∧ chunks (u ++ [nl]) = [u ++ [nl]] := by
  by_cases hlength : u.length + 1 < LINEBUFSZ
  · exact ⟨fgets_line hu hlength [], chunks_line hu hlength []⟩
  obtain ⟨p, q, hsplit, hp⟩ := exists_full hlength
  have hfirst : nl ∉ p := fun hmem => hu (hsplit ▸ List.mem_append_left q hmem)
  rw [hsplit, List.append_assoc, fgets_full hfirst hp, lineOf_none hfirst] at h
  cases h

/-- A line that is left out is not reported. -/
theorem not_reported (hskip : self.skipping = true) (hu : nl ∉ u)
    (hrun : (chunks (u ++ [nl])).foldlM (readChunk accounts false) self = .ok next) :
    ¬ Reported self next := by
  obtain ⟨init, last, hinit, hchunks⟩ := chunks_split u hu
  obtain ⟨linebuf, hskipped⟩ := @skip_run accounts false self hskip init hinit
  obtain ⟨linebuf', hlast⟩ :=
    @readChunk_skip accounts false { self with linebuf := linebuf } hskip last
  rw [hchunks, foldlM_append_ok hskipped, foldlM_cons_ok hlast] at hrun
  obtain rfl := Except.ok.inj hrun
  unfold Reported
  dsimp only
  rw [List.drop_length]
  exact not_ignoring_nil

/-- A line that does not fit leaves the settings alone. -/
theorem long_line (hskip : self.skipping = false) (hu : nl ∉ u)
    (hlong : lineOf (fgets (u ++ [nl])) = none)
    (hrun : (chunks (u ++ [nl])).foldlM (readChunk accounts false) self = .ok next) :
    next.config = self.config ∧
      (next.skipping = false ↔ ∃ chunk ∈ chunks (u ++ [nl]), (lineOf chunk).isSome) := by
  obtain ⟨init, last, hinit, hchunks⟩ := chunks_split u hu
  have hsplit : chunks (u ++ [nl]) = init ++ [last] := hchunks []
  have hfirst : (init ++ [last]).head?.all (lineOf · == none) = true := by
    rw [← hsplit, head_chunks (by simp)]
    simpa using hlong
  obtain ⟨linebuf, hread⟩ := @long_run accounts false self hskip init last hinit hfirst
  rw [hsplit, hread] at hrun
  obtain rfl := Except.ok.inj hrun
  refine ⟨rfl, ?_⟩
  dsimp only
  rw [hsplit]
  constructor
  · intro hnone
    refine ⟨last, by simp, ?_⟩
    rw [Option.isSome_iff_ne_none]
    intro hlast
    rw [hlast] at hnone
    cases hnone
  · rintro ⟨chunk, hmem, hsome⟩
    rcases List.mem_append.mp hmem with hmem | hmem
    · rw [lineOf_none (hinit chunk hmem)] at hsome
      cases hsome
    · obtain rfl := List.mem_singleton.mp hmem
      obtain ⟨text, htext⟩ := Option.isSome_iff_exists.mp hsome
      rw [htext]
      rfl

/-- A line that fits is handled by its reader. -/
theorem short_line (hskip : self.skipping = false) (hu : nl ∉ u) {text : Str}
    (htext : lineOf (fgets (u ++ [nl])) = some text)
    (hrun : (chunks (u ++ [nl])).foldlM (readChunk accounts false) self = .ok next) :
    (0 : Byte) ∉ text ∧ next.skipping = false ∧ ∃ rest ws m,
      readLine accounts self.config 0 (text ++ 0 :: rest) = .ok ((next.config, ws), m) ∧
        (Reported self next ↔ Ignoring ws) := by
  obtain ⟨hfits, hone⟩ := fits_of_lineOf hu htext
  rw [hfits] at htext
  obtain ⟨rest, hread⟩ := @readChunk_line accounts self _ text false hskip htext
  refine ⟨(linebuf_eq htext []).1, ?_⟩
  rw [hone, List.foldlM_cons, hread] at hrun
  obtain ⟨mid, hmid, hrun⟩ := bind_inv hrun
  obtain ⟨r, hline, rfl⟩ := map_inv hmid
  obtain rfl := Except.ok.inj hrun
  refine ⟨rfl, rest, r.1.2, r.2, hline, ?_⟩
  unfold Reported
  dsimp only
  rw [List.drop_left]

/-- A line that is ignored and harmless leaves a reader that goes on as before. -/
theorem line_step (hu : nl ∉ u)
    (hrun : (chunks (u ++ [nl])).foldlM (readChunk accounts false) self = .ok next)
    (hreport : Reported self next) (hharmless : Harmless self.config (u ++ [nl])) :
    Alike self.config next.config ∧ self.skipping = next.skipping := by
  have hskip : self.skipping = false := by
    by_contra hskip
    exact not_reported (by simpa using hskip) hu hrun hreport
  unfold Harmless at hharmless
  cases htext : lineOf (fgets (u ++ [nl])) with
  | none =>
    rw [htext] at hharmless
    obtain ⟨hconfig, hseen⟩ := long_line hskip hu htext hrun
    rw [hconfig, hseen.mpr (hharmless (by simp)), hskip]
    exact ⟨Alike.refl _, rfl⟩
  | some text =>
    rw [htext] at hharmless
    obtain ⟨h0, hnext, rest, ws, m, hline, hws⟩ := short_line hskip hu htext hrun
    exact ⟨readLine_ignored h0 hline (hws.mp hreport) hharmless, hskip.trans hnext.symm⟩

end runs

section visible

variable {accounts : Accounts} {a b : Settings} {key value : Str} {defpidfile : Str}

/-- A line that adds a checker, in the section of the checkers. -/
theorem lineEffect_checker (a : Settings) :
    ∃ c ws, lineEffect accounts a (str "x=pam") = .ok (c, ws) ∧ c.checkers =
      a.checkers ++ if a.currentSection = .checkers then [⟨str "x", [], .pam⟩] else [] := by
  have hlp : (str "x=pam").dropWhile isspace = chr 'x' :: str "=pam" := by decide
  have hkv : keyValue (chr 'x' :: str "=pam") = some (str "x", str "pam") := by decide
  have hnil : a.checkers = a.checkers ++ [] := (List.append_nil _).symm
  unfold lineEffect
  dsimp only
  rw [hlp]
  dsimp only
  rw [if_neg (by decide), if_neg (by decide), hkv]
  dsimp only
  cases hsection : a.currentSection with
  | invalid => exact ⟨a, [], rfl, hnil⟩
  | global =>
    refine ⟨a, [.unknownOption (str "x")], ?_, hnil⟩
    rw [if_neg (by decide)]
    unfold setOption setPidfile setOtherOption
    simp only [show str "x" ≠ str "user" by decide, show str "x" ≠ str "group" by decide,
      show str "x" ≠ str "pidfile" by decide, show str "x" ≠ str "resolveHosts" by decide,
      show str "x" ≠ str "session_limit" by decide,
      show str "x" ≠ str "login_fail_limit" by decide, false_and, if_false]
  | checkers => exact ⟨_, _, rfl, rfl⟩
  | realms => exact ⟨_, _, rfl, hnil⟩
  | server => exact ⟨_, _, rfl, hnil⟩

theorem lineEffect_checkers (a : Settings) : lineEffect accounts a (str "[checkers]") =
    .ok ({ a with currentSection := .checkers }, []) := by
  have hlp : (str "[checkers]").dropWhile isspace = chr '[' :: str "checkers]" := by decide
  have hname : sectionName (chr '[' :: str "checkers]") = chr 'c' :: str "heckers]" := by decide
  have hend : ((chr 'c' :: str "heckers]").dropWhile (fun b => !isNameEnd b)).dropWhile isspace =
      [chr ']'] := by decide
  have htext : (chr 'c' :: str "heckers]").takeWhile (fun b => !isNameEnd b) = str "checkers" := by
    decide
  unfold lineEffect
  dsimp only
  rw [hlp]
  dsimp only
  rw [if_neg (by decide), if_pos rfl]
  unfold sectionLine
  rw [hname]
  dsimp only
  rw [if_neg (by decide), hend]
  dsimp only
  rw [if_pos (by decide), htext]
  unfold openSection
  rw [if_neg (by decide), if_pos rfl]

theorem keyValue_prefix {line : Str} (h : keyValue line = some (key, value)) : key <+: line := by
  unfold keyValue at h
  split at h
  · cases h
  split at h
  · cases h
  split at h
  · cases h
  split at h
  · cases h
  obtain ⟨rfl, _⟩ := Prod.mk.inj (Option.some.inj h)
  exact (List.rdropWhile_prefix _ _).trans (List.takeWhile_prefix _)

/-- The line of a pidfile, in the global section. -/
theorem lineEffect_pidfile (hsection : a.currentSection = .global) {text : Str}
    (hkv : keyValue (text.dropWhile isspace) = some (str "pidfile", value)) :
    lineEffect accounts a text =
      .ok (setPidfile a (str "pidfile") value, [.unknownOption (str "pidfile")]) := by
  obtain ⟨l, hlp⟩ := keyValue_prefix hkv
  have hcons : text.dropWhile isspace = chr 'p' :: (str "idfile" ++ l) := hlp.symm
  unfold lineEffect
  dsimp only
  rw [hcons] at hkv ⊢
  dsimp only
  rw [if_neg (by decide), if_neg (by decide), if_neg (by rw [hsection]; decide), hkv]
  dsimp only
  rw [hsection]
  dsimp only
  unfold setOption setOtherOption
  simp only [show str "pidfile" ≠ str "user" by decide, show str "pidfile" ≠ str "group" by decide,
    show str "pidfile" ≠ str "resolveHosts" by decide,
    show str "pidfile" ≠ str "session_limit" by decide,
    show str "pidfile" ≠ str "login_fail_limit" by decide, if_false]

/-- A limit that counts is seen. -/
theorem limitAt_count {l l' : Limits} (h : l'.count = l.count + 1) : limitAt l' ≠ limitAt l := by
  intro heq
  have hat := congrFun heq l.count
  unfold limitAt at hat
  rw [if_pos (Nat.le_refl _), if_neg (by omega)] at hat
  cases hat

theorem realm_seen {realms : List CfgRealm} {opt name : Str} {ws : List Warning}
    (hadd : addRealmLimit opt name value a.realms = .ok (realms, ws))
    (hseen : view defpidfile { a with realms } = view defpidfile a) {realm : CfgRealm}
    (hfind : a.realms.find? (·.name = name) = some realm) : realm.limits.count = LIMITSSZ := by
  rcases addRealmLimit_inv hadd with ⟨hnone, _⟩ | ⟨pre, found, found', post, hfound, ha, hb, hlimit⟩
  · rw [hnone] at hfind
    cases hfind
  obtain rfl := Option.some.inj (hfound.symm.trans hfind)
  by_contra hfull
  have hat : realms[pre.length]?.map realmView = a.realms[pre.length]?.map realmView :=
    congrFun (congrArg View.realm hseen) pre.length
  rw [ha, hb, List.getElem?_append_right (Nat.le_refl _),
    List.getElem?_append_right (Nat.le_refl _), Nat.sub_self] at hat
  have hlimits : limitAt found'.limits = limitAt found.limits :=
    congrArg RealmView.loginFailLimit (Option.some.inj hat)
  exact limitAt_count (addLimit_count hlimit hfull) hlimits

theorem server_seen {s : CfgServer}
    (hws : Ignoring (serverLine a (str "nat64_prefix") value).2)
    (hseen : view defpidfile (serverLine a (str "nat64_prefix") value).1 = view defpidfile a)
    (hs : a.servers[a.server]? = some s) : s.nat64Prefix.or defaultPrefix = defaultPrefix := by
  unfold serverLine at hws hseen
  dsimp only at hws hseen
  rcases setServerOption_inv (str "nat64_prefix") value a.server a.servers with
    ⟨hnone, _⟩ | ⟨pre, s', post, hsome, hlength, hservers, hset⟩
  · rw [hnone] at hs
    cases hs
  obtain rfl := Option.some.inj (hsome.symm.trans hs)
  rw [hset] at hws hseen
  have hat : (pre ++ (s'.setOption (str "nat64_prefix") value).1 :: post)[a.server]?.map serverView =
      a.servers[a.server]?.map serverView := congrFun (congrArg View.server hseen) a.server
  rw [hs, List.getElem?_append_right (by omega), hlength, Nat.sub_self, setOption_reports hws,
    if_pos rfl] at hat
  exact (congrArg CfgServer.nat64Prefix (Option.some.inj hat)).symm

end visible

section needed

variable {accounts : Accounts} {self next : Reader} {defpidfile : Str}

/-- The rest of a file, as two readers see it. -/
def SameRest (accounts : Accounts) (defpidfile : Str) (self next : Reader) : Prop :=
  ∀ after, AllTerminated accounts (known self) (chunks after) →
    seen defpidfile ((chunks after).foldlM (readChunk accounts false) next) =
      seen defpidfile ((chunks after).foldlM (readChunk accounts false) self)

theorem allTerminated_cons {k : Known} {chunk : List Byte} {cs : List (List Byte)} {text : Str}
    (hline : lineOf chunk = some text) (hterm : Terminated text)
    (hrest : ∀ k', AllTerminated accounts k' cs) : AllTerminated accounts k (chunk :: cs) := by
  refine ⟨fun _ line hline' => ?_, fun next _ => hrest next⟩
  obtain rfl := Option.some.inj (hline.symm.trans hline')
  exact hterm

theorem allTerminated_one {k : Known} {chunk : List Byte} {text : Str}
    (hline : lineOf chunk = some text) (hterm : Terminated text) :
    AllTerminated accounts k [chunk] := allTerminated_cons hline hterm fun _ => trivial

theorem seen_line (hskip : self.skipping = false) {chunk : List Byte} {text : Str}
    (hline : lineOf chunk = some text) (hterm : Terminated text) (cs : List (List Byte)) {r}
    (heffect : lineEffect accounts self.config text = .ok r) :
    ∃ self', self'.config = r.1 ∧ self'.skipping = false ∧
      (chunk :: cs).foldlM (readChunk accounts false) self =
        cs.foldlM (readChunk accounts false) self' := by
  have hread := @readChunk_known accounts self chunk false fun _ line hline' => by
    obtain rfl := Option.some.inj (hline.symm.trans hline')
    exact hterm
  have hnot : ¬ (known self).skipping = true := by simp [known, hskip]
  unfold chunkEffect at hread
  rw [if_neg hnot, hline] at hread
  dsimp only at hread
  rw [show (known self).settings = self.config from rfl, heffect] at hread
  obtain ⟨self', hself', hknown⟩ := map_inv hread
  refine ⟨self', congrArg Known.settings hknown, congrArg Known.skipping hknown, ?_⟩
  exact foldlM_cons_ok hself' cs

theorem SameRest.view_eq (h : SameRest accounts defpidfile self next) :
    view defpidfile next.config = view defpidfile self.config :=
  Except.ok.inj (h [] trivial)

/-- A pidfile that was set before would have been set by a later line. -/
theorem pidfile_needed (hself : self.skipping = false) (hnext : next.skipping = false)
    (hsection : self.config.currentSection = .global) {value : Str}
    (hconfig : next.config = setPidfile self.config (str "pidfile") value)
    (h : SameRest accounts defpidfile self next) : self.config.pidfile ≠ none := by
  intro hnone
  have hset : ∀ v, setPidfile self.config (str "pidfile") v = { self.config with pidfile := some v } :=
    fun v => if_pos ⟨rfl, hnone⟩
  have hother : ∀ v, setPidfile next.config (str "pidfile") v = next.config := by
    intro v
    refine setPidfile_other (Or.inr ?_)
    rw [hconfig, hset]
    exact Option.some_ne_none value
  have hsection' : next.config.currentSection = .global := by
    rw [hconfig, hset]
    exact hsection
  have hline : ∀ (v text : Str), chunks (text ++ [nl]) = [text ++ [nl]] →
      lineOf (text ++ [nl]) = some text → Terminated text →
      keyValue (text.dropWhile isspace) = some (str "pidfile", v) → value = v := by
    intro v text hchunks hlineOf hterm hkv
    have hrest := h (text ++ [nl]) (hchunks ▸ allTerminated_one hlineOf hterm)
    obtain ⟨self', hself', _, hrun⟩ := seen_line hself hlineOf hterm []
      (@lineEffect_pidfile accounts self.config v hsection text hkv)
    obtain ⟨next', hnext', _, hrun'⟩ := seen_line hnext hlineOf hterm []
      (@lineEffect_pidfile accounts next.config v hsection' text hkv)
    rw [hchunks, hrun, hrun'] at hrest
    have hview : view defpidfile next'.config = view defpidfile self'.config :=
      Except.ok.inj hrest
    rw [hself', hnext', hother, hset, hconfig, hset] at hview
    exact congrArg View.pidfile hview
  have ha : value = str "a" := hline _ (str "pidfile=a") (by decide +kernel) (by decide +kernel)
    (by decide +kernel) (by decide +kernel)
  have hb : value = str "b" := hline _ (str "pidfile=b") (by decide +kernel) (by decide +kernel)
    (by decide +kernel) (by decide +kernel)
  rw [ha] at hb
  revert hb
  decide

/-- A checker that only one of both readers adds is seen. -/
theorem checker_seen {a b : Settings} {c : CfgChecker} (ha : a.checkers = b.checkers ++ [c]) :
    view defpidfile b ≠ view defpidfile a := by
  intro heq
  have hat : b.checkers[b.checkers.length]? = a.checkers[b.checkers.length]? :=
    congrFun (congrArg View.checker heq) b.checkers.length
  rw [ha, List.getElem?_eq_none (Nat.le_refl _), List.getElem?_append_right (Nat.le_refl _),
    Nat.sub_self] at hat
  cases hat

/-- A reader that leaves out the next line misses a checker. -/
theorem newline_needed (hself : self.skipping = false) (hconfig : next.config = self.config)
    (h : SameRest accounts defpidfile self next) : next.skipping = false := by
  by_contra hskip
  have hnext : next.skipping = true := by simpa using hskip
  have hline : lineOf (str "x=pam\n") = some (str "x=pam") := by decide +kernel
  have hheader : lineOf (str "[checkers]\n") = some (str "[checkers]") := by decide +kernel
  have hterm : Terminated (str "x=pam") := by decide +kernel
  have hterm' : Terminated (str "[checkers]") := by decide +kernel
  by_cases hsection : self.config.currentSection = .checkers
  · have hchunks : chunks (str "x=pam\n") = [str "x=pam\n"] := by decide +kernel
    obtain ⟨c, ws, heffect, hc⟩ := @lineEffect_checker accounts self.config
    rw [if_pos hsection] at hc
    obtain ⟨self', hself', _, hrun⟩ := seen_line hself hline hterm [] heffect
    obtain ⟨linebuf, hskipped⟩ := @readChunk_skip accounts false next hnext (str "x=pam\n")
    have hrest := h (str "x=pam\n") (hchunks ▸ allTerminated_one hline hterm)
    rw [hchunks, hrun, foldlM_cons_ok hskipped] at hrest
    have hview : view defpidfile next.config = view defpidfile self'.config := Except.ok.inj hrest
    rw [hconfig, hself'] at hview
    exact checker_seen hc hview
  · have hchunks : chunks (str "[checkers]\nx=pam\n") = [str "[checkers]\n", str "x=pam\n"] := by
      decide +kernel
    obtain ⟨self₁, hself₁, hskip₁, hrun₁⟩ := seen_line hself hheader hterm' [str "x=pam\n"]
      (@lineEffect_checkers accounts self.config)
    obtain ⟨c, ws, heffect, hc⟩ := @lineEffect_checker accounts self₁.config
    obtain ⟨self₂, hself₂, _, hrun₂⟩ := seen_line hskip₁ hline hterm [] heffect
    obtain ⟨linebuf, hskipped⟩ := @readChunk_skip accounts false next hnext (str "[checkers]\n")
    rw [hheader] at hskipped
    obtain ⟨d, ws', heffect', hd⟩ := @lineEffect_checker accounts next.config
    obtain ⟨next₂, hnext₂, _, hrun'⟩ := @seen_line accounts { next with
      linebuf := linebuf, skipping := false } rfl _ _ hline hterm [] _ heffect'
    have hrest := h (str "[checkers]\nx=pam\n")
      (hchunks ▸ allTerminated_cons hheader hterm' fun _ => allTerminated_one hline hterm)
    have hrun'' : [str "x=pam\n"].foldlM (readChunk accounts false) { next with
        linebuf := linebuf, skipping := (some (str "[checkers]")).isNone } = .ok next₂ := hrun'
    rw [hchunks, hrun₁, hrun₂, foldlM_cons_ok hskipped, hrun''] at hrest
    have hview : view defpidfile next₂.config = view defpidfile self₂.config :=
      Except.ok.inj hrest
    rw [hnext₂, hself₂] at hview
    rw [hconfig, if_neg hsection, List.append_nil] at hd
    rw [hself₁, if_pos rfl, ← hd] at hc
    exact checker_seen hc hview

/-- What a reader does with the rest of a file shows whether a line was harmless. -/
theorem harmless_needed {u : List Byte} (hu : nl ∉ u)
    (hrun : (chunks (u ++ [nl])).foldlM (readChunk accounts false) self = .ok next)
    (hreport : Reported self next) (h : SameRest accounts defpidfile self next) :
    Harmless self.config (u ++ [nl]) := by
  have hskip : self.skipping = false := by
    by_contra hskip
    exact not_reported (by simpa using hskip) hu hrun hreport
  unfold Harmless
  cases htext : lineOf (fgets (u ++ [nl])) with
  | none =>
    obtain ⟨hconfig, hseen⟩ := long_line hskip hu htext hrun
    exact fun _ => hseen.mp (newline_needed hskip hconfig h)
  | some text =>
    obtain ⟨h0, hnext, rest, ws, m, hline, hws⟩ := short_line hskip hu htext hrun
    have hignored := hws.mp hreport
    by_cases hheader : (text.dropWhile isspace).head? = some (chr '[')
    · exact Or.inl hheader
    refine Or.inr fun key value hkv => ?_
    have hterm : Terminated text := fun hhead => absurd hhead hheader
    have hyields : Yields (readLine accounts self.config 0) (text ++ 0 :: rest)
        (lineEffect accounts self.config text) := readLine_run rfl h0 hterm
    unfold Yields at hyields
    rw [hline] at hyields
    have heffect : lineEffect accounts self.config text = .ok (next.config, ws) := hyields.symm
    rcases lineEffect_inv heffect hignored hheader with ⟨hnone, _⟩ | ⟨key', value', hkv', hsetting⟩
    · rw [hnone] at hkv
      cases hkv
    obtain ⟨rfl, rfl⟩ := Prod.mk.inj (Option.some.inj (hkv'.symm.trans hkv))
    have hview := h.view_eq
    unfold settingLine at hsetting
    unfold HarmlessOption
    cases hsection : self.config.currentSection with
    | invalid => trivial
    | checkers => trivial
    | global =>
      rintro rfl
      rw [lineEffect_pidfile hsection hkv] at heffect
      exact pidfile_needed hskip hnext hsection (Prod.mk.inj (Except.ok.inj heffect)).1.symm h
    | realms =>
      intro n hn realm hfind
      rw [hsection] at hsetting
      unfold realmLine at hsetting
      rw [hn] at hsetting
      obtain ⟨⟨realms, ws'⟩, hadd, heq⟩ := map_inv hsetting
      rw [← (Prod.mk.inj heq).1] at hview
      exact realm_seen hadd hview hfind
    | server =>
      rintro rfl s hs
      rw [hsection] at hsetting
      have hline := Except.ok.inj hsetting
      have hseen : ∀ r, r = (next.config, ws) → Ignoring r.2 ∧
          view defpidfile r.1 = view defpidfile self.config := by
        rintro r rfl
        exact ⟨hignored, hview⟩
      exact server_seen (hseen _ hline).1 (hseen _ hline).2 hs

end needed

section files

variable {accounts : Accounts} {self : Settings} {linebuf before line : List Byte}
  {reader next : Reader} {defpidfile : Str}

/-- A last line without newline leaves the settings alone. -/
theorem last_line (hu : nl ∉ line)
    (hrun : (chunks line).foldlM (readChunk accounts false) reader = .ok next) :
    next.config = reader.config := by
  by_cases hnil : line = []
  · subst hnil
    rw [← Except.ok.inj hrun]
  have hall := chunks_last line hu
  by_cases hskip : reader.skipping = true
  · obtain ⟨linebuf, hread⟩ := @skip_run accounts false reader hskip _ hall
    rw [hread] at hrun
    rw [← Except.ok.inj hrun]
  · rw [chunks_cons hnil] at hrun hall
    obtain ⟨linebuf, hfirst⟩ := @readChunk_long accounts false reader _ (by simpa using hskip)
      (lineOf_none (hall _ List.mem_cons_self))
    obtain ⟨linebuf', hrest⟩ := @skip_run accounts false { reader with
        linebuf := linebuf, skipping := true, warnings := reader.warnings ++ [.lineTooLong] } rfl _
      fun c hc => hall c (List.mem_cons_of_mem _ hc)
    rw [foldlM_cons_ok hfirst, hrest] at hrun
    rw [← Except.ok.inj hrun]

/-- A line that is ignored could as well be left out of the file, whatever follows it in
which the names of sections end in their lines, exactly if it is harmless. -/
theorem ignored_iff (accounts : Accounts) (defpidfile : Str) (self : Settings)
    (linebuf before line : List Byte) (hbefore : before = [] ∨ ∃ x, before = x ++ [nl])
    (hline : ∃ u, nl ∉ u ∧ (line = u ++ [nl] ∨ line = u))
    (hreader : readConfigFile accounts false self linebuf before = .ok reader)
    (hnext : (chunks line).foldlM (readChunk accounts false) reader = .ok next)
    (hreport : Reported reader next) :
    (∀ after, nl ∈ line ∨ after = [] →
      AllTerminated accounts (known reader) (chunks after) →
        seen defpidfile
            (readConfigFile accounts false self linebuf (before ++ line ++ after)) =
          seen defpidfile (readConfigFile accounts false self linebuf (before ++ after))) ↔
      Harmless reader.config line := by
  have hwith : ∀ after, (∃ u, line = u ++ [nl]) ∨ after = [] →
      readConfigFile accounts false self linebuf (before ++ line ++ after) =
        (chunks after).foldlM (readChunk accounts false) next := by
    intro after hafter
    unfold readConfigFile at hreader ⊢
    rw [List.append_assoc, chunks_append hbefore, foldlM_append_ok hreader]
    rcases hafter with ⟨u, hu⟩ | rfl
    · rw [chunks_append (Or.inr ⟨u, hu⟩), foldlM_append_ok hnext]
    · rw [List.append_nil, hnext]
      rfl
  have hwithout : ∀ after, readConfigFile accounts false self linebuf (before ++ after) =
      (chunks after).foldlM (readChunk accounts false) reader := by
    intro after
    unfold readConfigFile at hreader ⊢
    rw [chunks_append hbefore, foldlM_append_ok hreader]
  obtain ⟨u, hu, rfl | rfl⟩ := hline
  · constructor
    · intro h
      apply harmless_needed hu hnext hreport
      intro after hterm
      rw [← hwith after (Or.inl ⟨u, rfl⟩), ← hwithout after]
      exact h after (Or.inl (by simp)) hterm
    · intro hharmless after _ hterm
      obtain ⟨halike, hskip⟩ := line_step hu hnext hreport hharmless
      rw [hwith after (Or.inl ⟨u, rfl⟩), hwithout after]
      exact rest_seen halike hskip hterm defpidfile
  · constructor
    · intro _
      unfold Harmless
      have hfirst : nl ∉ fgets line := fun hmem => hu (by
        unfold fgets at hmem
        exact List.mem_of_mem_take (List.mem_of_mem_take hmem))
      rw [lineOf_none hfirst]
      exact fun hmem => absurd hmem hu
    · intro _ after hafter _
      obtain rfl := hafter.resolve_left hu
      rw [hwith [] (Or.inr rfl), hwithout []]
      exact congrArg (fun s => Except.ok (view defpidfile s)) (last_line hu hnext)

end files

section samples

def readSample (file : String) : Except Fault Reader :=
  readConfigFile noAccounts false startSettings (List.replicate LINEBUFSZ 0) (str file)

/-- What is reported for the last line of a file. -/
def reports (before line : String) : Option (List Warning) :=
  match readSample before, readSample (before ++ line) with
  | .ok reader, .ok next => some (next.warnings.drop reader.warnings.length)
  | _, _ => none

def seenSample (file : String) : Except Fault View := seen (str "/default") (readSample file)

theorem seenSample_ne {α : Type} (f : View → α) {file file' : String}
    (h : (seenSample file).toOption.map f ≠ (seenSample file').toOption.map f) :
    seenSample file ≠ seenSample file' := fun heq => h (by rw [heq])

/-- Three lines that are reported as ignored, and are seen nevertheless. -/
theorem ignored_seen :
    (reports "" "pidfile=/run/a\n" = some [.unknownOption (str "pidfile")] ∧
      seenSample "pidfile=/run/a\n" ≠ seenSample "") ∧
    (reports "[realms]\nr=c\n" "r_login_fail_limit=x\n" =
        some [.invalidRealmLimit (str "x") (str "login_fail_limit")] ∧
      seenSample "[realms]\nr=c\nr_login_fail_limit=x\n" ≠ seenSample "[realms]\nr=c\n") ∧
    (reports "[server]\nnat64_prefix=2001:db8::/96\n" "nat64_prefix=x\n" =
        some [.invalidSetting (str "x") (str "nat64_prefix")] ∧
      seenSample "[server]\nnat64_prefix=2001:db8::/96\nnat64_prefix=x\n" ≠
        seenSample "[server]\nnat64_prefix=2001:db8::/96\n") := by
  refine ⟨⟨by decide +kernel, ?_⟩, ⟨by decide +kernel, ?_⟩, by decide +kernel, ?_⟩
  · exact seenSample_ne (·.pidfile) (by decide +kernel)
  · exact seenSample_ne (fun v => (v.realm 0).map (·.loginFailLimit 0)) (by decide +kernel)
  · exact seenSample_ne (fun v => (v.server 0).map (·.nat64Prefix)) (by decide +kernel)

/-- The state before the first line. -/
def startReader : Reader :=
  ⟨{ startSettings with currentSection := .global }, List.replicate LINEBUFSZ 0, false, []⟩

/-- An unknown option at the start of a file can be left out. -/
theorem ignored_iff_sample : Harmless startReader.config (str "x=y\n") ∧
    ∀ after, AllTerminated noAccounts (known startReader) (chunks after) →
      seen (str "/default") (readConfigFile noAccounts false startSettings
          (List.replicate LINEBUFSZ 0) ([] ++ str "x=y\n" ++ after)) =
        seen (str "/default") (readConfigFile noAccounts false startSettings
          (List.replicate LINEBUFSZ 0) ([] ++ after)) := by
  have hreports : ((chunks (str "x=y\n")).foldlM (readChunk noAccounts false)
      startReader).toOption.map (·.warnings) = some [.unknownOption (str "x")] := by
    decide +kernel
  have hharmless : Harmless startReader.config (str "x=y\n") := by
    have hline : lineOf (fgets (str "x=y\n")) = some (str "x=y") := by decide +kernel
    have hkv : keyValue ((str "x=y").dropWhile isspace) = some (str "x", str "y") := by
      decide +kernel
    unfold Harmless
    rw [hline]
    refine Or.inr fun key value hkey => ?_
    obtain ⟨rfl, _⟩ := Prod.mk.inj (Option.some.inj (hkv.symm.trans hkey))
    intro hpidfile
    revert hpidfile
    decide
  cases hnext : (chunks (str "x=y\n")).foldlM (readChunk noAccounts false) startReader with
  | error e =>
    rw [hnext] at hreports
    cases hreports
  | ok next =>
    rw [hnext] at hreports
    have hwarnings : next.warnings = [.unknownOption (str "x")] := Option.some.inj hreports
    have hreport : Reported startReader next := by
      refine ⟨.unknownOption (str "x"), ?_, by decide +kernel⟩
      rw [hwarnings]
      exact List.mem_cons_self
    refine ⟨hharmless, fun after hterm => ?_⟩
    exact (ignored_iff noAccounts (str "/default") startSettings _ [] (str "x=y\n") (Or.inl rfl)
      ⟨str "x=y", by decide, Or.inl (by decide)⟩ rfl hnext hreport).mpr hharmless after
      (Or.inl (by decide)) hterm

end samples

end Swad.IgnoredLines
