import Swad.IdPrecedence
import Swad.LineIsolation
import Swad.PairedRuns

/-!
The command line. Flags that need an argument wait in a queue; what is not a flag is the
argument of the one that waits longest, and so is a flag that was given before or is not
known. The flags that got an argument are kept in the order in which they did, each of them
is there at most once, and only they change the user and the group.
-/
namespace Swad.Arguments

open Bytes Config LineIsolation PairedRuns IdPrecedence

structure CommandLine where
  config : Settings
  cfgfile : Option Str
  foreground : ℤ
  verbose : ℤ

/-- The command line between two arguments. The flags that got an argument are written down
with it. -/
structure Flags where
  line : CommandLine
  escapedash : Bool
  needargs : List Byte
  seen : List Byte
  taken : List (Byte × Str)

def onceflags : Str := str "cgpu"

def ARGBUFSZ : ℕ := 8

section reading

variable (accounts : Accounts)

/-- The effect of a flag with its argument, if it is valid. -/
def applyOption (self : CommandLine) (flag : Byte) (op : Str) : Option CommandLine :=
  if flag = chr 'c' then some { self with cfgfile := some op }
  else if flag = chr 'g' then
    (parseGroup accounts self.config op).map fun config => { self with config }
  else if flag = chr 'p' then
    some { self with config := { self.config with pidfile := some op } }
  else if flag = chr 'u' then
    (parseUser accounts self.config op).map fun config => { self with config }
  else none

/-- The buffer is a queue, its last entry is the oldest. -/
def addArg (self : Flags) (opt : Byte) : Except ℤ Flags :=
  if self.needargs.length = ARGBUFSZ then .error (-1)
  else .ok { self with needargs := opt :: self.needargs }

def optArg (self : Flags) (op : Str) : Except ℤ Flags :=
  match self.needargs.getLast? with
  | none => .error (-1)
  | some flag =>
    match applyOption accounts self.line flag op with
    | none => .error (-1)
    | some line => .ok { self with
        line, needargs := self.needargs.dropLast, taken := self.taken ++ [(flag, op)] }

def resolveHosts (self : CommandLine) (resolveHosts : ℤ) : CommandLine :=
  { self with config := { self.config with resolveHosts } }

/-- The flags behind a dash. The rest of them may be an argument. -/
def readFlags (self : Flags) : Str → Except ℤ Flags
  | [] => .ok self
  | c :: rest =>
    if c ∈ onceflags ∧ c ∈ self.seen then optArg accounts self (c :: rest)
    else
      let self := if c ∈ onceflags then { self with seen := c :: self.seen } else self
      if c = chr 'c' ∨ c = chr 'g' ∨ c = chr 'u' then do
        let self ← addArg self c
        readFlags self rest
      else if c = chr 'R' then readFlags { self with line := resolveHosts self.line 0 } rest
      else if c = chr 'f' then readFlags { self with line := { self.line with foreground := 1 } } rest
      else if c = chr 'h' then .error 1
      else if c = chr 'r' then readFlags { self with line := resolveHosts self.line 1 } rest
      else if c = chr 'V' then .error 1
      else if c = chr 'v' then readFlags { self with line := { self.line with verbose := 1 } } rest
      else optArg accounts self (c :: rest)

def readArgument (self : Flags) (o : Str) : Except ℤ Flags :=
  if self.escapedash = false ∧ o = str "--" then .ok { self with escapedash := true }
  else if self.escapedash = false ∧ o.head? = some (chr '-') ∧ 1 < o.length then
    if self.needargs ≠ [] then .error (-1) else readFlags accounts self (o.drop 1)
  else if self.escapedash = false ∧ self.needargs ≠ [] then optArg accounts self o
  else .error (-1)

/-- The arguments behind the name of the program; a result of 1 ends it too. -/
def readArguments (start : Settings) (argv : List Str) : Except ℤ Flags := do
  let self ← argv.tail.foldlM (readArgument accounts) ⟨⟨start, none, 0, 0⟩, false, [], [], []⟩
  if self.needargs ≠ [] then .error (-1) else .ok self

end reading

/-! ### What was taken -/

/-- The user that a text names, with the group it belongs to. -/
def userOf (accounts : Accounts) (s : Str) : Option (ℤ × ℕ) :=
  match longArg s with
  | none => (accounts.getpwnam s).map fun p => ((p.uid : ℤ), p.gid)
  | some tuid => (accounts.getpwuid (toId tuid)).map fun p => (tuid, p.gid)

def groupOf (accounts : Accounts) (s : Str) : Option ℤ :=
  match longArg s with
  | none => (accounts.getgrnam s).map fun g => (g : ℤ)
  | some tgid => (accounts.getgrgid (toId tgid)).map fun _ => tgid

def userSetting (accounts : Accounts) (s : Str) : Option Setting :=
  (userOf accounts s).map fun u => .user u.1 u.2

def groupSetting (accounts : Accounts) (s : Str) : Option Setting :=
  (groupOf accounts s).map .group

/-- What a flag sets, if it is one for the user or the group. -/
def flagSetting (accounts : Accounts) (x : Byte × Str) : Option Setting :=
  if x.1 = chr 'u' then userSetting accounts x.2
  else if x.1 = chr 'g' then groupSetting accounts x.2
  else none

def ids (self : Settings) : Ids := ⟨self.uid, self.gid⟩

section taken

variable {accounts : Accounts} {self next : Flags} {start : Settings} {c : Byte} {op : Str}

theorem parseUser_eq (a : Settings) (op : Str) :
    parseUser accounts a op = (userOf accounts op).map fun u =>
      { a with uid := u.1, gid := if a.gid = -1 then u.2 else a.gid } := by
  unfold parseUser userOf
  cases longArg op with
  | none =>
    dsimp only
    cases accounts.getpwnam op <;> rfl
  | some tuid =>
    dsimp only
    cases accounts.getpwuid (toId tuid) <;> rfl

theorem parseUser_ids {a b : Settings} (h : parseUser accounts a op = some b) :
    ∃ uid primary, userSetting accounts op = some (.user uid primary) ∧
      ids b = (ids a).setUser uid primary ∧ { a with uid := b.uid, gid := b.gid } = b := by
  rw [parseUser_eq] at h
  obtain ⟨u, hu, rfl⟩ := Option.map_eq_some_iff.mp h
  refine ⟨u.1, u.2, ?_, rfl, rfl⟩
  rw [userSetting, hu]
  rfl

theorem parseUser_none {a : Settings} (h : parseUser accounts a op = none) :
    userSetting accounts op = none := by
  rw [parseUser_eq, Option.map_eq_none_iff] at h
  rw [userSetting, h]
  rfl

theorem parseGroup_eq (a : Settings) (op : Str) :
    parseGroup accounts a op = (groupOf accounts op).map fun gid => { a with gid } := by
  unfold parseGroup groupOf
  cases longArg op with
  | none =>
    dsimp only
    cases accounts.getgrnam op <;> rfl
  | some tgid =>
    dsimp only
    cases accounts.getgrgid (toId tgid) <;> rfl

theorem parseGroup_ids {a b : Settings} (h : parseGroup accounts a op = some b) :
    ∃ gid, groupSetting accounts op = some (.group gid) ∧ ids b = (ids a).setGroup gid ∧
      { a with gid := b.gid } = b := by
  rw [parseGroup_eq] at h
  obtain ⟨gid, hgid, rfl⟩ := Option.map_eq_some_iff.mp h
  refine ⟨gid, ?_, rfl, rfl⟩
  rw [groupSetting, hgid]
  rfl

theorem parseGroup_none {a : Settings} (h : parseGroup accounts a op = none) :
    groupSetting accounts op = none := by
  rw [parseGroup_eq, Option.map_eq_none_iff] at h
  rw [groupSetting, h]
  rfl

/-- The flags that were taken, each once, make the user and the group. -/
structure Taken (accounts : Accounts) (start : Settings) (flags : Flags) : Prop where
  ids : ids flags.line.config =
    (flags.taken.filterMap (flagSetting accounts)).foldl Ids.flag (ids start)
  valid : ∀ x ∈ flags.taken, x.1 = chr 'u' ∨ x.1 = chr 'g' → (flagSetting accounts x).isSome
  once : (flags.taken.map Prod.fst ++ flags.needargs).Nodup
  seen : ∀ c ∈ flags.taken.map Prod.fst ++ flags.needargs, c ∈ flags.seen

theorem applyOption_ids {a b : CommandLine} {flag : Byte}
    (h : applyOption accounts a flag op = some b) :
    ids b.config = ((flagSetting accounts (flag, op)).toList).foldl Ids.flag (ids a.config) ∧
      (flag = chr 'u' ∨ flag = chr 'g' → (flagSetting accounts (flag, op)).isSome) := by
  unfold applyOption at h
  unfold flagSetting
  by_cases hc : flag = chr 'c'
  · rw [if_pos hc] at h
    obtain rfl := Option.some.inj h
    subst hc
    exact ⟨rfl, fun hor => absurd hor (by decide)⟩
  rw [if_neg hc] at h
  by_cases hg : flag = chr 'g'
  · rw [if_pos hg] at h
    obtain ⟨config, hconfig, rfl⟩ := Option.map_eq_some_iff.mp h
    obtain ⟨gid, hsetting, hids, _⟩ := parseGroup_ids hconfig
    subst hg
    have hne : ¬ chr 'g' = chr 'u' := by decide
    dsimp only
    rw [if_neg hne, if_pos rfl, hsetting]
    exact ⟨hids, fun _ => rfl⟩
  rw [if_neg hg] at h
  by_cases hp : flag = chr 'p'
  · rw [if_pos hp] at h
    obtain rfl := Option.some.inj h
    subst hp
    exact ⟨rfl, fun hor => absurd hor (by decide)⟩
  rw [if_neg hp] at h
  by_cases hu : flag = chr 'u'
  · rw [if_pos hu] at h
    obtain ⟨config, hconfig, rfl⟩ := Option.map_eq_some_iff.mp h
    obtain ⟨uid, primary, hsetting, hids, _⟩ := parseUser_ids hconfig
    dsimp only
    rw [if_pos hu, hsetting]
    exact ⟨hids, fun _ => rfl⟩
  · rw [if_neg hu] at h
    cases h

theorem Taken.optArg (h : Taken accounts start self) (hopt : optArg accounts self op = .ok next) :
    Taken accounts start next := by
  unfold Arguments.optArg at hopt
  rcases List.eq_nil_or_concat' self.needargs with hnil | ⟨rest, flag, hneed⟩
  · rw [hnil] at hopt
    cases hopt
  rw [hneed, List.getLast?_concat] at hopt
  dsimp only at hopt
  cases happly : applyOption accounts self.line flag op with
  | none =>
    rw [happly] at hopt
    cases hopt
  | some line =>
    rw [happly] at hopt
    obtain rfl := Except.ok.inj hopt
    obtain ⟨hids, hvalid⟩ := applyOption_ids happly
    have hperm : ((self.taken ++ [(flag, op)]).map Prod.fst ++ rest).Perm
        (self.taken.map Prod.fst ++ self.needargs) := by
      rw [hneed, List.map_append, List.append_assoc]
      exact List.Perm.append_left _ List.perm_append_comm
    refine ⟨?_, ?_, ?_, ?_⟩
    · show Arguments.ids line.config = _
      rw [hids, h.ids, List.filterMap_append, List.foldl_append]
      congr 1
    · intro x hx
      rcases List.mem_append.mp hx with hx | hx
      · exact h.valid x hx
      · rw [List.mem_singleton.mp hx]
        exact hvalid
    · rw [List.dropLast_concat]
      exact hperm.nodup_iff.mpr h.once
    · rw [List.dropLast_concat]
      intro c hc
      exact h.seen c (hperm.mem_iff.mp hc)

/-- Flags without an argument leave the user and the group alone. -/
theorem Taken.congr (h : Taken accounts start self) (hids : Arguments.ids next.line.config =
      Arguments.ids self.line.config) (htaken : next.taken = self.taken)
    (hneed : next.needargs = self.needargs) (hseen : self.seen ⊆ next.seen) :
    Taken accounts start next := by
  refine ⟨?_, ?_, ?_, ?_⟩
  · rw [hids, htaken]
    exact h.ids
  · rw [htaken]
    exact h.valid
  · rw [htaken, hneed]
    exact h.once
  · rw [htaken, hneed]
    exact fun c hc => hseen (h.seen c hc)

/-- A flag waits for its argument. -/
theorem Taken.addArg (h : Taken accounts start self)
    (hnew : c ∉ self.taken.map Prod.fst ++ self.needargs) (hseen : c ∈ self.seen)
    (hadd : addArg self c = .ok next) : Taken accounts start next := by
  unfold Arguments.addArg at hadd
  split at hadd
  · cases hadd
  · obtain rfl := Except.ok.inj hadd
    have hperm : (self.taken.map Prod.fst ++ c :: self.needargs).Perm
        (c :: (self.taken.map Prod.fst ++ self.needargs)) := List.perm_middle
    refine ⟨h.ids, h.valid, ?_, ?_⟩
    · exact hperm.nodup_iff.mpr (List.nodup_cons.mpr ⟨hnew, h.once⟩)
    · intro d hd
      rcases List.mem_cons.mp (hperm.mem_iff.mp hd) with rfl | hd
      · exact hseen
      · exact h.seen d hd

theorem Taken.readFlags (h : Taken accounts start self) {o : Str}
    (hread : readFlags accounts self o = .ok next) : Taken accounts start next := by
  induction o generalizing self with
  | nil =>
    obtain rfl := Except.ok.inj hread
    exact h
  | cons c rest ih =>
    unfold Arguments.readFlags at hread
    by_cases hagain : c ∈ onceflags ∧ c ∈ self.seen
    · rw [if_pos hagain] at hread
      exact h.optArg hread
    rw [if_neg hagain] at hread
    have hseen : Taken accounts start
        (if c ∈ onceflags then { self with seen := c :: self.seen } else self) := by
      split
      · exact h.congr rfl rfl rfl (List.subset_cons_self _ _)
      · exact h
    have hadd : c ∈ onceflags → c ∈
        (if c ∈ onceflags then { self with seen := c :: self.seen } else self).seen := by
      intro hc
      rw [if_pos hc]
      exact List.mem_cons_self
    have hnew : c ∈ onceflags → c ∉
        (if c ∈ onceflags then { self with seen := c :: self.seen } else self).taken.map Prod.fst ++
          (if c ∈ onceflags then { self with seen := c :: self.seen } else self).needargs := by
      intro hc hmem
      rw [if_pos hc] at hmem
      exact hagain ⟨hc, h.seen c hmem⟩
    generalize (if c ∈ onceflags then { self with seen := c :: self.seen } else self) = self₁
      at hread hseen hadd hnew
    dsimp only at hread
    by_cases harg : c = chr 'c' ∨ c = chr 'g' ∨ c = chr 'u'
    · rw [if_pos harg] at hread
      have honce : c ∈ onceflags := by
        rcases harg with rfl | rfl | rfl
        all_goals decide
      obtain ⟨self₂, hadded, hread⟩ := bind_inv hread
      exact ih (hseen.addArg (hnew honce) (hadd honce) hadded) hread
    rw [if_neg harg] at hread
    by_cases hR : c = chr 'R'
    · rw [if_pos hR] at hread
      refine ih ?_ hread
      exact hseen.congr rfl rfl rfl (List.Subset.refl _)
    rw [if_neg hR] at hread
    by_cases hf : c = chr 'f'
    · rw [if_pos hf] at hread
      refine ih ?_ hread
      exact hseen.congr rfl rfl rfl (List.Subset.refl _)
    rw [if_neg hf] at hread
    by_cases hh : c = chr 'h'
    · rw [if_pos hh] at hread
      cases hread
    rw [if_neg hh] at hread
    by_cases hr : c = chr 'r'
    · rw [if_pos hr] at hread
      refine ih ?_ hread
      exact hseen.congr rfl rfl rfl (List.Subset.refl _)
    rw [if_neg hr] at hread
    by_cases hV : c = chr 'V'
    · rw [if_pos hV] at hread
      cases hread
    rw [if_neg hV] at hread
    by_cases hv : c = chr 'v'
    · rw [if_pos hv] at hread
      refine ih ?_ hread
      exact hseen.congr rfl rfl rfl (List.Subset.refl _)
    · rw [if_neg hv] at hread
      exact hseen.optArg hread

theorem Taken.readArgument (h : Taken accounts start self) {o : Str}
    (hread : readArgument accounts self o = .ok next) : Taken accounts start next := by
  unfold Arguments.readArgument at hread
  split at hread
  · obtain rfl := Except.ok.inj hread
    exact h.congr rfl rfl rfl (List.Subset.refl _)
  split at hread
  · split at hread
    · cases hread
    · exact h.readFlags hread
  split at hread
  · exact h.optArg hread
  · cases hread

theorem taken_foldlM {argv : List Str} (h : Taken accounts start self)
    (hread : argv.foldlM (readArgument accounts) self = .ok next) : Taken accounts start next := by
  induction argv generalizing self with
  | nil =>
    obtain rfl := Except.ok.inj hread
    exact h
  | cons o argv ih =>
    rw [List.foldlM_cons] at hread
    obtain ⟨self₁, hfirst, hread⟩ := bind_inv hread
    exact ih (h.readArgument hfirst) hread

/-- A command line that is accepted takes each flag once, and these make the user and the
group. -/
theorem taken_readArguments {argv : List Str}
    (hread : readArguments accounts start argv = .ok next) : Taken accounts start next := by
  unfold readArguments at hread
  obtain ⟨self, hfold, hread⟩ := bind_inv hread
  have hself : Taken accounts start self := by
    refine taken_foldlM ⟨rfl, ?_, ?_, ?_⟩ hfold
    · exact fun x hx => absurd hx List.not_mem_nil
    · exact List.nodup_nil
    · exact fun x hx => absurd hx List.not_mem_nil
  split at hread
  · cases hread
  · obtain rfl := Except.ok.inj hread
    exact hself

theorem flagSetting_user {x : Byte × Str} {uid : ℤ} {primary : ℕ}
    (h : flagSetting accounts x = some (.user uid primary)) : x.1 = chr 'u' := by
  unfold flagSetting at h
  split at h
  · next hu => exact hu
  split at h
  · obtain ⟨_, _, hgroup⟩ := Option.map_eq_some_iff.mp h
    cases hgroup
  · cases h

theorem flagSetting_group {x : Byte × Str} {gid : ℤ}
    (h : flagSetting accounts x = some (.group gid)) : x.1 = chr 'g' := by
  unfold flagSetting at h
  split at h
  · obtain ⟨_, _, huser⟩ := Option.map_eq_some_iff.mp h
    cases huser
  split at h
  · next hg => exact hg
  · cases h

theorem Taken.once_settings (h : Taken accounts start self) :
    Once (self.taken.filterMap (flagSetting accounts)) := by
  have hnodup : (self.taken.map Prod.fst).Nodup := (List.nodup_append.mp h.once).1
  have hcount : ∀ taken : List (Byte × Str),
      (users (taken.filterMap (flagSetting accounts))).length ≤
          (taken.map Prod.fst).count (chr 'u') ∧
        (groups (taken.filterMap (flagSetting accounts))).length ≤
          (taken.map Prod.fst).count (chr 'g') := by
    intro taken
    induction taken with
    | nil => exact ⟨Nat.le_refl 0, Nat.le_refl 0⟩
    | cons x taken ih =>
      rw [List.map_cons, List.count_cons, List.count_cons]
      cases hx : flagSetting accounts x with
      | none =>
        rw [List.filterMap_cons_none hx]
        omega
      | some setting =>
        rw [List.filterMap_cons_some hx]
        cases setting with
        | user uid primary =>
          rw [flagSetting_user hx, users_cons_user, groups_cons_user, List.length_cons]
          rw [if_pos (beq_self_eq_true _)]
          omega
        | group gid =>
          rw [flagSetting_group hx, users_cons_group, groups_cons_group, List.length_cons]
          rw [if_pos (beq_self_eq_true _)]
          omega
  obtain ⟨hu, hg⟩ := hcount self.taken
  have hone : ∀ c, (self.taken.map Prod.fst).count c ≤ 1 := fun c =>
    List.nodup_iff_count_le_one.mp hnodup c
  exact ⟨hu.trans (hone _), hg.trans (hone _)⟩

end taken

end Swad.Arguments
