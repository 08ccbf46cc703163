import Swad.Arguments
import Swad.IgnoredLines

/-!
The user and the group after the command line and the configuration file. The lines of the
global section that set one of them are written down as they are read; nothing else in the
file changes them. A user brings its primary group at once, so a line for the group comes too
late after it, although the group that was set first is the one that is wanted.
-/
namespace Swad.IdResolution

open Bytes Util StringPrograms Config ConfigLines LineIsolation PairedRuns IgnoredLines
open FileChunks IdPrecedence Arguments

/-- The key and the value of a line of the global section. -/
def optionOf (self : Reader) (chunk : List Byte) : Option (Str × Str) :=
  if self.skipping = false ∧ self.config.currentSection = .global then
    (lineOf chunk).bind fun line =>
      match line.dropWhile isspace with
      | [] => none
      | c :: l => if isComment c ∨ c = chr '[' then none else keyValue (c :: l)
  else none

/-- All keys and values of the global section, in the order of their lines. -/
def optionsRead (accounts : Accounts) : Reader → List (List Byte) → List (Str × Str)
  | _, [] => []
  | self, chunk :: chunks =>
    (optionOf self chunk).toList ++
      match readChunk accounts false self chunk with
      | .ok next => optionsRead accounts next chunks
      | .error _ => []

/-- What a line sets, if it is a valid one for the user or the group. -/
def lineSetting (accounts : Accounts) (option : Str × Str) : Option Setting :=
  if option.1 = str "user" then userSetting accounts option.2
  else if option.1 = str "group" then groupSetting accounts option.2
  else none

section lines

variable {accounts : Accounts} {a b : Settings} {ws : List Warning} {m m' : List Byte} {i : ℕ}

theorem ids_of_ok {c : Settings} {ws' : List Warning}
    (h : (Except.ok (c, ws') : Result) = .ok (b, ws)) (hc : ids c = ids a) : ids b = ids a := by
  rw [← (Prod.mk.inj (Except.ok.inj h)).1]
  exact hc

/-- A section changes neither the user nor the group, whatever is behind the line. -/
theorem readSection_ids (h : readSection a i m = .ok ((b, ws), m')) : ids b = ids a := by
  rcases readSection_inv h with hmalformed | ⟨start, hopen⟩
  · rw [(Prod.mk.inj hmalformed).1]
  · obtain ⟨_, _, _, rfl⟩ := openSection_inv hopen
    rfl

theorem setOtherOption_ids {key value : Str} (h : setOtherOption a key value = .ok (b, ws)) :
    ids b = ids a := by
  unfold setOtherOption at h
  split at h
  · split at h
    · split at h
      · exact ids_of_ok h rfl
      · exact ids_of_ok h rfl
    · exact ids_of_ok h rfl
  split at h
  · obtain ⟨_, _, h⟩ := bind_inv h
    exact ids_of_ok h rfl
  split at h
  · obtain ⟨_, _, h⟩ := bind_inv h
    exact ids_of_ok h rfl
  · exact ids_of_ok h rfl

/-- Taking a setting if there is one. -/
def takeLine (s : Ids) : Option Setting → Ids
  | none => s
  | some x => s.line x

theorem setOption_ids {key value : Str} (h : setOption accounts a key value = .ok (b, ws)) :
    ids b = takeLine (ids a) (lineSetting accounts (key, value)) := by
  unfold setOption at h
  unfold lineSetting
  dsimp only
  by_cases huser : key = str "user"
  · rw [if_pos huser] at h ⊢
    by_cases hneg : a.uid < 0
    · rw [if_pos hneg] at h
      cases hparse : parseUser accounts a value with
      | none =>
        rw [hparse] at h
        rw [← (Prod.mk.inj (Except.ok.inj h)).1, parseUser_none hparse]
        rfl
      | some c =>
        rw [hparse] at h
        obtain ⟨uid, primary, hsetting, hids, _⟩ := parseUser_ids hparse
        rw [← (Prod.mk.inj (Except.ok.inj h)).1, hsetting, hids]
        exact (if_pos hneg).symm
    · rw [if_neg hneg] at h
      rw [← (Prod.mk.inj (Except.ok.inj h)).1]
      cases hsetting : userSetting accounts value with
      | none => rfl
      | some x =>
        obtain ⟨u, _, rfl⟩ := Option.map_eq_some_iff.mp hsetting
        exact (if_neg hneg).symm
  rw [if_neg huser] at h ⊢
  by_cases hgroup : key = str "group"
  · rw [if_pos hgroup] at h ⊢
    by_cases hneg : a.gid < 0
    · rw [if_pos hneg] at h
      cases hparse : parseGroup accounts a value with
      | none =>
        rw [hparse] at h
        rw [← (Prod.mk.inj (Except.ok.inj h)).1, parseGroup_none hparse]
        rfl
      | some c =>
        rw [hparse] at h
        obtain ⟨gid, hsetting, hids, _⟩ := parseGroup_ids hparse
        rw [← (Prod.mk.inj (Except.ok.inj h)).1, hsetting, hids]
        exact (if_pos hneg).symm
    · rw [if_neg hneg] at h
      rw [← (Prod.mk.inj (Except.ok.inj h)).1]
      cases hsetting : groupSetting accounts value with
      | none => rfl
      | some x =>
        obtain ⟨g, _, rfl⟩ := Option.map_eq_some_iff.mp hsetting
        exact (if_neg hneg).symm
  · rw [if_neg hgroup] at h ⊢
    have hpidfile : ids (setPidfile a key value) = ids a := by
      unfold setPidfile
      split <;> rfl
    rw [setOtherOption_ids h, hpidfile]
    rfl

theorem checkerLine_ids {key value : Str} (h : checkerLine a key value = .ok (b, ws)) :
    ids b = ids a := by
  unfold checkerLine at h
  split at h
  · cases h
  · obtain ⟨args, _, h⟩ := map_inv h
    cases args with
    | none => rw [← (Prod.mk.inj h).1]
    | some args => rw [← (Prod.mk.inj h).1]; rfl

theorem realmLine_ids {key value : Str} (h : realmLine a key value = .ok (b, ws)) :
    ids b = ids a := by
  unfold realmLine at h
  split at h
  · obtain ⟨r, _, h⟩ := map_inv h
    rw [← (Prod.mk.inj h).1]
    rfl
  · obtain ⟨checkers, _, h⟩ := map_inv h
    cases checkers with
    | none => rw [← (Prod.mk.inj h).1]
    | some checkers => rw [← (Prod.mk.inj h).1]; rfl

/-- The key and the value of a line, in the global section. -/
def optionIn (a : Settings) (line : Str) : Option (Str × Str) :=
  if a.currentSection = .global then
    match line.dropWhile isspace with
    | [] => none
    | c :: l => if isComment c ∨ c = chr '[' then none else keyValue (c :: l)
  else none

theorem lineEffect_ids {line : Str} (h : lineEffect accounts a line = .ok (b, ws))
    (hheader : (line.dropWhile isspace).head? ≠ some (chr '[')) :
    ids b = takeLine (ids a) ((optionIn a line).bind (lineSetting accounts)) := by
  have hnone : ∀ {c : Settings} {ws' : List Warning}, optionIn a line = none → ids c = ids a →
      (Except.ok (c, ws') : Result) = .ok (b, ws) →
        ids b = takeLine (ids a) ((optionIn a line).bind (lineSetting accounts)) := by
    intro c ws' hopt hc heq
    rw [hopt]
    exact ids_of_ok heq hc
  unfold lineEffect at h
  unfold optionIn at hnone ⊢
  cases hlp : line.dropWhile isspace with
  | nil =>
    rw [hlp] at h hnone
    exact hnone (ite_self none) rfl h
  | cons c l =>
    rw [hlp] at h hnone hheader
    dsimp only at h hnone ⊢
    have hbracket : c ≠ chr '[' := fun hc => hheader (congrArg some hc)
    by_cases hcomment : isComment c = true
    · rw [if_pos hcomment] at h
      refine hnone ?_ rfl h
      rw [if_pos (Or.inl hcomment)]
      exact ite_self none
    have hplain : ¬ (isComment c = true ∨ c = chr '[') := fun hor => hor.elim hcomment hbracket
    rw [if_neg hcomment, if_neg hbracket] at h
    rw [if_neg hplain] at hnone ⊢
    by_cases hinvalid : a.currentSection = .invalid
    · rw [if_pos hinvalid] at h
      refine hnone ?_ rfl h
      rw [hinvalid, if_neg (by decide)]
    rw [if_neg hinvalid] at h
    cases hkv : keyValue (c :: l) with
    | none =>
      rw [hkv] at h hnone
      exact hnone (ite_self none) rfl h
    | some kv =>
      obtain ⟨key, value⟩ := kv
      rw [hkv] at h hnone
      dsimp only at h
      cases hsection : a.currentSection with
      | invalid => exact absurd hsection hinvalid
      | global =>
        rw [hsection] at h
        exact setOption_ids h
      | checkers =>
        rw [hsection] at h
        exact checkerLine_ids h
      | realms =>
        rw [hsection] at h
        exact realmLine_ids h
      | server =>
        rw [hsection] at h
        exact ids_of_ok h rfl

theorem readLine_ids {line rest : List Byte} (h0 : (0 : Byte) ∉ line)
    (h : readLine accounts a 0 (line ++ 0 :: rest) = .ok ((b, ws), m')) :
    ids b = takeLine (ids a) ((optionIn a line).bind (lineSetting accounts)) := by
  by_cases hheader : (line.dropWhile isspace).head? = some (chr '[')
  · obtain ⟨body, hbody⟩ : ∃ body, line.dropWhile isspace = chr '[' :: body := by
      cases hlp : line.dropWhile isspace with
      | nil =>
        rw [hlp] at hheader
        cases hheader
      | cons c body =>
        rw [hlp] at hheader
        exact ⟨body, by rw [Option.some.inj hheader]⟩
    have hdrop0 : (line ++ 0 :: rest).drop 0 = line ++ 0 :: rest := rfl
    obtain ⟨hscan, hdrop⟩ := scan_text (p := isspace) hdrop0 (Or.inl (by decide))
    rw [hbody] at hdrop
    rw [readLine, bind_ok hscan, bind_ok (load_run hdrop), if_neg (by decide), if_pos rfl] at h
    have hnone : optionIn a line = none := by
      unfold optionIn
      rw [hbody]
      exact ite_self none
    rw [readSection_ids h, hnone]
    rfl
  · have hterm : Terminated line := fun hhead => absurd hhead hheader
    have hyields : Yields (readLine accounts a 0) (line ++ 0 :: rest)
        (lineEffect accounts a line) := readLine_run rfl h0 hterm
    unfold Yields at hyields
    rw [h] at hyields
    exact lineEffect_ids hyields.symm hheader

end lines

section runs

variable {accounts : Accounts} {self next : Reader} {chunk : List Byte}

theorem optionOf_line {line : Str} (hskip : self.skipping = false) (h : lineOf chunk = some line) :
    optionOf self chunk = optionIn self.config line := by
  unfold optionOf optionIn
  rw [h, hskip]
  by_cases hsection : self.config.currentSection = .global
  · rw [if_pos ⟨rfl, hsection⟩, if_pos hsection]
    rfl
  · rw [if_neg fun hand => hsection hand.2, if_neg hsection]

theorem optionOf_none (h : self.skipping = true ∨ lineOf chunk = none) :
    optionOf self chunk = none := by
  unfold optionOf
  rcases h with hskip | hline
  · rw [if_neg]
    intro hand
    rw [hskip] at hand
    cases hand.1
  · rw [hline]
    exact ite_self none

/-- One call reads at most one line, and takes what it sets. -/
theorem readChunk_ids (h : readChunk accounts false self chunk = .ok next) :
    ids next.config =
      takeLine (ids self.config) ((optionOf self chunk).bind (lineSetting accounts)) := by
  cases hskip : self.skipping with
  | true =>
    obtain ⟨linebuf, hread⟩ := @readChunk_skip accounts false self hskip chunk
    rw [optionOf_none (Or.inl hskip), ← Except.ok.inj (hread.symm.trans h)]
    rfl
  | false =>
    cases hline : lineOf chunk with
    | none =>
      obtain ⟨linebuf, hread⟩ := @readChunk_long accounts false self chunk hskip hline
      rw [optionOf_none (Or.inr hline), ← Except.ok.inj (hread.symm.trans h)]
      rfl
    | some line =>
      obtain ⟨h0, _⟩ := linebuf_eq hline []
      obtain ⟨rest, hread⟩ := @readChunk_line accounts self chunk line false hskip hline
      obtain ⟨⟨⟨config, warnings⟩, m⟩, hrun, hnext⟩ := map_inv (hread.symm.trans h)
      rw [optionOf_line hskip hline, ← hnext]
      exact readLine_ids h0 hrun

theorem foldl_takeLine (s : Ids) (o : Option Setting) :
    o.toList.foldl Ids.line s = takeLine s o := by
  cases o <;> rfl

/-- The file takes its lines one after the other. -/
theorem chunks_ids {chunks : List (List Byte)}
    (h : chunks.foldlM (readChunk accounts false) self = .ok next) :
    ids next.config = ((optionsRead accounts self chunks).filterMap
      (lineSetting accounts)).foldl Ids.line (ids self.config) := by
  induction chunks generalizing self with
  | nil =>
    obtain rfl := Except.ok.inj h
    rfl
  | cons chunk chunks ih =>
    rw [List.foldlM_cons] at h
    obtain ⟨self₁, hread, hrest⟩ := bind_inv h
    have hfirst : ((optionOf self chunk).toList.filterMap (lineSetting accounts)) =
        ((optionOf self chunk).bind (lineSetting accounts)).toList := by
      cases hoption : optionOf self chunk with
      | none => rfl
      | some option =>
        show List.filterMap _ [option] = _
        cases hsetting : lineSetting accounts option with
        | none =>
          rw [List.filterMap_cons_none hsetting]
          show [] = Option.toList (lineSetting accounts option)
          rw [hsetting]
          rfl
        | some x =>
          rw [List.filterMap_cons_some hsetting]
          show [x] = Option.toList (lineSetting accounts option)
          rw [hsetting]
          rfl
    unfold optionsRead
    rw [hread]
    dsimp only
    rw [List.filterMap_append, hfirst, List.foldl_append, foldl_takeLine, ← readChunk_ids hread]
    exact ih hrest

/-- The flags for the user and the group, with their values. -/
def flagsOf (accounts : Accounts) (flags : Flags) : List Setting :=
  flags.taken.filterMap (flagSetting accounts)

/-- The valid lines for the user and the group, in the order of the file. -/
def linesOf (accounts : Accounts) (start : Settings) (linebuf file : List Byte) : List Setting :=
  (optionsRead accounts ⟨{ start with currentSection := .global }, linebuf, false, []⟩
    (chunks file)).filterMap (lineSetting accounts)

/-- The wanted user and the wanted group are the result in exactly this case. -/
theorem ids_wanted (accounts : Accounts) (argv : List Str) (linebuf file : List Byte)
    {flags : Flags} {reader : Reader}
    (hargs : readArguments accounts startSettings argv = .ok flags)
    (hfile : readConfigFile accounts false flags.line.config linebuf file = .ok reader) :
    (reader.config.uid = wantedUid (flagsOf accounts flags)
        (linesOf accounts flags.line.config linebuf file) ∧
      reader.config.gid = wantedGid (flagsOf accounts flags)
        (linesOf accounts flags.line.config linebuf file)) ↔
    UidKept (flagsOf accounts flags ++ linesOf accounts flags.line.config linebuf file) ∧
      GidKept (flagsOf accounts flags) (linesOf accounts flags.line.config linebuf file) := by
  have htaken := taken_readArguments hargs
  have hids : ids reader.config = resolve (flagsOf accounts flags)
      (linesOf accounts flags.line.config linebuf file) := by
    have hrun := chunks_ids hfile
    have hstart := htaken.ids
    show ids reader.config = List.foldl Ids.line (List.foldl Ids.flag unset _) _
    rw [hrun]
    congr 1
  have huid : reader.config.uid = (resolve (flagsOf accounts flags)
      (linesOf accounts flags.line.config linebuf file)).uid := congrArg Ids.uid hids
  have hgid : reader.config.gid = (resolve (flagsOf accounts flags)
      (linesOf accounts flags.line.config linebuf file)).gid := congrArg Ids.gid hids
  have honce : Once (flagsOf accounts flags) := htaken.once_settings
  rw [huid, hgid, uid_kept honce, gid_kept honce]

end runs

section samples

/-- Two users and their groups, and another group. -/
def someAccounts : Accounts where
  getpwnam name := if name = str "www" then some ⟨80, 80⟩ else none
  getpwuid _ := none
  getgrnam name := if name = str "web" then some 443 else none
  getgrgid _ := none

def emptyBuf : List Byte := List.replicate LINEBUFSZ 0

/-- The ids after a command line without arguments and this file. -/
def idsAfter (file : List Byte) : Option (ℤ × ℤ) :=
  match readArguments someAccounts startSettings [str "swad"] with
  | .error _ => none
  | .ok flags =>
    match readConfigFile someAccounts false flags.line.config emptyBuf file with
    | .error _ => none
    | .ok reader => some (reader.config.uid, reader.config.gid)

def groupFirst : List Byte := str "group = web\nuser = www\n"

def userFirst : List Byte := str "user = www\ngroup = web\n"

/-- The order of the two lines decides about the group. -/
theorem order_matters :
    idsAfter groupFirst = some (80, 443) ∧ idsAfter userFirst = some (80, 80) ∧
      (∀ flags, readArguments someAccounts startSettings [str "swad"] = .ok flags →
        wantedGid (flagsOf someAccounts flags)
          (linesOf someAccounts flags.line.config emptyBuf userFirst) = 443) := by
  refine ⟨by decide +kernel, by decide +kernel, ?_⟩
  intro flags hflags
  have hstart : flags = ⟨⟨startSettings, none, 0, 0⟩, false, [], [], []⟩ :=
    (Except.ok.inj hflags).symm
  rw [hstart]
  decide +kernel

theorem groupFirst_kept :
    ∃ flags reader, readArguments someAccounts startSettings [str "swad"] = .ok flags ∧
      readConfigFile someAccounts false flags.line.config emptyBuf groupFirst = .ok reader ∧
        reader.config.uid = 80 ∧ reader.config.gid = 443 := by
  have hargs : readArguments someAccounts startSettings [str "swad"] =
    .ok ⟨⟨startSettings, none, 0, 0⟩, false, [], [], []⟩ := rfl
  have hlines : linesOf someAccounts startSettings emptyBuf groupFirst =
      [.group 443, .user 80 80] := by decide +kernel
  have hdefined : (readConfigFile someAccounts false startSettings emptyBuf
      groupFirst).toOption.isSome = true := by decide +kernel
  cases hfile : readConfigFile someAccounts false startSettings emptyBuf groupFirst with
  | error e =>
    rw [hfile] at hdefined
    cases hdefined
  | ok reader =>
    have hids := (ids_wanted someAccounts _ emptyBuf groupFirst hargs hfile).mpr
    dsimp only at hids
    rw [hlines] at hids
    refine ⟨_, reader, hargs, hfile, hids ⟨?_, ?_⟩⟩
    · intro u hu
      rw [← Option.some.inj hu]
      exact Or.inl (by decide)
    · exact Or.inl (by decide)

end samples

end Swad.IdResolution
