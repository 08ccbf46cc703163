import Swad.ConfigLines

/-!
Reading a configuration file with any earlier contents of the line buffer. As long as the
name of every section ends in its line, a line is read as a function of its text, so two
runs that start with different buffers read the same configuration, and the readers never
look behind the NUL of their line. Any other line makes them look there.
-/
namespace Swad.LineIsolation

open Bytes Util StringPrograms Config ConfigLines

/-- What is known of a reader without its buffer. -/
structure Known where
  settings : Settings
  skipping : Bool
  warnings : List Warning

def known (self : Reader) : Known := ⟨self.config, self.skipping, self.warnings⟩

/-- The line that a call of `fgets` has read, if it has read one to its end. -/
def lineOf (chunk : List Byte) : Option Str :=
  if (cstr chunk).contains nl then some ((cstr chunk).takeWhile (· != nl)) else none

/-- The effect of one call of `fgets` and what follows it. -/
def chunkEffect (accounts : Accounts) (self : Known) (chunk : List Byte) : Except Fault Known :=
  if self.skipping then .ok { self with skipping := (lineOf chunk).isNone }
  else
    match lineOf chunk with
    | some line => (lineEffect accounts self.settings line).map fun r =>
        ⟨r.1, false, self.warnings ++ r.2⟩
    | none => .ok { self with skipping := true, warnings := self.warnings ++ [.lineTooLong] }

/-- The names of sections end in their lines. -/
def AllTerminated (accounts : Accounts) : Known → List (List Byte) → Prop
  | _, [] => True
  | self, chunk :: chunks =>
    (self.skipping = false → ∀ line, lineOf chunk = some line → Terminated line) ∧
      ∀ next, chunkEffect accounts self chunk = .ok next → AllTerminated accounts next chunks

section faults

variable {accounts : Accounts} {self : Settings}

theorem ok_ne {α : Type} (a : α) : Except.ok a ≠ Except.error Fault.outside := fun h => nomatch h

theorem bind_ne {α β : Type} {f : Except Fault α} {g : α → Except Fault β}
    (hf : f ≠ .error .outside) (hg : ∀ a, g a ≠ .error .outside) : f >>= g ≠ .error .outside := by
  cases f with
  | error e =>
    intro h
    apply hf
    exact congrArg Except.error (Except.error.inj h)
  | ok a => exact hg a

theorem map_ne {α β : Type} {f : Except Fault α} (g : α → β) (hf : f ≠ .error .outside) :
    f.map g ≠ .error .outside := by
  cases f with
  | error e =>
    intro h
    apply hf
    exact congrArg Except.error (Except.error.inj h)
  | ok a => exact ok_ne _

theorem setEntry_ne (entries : Fin 8 → Option ℕ) (i : ℕ) (v : Option ℕ) :
    setEntry entries i v ≠ .error .outside := by
  unfold setEntry
  split
  · exact ok_ne _
  · split
    · exact ok_ne _
    · decide

theorem read_ne (limits : Limits) (value : Str) : limits.read value ≠ .error .outside := by
  unfold Limits.read
  refine bind_ne (setEntry_ne _ _ _) fun _ => ?_
  refine bind_ne (setEntry_ne _ _ _) fun _ => ?_
  exact ok_ne _

theorem addLimit_ne (limits : Limits) (key value : Str) (tooMany : Warning) :
    addLimit limits key value tooMany ≠ .error .outside := by
  unfold addLimit
  split
  · exact ok_ne _
  · refine bind_ne (read_ne _ _) fun r => ?_
    obtain ⟨_, valid⟩ := r
    cases valid <;> exact ok_ne _

theorem setOtherOption_ne (key value : Str) : setOtherOption self key value ≠ .error .outside := by
  unfold setOtherOption
  split
  · split
    · split <;> exact ok_ne _
    · exact ok_ne _
  split
  · exact bind_ne (addLimit_ne _ _ _ _) fun _ => ok_ne _
  split
  · exact bind_ne (addLimit_ne _ _ _ _) fun _ => ok_ne _
  · exact ok_ne _

theorem setOption_ne (key value : Str) : setOption accounts self key value ≠ .error .outside := by
  unfold setOption
  split
  · split
    · split <;> exact ok_ne _
    · exact ok_ne _
  split
  · split
    · split <;> exact ok_ne _
    · exact ok_ne _
  · exact setOtherOption_ne _ _

theorem addRealmLimit_ne (opt name value : Str) (realms : List CfgRealm) :
    addRealmLimit opt name value realms ≠ .error .outside := by
  induction realms with
  | nil => exact ok_ne _
  | cons realm realms ih =>
    unfold addRealmLimit
    split
    · apply map_ne
      unfold CfgRealm.addLimit
      split
      · exact ok_ne _
      · exact bind_ne (read_ne _ _) fun _ => ok_ne _
    · exact map_ne _ ih

theorem openSection_ne (start : Str) : openSection self start ≠ .error .outside := by
  intro h
  cases openSection_error h

theorem tokens_ne (fuel : ℕ) (s : Str) (args : List Str) :
    tokens fuel s args ≠ .error .outside := by
  induction fuel generalizing s args with
  | zero => exact fun h => nomatch h
  | succ fuel ih =>
    unfold tokens
    split
    · exact ok_ne _
    · split
      · exact ok_ne _
      · split
        · exact ih _ _
        · exact fun h => nomatch h

/-- The effect of a line may be a fault, but never that it leaves the memory. -/
theorem lineEffect_ne (line : Str) : lineEffect accounts self line ≠ .error .outside := by
  unfold lineEffect
  dsimp only
  split
  · exact ok_ne _
  split
  · exact ok_ne _
  split
  · unfold sectionLine
    dsimp only
    repeat' split
    all_goals first
      | exact ok_ne _
      | exact openSection_ne _
  split
  · exact ok_ne _
  split
  · exact ok_ne _
  split
  · exact ok_ne _
  · exact setOption_ne _ _
  · unfold checkerLine
    split
    · exact fun h => nomatch h
    · exact map_ne _ (tokens_ne _ _ _)
  · unfold realmLine
    split
    · exact map_ne _ (addRealmLimit_ne _ _ _ _)
    · exact map_ne _ (tokens_ne _ _ _)
  · exact ok_ne _

end faults

section chunks

variable {accounts : Accounts} {self : Reader} {chunk : List Byte}

/-- The buffer holds the line, and behind its NUL whatever was there before. -/
theorem linebuf_eq {line : Str} (h : lineOf chunk = some line) (stale : List Byte) :
    (0 : Byte) ∉ line ∧ ((cstr chunk).takeWhile (· != nl)).length = line.length ∧
      ∃ rest, (chunk ++ 0 :: stale).set line.length 0 = line ++ 0 :: rest := by
  unfold lineOf at h
  split at h
  · next hnl =>
    obtain rfl := Option.some.inj h
    refine ⟨fun hmem => zero_notMem_cstr chunk ((List.takeWhile_prefix _).subset hmem), rfl, ?_⟩
    obtain ⟨behind, hbehind⟩ : ∃ behind, cstr chunk ++ behind = chunk :=
      List.takeWhile_prefix _
    have hsplit : cstr chunk = (cstr chunk).takeWhile (· != nl) ++
        (cstr chunk).dropWhile (· != nl) := List.takeWhile_append_dropWhile.symm
    have hne : (cstr chunk).dropWhile (· != nl) ≠ [] := by
      intro hnil
      have hall := List.dropWhile_eq_nil_iff.mp hnil nl (by simpa using hnl)
      simp at hall
    generalize (cstr chunk).takeWhile (· != nl) = line at hsplit ⊢
    cases hrest : (cstr chunk).dropWhile (· != nl) with
    | nil => exact absurd hrest hne
    | cons b rest =>
      refine ⟨rest ++ behind ++ 0 :: stale, ?_⟩
      rw [← hbehind, hsplit, hrest, List.append_assoc, List.append_assoc,
        List.set_append_right _ _ (Nat.le_refl _), Nat.sub_self]
      simp
  · cases h

theorem lineOf_isSome : (lineOf chunk).isSome = (cstr chunk).contains nl := by
  unfold lineOf
  split
  · next h => exact h.symm
  · next h => exact (Bool.eq_false_iff.mpr h).symm

theorem readChunk_line {line : Str} (cut : Bool) (hskip : self.skipping = false)
    (h : lineOf chunk = some line) :
    ∃ rest, readChunk accounts cut self chunk =
      (readLine accounts self.config 0 (line ++ 0 :: if cut then [] else rest)).map fun r =>
        ⟨r.1.1, r.2 ++ (line ++ 0 :: rest).drop r.2.length, false, self.warnings ++ r.1.2⟩ := by
  obtain ⟨h0, hlength, rest, hrest⟩ := linebuf_eq h (self.linebuf.drop (chunk.length + 1))
  have hnl : (cstr chunk).contains nl = true := by rw [← lineOf_isSome, h]; rfl
  refine ⟨rest, ?_⟩
  unfold readChunk
  simp only [hskip, Bool.false_eq_true, if_false, hnl, if_true, hlength, hrest]
  cases cut with
  | false => rfl
  | true =>
    have htake : (line ++ 0 :: rest).take (line.length + 1) = line ++ [0] := by
      rw [List.append_cons]
      exact List.take_left' (by simp)
    simp only [if_true, htake]

/-- A call that reads a terminated line has its effect, whatever is in the buffer. -/
theorem readChunk_known (cut : Bool)
    (hterm : self.skipping = false → ∀ line, lineOf chunk = some line → Terminated line) :
    (readChunk accounts cut self chunk).map known = chunkEffect accounts (known self) chunk := by
  by_cases hskip : self.skipping = true
  · have hnot : (!(cstr chunk).contains nl) = (lineOf chunk).isNone := by
      rw [← lineOf_isSome]
      cases lineOf chunk <;> rfl
    unfold readChunk chunkEffect
    simp only [hskip, if_true, known, hnot]
    rfl
  have hskip' : self.skipping = false := by simpa using hskip
  cases hline : lineOf chunk with
  | none =>
    have hnl : (cstr chunk).contains nl = false := by rw [← lineOf_isSome, hline]; rfl
    unfold readChunk chunkEffect
    simp only [hskip', hnl, known, hline, Bool.false_eq_true, if_false]
    rfl
  | some line =>
    obtain ⟨h0, _⟩ := linebuf_eq hline []
    obtain ⟨rest, hrun⟩ := @readChunk_line accounts self chunk line cut hskip' hline
    have hyields : Yields (readLine accounts self.config 0) (line ++ 0 :: if cut then [] else rest)
        (lineEffect accounts self.config line) := readLine_run rfl h0 (hterm hskip' line hline)
    unfold chunkEffect
    simp only [known, hskip', hline, Bool.false_eq_true, if_false]
    rw [hrun, ← hyields]
    cases readLine accounts self.config 0 (line ++ 0 :: if cut then [] else rest) <;> rfl

theorem readChunk_outside {line : Str} (hskip : self.skipping = false)
    (h : lineOf chunk = some line) (hterm : ¬ Terminated line) :
    readChunk accounts true self chunk = .error .outside := by
  obtain ⟨h0, _⟩ := linebuf_eq h []
  obtain ⟨rest, hrun⟩ := @readChunk_line accounts self chunk line true hskip h
  rw [hrun]
  simp only [if_true]
  rw [readLine_outside rfl h0 hterm]
  rfl

theorem chunkEffect_ne (self : Known) : chunkEffect accounts self chunk ≠ .error .outside := by
  unfold chunkEffect
  split
  · exact ok_ne _
  split
  · exact map_ne _ (lineEffect_ne _)
  · exact ok_ne _

end chunks

section runs

variable {accounts : Accounts}

theorem foldlM_chunkEffect_ne (chunks : List (List Byte)) (self : Known) :
    chunks.foldlM (chunkEffect accounts) self ≠ .error .outside := by
  induction chunks generalizing self with
  | nil => exact ok_ne _
  | cons chunk chunks ih => exact bind_ne (chunkEffect_ne self) ih

/-- Lines that are terminated are so in every run. -/
theorem allTerminated_of_forall {chunks : List (List Byte)}
    (h : ∀ chunk ∈ chunks, ∀ line ∈ lineOf chunk, Terminated line) (self : Known) :
    AllTerminated accounts self chunks := by
  induction chunks generalizing self with
  | nil => exact trivial
  | cons chunk chunks ih =>
    refine ⟨fun _ line hline => h chunk List.mem_cons_self line hline, fun next _ => ?_⟩
    exact ih (fun chunk hmem => h chunk (List.mem_cons_of_mem _ hmem)) next

/-- A whole run over terminated lines only depends on them. -/
theorem run_known (cut : Bool) {chunks : List (List Byte)} {self : Reader}
    (h : AllTerminated accounts (known self) chunks) :
    (chunks.foldlM (readChunk accounts cut) self).map known =
      chunks.foldlM (chunkEffect accounts) (known self) := by
  induction chunks generalizing self with
  | nil => rfl
  | cons chunk chunks ih =>
    obtain ⟨hterm, hrest⟩ := h
    have hchunk := @readChunk_known accounts self chunk cut hterm
    rw [List.foldlM_cons, List.foldlM_cons, ← hchunk]
    cases hread : readChunk accounts cut self chunk with
    | error e => rfl
    | ok next =>
      rw [hread] at hchunk
      exact ih (hrest _ hchunk.symm)

/-- Otherwise a run whose memory ends with the line faults. -/
theorem run_outside {chunks : List (List Byte)} {self : Reader}
    (h : ¬ AllTerminated accounts (known self) chunks) :
    chunks.foldlM (readChunk accounts true) self = .error .outside := by
  induction chunks generalizing self with
  | nil => exact absurd trivial h
  | cons chunk chunks ih =>
    rw [List.foldlM_cons]
    by_cases hterm : self.skipping = false → ∀ line, lineOf chunk = some line → Terminated line
    · have hchunk := @readChunk_known accounts self chunk true hterm
      cases hread : readChunk accounts true self chunk with
      | error e =>
        rw [hread] at hchunk
        refine absurd ⟨hterm, fun next hnext => ?_⟩ h
        rw [← hchunk] at hnext
        cases hnext
      | ok next =>
        rw [hread] at hchunk
        refine ih fun hall => h ⟨hterm, fun next' hnext => ?_⟩
        rw [← hchunk] at hnext
        obtain rfl := Except.ok.inj hnext
        exact hall
    · rw [Classical.not_imp] at hterm
      obtain ⟨hskip, hnot⟩ := hterm
      rw [not_forall] at hnot
      obtain ⟨line, hline⟩ := hnot
      rw [Classical.not_imp] at hline
      rw [readChunk_outside hskip hline.1 hline.2]
      rfl

/-- The effect of a line, and the configuration that a file leads to, do not depend on the
earlier contents of the buffer, and no reader looks behind its line, exactly if the names of
sections end in their lines. -/
theorem isolated_iff (accounts : Accounts) (self : Settings) :
    (∀ line, (0 : Byte) ∉ line →
      ((∃ effect, effect ≠ .error .outside ∧
        ∀ stale, Yields (readLine accounts self 0) (line ++ 0 :: stale) effect) ↔
          Terminated line)) ∧
    (∀ file, (∀ linebuf linebuf', linebuf.length = LINEBUFSZ → linebuf'.length = LINEBUFSZ →
        (readConfigFile accounts false self linebuf file).map known =
          (readConfigFile accounts true self linebuf' file).map known ∧
        readConfigFile accounts true self linebuf' file ≠ .error .outside) ↔
      AllTerminated accounts ⟨{ self with currentSection := .global }, false, []⟩
        (chunks file)) := by
  constructor
  · intro line h0
    constructor
    · rintro ⟨effect, hne, heffect⟩
      by_contra hterm
      apply hne
      rw [← heffect [], readLine_outside rfl h0 hterm]
      rfl
    · exact fun hterm => ⟨_, lineEffect_ne line, fun stale => readLine_run rfl h0 hterm⟩
  · intro file
    constructor
    · intro h
      by_contra hterm
      have hlength : (List.replicate LINEBUFSZ (0 : Byte)).length = LINEBUFSZ :=
        List.length_replicate
      exact (h _ _ hlength hlength).2 (run_outside hterm)
    · intro hterm linebuf linebuf' _ _
      have hrun := fun cut linebuf => @run_known accounts cut (chunks file)
        ⟨{ self with currentSection := .global }, linebuf, false, []⟩ hterm
      refine ⟨(hrun false linebuf).trans (hrun true linebuf').symm, fun houtside => ?_⟩
      have hfold := hrun true linebuf'
      unfold readConfigFile at houtside
      rw [houtside] at hfold
      exact foldlM_chunkEffect_ne _ _ hfold.symm

end runs

section samples

def noLimits : Limits := ⟨0, fun _ => some 0, fun _ => some 0⟩

/-- The configuration after an empty command line. -/
def startSettings : Settings where
  checkers := []
  realms := []
  servers := [CfgServer.create none]
  pidfile := none
  uid := -1
  gid := -1
  resolveHosts := -1
  sessionLimits := noLimits
  loginLimits := noLimits
  currentSection := .global
  server := 0

def noAccounts : Accounts := ⟨fun _ => none, fun _ => none, fun _ => none, fun _ => none⟩

/-- The buffer after a comment of thirteen bytes. -/
def commentBuf (comment : String) : List Byte :=
  str comment ++ List.replicate (LINEBUFSZ - 13) 0

/-- The section after a file that consists of a header without a bracket at its end. -/
def sectionAfter (linebuf : List Byte) : Option CfgSection :=
  match readConfigFile noAccounts false startSettings linebuf (str "[checkers\n") with
  | .ok self => some self.config.currentSection
  | .error _ => none

/-- An earlier comment decides whether the section is opened. -/
theorem comment_opens_section :
    (commentBuf "# 345678901]\n").length = LINEBUFSZ ∧
    (commentBuf "# 345678901x\n").length = LINEBUFSZ ∧
    sectionAfter (commentBuf "# 345678901]\n") = some .checkers ∧
    sectionAfter (commentBuf "# 345678901 \n") = some .global ∧
    sectionAfter (commentBuf "# 345678901x\n") = some .global := by
  refine ⟨?_, ?_, ?_, ?_, ?_⟩
  all_goals decide +kernel

theorem isolated_iff_sample : ∃ effect, effect ≠ .error .outside ∧
    ∀ stale, Yields (readLine noAccounts startSettings 0) (str "[checkers]" ++ 0 :: stale)
      effect :=
  ((isolated_iff noAccounts startSettings).1 (str "[checkers]") (by decide)).mpr (by decide)

end samples

end Swad.LineIsolation
