import Swad.FileChunks

/-!
Which lines of a file are processed. What the reader does in its calls depends on the file
alone: it takes a line if its newline is seen in the first call, and leaves out everything
after a call without one, up to the next newline that is seen. So a line is lost if nothing
ends it, if there is a NUL in it, or if there is a NUL in the last call for the long line
before it; all others that fit are processed once, in their order.
-/
namespace Swad.LineDelivery

open Bytes Util StringPrograms Config ConfigLines LineIsolation PairedRuns FileChunks

/-! ### Lines of a file -/

/-- The lines that end with a newline. -/
def endedLines (file : List Byte) : List Str := (file.splitOn nl).dropLast

/-- What is behind the last newline. -/
def lastLine (file : List Byte) : Str := (file.splitOn nl).getLast?.getD []

def Fits (line : Str) : Prop := line.length ≤ 1022

instance (line : Str) : Decidable (Fits line) := inferInstanceAs (Decidable (_ ≤ _))

def fitting (lines : List Str) : List Str := lines.filter fun line => Fits line

/-- The lines that are to be processed. -/
def shortLines (file : List Byte) : List Str :=
  fitting (endedLines file ++ if lastLine file = [] then [] else [lastLine file])

/-- What the last call for a line reads, without the newline. -/
def lastPart (line : Str) : Str := line.drop (1023 * (line.length / 1023))

/-- The newline is behind a NUL. -/
def Hidden (line : Str) : Prop := (0 : Byte) ∈ lastPart line

instance (line : Str) : Decidable (Hidden line) := inferInstanceAs (Decidable (_ ∈ _))

/-! ### Lines that are processed -/

/-- The lines that the reader takes, from a call on. -/
def linesRead : Bool → List (List Byte) → List Str
  | _, [] => []
  | true, chunk :: chunks => linesRead (lineOf chunk).isNone chunks
  | false, chunk :: chunks =>
    match lineOf chunk with
    | some line => line :: linesRead false chunks
    | none => linesRead true chunks

/-- The configuration after these lines, one after the other. The memory behind a line may
hold anything. -/
inductive Processes (accounts : Accounts) : Settings → List Str → Settings → Prop
  | done (a : Settings) : Processes accounts a [] a
  | line {a b c : Settings} {text rest m : List Byte} {ws : List Warning} {lines : List Str}
      (hline : readLine accounts a 0 (text ++ 0 :: rest) = .ok ((b, ws), m))
      (hrest : Processes accounts b lines c) : Processes accounts a (text :: lines) c

section processing

variable {accounts : Accounts} {self next : Reader}

/-- The configuration changes only by lines that the reader takes. -/
theorem processes_chunks {chunks : List (List Byte)}
    (h : chunks.foldlM (readChunk accounts false) self = .ok next) :
    Processes accounts self.config (linesRead self.skipping chunks) next.config := by
  induction chunks generalizing self with
  | nil =>
    obtain rfl := Except.ok.inj h
    unfold linesRead
    exact .done _
  | cons chunk chunks ih =>
    rw [List.foldlM_cons] at h
    obtain ⟨self₁, hread, hrest⟩ := bind_inv h
    have hih := ih hrest
    cases hskip : self.skipping with
    | true =>
      obtain ⟨linebuf, hskipped⟩ := @readChunk_skip accounts false self hskip chunk
      rw [← Except.ok.inj (hskipped.symm.trans hread)] at hih
      exact hih
    | false =>
      unfold linesRead
      cases hline : lineOf chunk with
      | none =>
        obtain ⟨linebuf, hlong⟩ := @readChunk_long accounts false self chunk hskip hline
        rw [← Except.ok.inj (hlong.symm.trans hread)] at hih
        exact hih
      | some line =>
        obtain ⟨rest, hrun⟩ := @readChunk_line accounts self chunk line false hskip hline
        obtain ⟨⟨⟨config, warnings⟩, m⟩, hprocessed, hnext⟩ := map_inv (hrun.symm.trans hread)
        rw [← hnext] at hih
        exact .line hprocessed hih

end processing

section delivery

variable {line : Str} {cs : List (List Byte)}

theorem linesRead_skip {init : List (List Byte)} (h : ∀ c ∈ init, nl ∉ c) :
    linesRead true (init ++ cs) = linesRead true cs := by
  induction init with
  | nil => rfl
  | cons c init ih =>
    rw [List.cons_append, linesRead, lineOf_none (h c List.mem_cons_self)]
    exact ih fun c' hc' => h c' (List.mem_cons_of_mem c hc')

/-- A call that is full holds no newline. -/
theorem linesRead_full {init : List (List Byte)} (h : ∀ c ∈ init, nl ∉ c) (hne : init ≠ [])
    (s : Bool) : linesRead s (init ++ cs) = linesRead true cs := by
  cases s with
  | true => exact linesRead_skip h
  | false =>
    cases init with
    | nil => exact absurd rfl hne
    | cons c init =>
      rw [List.cons_append, linesRead, lineOf_none (h c List.mem_cons_self)]
      exact linesRead_skip fun c' hc' => h c' (List.mem_cons_of_mem c hc')

theorem lineOf_ended (hu : nl ∉ line) :
    lineOf (line ++ [nl]) = if (0 : Byte) ∈ line then none else some line := by
  unfold lineOf
  by_cases h0 : (0 : Byte) ∈ line
  · obtain ⟨a, b, hsplit, ha⟩ := List.eq_append_cons_of_mem h0
    have hcstr : cstr (line ++ [nl]) = a := by
      unfold cstr
      rw [hsplit, List.append_assoc, List.cons_append]
      exact takeWhile_until ha _
    have hnl : ¬ (a.contains nl) = true := by
      intro hmem
      apply hu
      rw [hsplit]
      exact List.mem_append_left _ (List.contains_iff_mem.mp hmem)
    rw [hcstr, if_neg hnl, if_pos h0]
  · have hcstr : cstr (line ++ [nl]) = line ++ [nl] := by
      apply cstr_eq_self
      intro hmem
      rcases List.mem_append.mp hmem with hmem | hmem
      · exact h0 hmem
      · exact absurd (List.mem_singleton.mp hmem) (by decide)
    have hnl : ((line ++ [nl]).contains nl) = true :=
      List.contains_iff_mem.mpr (List.mem_append_right _ List.mem_cons_self)
    rw [hcstr, if_pos hnl, if_neg h0, takeWhile_until hu]

theorem lastPart_fits (h : Fits line) : lastPart line = line := by
  unfold Fits at h
  unfold lastPart
  rw [Nat.div_eq_of_lt (by omega)]
  rfl

theorem lastPart_append {p q : Str} (hp : p.length = 1023) : lastPart (p ++ q) = lastPart q := by
  have hlength : 1023 * ((p ++ q).length / 1023) = p.length + 1023 * (q.length / 1023) := by
    rw [List.length_append, hp]
    omega
  unfold lastPart
  rw [hlength, List.drop_append]
  have hnil : p.drop (p.length + 1023 * (q.length / 1023)) = [] :=
    List.drop_eq_nil_of_le (by omega)
  rw [hnil, List.nil_append, Nat.add_sub_cancel_left]

/-- A line that ends is full calls, and a last one with the newline. -/
theorem chunks_ended (line : Str) (hu : nl ∉ line) :
    ∃ init, (∀ c ∈ init, nl ∉ c) ∧ (init = [] ↔ Fits line) ∧
      ∀ v, chunks (line ++ nl :: v) = init ++ (lastPart line ++ [nl]) :: chunks v := by
  have hsize : LINEBUFSZ = 1024 := rfl
  by_cases hfits : Fits line
  · have hlength : line.length + 1 < LINEBUFSZ := by
      unfold Fits at hfits
      omega
    refine ⟨[], fun c hc => absurd hc List.not_mem_nil, ⟨fun _ => hfits, fun _ => rfl⟩, ?_⟩
    intro v
    rw [chunks_line hu hlength, lastPart_fits hfits]
    rfl
  have hlength : ¬ line.length + 1 < LINEBUFSZ := by
    unfold Fits at hfits
    omega
  obtain ⟨p, q, hsplit, hp⟩ := exists_full hlength
  have hfirst : nl ∉ p := fun h => hu (hsplit ▸ List.mem_append_left q h)
  have hrest : nl ∉ q := fun h => hu (hsplit ▸ List.mem_append_right p h)
  have hshorter : q.length < line.length := by
    rw [hsplit, List.length_append]
    omega
  obtain ⟨init, hinit, _, hchunks⟩ := chunks_ended q hrest
  refine ⟨p :: init, ?_, ⟨fun h => absurd h (List.cons_ne_nil _ _), fun h => absurd h hfits⟩, ?_⟩
  · intro c hc
    rcases List.mem_cons.mp hc with rfl | hc
    · exact hfirst
    · exact hinit c hc
  · intro v
    rw [hsplit, List.append_assoc, chunks_full hfirst hp, hchunks, List.cons_append,
      lastPart_append (by omega)]
termination_by line.length

/-- The lines that are taken, from a line on, if the newline before it was seen or not. -/
def taken : Bool → List Str → List Str
  | _, [] => []
  | s, line :: lines =>
    (if s = false ∧ Fits line ∧ ¬ Hidden line then [line] else []) ++ taken (Hidden line) lines

theorem linesRead_line (hu : nl ∉ line) (s : Bool) (v : List Byte) :
    linesRead s (chunks (line ++ nl :: v)) =
      (if s = false ∧ Fits line ∧ ¬ Hidden line then [line] else []) ++
        linesRead (Hidden line) (chunks v) := by
  obtain ⟨init, hinit, hnil, hchunks⟩ := chunks_ended line hu
  have hpart : nl ∉ lastPart line := fun h => hu (List.mem_of_mem_drop h)
  have hline : lineOf (lastPart line ++ [nl]) = if Hidden line then none else some (lastPart line) :=
    lineOf_ended hpart
  have hskipped : linesRead true ((lastPart line ++ [nl]) :: chunks v) =
      linesRead (Hidden line) (chunks v) := by
    rw [linesRead, hline]
    split
    · next h => rw [decide_eq_true h]; rfl
    · next h => rw [decide_eq_false h]; rfl
  rw [hchunks]
  by_cases hfits : Fits line
  · rw [hnil.mpr hfits, List.nil_append]
    cases s with
    | true =>
      rw [if_neg (fun h => absurd h.1 (by decide)), List.nil_append]
      exact hskipped
    | false =>
      rw [linesRead, hline, lastPart_fits hfits]
      by_cases hhidden : Hidden line
      · rw [if_pos hhidden, if_neg (fun h => h.2.2 hhidden), decide_eq_true hhidden]
        rfl
      · rw [if_neg hhidden, if_pos ⟨rfl, hfits, hhidden⟩, decide_eq_false hhidden]
        rfl
  · have hne : init ≠ [] := fun h => hfits (hnil.mp h)
    rw [linesRead_full hinit hne, if_neg (fun h => hfits h.2.1), List.nil_append]
    exact hskipped

theorem linesRead_last (hu : nl ∉ line) (s : Bool) : linesRead s (chunks line) = [] := by
  have hnone : ∀ s, ∀ cs : List (List Byte), (∀ c ∈ cs, nl ∉ c) → linesRead s cs = [] := by
    intro s cs hcs
    induction cs generalizing s with
    | nil => cases s <;> rfl
    | cons c cs ih =>
      have hrest := ih true fun c' hc' => hcs c' (List.mem_cons_of_mem c hc')
      cases s with
      | true =>
        rw [linesRead, lineOf_none (hcs c List.mem_cons_self)]
        exact hrest
      | false =>
        rw [linesRead, lineOf_none (hcs c List.mem_cons_self)]
        exact hrest
  exact hnone s _ (chunks_last line hu)

theorem splitOn_line (hu : nl ∉ line) (v : List Byte) :
    (line ++ nl :: v).splitOn nl = line :: v.splitOn nl := by
  rw [List.splitOn_append_cons_self, List.splitOn_eq_singleton hu, List.singleton_append]

theorem endedLines_line (hu : nl ∉ line) (v : List Byte) :
    endedLines (line ++ nl :: v) = line :: endedLines v := by
  unfold endedLines
  rw [splitOn_line hu]
  exact List.dropLast_cons_of_ne_nil (List.splitOn_ne_nil nl v)

theorem lastLine_line (hu : nl ∉ line) (v : List Byte) :
    lastLine (line ++ nl :: v) = lastLine v := by
  unfold lastLine
  rw [splitOn_line hu, List.getLast?_cons_of_ne_nil (List.splitOn_ne_nil nl v)]

theorem endedLines_last (hu : nl ∉ line) : endedLines line = [] := by
  unfold endedLines
  rw [List.splitOn_eq_singleton hu]
  rfl

theorem lastLine_last (hu : nl ∉ line) : lastLine line = line := by
  unfold lastLine
  rw [List.splitOn_eq_singleton hu]
  rfl

/-- What is taken depends on the lines of the file only. -/
theorem linesRead_file (file : List Byte) (s : Bool) :
    linesRead s (chunks file) = taken s (endedLines file) := by
  by_cases hfile : nl ∈ file
  · obtain ⟨u, w, hsplit, hu⟩ := List.eq_append_cons_of_mem hfile
    have hshorter : w.length < file.length := by
      rw [hsplit, List.length_append, List.length_cons]
      omega
    rw [hsplit, linesRead_line hu, endedLines_line hu, taken, linesRead_file w]
  · rw [linesRead_last hfile, endedLines_last hfile]
    cases s <;> rfl
termination_by file.length

/-! ### When all short lines are processed -/

/-- A short line holds no NUL, and the line before it ends where the reader sees it. -/
def AllTaken : Bool → List Str → Prop
  | _, [] => True
  | s, line :: lines => (Fits line → s = false ∧ ¬ Hidden line) ∧ AllTaken (Hidden line) lines

theorem fitting_nil : fitting [] = [] := rfl

theorem fitting_append (a b : List Str) : fitting (a ++ b) = fitting a ++ fitting b :=
  List.filter_append ..

theorem fitting_cons (h : Fits line) (lines : List Str) :
    fitting (line :: lines) = line :: fitting lines :=
  List.filter_cons_of_pos (decide_eq_true h)

theorem fitting_long (h : ¬ Fits line) (lines : List Str) :
    fitting (line :: lines) = fitting lines :=
  List.filter_cons_of_neg (by simpa using h)

theorem taken_sublist (s : Bool) (lines : List Str) :
    (taken s lines).Sublist (fitting lines) := by
  induction lines generalizing s with
  | nil => exact List.Sublist.refl _
  | cons line lines ih =>
    unfold taken
    by_cases hfits : Fits line
    · rw [fitting_cons hfits]
      split
      · exact (ih _).cons_cons line
      · exact (ih _).cons line
    · rw [fitting_long hfits, if_neg fun h => hfits h.2.1]
      exact ih _

theorem taken_eq (s : Bool) (lines : List Str) :
    taken s lines = (fitting lines) ↔ AllTaken s lines := by
  induction lines generalizing s with
  | nil => exact ⟨fun _ => trivial, fun _ => rfl⟩
  | cons line lines ih =>
    unfold taken AllTaken
    by_cases hfits : Fits line
    · rw [fitting_cons hfits]
      by_cases htake : s = false ∧ ¬ Hidden line
      · rw [if_pos ⟨htake.1, hfits, htake.2⟩, List.singleton_append, List.cons.injEq, ih]
        exact ⟨fun h => ⟨fun _ => htake, h.2⟩, fun h => ⟨rfl, h.2⟩⟩
      · rw [if_neg fun h => htake ⟨h.1, h.2.2⟩, List.nil_append]
        constructor
        · intro heq
          have hle := (taken_sublist (Hidden line) lines).length_le
          rw [heq, List.length_cons] at hle
          omega
        · exact fun h => absurd (h.1 hfits) htake
    · rw [fitting_long hfits, if_neg fun h => hfits h.2.1,
        List.nil_append, ih]
      exact ⟨fun h => ⟨fun h' => absurd h' hfits, h⟩, fun h => h.2⟩

/-- No short line holds a NUL, and none follows directly after a long line with a NUL in the
last call for it. -/
def Plain (lines : List Str) : Prop :=
  (∀ line ∈ lines, Fits line → (0 : Byte) ∉ line) ∧
    ∀ before long line after, lines = before ++ long :: line :: after →
      ¬ Fits long → Fits line → ¬ Hidden long

theorem allTaken_cons (s : Bool) (lines : List Str) :
    AllTaken s lines ↔ Plain lines ∧ (s = true → ∀ line ∈ lines.head?, ¬ Fits line) := by
  induction lines generalizing s with
  | nil =>
    constructor
    · intro _
      refine ⟨⟨fun line h => absurd h List.not_mem_nil, ?_⟩, fun _ line h => nomatch h⟩
      intro before long line after hsplit
      exact absurd hsplit.symm (List.append_ne_nil_of_right_ne_nil _ (List.cons_ne_nil _ _))
    · exact fun _ => trivial
  | cons first lines ih =>
    unfold AllTaken
    rw [ih]
    have hzero : Fits first → (Hidden first ↔ (0 : Byte) ∈ first) := by
      intro hfits
      unfold Hidden
      rw [lastPart_fits hfits]
    constructor
    · rintro ⟨hfirst, ⟨hplain, hlong⟩, hhead⟩
      refine ⟨⟨?_, ?_⟩, ?_⟩
      · intro line hline hfits
        rcases List.mem_cons.mp hline with rfl | hline
        · exact fun h0 => (hfirst hfits).2 ((hzero hfits).mpr h0)
        · exact hplain line hline hfits
      · intro before long line after hsplit hnot hfits
        cases before with
        | nil =>
          obtain ⟨rfl, rfl⟩ := List.cons.inj hsplit
          exact fun hhidden => hhead (decide_eq_true hhidden) line rfl hfits
        | cons b before =>
          exact hlong before long line after (List.cons.inj hsplit).2 hnot hfits
      · intro hs line hline hfits
        rw [← Option.some.inj hline] at hfits
        have hs' := (hfirst hfits).1
        rw [hs] at hs'
        cases hs'
    · rintro ⟨⟨hplain, hlong⟩, hhead⟩
      refine ⟨?_, ⟨?_, ?_⟩, ?_⟩
      · intro hfits
        refine ⟨?_, fun hhidden => hplain first List.mem_cons_self hfits ((hzero hfits).mp hhidden)⟩
        rw [← Bool.not_eq_true]
        exact fun hs => hhead hs first rfl hfits
      · exact fun line hline => hplain line (List.mem_cons_of_mem _ hline)
      · intro before long line after hsplit
        exact hlong (first :: before) long line after (by rw [hsplit]; rfl)
      · intro hhidden line hline hfits
        cases lines with
        | nil => cases hline
        | cons second lines =>
          rw [← Option.some.inj hline] at hfits
          have hhidden' := of_decide_eq_true hhidden
          by_cases hshort : Fits first
          · exact hplain first List.mem_cons_self hshort ((hzero hshort).mp hhidden')
          · exact hlong [] first second lines rfl hshort hfits hhidden'

/-- All short lines end, hold no NUL and do not follow a hidden newline. -/
def Delivered (file : List Byte) : Prop :=
  Plain (endedLines file) ∧ (lastLine file = [] ∨ ¬ Fits (lastLine file))

theorem linesRead_eq (file : List Byte) :
    linesRead false (chunks file) = shortLines file ↔ Delivered file := by
  have hall : taken false (endedLines file) = fitting (endedLines file) ↔
      Plain (endedLines file) := by
    rw [taken_eq, allTaken_cons]
    exact ⟨fun h => h.1, fun h => ⟨h, fun hs => nomatch hs⟩⟩
  unfold shortLines Delivered
  rw [linesRead_file, fitting_append, ← hall]
  by_cases hlast : lastLine file = []
  · rw [if_pos hlast, fitting_nil, List.append_nil]
    exact ⟨fun h => ⟨h, Or.inl hlast⟩, fun h => h.1⟩
  rw [if_neg hlast]
  by_cases hfits : Fits (lastLine file)
  · rw [fitting_cons hfits, fitting_nil]
    constructor
    · intro heq
      have hle := (taken_sublist false (endedLines file)).length_le
      rw [heq, List.length_append, List.length_singleton] at hle
      omega
    · exact fun h => absurd hfits (h.2.resolve_left hlast)
  · rw [fitting_long hfits, fitting_nil, List.append_nil]
    exact ⟨fun h => ⟨h, Or.inr hfits⟩, fun h => h.1⟩

end delivery

/-! ### A newline at the end -/

section newline

variable {accounts : Accounts} {self : Reader}

/-- Where no line is taken, the configuration stays. -/
theorem silent_run {cs : List (List Byte)} (h : linesRead self.skipping cs = []) :
    ∃ next, cs.foldlM (readChunk accounts false) self = .ok next ∧ next.config = self.config := by
  induction cs generalizing self with
  | nil => exact ⟨self, rfl, rfl⟩
  | cons c cs ih =>
    cases hskip : self.skipping with
    | true =>
      obtain ⟨linebuf, hread⟩ := @readChunk_skip accounts false self hskip c
      rw [hskip, linesRead] at h
      obtain ⟨next, hrun, hconfig⟩ := @ih
        { self with linebuf := linebuf, skipping := (lineOf c).isNone } h
      exact ⟨next, by rw [foldlM_cons_ok hread, hrun], hconfig⟩
    | false =>
      cases hline : lineOf c with
      | some line =>
        rw [hskip, linesRead, hline] at h
        cases h
      | none =>
        obtain ⟨linebuf, hread⟩ := @readChunk_long accounts false self c hskip hline
        rw [hskip, linesRead, hline] at h
        obtain ⟨next, hrun, hconfig⟩ := @ih { self with
          linebuf := linebuf, skipping := true, warnings := self.warnings ++ [.lineTooLong] } h
        exact ⟨next, by rw [foldlM_cons_ok hread, hrun], hconfig⟩

theorem exists_last (file : List Byte) :
    ∃ a, (a = [] ∨ ∃ x, a = x ++ [nl]) ∧ file = a ++ lastLine file ∧ nl ∉ lastLine file := by
  by_cases hfile : nl ∈ file
  · obtain ⟨u, w, hsplit, hu⟩ := List.eq_append_cons_of_mem hfile
    have hshorter : w.length < file.length := by
      rw [hsplit, List.length_append, List.length_cons]
      omega
    obtain ⟨a, hends, hw, hlast⟩ := exists_last w
    have hline : lastLine file = lastLine w := by rw [hsplit, lastLine_line hu]
    rw [hline]
    refine ⟨u ++ nl :: a, Or.inr ?_, ?_, hlast⟩
    · rcases hends with rfl | ⟨x, rfl⟩
      · exact ⟨u, rfl⟩
      · exact ⟨u ++ nl :: x, by rw [List.append_assoc]; rfl⟩
    · rw [hsplit, List.append_assoc, List.cons_append, ← hw]
  · exact ⟨[], Or.inl rfl, by rw [lastLine_last hfile]; rfl, by rwa [lastLine_last hfile]⟩
termination_by file.length

/-- The configuration after a file. -/
def configAfter (accounts : Accounts) (start : Settings) (linebuf file : List Byte) :
    Except Fault Settings :=
  (readConfigFile accounts false start linebuf file).map (·.config)

/-- An empty line does nothing. -/
theorem configAfter_newline (start : Settings) (linebuf : List Byte) :
    configAfter accounts start linebuf [nl] = configAfter accounts start linebuf [] := by
  have hchunks : chunks [nl] = [[nl]] := chunks_line (u := []) List.not_mem_nil (by decide) []
  have hline : lineOf [nl] = some [] := by decide
  obtain ⟨rest, hread⟩ := @readChunk_line accounts
    ⟨{ start with currentSection := .global }, linebuf, false, []⟩ [nl] [] false rfl hline
  have hterm : Terminated [] := by decide
  have hyields : Yields (readLine accounts { start with currentSection := .global } 0)
      ([] ++ 0 :: rest) (lineEffect accounts { start with currentSection := .global } []) :=
    readLine_run rfl List.not_mem_nil hterm
  unfold Yields at hyields
  unfold configAfter readConfigFile
  rw [hchunks, List.foldlM_cons, hread]
  show Except.map _ (Except.bind (Except.map _ (readLine accounts _ 0 ([] ++ 0 :: rest))) _) = _
  cases hrun : readLine accounts { start with currentSection := .global } 0 ([] ++ 0 :: rest) with
  | error e =>
    rw [hrun] at hyields
    cases hyields
  | ok r =>
    rw [hrun] at hyields
    have hconfig : r.1 = ({ start with currentSection := .global }, []) :=
      Except.ok.inj hyields
    show Except.ok r.1.1 = Except.ok _
    rw [hconfig]

theorem configAfter_append {file : List Byte} (h : Delivered file)
    (hend : file.getLast? ≠ some nl) (start : Settings) (linebuf : List Byte) :
    configAfter accounts start linebuf (file ++ [nl]) = configAfter accounts start linebuf file := by
  obtain ⟨a, hends, hfile, hlast⟩ := exists_last file
  rcases h.2 with hnil | hlong
  · rw [hnil, List.append_nil] at hfile
    rcases hends with rfl | ⟨x, rfl⟩
    · rw [hfile]
      exact configAfter_newline start linebuf
    · rw [hfile, List.getLast?_concat] at hend
      exact absurd rfl hend
  have hboth : chunks (file ++ [nl]) = chunks a ++ chunks (lastLine file ++ nl :: []) := by
    rw [← chunks_append hends, ← List.append_assoc, ← hfile]
  have hone : chunks file = chunks a ++ chunks (lastLine file) := by
    rw [← chunks_append hends, ← hfile]
  unfold configAfter readConfigFile
  rw [hboth, hone, List.foldlM_append, List.foldlM_append]
  cases (chunks a).foldlM (readChunk accounts false)
      ⟨{ start with currentSection := .global }, linebuf, false, []⟩ with
  | error e => rfl
  | ok self =>
    have hended : linesRead self.skipping (chunks (lastLine file ++ nl :: [])) = [] := by
      rw [linesRead_line hlast, if_neg fun hand => hlong hand.2.1]
      cases decide (Hidden (lastLine file)) <;> rfl
    obtain ⟨next, hrun, hconfig⟩ := @silent_run accounts self _ hended
    obtain ⟨next', hrun', hconfig'⟩ := @silent_run accounts self _
      (linesRead_last hlast self.skipping)
    show Except.map _ ((chunks (lastLine file ++ nl :: [])).foldlM _ self) =
      Except.map _ ((chunks (lastLine file)).foldlM _ self)
    rw [hrun, hrun']
    exact congrArg Except.ok (hconfig.trans hconfig'.symm)

end newline

/-- The reader processes the lines that it takes, one after the other, and these are the short
lines of the file, whether it ends with a newline or not, in exactly one case. -/
theorem lines_delivered (file : List Byte) :
    (∀ accounts start linebuf reader,
      readConfigFile accounts false start linebuf file = .ok reader →
        Processes accounts { start with currentSection := .global }
          (linesRead false (chunks file)) reader.config) ∧
    ((linesRead false (chunks file) = shortLines file ∧
        (file.getLast? ≠ some nl → ∀ accounts start linebuf,
          configAfter accounts start linebuf (file ++ [nl]) =
            configAfter accounts start linebuf file)) ↔
      Delivered file) := by
  constructor
  · intro accounts start linebuf reader h
    exact processes_chunks h
  constructor
  · exact fun h => (linesRead_eq file).mp h.1
  · intro h
    refine ⟨(linesRead_eq file).mpr h, ?_⟩
    intro hend accounts start linebuf
    exact configAfter_append h hend start linebuf

section samples

/-- One line that nothing ends, and the number of the user that it sets. -/
def unendedFile : List Byte := str "user = 0"

def rootAccounts : Accounts :=
  { noAccounts with getpwuid := fun uid => if uid = 0 then some ⟨0, 0⟩ else none }

def uidAfter (file : List Byte) : Option ℤ :=
  (configAfter rootAccounts startSettings (List.replicate LINEBUFSZ 0) file).toOption.map (·.uid)

/-- The last line is not processed, so a newline behind it changes the configuration. -/
theorem unended_lost :
    linesRead false (chunks unendedFile) = [] ∧ shortLines unendedFile = [unendedFile] ∧
      uidAfter unendedFile = some (-1) ∧ uidAfter (unendedFile ++ [nl]) = some 0 := by
  decide +kernel

/-- Lines with ends. The second one is too long. -/
def endedFile : List Byte :=
  unendedFile ++ nl :: (List.replicate 1200 (chr '#') ++ nl :: str "resolveHosts = 1\n")

/-- The lines around one that is too long are processed. -/
theorem ended_delivered :
    ∃ reader, readConfigFile rootAccounts false startSettings (List.replicate LINEBUFSZ 0)
        endedFile = .ok reader ∧
      Processes rootAccounts startSettings [unendedFile, str "resolveHosts = 1"] reader.config := by
  obtain ⟨hprocesses, hlines⟩ := lines_delivered endedFile
  have hdelivered : Delivered endedFile := by
    refine ⟨⟨?_, ?_⟩, Or.inl (by decide +kernel)⟩
    · decide +kernel
    · intro before long line after hsplit _ _ hhidden
      have hzero : ∀ line ∈ endedLines endedFile, (0 : Byte) ∉ line := by decide +kernel
      refine hzero long ?_ (List.mem_of_mem_drop hhidden)
      rw [hsplit]
      exact List.mem_append_right _ List.mem_cons_self
  have htaken := (hlines.mpr hdelivered).1
  have hshort : shortLines endedFile = [unendedFile, str "resolveHosts = 1"] := by decide +kernel
  have hdefined : (readConfigFile rootAccounts false startSettings (List.replicate LINEBUFSZ 0)
      endedFile).toOption.isSome = true := by decide +kernel
  cases hfile : readConfigFile rootAccounts false startSettings (List.replicate LINEBUFSZ 0)
      endedFile with
  | error e =>
    rw [hfile] at hdefined
    cases hdefined
  | ok reader =>
    have hrun := hprocesses _ _ _ reader hfile
    rw [htaken, hshort] at hrun
    exact ⟨reader, rfl, hrun⟩

end samples

end Swad.LineDelivery
