import Swad.Httprequest
import Swad.TextOutput

/-!
The template engine as it runs: the variables are in the chains of a hash table, the template
is scanned by positions, and what is written is appended to a growing text. The text is that
of a scan from the left to the right in which nothing that was put in is scanned again.
-/
namespace Swad.TemplateEngine

open Bytes Util GrowingBuffer TextOutput Httprequest
open Template (TmplFilter opens varName)

def OUTCHUNK : ℕ := 8192

def TVHT_BITS : ℕ := 6

/-- A string without its NUL. -/
abbrev CString := {s : Str // (0 : Byte) ∉ s}

/-- The template frees the value of a variable that it owns. -/
structure TmplVar where
  name : CString
  val : CString
  filter : TmplFilter
  owned : Bool

structure Template where
  tmpl : Str
  buckets : Fin (2 ^ TVHT_BITS) → List TmplVar

def Template.create (tmpl : Str) : Template := ⟨tmpl, fun _ => []⟩

def Template.findVar (self : Template) (name : Str) : Option TmplVar :=
  (self.buckets (hash name TVHT_BITS)).find? fun var => var.name.1 == name

/-- The variable takes the place of the one of its name, or the end of the chain. -/
def updateChain (var : TmplVar) : List TmplVar → List TmplVar
  | [] => [var]
  | old :: chain => if old.name.1 = var.name.1 then var :: chain else old :: updateChain var chain

def Template.insertOrUpdate (self : Template) (var : TmplVar) : Template :=
  { self with
    buckets := Function.update self.buckets (hash var.name.1 TVHT_BITS)
      (updateChain var (self.buckets (hash var.name.1 TVHT_BITS))) }

def Template.setVar (self : Template) (name val : CString) (filter : TmplFilter) : Template :=
  self.insertOrUpdate ⟨name, val, filter, true⟩

def Template.passVar (self : Template) (name val : CString) (filter : TmplFilter) : Template :=
  self.insertOrUpdate ⟨name, val, filter, true⟩

def Template.setStaticVar (self : Template) (name val : CString) (filter : TmplFilter) :
    Template :=
  self.insertOrUpdate ⟨name, val, filter, false⟩

def processVar (var : TmplVar) (out : Buffer Byte) : Option (Buffer Byte) :=
  match var.filter with
  | .none => appendAll OUTCHUNK var.val.1 out
  | .html => htmlescapeto false var.val.1 out
  | .htmlnl => htmlescapeto true var.val.1 out
  | .url => urlencodeto var.val.1 out

/-- Two percent signs that no third follows, as the scan tests for them. -/
def opensAt (tmpl : Str) (pos : ℕ) : Bool :=
  tmpl[pos]? == some (chr '%') && pos + 2 < tmpl.length && tmpl[pos + 1]? == some (chr '%') &&
    tmpl[pos + 2]? != some (chr '%')

/-- The search for the end of a name, for at most so many positions. -/
def nameEnd (tmpl : Str) : ℕ → ℕ → Option ℕ
  | rounds + 1, endpos =>
    if endpos < tmpl.length then
      if tmpl[endpos]? = some (chr '%') ∧ endpos + 1 < tmpl.length ∧
          tmpl[endpos + 1]? = some (chr '%') then some endpos
      else nameEnd tmpl rounds (endpos + 1)
    else none
  | 0, _ => none

/-- The loop over the template, for at most so many rounds. -/
def Template.processLoop (self : Template) : ℕ → ℕ → Buffer Byte → Option (Buffer Byte)
  | rounds + 1, pos, out =>
    if pos < self.tmpl.length then
      if opensAt self.tmpl pos then
        match nameEnd self.tmpl 63 (pos + 2) with
        | some endpos =>
          (Buf.copy 64 ((self.tmpl.drop (pos + 2)).take (endpos - (pos + 2)))).bind fun varnm =>
            ((self.findVar (cstr varnm.text)).elim (some out) fun var => processVar var out).bind
              (self.processLoop rounds (endpos + 2))
        | none =>
          ((appendchr OUTCHUNK (chr '%') out).bind (appendchr OUTCHUNK (chr '%'))).bind
            (self.processLoop rounds (pos + 2))
      else
        self.tmpl[pos]?.bind fun c =>
          (appendchr OUTCHUNK c out).bind (self.processLoop rounds (pos + 1))
    else some out
  | 0, pos, out => if pos < self.tmpl.length then none else some out

/-- The string that is returned. -/
def Template.process (self : Template) : Option Str :=
  ((self.processLoop self.tmpl.length 0 ⟨[], 0, 0⟩).bind (appendchr 1 0)).bind fun out =>
    readUntil 0 (out.realloc out.size).cells

/-! ### The variables -/

/-- What sets a variable: a copy of a value, a value that is handed over, or a static one. -/
inductive Setter
  | setVar | passVar | setStaticVar

structure Setting where
  setter : Setter
  name : CString
  val : CString
  filter : TmplFilter

def Setting.apply (self : Template) (s : Setting) : Template :=
  match s.setter with
  | .setVar => self.setVar s.name s.val s.filter
  | .passVar => self.passVar s.name s.val s.filter
  | .setStaticVar => self.setStaticVar s.name s.val s.filter

/-- The filter is applied once. -/
def Setting.text (s : Setting) : Str :=
  match s.filter with
  | .none => s.val.1
  | .html => TextCodecs.htmlescape s.val.1 false
  | .htmlnl => TextCodecs.htmlescape s.val.1 true
  | .url => Template.urlencode s.val.1

/-- The text for a name: that of the latest setting of it, or none. -/
def valueOf (settings : List Setting) (name : Str) : Str :=
  (settings.reverse.find? fun s => s.name.1 == name).elim [] Setting.text

theorem find?_updateChain (var : TmplVar) (chain : List TmplVar) (name : Str) :
    (updateChain var chain).find? (fun v => v.name.1 == name) =
      if var.name.1 = name then some var else chain.find? fun v => v.name.1 == name := by
  induction chain with
  | nil => by_cases h : var.name.1 = name <;> simp [updateChain, h]
  | cons old chain ih =>
    rw [updateChain]
    by_cases hold : old.name.1 = var.name.1
    · rw [if_pos hold, List.find?_cons, List.find?_cons, hold]
      by_cases h : var.name.1 = name
      · rw [beq_iff_eq.mpr h, if_pos h]
      · rw [beq_eq_false_iff_ne.mpr h, if_neg h]
    · rw [if_neg hold, List.find?_cons, List.find?_cons, ih]
      by_cases h : var.name.1 = name
      · rw [if_pos h, if_pos h, beq_eq_false_iff_ne.mpr (h ▸ hold)]
      · rw [if_neg h, if_neg h]

/-- A variable that is set hides the one of its name and no other. -/
theorem findVar_insertOrUpdate (self : Template) (var : TmplVar) (name : Str) :
    (self.insertOrUpdate var).findVar name =
      if var.name.1 = name then some var else self.findVar name := by
  unfold Template.findVar Template.insertOrUpdate
  by_cases hbucket : hash name TVHT_BITS = hash var.name.1 TVHT_BITS
  · dsimp only
    rw [hbucket, Function.update_self]
    exact find?_updateChain var _ name
  · have hne : var.name.1 ≠ name := fun h => hbucket (h ▸ rfl)
    rw [if_neg hne]
    dsimp only
    rw [Function.update_of_ne hbucket]

theorem findVar_apply (self : Template) (s : Setting) (name : Str) :
    ((s.apply self).findVar name).map (fun var => (var.val, var.filter)) =
      if s.name.1 = name then some (s.val, s.filter)
      else (self.findVar name).map fun var => (var.val, var.filter) := by
  unfold Setting.apply Template.setVar Template.passVar Template.setStaticVar
  split <;> rw [findVar_insertOrUpdate, apply_ite (Option.map _)] <;> rfl

/-- The chains have the latest setting of every name. -/
theorem findVar_settings (tmpl : Str) (settings : List Setting) (name : Str) :
    ((settings.foldl Setting.apply (Template.create tmpl)).findVar name).map
        (fun var => (var.val, var.filter)) =
      (settings.reverse.find? fun s => s.name.1 == name).map fun s => (s.val, s.filter) := by
  induction settings using List.reverseRecOn with
  | nil => rfl
  | append_singleton settings s ih =>
    rw [List.foldl_append, List.foldl_cons, List.foldl_nil, findVar_apply, ih,
      List.reverse_append, List.reverse_singleton, List.singleton_append, List.find?_cons]
    by_cases h : s.name.1 = name
    · rw [if_pos h, beq_iff_eq.mpr h]
      rfl
    · rw [if_neg h, beq_eq_false_iff_ne.mpr h]

theorem tmpl_settings (tmpl : Str) (settings : List Setting) :
    (settings.foldl Setting.apply (Template.create tmpl)).tmpl = tmpl := by
  induction settings using List.reverseRecOn with
  | nil => rfl
  | append_singleton settings s ih =>
    rw [List.foldl_append, List.foldl_cons, List.foldl_nil]
    unfold Setting.apply
    split <;> exact ih

/-! ### The scan -/

def marks : Str := [chr '%', chr '%']

/-- A name that ends where the next two percent signs begin. -/
structure IsName (name : Str) : Prop where
  length_pos : 1 ≤ name.length
  length_le : name.length ≤ 62
  head_ne : name.head? ≠ some (chr '%')
  ends : ¬ marks <:+: name ++ [chr '%']

/-- One scan of a template from the left to the right. -/
inductive Expands (value : Str → Str) : Str → Str → Prop
  | nil : Expands value [] []
  | name {name rest out : Str} : IsName name → Expands value rest out →
      Expands value (marks ++ name ++ marks ++ rest) (value name ++ out)
  | char {c : Byte} {rest out : Str} :
      (∀ name after, IsName name → c :: rest ≠ marks ++ name ++ marks ++ after) →
        Expands value rest out → Expands value (c :: rest) (c :: out)

theorem starts_with_marks (c : Byte) (s : Str) :
    marks <+: c :: s ↔ c = chr '%' ∧ s.head? = some (chr '%') := by
  rw [marks, List.cons_prefix_cons]
  cases s with
  | nil => simp
  | cons d s =>
    rw [List.cons_prefix_cons, List.head?_cons, Option.some.injEq]
    constructor
    · rintro ⟨rfl, rfl, -⟩
      exact ⟨rfl, rfl⟩
    · rintro ⟨rfl, rfl⟩
      exact ⟨rfl, rfl, List.nil_prefix⟩

theorem head?_marks (name rest : Str) :
    (name ++ marks ++ rest).head? = (name ++ [chr '%']).head? := by
  cases name <;> rfl

/-- The search for the end of a name finds the next two percent signs. -/
theorem varName_eq_some {n : ℕ} {s name rest : Str} :
    varName n s = some (name, rest) ↔
      s = name ++ marks ++ rest ∧ name.length < n ∧ ¬ marks <:+: name ++ [chr '%'] := by
  induction n generalizing s name with
  | zero =>
    constructor
    · intro h
      cases h
    · rintro ⟨-, h, -⟩
      omega
  | succ n ih =>
    cases s with
    | nil =>
      constructor
      · intro h
        cases h
      · rintro ⟨h, -⟩
        exact absurd (congrArg List.length h) (by simp [marks])
    | cons c s =>
      rw [varName]
      by_cases hmark : c = chr '%' ∧ s.head? = some (chr '%')
      · rw [if_pos hmark, Option.some.injEq, Prod.mk.injEq]
        obtain ⟨hc, hs⟩ := hmark
        constructor
        · rintro ⟨rfl, rfl⟩
          refine ⟨?_, Nat.succ_pos n, ?_⟩
          · rw [hc, List.nil_append, ← List.cons_head?_tail hs]
            rfl
          · intro h
            exact absurd h.length_le (by simp [marks])
        · rintro ⟨heq, -, hends⟩
          cases name with
          | nil =>
            obtain ⟨-, rfl⟩ := List.cons.inj heq
            exact ⟨rfl, rfl⟩
          | cons d name =>
            obtain ⟨rfl, rfl⟩ := List.cons.inj heq
            have hhead : (name ++ [chr '%']).head? = some (chr '%') :=
              (head?_marks name rest).symm.trans hs
            exact absurd ((starts_with_marks c (name ++ [chr '%'])).mpr ⟨hc, hhead⟩).isInfix hends
      · rw [if_neg hmark, Option.map_eq_some_iff]
        constructor
        · rintro ⟨⟨name', rest'⟩, hname, heq⟩
          obtain ⟨rfl, rfl⟩ := Prod.mk.inj heq
          obtain ⟨rfl, hlength, hends⟩ := ih.mp hname
          refine ⟨rfl, Nat.succ_lt_succ hlength, ?_⟩
          rw [List.cons_append, List.infix_cons_iff, starts_with_marks, ← head?_marks name' rest']
          exact not_or.mpr ⟨hmark, hends⟩
        · rintro ⟨heq, hlength, hends⟩
          cases name with
          | nil =>
            obtain ⟨rfl, rfl⟩ := List.cons.inj heq
            exact absurd ⟨rfl, rfl⟩ hmark
          | cons d name =>
            obtain ⟨rfl, rfl⟩ := List.cons.inj heq
            rw [List.cons_append, List.infix_cons_iff] at hends
            exact ⟨(name, rest), ih.mpr ⟨rfl, Nat.lt_of_succ_lt_succ hlength,
              (not_or.mp hends).2⟩, rfl⟩

theorem opens_eq_some {s body : Str} :
    opens s = some body ↔
      s = chr '%' :: chr '%' :: body ∧ body ≠ [] ∧ body.head? ≠ some (chr '%') := by
  constructor
  · intro h
    rcases s with _ | ⟨a, _ | ⟨b, _ | ⟨c, rest⟩⟩⟩
    · cases h
    · cases h
    · cases h
    · rw [opens] at h
      by_cases hopen : a = chr '%' ∧ b = chr '%' ∧ c ≠ chr '%'
      · rw [if_pos hopen] at h
        obtain ⟨rfl, rfl, hc⟩ := hopen
        obtain rfl := Option.some.inj h
        exact ⟨rfl, List.cons_ne_nil c rest, fun hhead => hc (Option.some.inj hhead)⟩
      · rw [if_neg hopen] at h
        cases h
  · rintro ⟨rfl, hne, hhead⟩
    obtain ⟨c, rest, rfl⟩ := List.exists_cons_of_ne_nil hne
    exact if_pos ⟨rfl, rfl, fun hc => hhead (congrArg some hc)⟩

/-- A placeholder is what the scan takes for one. -/
theorem placeholder_iff {s name rest : Str} :
    s = marks ++ name ++ marks ++ rest ∧ IsName name ↔
      ∃ body, opens s = some body ∧ varName 63 body = some (name, rest) := by
  constructor
  · rintro ⟨rfl, h⟩
    refine ⟨name ++ marks ++ rest, ?_, varName_eq_some.mpr ⟨rfl, ?_, h.ends⟩⟩
    · have hne : name ≠ [] := List.ne_nil_of_length_pos h.length_pos
      refine opens_eq_some.mpr ⟨by simp only [marks, List.append_assoc]; rfl, ?_, ?_⟩
      · exact fun hnil => hne (List.append_eq_nil_iff.mp (List.append_eq_nil_iff.mp hnil).1).1
      · obtain ⟨c, name, rfl⟩ := List.exists_cons_of_ne_nil hne
        exact h.head_ne
    · have hlength := h.length_le
      omega
  · rintro ⟨body, hopens, hname⟩
    obtain ⟨rfl, hne, hhead⟩ := opens_eq_some.mp hopens
    obtain ⟨rfl, hlength, hends⟩ := varName_eq_some.mp hname
    refine ⟨by simp only [marks, List.append_assoc]; rfl, ?_, by omega, ?_, hends⟩
    · cases name with
      | nil => exact absurd rfl hhead
      | cons c name => exact Nat.succ_pos _
    · cases name with
      | nil => exact absurd rfl hhead
      | cons c name => exact hhead

section reference

variable {vars : Swad.Template.Vars} {value : Str → Str} {c : Byte} {rest body : Str}

theorem processLoop_plain (h : opens (c :: rest) = none) (rounds : ℕ) :
    Swad.Template.processLoop vars (rounds + 1) (c :: rest) =
      c :: Swad.Template.processLoop vars rounds rest := by
  rw [Swad.Template.processLoop, h]

theorem processLoop_open (h : opens (c :: rest) = some body) (hname : varName 63 body = none)
    (rounds : ℕ) :
    Swad.Template.processLoop vars (rounds + 1) (c :: rest) =
      chr '%' :: chr '%' :: Swad.Template.processLoop vars rounds body := by
  rw [Swad.Template.processLoop, h]
  dsimp only
  rw [hname]

theorem processLoop_name (h : opens (c :: rest) = some body) {name after : Str}
    (hname : varName 63 body = some (name, after)) (rounds : ℕ) :
    Swad.Template.processLoop vars (rounds + 1) (c :: rest) =
      (Swad.Template.findVar vars (cstr name)).elim [] Swad.Template.processVar ++
        Swad.Template.processLoop vars rounds after := by
  rw [Swad.Template.processLoop, h]
  dsimp only
  rw [hname]

theorem notMem_parts {name : Str} (h : c ∉ marks ++ name ++ marks ++ rest) :
    c ∉ name ∧ c ∉ rest := by
  simp only [List.mem_append, not_or] at h
  exact ⟨h.1.1.2, h.2⟩

theorem plain_of_opens (h : opens (c :: rest) = none) (name after : Str)
    (hname : IsName name) : c :: rest ≠ marks ++ name ++ marks ++ after := by
  intro heq
  obtain ⟨body, hbody, -⟩ := placeholder_iff.mp ⟨heq, hname⟩
  rw [h] at hbody
  cases hbody

theorem plain_of_open (h : opens (c :: rest) = some body) (hnone : varName 63 body = none)
    (name after : Str) (hname : IsName name) :
    c :: rest ≠ marks ++ name ++ marks ++ after := by
  intro heq
  obtain ⟨body', hbody, hsome⟩ := placeholder_iff.mp ⟨heq, hname⟩
  obtain rfl := Option.some.inj (h.symm.trans hbody)
  rw [hnone] at hsome
  cases hsome

/-- The second of the two marks opens nothing. -/
theorem opens_second (h : opens (c :: rest) = some body) : opens (chr '%' :: body) = none := by
  obtain ⟨-, -, hhead⟩ := opens_eq_some.mp h
  rw [Option.eq_none_iff_forall_ne_some]
  intro body' hbody
  obtain ⟨hmarks, -⟩ := opens_eq_some.mp hbody
  obtain ⟨-, rfl⟩ := List.cons.inj hmarks
  exact hhead rfl

/-- The loop over what is left of the template does the scan. -/
theorem expands_processLoop
    (hvalue : ∀ name, (0 : Byte) ∉ name →
      (Swad.Template.findVar vars (cstr name)).elim [] Swad.Template.processVar = value name)
    (rounds : ℕ) (s : Str) (hs : (0 : Byte) ∉ s) (h : s.length ≤ rounds) :
    Expands value s (Swad.Template.processLoop vars rounds s) := by
  induction rounds generalizing s with
  | zero =>
    obtain rfl := List.eq_nil_of_length_eq_zero (Nat.le_zero.mp h)
    exact Expands.nil
  | succ rounds ih =>
    cases s with
    | nil => exact Expands.nil
    | cons c rest =>
      rw [List.length_cons] at h
      have hrest : (0 : Byte) ∉ rest := fun hmem => hs (List.mem_cons_of_mem c hmem)
      cases hopens : opens (c :: rest) with
      | none =>
        rw [processLoop_plain hopens]
        exact Expands.char (plain_of_opens hopens) (ih rest hrest (by omega))
      | some body =>
        cases hname : varName 63 body with
        | none =>
          rw [processLoop_open hopens hname]
          have hfirst := plain_of_open hopens hname
          have hsecond := plain_of_opens (opens_second hopens)
          obtain ⟨heq, -⟩ := opens_eq_some.mp hopens
          obtain ⟨rfl, rfl⟩ := List.cons.inj heq
          rw [List.length_cons] at h
          have hbody := ih body (fun hmem => hrest (List.mem_cons_of_mem _ hmem)) (by omega)
          exact Expands.char hfirst (Expands.char hsecond hbody)
        | some found =>
          obtain ⟨name, after⟩ := found
          obtain ⟨hsplit, hisname⟩ := placeholder_iff.mpr ⟨body, hopens, hname⟩
          rw [processLoop_name hopens hname]
          have hlength := congrArg List.length hsplit
          simp only [List.length_cons, List.length_append, marks, List.length_nil] at hlength
          rw [hsplit] at hs ⊢
          obtain ⟨hnul, hafter⟩ := notMem_parts hs
          rw [hvalue name hnul]
          exact Expands.name hisname (ih after hafter (by omega))

/-- There is one scan of a template. -/
theorem Expands.eq_processLoop
    (hvalue : ∀ name, (0 : Byte) ∉ name →
      (Swad.Template.findVar vars (cstr name)).elim [] Swad.Template.processVar = value name)
    {s out : Str} (hexpands : Expands value s out) (hs : (0 : Byte) ∉ s) (rounds : ℕ)
    (h : s.length ≤ rounds) : out = Swad.Template.processLoop vars rounds s := by
  induction hexpands generalizing rounds with
  | nil => cases rounds <;> rfl
  | @name name after out hname _ ih =>
    obtain ⟨body, hopens, hfound⟩ := placeholder_iff.mp ⟨rfl, hname⟩
    obtain ⟨hnul, hafter⟩ := notMem_parts hs
    cases rounds with
    | zero => exact absurd h (by simp [marks])
    | succ rounds =>
      simp only [List.length_append, marks, List.length_cons, List.length_nil] at h
      rw [ih hafter rounds (by omega), ← hvalue name hnul]
      exact (processLoop_name hopens hfound rounds).symm
  | @char c rest out hplain _ ih =>
    have hrest : (0 : Byte) ∉ rest := fun hmem => hs (List.mem_cons_of_mem c hmem)
    rw [List.length_cons] at h
    cases rounds with
    | zero => omega
    | succ rounds =>
      cases hopens : opens (c :: rest) with
      | none => rw [processLoop_plain hopens, ih hrest rounds (by omega)]
      | some body =>
        cases hname : varName 63 body with
        | some found =>
          obtain ⟨hsplit, hisname⟩ := placeholder_iff.mpr ⟨body, hopens, hname⟩
          exact absurd hsplit (hplain _ _ hisname)
        | none =>
          have hsecond := opens_second hopens
          rw [processLoop_open hopens hname]
          obtain ⟨heq, -⟩ := opens_eq_some.mp hopens
          obtain ⟨rfl, rfl⟩ := List.cons.inj heq
          rw [ih hrest (rounds + 1) (by omega), processLoop_plain hsecond]

end reference

/-! ### Positions -/

section positions

variable {tmpl : Str} {pos : ℕ}

theorem opens_drop : opens (tmpl.drop pos) =
    if opensAt tmpl pos then some (tmpl.drop (pos + 2)) else none := by
  have hlength : (tmpl.drop pos).length = tmpl.length - pos := List.length_drop
  have hfirst : tmpl[pos]? = (tmpl.drop pos)[0]? := by rw [List.getElem?_drop, Nat.add_zero]
  have hafter : tmpl.drop (pos + 2) = (tmpl.drop pos).drop 2 := List.drop_drop.symm
  rw [opensAt, hfirst, ← List.getElem?_drop, ← List.getElem?_drop, hafter]
  rcases hdrop : tmpl.drop pos with _ | ⟨a, _ | ⟨b, _ | ⟨c, rest⟩⟩⟩
  · rfl
  · rw [hdrop, List.length_singleton] at hlength
    have hshort : ¬ pos + 2 < tmpl.length := by omega
    simp [opens, hshort]
  · rw [hdrop, List.length_cons, List.length_singleton] at hlength
    have hshort : ¬ pos + 2 < tmpl.length := by omega
    simp [opens, hshort]
  · rw [hdrop, List.length_cons, List.length_cons, List.length_cons] at hlength
    have hroom : pos + 2 < tmpl.length := by omega
    simp [opens, hroom, and_assoc]

theorem nameEnd_bounds {n endpos : ℕ} (h : nameEnd tmpl n pos = some endpos) :
    pos ≤ endpos ∧ endpos < pos + n := by
  induction n generalizing pos with
  | zero => cases h
  | succ n ih =>
    rw [nameEnd] at h
    by_cases hlt : pos < tmpl.length
    · rw [if_pos hlt] at h
      by_cases hmark : tmpl[pos]? = some (chr '%') ∧ pos + 1 < tmpl.length ∧
          tmpl[pos + 1]? = some (chr '%')
      · rw [if_pos hmark] at h
        have heq := Option.some.inj h
        omega
      · rw [if_neg hmark] at h
        have hbounds := ih h
        omega
    · rw [if_neg hlt] at h
      cases h

/-- The search by positions finds what the search in the rest of the template does. -/
theorem varName_drop (n : ℕ) : varName n (tmpl.drop pos) =
    (nameEnd tmpl n pos).map fun endpos =>
      ((tmpl.drop pos).take (endpos - pos), tmpl.drop (endpos + 2)) := by
  induction n generalizing pos with
  | zero => rfl
  | succ n ih =>
    rw [nameEnd]
    by_cases hlt : pos < tmpl.length
    · rw [if_pos hlt, List.drop_eq_getElem_cons hlt, varName, List.head?_drop,
        List.getElem?_eq_getElem hlt]
      by_cases hmark : tmpl[pos] = chr '%' ∧ tmpl[pos + 1]? = some (chr '%')
      · have hnext : pos + 1 < tmpl.length := (List.getElem?_eq_some_iff.mp hmark.2).1
        rw [if_pos hmark, if_pos ⟨congrArg some hmark.1, hnext, hmark.2⟩, Option.map_some,
          Nat.sub_self, List.take_zero, List.tail_drop]
      · have hno : ¬ (some tmpl[pos] = some (chr '%') ∧ pos + 1 < tmpl.length ∧
            tmpl[pos + 1]? = some (chr '%')) := fun h => hmark ⟨Option.some.inj h.1, h.2.2⟩
        rw [if_neg hmark, if_neg hno, ih, Option.map_map]
        cases hend : nameEnd tmpl n (pos + 1) with
        | none => rfl
        | some endpos =>
          have hbounds := nameEnd_bounds hend
          have hsub : endpos - pos = (endpos - (pos + 1)) + 1 := by omega
          simp only [Option.map_some, Function.comp_apply, hsub, List.take_succ_cons]
    · rw [if_neg hlt, List.drop_eq_nil_of_le (Nat.le_of_not_lt hlt)]
      rfl

end positions

/-! ### What is returned -/

theorem emits_chunk (c : Byte) : Emits (appendchr OUTCHUNK c) [c] :=
  emits_appendchr (by decide) c

theorem emits_processVar (var : TmplVar) :
    Emits (processVar var) (Swad.Template.processVar ⟨var.val.1, var.filter⟩) := by
  unfold processVar Swad.Template.processVar
  cases var.filter with
  | none => exact emits_appendAll (by decide) _
  | html => exact emits_htmlescapeto false _
  | htmlnl => exact emits_htmlescapeto true _
  | url => exact emits_urlencodeto _

section loop

variable {self : Template} {vars : Swad.Template.Vars}

/-- The loop by positions appends what the loop over the rest of the template yields. -/
theorem emits_processLoop
    (hvars : ∀ name, Emits (fun out =>
      (self.findVar name).elim (some out) fun var => processVar var out)
        ((Swad.Template.findVar vars name).elim [] Swad.Template.processVar))
    (rounds pos : ℕ) (h : self.tmpl.length ≤ pos + rounds) :
    Emits (self.processLoop rounds pos)
      (Swad.Template.processLoop vars rounds (self.tmpl.drop pos)) := by
  induction rounds generalizing pos with
  | zero =>
    intro out hout
    rw [Template.processLoop, if_neg (by omega), List.drop_eq_nil_of_le (by omega)]
    exact emits_nothing hout
  | succ rounds ih =>
    by_cases hlt : pos < self.tmpl.length
    · have hopens := @opens_drop self.tmpl pos
      rw [List.drop_eq_getElem_cons hlt] at hopens ⊢
      intro out hout
      rw [Template.processLoop, if_pos hlt]
      by_cases hopen : opensAt self.tmpl pos = true
      · rw [if_pos hopen] at hopens ⊢
        have hname := @varName_drop self.tmpl (pos + 2) 63
        cases hend : nameEnd self.tmpl 63 (pos + 2) with
        | none =>
          rw [hend] at hname
          rw [processLoop_open hopens hname]
          exact (((emits_chunk _).bind (emits_chunk _)).bind (ih (pos + 2) (by omega))) hout
        | some endpos =>
          rw [hend] at hname
          have hbounds := nameEnd_bounds hend
          have hfits : ((self.tmpl.drop (pos + 2)).take (endpos - (pos + 2))).length < 64 := by
            rw [List.length_take]
            omega
          rw [processLoop_name hopens hname]
          dsimp only
          rw [Buf.copy, dif_pos hfits, Option.bind_some]
          exact ((hvars _).bind (ih (endpos + 2) (by omega))) hout
      · rw [if_neg hopen] at hopens ⊢
        rw [processLoop_plain hopens, List.getElem?_eq_getElem hlt, Option.bind_some]
        exact ((emits_chunk _).bind (ih (pos + 1) (by omega))) hout
    · intro out hout
      rw [Template.processLoop, if_neg hlt, List.drop_eq_nil_of_le (by omega)]
      exact emits_nothing hout

end loop

section settings

variable (settings : List Setting)

/-- The variables as a list of names and values. -/
def varsOf : Swad.Template.Vars := settings.map fun s => (s.name.1, ⟨s.val.1, s.filter⟩)

theorem findVar_varsOf (name : Str) :
    Swad.Template.findVar (varsOf settings) name =
      (settings.reverse.find? fun s => s.name.1 == name).map fun s => ⟨s.val.1, s.filter⟩ := by
  rw [Swad.Template.findVar, varsOf, ← List.map_reverse]
  induction settings.reverse with
  | nil => rfl
  | cons s rest ih =>
    rw [List.map_cons, List.lookup_cons, List.find?_cons, ih, Bool.beq_comm]
    cases s.name.1 == name <;> rfl

theorem elim_findVar (name : Str) :
    (Swad.Template.findVar (varsOf settings) name).elim [] Swad.Template.processVar =
      valueOf settings name := by
  rw [findVar_varsOf, valueOf]
  cases settings.reverse.find? fun s => s.name.1 == name <;> rfl

theorem emits_setting (tmpl : Str) (name : Str) :
    Emits (fun out =>
      ((settings.foldl Setting.apply (Template.create tmpl)).findVar name).elim (some out)
        fun var => processVar var out) (valueOf settings name) := by
  have hfind := findVar_settings tmpl settings name
  rw [valueOf]
  cases hvar : (settings.foldl Setting.apply (Template.create tmpl)).findVar name with
  | none =>
    rw [hvar, Option.map_none] at hfind
    rw [Option.map_eq_none_iff.mp hfind.symm]
    exact emits_nothing
  | some var =>
    rw [hvar, Option.map_some] at hfind
    obtain ⟨s, hs, heq⟩ := Option.map_eq_some_iff.mp hfind.symm
    obtain ⟨hval, hfilter⟩ := Prod.mk.inj heq
    rw [hs]
    have hemits := emits_processVar var
    rw [← hval, ← hfilter] at hemits
    exact hemits

theorem zero_notMem_valueOf (name : Str) : (0 : Byte) ∉ valueOf settings name := by
  rw [valueOf]
  cases settings.reverse.find? fun s => s.name.1 == name with
  | none => exact List.not_mem_nil
  | some s =>
    change (0 : Byte) ∉ s.text
    unfold Setting.text
    cases s.filter with
    | none => exact s.val.2
    | html => exact zero_notMem_htmlescape s.val.2 false
    | htmlnl => exact zero_notMem_htmlescape s.val.2 true
    | url => exact PercentCoding.notMem_urlencode (by decide) (by decide) _

variable {settings}

theorem zero_notMem_expands {s out : Str} (h : Expands (valueOf settings) s out)
    (hs : (0 : Byte) ∉ s) : (0 : Byte) ∉ out := by
  induction h with
  | nil => exact List.not_mem_nil
  | @name name rest out _ _ ih =>
    rw [List.mem_append, not_or]
    exact ⟨zero_notMem_valueOf settings name, ih (notMem_parts hs).2⟩
  | @char c rest out _ _ ih =>
    rw [List.mem_cons, not_or] at hs ⊢
    exact ⟨hs.1, ih hs.2⟩

variable (settings) {tmpl : Str} (h : (0 : Byte) ∉ tmpl)
include h

theorem expands_iff (out : Str) :
    Expands (valueOf settings) tmpl out ↔
      out = Swad.Template.processLoop (varsOf settings) tmpl.length tmpl := by
  have hvalue : ∀ name, (0 : Byte) ∉ name →
      (Swad.Template.findVar (varsOf settings) (cstr name)).elim [] Swad.Template.processVar =
        valueOf settings name := by
    intro name hname
    rw [cstr_eq_self hname, elim_findVar]
  constructor
  · exact fun hexpands => hexpands.eq_processLoop hvalue h _ le_rfl
  · rintro rfl
    exact expands_processLoop hvalue _ _ h le_rfl

/-- The engine returns what the loop over the text of the template yields. -/
theorem process_eq : (settings.foldl Setting.apply (Template.create tmpl)).process =
    some (Swad.Template.process tmpl (varsOf settings)) := by
  have hvars : ∀ name, Emits (fun out =>
      ((settings.foldl Setting.apply (Template.create tmpl)).findVar name).elim (some out)
        fun var => processVar var out)
        ((Swad.Template.findVar (varsOf settings) name).elim [] Swad.Template.processVar) := by
    intro name
    rw [elim_findVar]
    exact emits_setting settings tmpl name
  have htmpl := tmpl_settings tmpl settings
  have hempty : (⟨[], 0, 0⟩ : Buffer Byte).WellFormed := ⟨rfl, le_rfl⟩
  obtain ⟨out, hout, hwell, hcontent⟩ :=
    ((emits_processLoop hvars tmpl.length 0 (by rw [htmpl]; omega)).bind
      (emits_appendchr Nat.one_pos 0)) hempty
  have hexpands := (expands_iff settings h _).mpr rfl
  have hnul := zero_notMem_expands hexpands h
  have hcells : (out.realloc out.size).cells = out.content ++ out.cells.drop out.pos := by
    rw [Buffer.content, List.take_append_drop, Buffer.realloc, hwell.length_cells, Nat.sub_self,
      List.replicate_zero, List.append_nil, ← hwell.length_cells, List.take_length]
  dsimp only at hout
  rw [Template.process, htmpl, hout, Option.bind_some, hcells, hcontent, htmpl, List.drop_zero,
    Buffer.content, List.take_nil, List.nil_append, List.map_append, List.append_assoc]
  rw [Swad.Template.process, cstr_eq_self hnul]
  exact readUntil_append hnul _

end settings

/-- The engine returns the one scan of the template from the left to the right, and the text
of a variable stands in it as it is. -/
theorem process_expands (tmpl : Str) (h : (0 : Byte) ∉ tmpl) (settings : List Setting) :
    ∃ text, (settings.foldl Setting.apply (Template.create tmpl)).process = some text ∧
      (∀ out, Expands (valueOf settings) tmpl out ↔ out = text) ∧
      ∀ name rest, IsName name → tmpl = marks ++ name ++ marks ++ rest →
        ∃ out, Expands (valueOf settings) rest out ∧ text = valueOf settings name ++ out := by
  have hiff := expands_iff settings h
  have hnul := zero_notMem_expands ((hiff _).mpr rfl) h
  refine ⟨_, process_eq settings h, ?_, ?_⟩
  · rwa [Swad.Template.process, cstr_eq_self hnul]
  · rintro name rest hname rfl
    have hrest := (notMem_parts h).2
    have hout := (expands_iff settings hrest _).mpr rfl
    refine ⟨_, hout, ?_⟩
    rw [Swad.Template.process, cstr_eq_self hnul]
    exact ((hiff _).mp (Expands.name hname hout)).symm

/-- A value that looks like a placeholder, behind a percent sign, and a name that ends late. -/
def sampleSettings : List Setting :=
  [⟨.setVar, ⟨str "X", by decide⟩, ⟨str "%%Y%%<", by decide⟩, .html⟩,
    ⟨.setStaticVar, ⟨str "Y", by decide⟩, ⟨str "y", by decide⟩, .none⟩]

theorem process_expands_sample :
    ∃ text, (sampleSettings.foldl Setting.apply
        (Template.create (str "%%X%%%%%Z%%%%Y"))).process = some text ∧
      text = str "%%Y%%&lt;%%%Y" ∧ Expands (valueOf sampleSettings) (str "%%X%%%%%Z%%%%Y") text := by
  obtain ⟨text, hprocess, hiff, -⟩ :=
    process_expands (str "%%X%%%%%Z%%%%Y") (by decide) sampleSettings
  have htext : text = str "%%Y%%&lt;%%%Y" := by
    have hrun : (sampleSettings.foldl Setting.apply
        (Template.create (str "%%X%%%%%Z%%%%Y"))).process = some (str "%%Y%%&lt;%%%Y") := by
      decide +kernel
    exact Option.some.inj (hprocess.symm.trans hrun)
  exact ⟨text, hprocess, htext, (hiff text).mpr rfl⟩

end Swad.TemplateEngine
