import Mathlib.Tactic.FinCases
import Swad.GrowingBuffer
import Swad.PercentCoding

/-!
The functions that append to a growing text. Each of them stores the text of its encoding
behind what is there already. The text of an escaped string has none of the characters that
a page is written with, except the marks of its entities, and reading the entities back
gives the string.
-/
namespace Swad.TextOutput

open Bytes TextCodecs GrowingBuffer Template PercentCoding

def OUTCHUNK : ℕ := 512

def appendchr (chunksz : ℕ) (c : Byte) (out : Buffer Byte) : Option (Buffer Byte) :=
  append chunksz c out

def appendstrlit (chunksz : ℕ) (strlit : Str) (out : Buffer Byte) : Option (Buffer Byte) :=
  strlit.foldlM (fun out c => appendchr chunksz c out) out

def htmlescapeto (newline : Bool) : Str → Buffer Byte → Option (Buffer Byte)
  | c :: val, out =>
    (if c = chr '&' then appendstrlit OUTCHUNK (str "&amp;") out
    else if c = chr '<' then appendstrlit OUTCHUNK (str "&lt;") out
    else if c = chr '>' then appendstrlit OUTCHUNK (str "&gt;") out
    else if c = chr '"' then appendstrlit OUTCHUNK (str "&quot;") out
    else if c = chr '\'' then appendstrlit OUTCHUNK (str "&#39;") out
    else if c = chr '\n' ∧ newline then appendstrlit OUTCHUNK (str "<br>") out
    else appendchr OUTCHUNK c out).bind (htmlescapeto newline val)
  | [], out => some out

def htmlescape (s : Str) (newline : Bool) : Option (Buffer Byte) :=
  ((htmlescapeto newline s (.alloc (s.length + OUTCHUNK))).bind (appendchr 1 0)).map fun out =>
    out.realloc out.pos

def urlencodeto : Str → Buffer Byte → Option (Buffer Byte)
  | c :: s, out =>
    (if isUnreserved c then appendchr OUTCHUNK c out
    else ((appendchr OUTCHUNK (chr '%') out).bind
      (appendchr OUTCHUNK (hexDigit (c >>> 4)))).bind
        (appendchr OUTCHUNK (hexDigit (c &&& 15)))).bind (urlencodeto s)
  | [], out => some out

/-! ### What is appended -/

theorem emits_appendchr {chunksz : ℕ} (h : 0 < chunksz) (c : Byte) :
    Emits (appendchr chunksz c) [c] :=
  emits_append h c

theorem emits_appendstrlit {chunksz : ℕ} (h : 0 < chunksz) (strlit : Str) :
    Emits (appendstrlit chunksz strlit) strlit := by
  have hall := emits_foldlM (fun c => emits_appendchr h c) strlit
  rwa [List.flatMap_singleton'] at hall

theorem emits_chunk (c : Byte) : Emits (appendchr OUTCHUNK c) [c] :=
  emits_appendchr (by decide) c

/-- One character is stored as its escape. -/
theorem emits_escapeByte (newline : Bool) (c : Byte) :
    Emits (fun out =>
      if c = chr '&' then appendstrlit OUTCHUNK (str "&amp;") out
      else if c = chr '<' then appendstrlit OUTCHUNK (str "&lt;") out
      else if c = chr '>' then appendstrlit OUTCHUNK (str "&gt;") out
      else if c = chr '"' then appendstrlit OUTCHUNK (str "&quot;") out
      else if c = chr '\'' then appendstrlit OUTCHUNK (str "&#39;") out
      else if c = chr '\n' ∧ newline then appendstrlit OUTCHUNK (str "<br>") out
      else appendchr OUTCHUNK c out) (escapeByte newline c) := by
  have hlit := fun strlit => emits_appendstrlit (show 0 < OUTCHUNK by decide) strlit
  unfold escapeByte
  split
  · exact hlit _
  split
  · exact hlit _
  split
  · exact hlit _
  split
  · exact hlit _
  split
  · exact hlit _
  split
  · exact hlit _
  · exact emits_chunk c

theorem emits_htmlescapeto (newline : Bool) (s : Str) :
    Emits (htmlescapeto newline s) (TextCodecs.htmlescape s newline) := by
  induction s with
  | nil => exact emits_nothing
  | cons c s ih => exact (emits_escapeByte newline c).bind ih

theorem emits_urlencodeto (s : Str) : Emits (urlencodeto s) (urlencode s) := by
  induction s with
  | nil => exact emits_nothing
  | cons c s ih =>
    rw [urlencode_cons]
    refine Emits.bind ?_ ih
    unfold encodeByte
    by_cases h : isUnreserved c = true
    · simp only [if_pos h]
      exact emits_chunk c
    · simp only [if_neg h]
      exact ((emits_chunk _).bind (emits_chunk _)).bind (emits_chunk _)

/-- The escaped string is the whole block, with the NUL behind it. -/
theorem htmlescape_cells (s : Str) (newline : Bool) :
    (htmlescape s newline).map Buffer.cells =
      some ((TextCodecs.htmlescape s newline ++ [0]).map some) := by
  rw [htmlescape, Option.map_map]
  exact (emits_htmlescapeto newline s).cells_cut (s.length + OUTCHUNK) 0

theorem zero_notMem_htmlescape {s : Str} (h : (0 : Byte) ∉ s) (newline : Bool) :
    (0 : Byte) ∉ TextCodecs.htmlescape s newline := by
  have hescape : ∀ c, (0 : Byte) ∈ escapeByte newline c → c = 0 := by
    intro c hmem
    unfold escapeByte at hmem
    split_ifs at hmem <;> simp_all +decide
  intro hmem
  obtain ⟨c, hc, hzero⟩ := List.mem_flatMap.mp hmem
  exact h (hescape c hzero ▸ hc)

/-! ### The entities -/

/-- The characters that are escaped, with their entities. -/
def entities : List (Byte × Str) :=
  [(chr '&', str "&amp;"), (chr '<', str "&lt;"), (chr '>', str "&gt;"), (chr '"', str "&quot;"),
    (chr '\'', str "&#39;")]

/-- Every entity is replaced by its character, from the left to the right; so many characters
of the last entity are left. -/
def unescapeFrom (skip : ℕ) : Str → Str
  | c :: s =>
    match skip with
    | skip + 1 => unescapeFrom skip s
    | 0 =>
      match entities.find? fun e => e.2.isPrefixOf (c :: s) with
      | some e => e.1 :: unescapeFrom (e.2.length - 1) s
      | none => c :: unescapeFrom 0 s
  | [] => []

def unescape (s : Str) : Str := unescapeFrom 0 s

/-- A character stands for itself or is one of those that have an entity. -/
theorem escapeByte_cases (c : Byte) :
    (c, escapeByte false c) ∈ entities ∨
      escapeByte false c = [c] ∧ c ∉ entities.map Prod.fst := by
  by_cases h : c ∈ entities.map Prod.fst
  · left
    obtain ⟨e, he, rfl⟩ := List.mem_map.mp h
    fin_cases he <;> decide
  · right
    refine ⟨?_, h⟩
    simp only [entities, List.map_cons, List.map_nil, List.mem_cons, List.not_mem_nil, or_false,
      not_or] at h
    obtain ⟨hamp, hlt, hgt, hquot, hapos⟩ := h
    simp [escapeByte, hamp, hlt, hgt, hquot, hapos]

theorem unescape_entity {e : Byte × Str} (he : e ∈ entities) (s : Str) :
    unescape (e.2 ++ s) = e.1 :: unescape s := by
  fin_cases he <;> rfl

theorem unescape_plain {c : Byte} (hc : c ≠ chr '&') (s : Str) :
    unescape (c :: s) = c :: unescape s := by
  have hnone : entities.find? (fun e => e.2.isPrefixOf (c :: s)) = none := by
    rw [List.find?_eq_none]
    intro e he hpre
    rw [List.isPrefixOf_iff_prefix] at hpre
    obtain ⟨t, ht⟩ := hpre
    fin_cases he <;> exact hc (List.cons.inj ht).1.symm
  unfold unescape
  rw [unescapeFrom, hnone]

/-- Reading the entities of an escaped string back gives the string. -/
theorem unescape_htmlescape (s : Str) : unescape (TextCodecs.htmlescape s false) = s := by
  induction s with
  | nil => rfl
  | cons c s ih =>
    rw [TextCodecs.htmlescape, List.flatMap_cons]
    change unescape (escapeByte false c ++ TextCodecs.htmlescape s false) = c :: s
    rcases escapeByte_cases c with hentity | ⟨hplain, hc⟩
    · rw [unescape_entity hentity, ih]
    · have hamp : c ≠ chr '&' := by
        rintro rfl
        exact hc (List.mem_cons_self ..)
      rw [hplain, List.singleton_append, unescape_plain hamp, ih]

/-- A text in which the mark of an entity only stands where an entity begins, and none of the
other characters that are escaped occurs. -/
structure Escaped (text : Str) : Prop where
  absent : ∀ c ∈ text, c ∈ entities.map Prod.fst → c = chr '&'
  marks : ∀ before after, text = before ++ chr '&' :: after →
    ∃ e ∈ entities, e.2 <+: chr '&' :: after

theorem Escaped.nil : Escaped [] := by
  refine ⟨fun c hc => absurd hc List.not_mem_nil, fun before after h => ?_⟩
  exact absurd h (by simp)

theorem Escaped.plain {c : Byte} (hc : c ∉ entities.map Prod.fst) {text : Str}
    (h : Escaped text) : Escaped (c :: text) := by
  refine ⟨?_, ?_⟩
  · intro d hd hspecial
    rcases List.mem_cons.mp hd with rfl | hd
    · exact absurd hspecial hc
    · exact h.absent d hd hspecial
  · intro before after htext
    cases before with
    | nil =>
      have heq : c = chr '&' := (List.cons.inj htext).1
      exact absurd (heq ▸ List.mem_cons_self ..) hc
    | cons b before => exact h.marks before after (List.cons.inj htext).2

theorem Escaped.plains {name : Str} (hname : ∀ c ∈ name, c ∉ entities.map Prod.fst) {text : Str}
    (h : Escaped text) : Escaped (name ++ text) := by
  induction name with
  | nil => exact h
  | cons c name ih =>
    obtain ⟨hc, hrest⟩ := List.forall_mem_cons.mp hname
    exact Escaped.plain hc (ih hrest)

/-- An entity is its mark and characters that need no escape. -/
theorem entity_eq {e : Byte × Str} (he : e ∈ entities) :
    ∃ name, e.2 = chr '&' :: name ∧ ∀ c ∈ name, c ∉ entities.map Prod.fst := by
  have hall : entities.all (fun e => e.2.head? == some (chr '&') &&
      e.2.tail.all fun c => !(entities.map Prod.fst).contains c) = true := rfl
  have hone := List.all_eq_true.mp hall e he
  rw [Bool.and_eq_true, beq_iff_eq] at hone
  refine ⟨e.2.tail, (List.cons_head?_tail hone.1).symm, fun c hc hmem => ?_⟩
  have hnot := List.all_eq_true.mp hone.2 c hc
  rw [List.contains_iff_mem.mpr hmem] at hnot
  exact Bool.false_ne_true hnot

theorem Escaped.entity {e : Byte × Str} (he : e ∈ entities) {text : Str} (h : Escaped text) :
    Escaped (e.2 ++ text) := by
  obtain ⟨name, hname, habsent⟩ := entity_eq he
  have hplains := h.plains habsent
  refine ⟨?_, ?_⟩
  · intro c hc hspecial
    rw [hname, List.cons_append, List.mem_cons] at hc
    rcases hc with rfl | hc
    · rfl
    · exact hplains.absent c hc hspecial
  · intro before after htext
    cases before with
    | nil => exact ⟨e, he, text, htext⟩
    | cons b before =>
      rw [hname, List.cons_append, List.cons_append] at htext
      exact hplains.marks before after (List.cons.inj htext).2

theorem escaped_htmlescape (s : Str) : Escaped (TextCodecs.htmlescape s false) := by
  induction s with
  | nil => exact Escaped.nil
  | cons c s ih =>
    rw [TextCodecs.htmlescape, List.flatMap_cons]
    rcases escapeByte_cases c with hentity | ⟨hplain, hc⟩
    · exact Escaped.entity hentity ih
    · rw [hplain]
      exact Escaped.plain hc ih

/-- Escaped text has no character that a page is written with but the marks of the five
entities, and gives the string when they are read back; it is what is appended to a growing
text. -/
theorem htmlescape_reads_back (s : Str) :
    (∀ c ∈ TextCodecs.htmlescape s false,
      c ≠ chr '<' ∧ c ≠ chr '>' ∧ c ≠ chr '"' ∧ c ≠ chr '\'') ∧
    (∀ before after, TextCodecs.htmlescape s false = before ++ chr '&' :: after →
      ∃ e ∈ entities, e.2 <+: chr '&' :: after) ∧
    unescape (TextCodecs.htmlescape s false) = s ∧
    (∀ t, TextCodecs.htmlescape t false = TextCodecs.htmlescape s false → t = s) ∧
    (htmlescape s false).map Buffer.cells =
      some ((TextCodecs.htmlescape s false ++ [0]).map some) ∧
    ∀ out : Buffer Byte, out.WellFormed → ∃ after, htmlescapeto false s out = some after ∧
      after.WellFormed ∧ after.content = out.content ++ (TextCodecs.htmlescape s false).map some := by
  have hescaped := escaped_htmlescape s
  refine ⟨?_, hescaped.marks, unescape_htmlescape s, ?_, htmlescape_cells s false,
    fun out h => emits_htmlescapeto false s h⟩
  · intro c hc
    have habsent := hescaped.absent c hc
    refine ⟨?_, ?_, ?_, ?_⟩ <;> rintro rfl <;> exact absurd (habsent (by decide)) (by decide)
  · intro t ht
    rw [← unescape_htmlescape t, ht, unescape_htmlescape]

end Swad.TextOutput
