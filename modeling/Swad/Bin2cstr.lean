import Swad.CLiterals
import Swad.PercentCoding

/-!
The tool that writes a file as the text of a C string literal. What it writes for a byte
depends on the byte and on whether an odd number of question marks stands before it, so the
text for the rest of a file is a function of the rest and of this bit. Reading the text back
is compared with the file byte by byte.
-/
namespace Swad.Bin2cstr

open Bytes CLiterals

def hex : List Byte := str "0123456789abcdef"

def lit : List Byte :=
  str "ABCDEFGHIJKLMNOPQRSTUVWXYZabcdefghijklmnopqrstuvwxyz0123456789 !#%&'()*+,-./:;<=>[]^_\x7b|\x7d~"

/-- `strchr` finds the characters of the string and the NUL that ends it. -/
def strchr (s : List Byte) (c : Byte) : Bool := decide (c ∈ s) || c == 0

/-- An index into the table of digits. There is nothing to read outside of it. -/
def hexAt (i : ℤ) : Option Byte := if 0 ≤ i then hex[i.toNat]? else none

/-- A byte as a `char`, which is signed. -/
def charValue (c : Byte) : ℤ := if c < 128 then c.toNat else (c.toNat : ℤ) - 256

def esc (c : Byte) : Option Str :=
  if c = 7 then some [chr '\\', chr 'a']
  else if c = 8 then some [chr '\\', chr 'b']
  else if c = 12 then some [chr '\\', chr 'f']
  else if c = 10 then some [chr '\\', chr 'n']
  else if c = 13 then some [chr '\\', chr 'r']
  else if c = 9 then some [chr '\\', chr 't']
  else if c = 11 then some [chr '\\', chr 'v']
  else if c = chr '\\' then some [chr '\\', chr '\\']
  else if c = chr '"' then some [chr '\\', chr '"']
  else if c = chr '?' then some [chr '\\', chr '?']
  else do
    let high ← hexAt (charValue c / 16)
    let low ← hexAt (charValue c % 16)
    some [chr '\\', chr 'x', high, low]

def putByte (triesc : Bool) (c : Byte) : Option Str :=
  if (triesc = false ∧ c = chr '?') ∨ strchr lit c = true then some [c] else esc c

def nextTriesc (triesc : Bool) (c : Byte) : Bool := if c = chr '?' then !triesc else false

def encodeLoop : Bool → List Byte → Option Str
  | _, [] => some []
  | triesc, c :: data => do
    let repl ← putByte triesc c
    let rest ← encodeLoop (nextTriesc triesc c) data
    some (repl ++ rest)

/-- The text for a file, unless a byte has none. -/
def bin2cstr (data : List Byte) : Option Str :=
  (encodeLoop false data).map fun body => chr '"' :: (body ++ [chr '"', chr '\n'])

/-- The bytes that are written as hexadecimal escapes. -/
def HexEscaped (c : Byte) : Prop :=
  c ≠ 0 ∧ (c < 7 ∨ (13 < c ∧ c < 32) ∨ c = chr '$' ∨ c = chr '@' ∨ c = chr '`' ∨ c = 127)

/-- The number of question marks at the end. -/
def marks (s : List Byte) : ℕ := (s.reverse.takeWhile (· == chr '?')).length

/-- A byte is kept with what stands around it if it is an ASCII character, no hexadecimal
escape runs into the digit behind it, and it is not inside of an odd number of question marks
that a trigraph's last character follows. -/
structure Kept (before : List Byte) (c : Byte) (after : List Byte) : Prop where
  ascii : c < 128
  escape : HexEscaped c → ∀ d ∈ after.head?, hexDigit d = none
  trigraph : c = chr '?' → ∀ x rest, after = chr '?' :: x :: rest → trigraph x ≠ none →
    marks before % 2 = 0

def Lossless (data : List Byte) : Prop :=
  ∀ before c after, data = before ++ c :: after → Kept before c after

instance (c : Byte) : Decidable (HexEscaped c) := inferInstanceAs (Decidable (_ ∧ _))

/-! ### One byte -/

section bytes

/-- The codes of the characters that stand for themselves, and of the NUL. -/
def isLit (n : ℕ) : Bool :=
  n == 0 || 32 ≤ n && n < 127 && !([34, 36, 63, 64, 92, 96].contains n)

theorem lit_codes : lit.map UInt8.toNat =
    List.range' 65 26 ++ (List.range' 97 26 ++ (List.range' 48 10 ++ ([32, 33, 35] ++
      (List.range' 37 11 ++ (List.range' 58 5 ++ (91 :: (List.range' 93 3 ++
        List.range' 123 4))))))) := by
  decide +kernel

theorem strchr_lit (c : Byte) : strchr lit c = isLit c.toNat := by
  have hmem : c ∈ lit ↔ c.toNat ∈ lit.map UInt8.toNat :=
    (List.mem_map_of_injective (fun _ _ => UInt8.toNat_inj.mp)).symm
  have hzero : c = 0 ↔ c.toNat = 0 := UInt8.toNat_inj.symm
  rw [lit_codes] at hmem
  simp only [List.mem_append, List.mem_cons, List.mem_range'_1, List.not_mem_nil, or_false] at hmem
  rw [Bool.eq_iff_iff, strchr, isLit, Bool.or_eq_true, decide_eq_true_eq, beq_iff_eq, hmem, hzero]
  simp only [Bool.or_eq_true, Bool.and_eq_true, decide_eq_true_eq, beq_iff_eq, Bool.not_eq_true',
    List.contains_eq_mem, decide_eq_false_iff_not, List.mem_cons, List.not_mem_nil, or_false]
  omega

/-- A character of an escape. -/
def escChar (c : Byte) (i : ℕ) : Byte := ((esc c).getD []).getD i 0

/-- What is printed for a byte and how it is read, for each of them. -/
theorem byte_table : ∀ c : Byte,
    (strchr lit c = true →
      textStep c = some (.text, [c]) ∧ c ≠ chr '?' ∧ c < 128 ∧ ¬ HexEscaped c) ∧
    (c < 128 ∧ strchr lit c = false ∧ ¬ HexEscaped c →
      esc c = some [chr '\\', escChar c 1] ∧ step .escape (escChar c 1) = some (.text, [c]) ∧
        decide (escChar c 1 = chr '?') = decide (c = chr '?')) ∧
    (HexEscaped c →
      (esc c = some [chr '\\', chr 'x', escChar c 2, escChar c 3] ∧
        escChar c 2 ≠ chr '?' ∧ escChar c 3 ≠ chr '?' ∧
          hexDigit (escChar c 2) = some (c.toNat / 16) ∧
            hexDigit (escChar c 3) = some (c.toNat % 16)) ∧
      strchr lit c = false ∧ c ≠ chr '?' ∧ c < 128 ∧ c ≠ 0) ∧
    (¬ c < 128 → strchr lit c = false ∧ esc c = none ∧ c ≠ chr '?') ∧
    (hexDigit c ≠ none → strchr lit c = true) ∧
    (CLiterals.trigraph c ≠ none → strchr lit c = true) ∧
    (CLiterals.trigraph c).all (fun r =>
      decide (step .escape r = none ∨ step .escape r = some (.text, [chr '\\']))) = true := by
  simp only [strchr_lit]
  intro c
  refine ⟨?_, ?_, ?_, ?_, ?_, ?_, ?_⟩
  all_goals
    revert c
    apply PercentCoding.byte_all
    decide +kernel

theorem lit_plain (c : Byte) : strchr lit c = true →
    textStep c = some (.text, [c]) ∧ c ≠ chr '?' ∧ c < 128 ∧ ¬ HexEscaped c :=
  (byte_table c).1

/-- What the simple escapes are read as. -/
theorem esc_simple (c : Byte) : c < 128 ∧ strchr lit c = false ∧ ¬ HexEscaped c →
    esc c = some [chr '\\', escChar c 1] ∧ step .escape (escChar c 1) = some (.text, [c]) ∧
      decide (escChar c 1 = chr '?') = decide (c = chr '?') :=
  (byte_table c).2.1

theorem esc_hex (c : Byte) (h : HexEscaped c) :
    esc c = some [chr '\\', chr 'x', escChar c 2, escChar c 3] ∧
      escChar c 2 ≠ chr '?' ∧ escChar c 3 ≠ chr '?' ∧
        hexDigit (escChar c 2) = some (c.toNat / 16) ∧
          hexDigit (escChar c 3) = some (c.toNat % 16) :=
  ((byte_table c).2.2.1 h).1

theorem hexEscaped_ne (c : Byte) (h : HexEscaped c) :
    strchr lit c = false ∧ c ≠ chr '?' ∧ c < 128 ∧ c ≠ 0 :=
  ((byte_table c).2.2.1 h).2

theorem esc_none (c : Byte) : ¬ c < 128 → strchr lit c = false ∧ esc c = none ∧ c ≠ chr '?' :=
  (byte_table c).2.2.2.1

theorem hexDigit_lit (c : Byte) : hexDigit c ≠ none → strchr lit c = true :=
  (byte_table c).2.2.2.2.1

theorem trigraph_lit (c : Byte) : CLiterals.trigraph c ≠ none → strchr lit c = true :=
  (byte_table c).2.2.2.2.2.1

/-- What a trigraph is replaced with is no question mark behind a backslash. -/
theorem trigraph_escape (c : Byte) (r : Byte) (hr : r ∈ CLiterals.trigraph c) :
    step .escape r = none ∨ step .escape r = some (.text, [chr '\\']) :=
  of_decide_eq_true ((Option.all_eq_true _ _).mp (byte_table c).2.2.2.2.2.2 r hr)

end bytes

/-! ### The text for the rest of a file -/

section text

variable {triesc : Bool} {c : Byte} {data before : List Byte} {repl body text : Str}

def ending : Str := [chr '"', chr '\n']

/-- What the rest of the text is read as. -/
def decoded (body : Str) : Option (List Byte) :=
  readFrom .text (replaceTrigraphs (body ++ ending))

/-- The character that the text for the rest begins with. -/
def firstChar (triesc : Bool) : List Byte → Byte
  | [] => chr '"'
  | c :: _ => if (triesc = false ∧ c = chr '?') ∨ strchr lit c = true then c else chr '\\'

theorem firstChar_cons (triesc : Bool) (c : Byte) (data : List Byte) :
    firstChar triesc (c :: data) =
      if (triesc = false ∧ c = chr '?') ∨ strchr lit c = true then c else chr '\\' := rfl

theorem encodeLoop_cons (h : encodeLoop triesc (c :: data) = some text) :
    ∃ repl body, putByte triesc c = some repl ∧
      encodeLoop (nextTriesc triesc c) data = some body ∧ text = repl ++ body := by
  obtain ⟨repl, hrepl, hrest⟩ := Option.bind_eq_some_iff.mp h
  obtain ⟨body, hbody, htext⟩ := Option.bind_eq_some_iff.mp hrest
  exact ⟨repl, body, hrepl, hbody, (Option.some.inj htext).symm⟩

theorem putByte_first (h : putByte triesc c = some repl) :
    ∃ rest, repl = firstChar triesc (c :: data) :: rest := by
  unfold putByte at h
  rw [firstChar_cons]
  split at h
  · next hraw =>
    rw [if_pos hraw]
    exact ⟨[], (Option.some.inj h).symm⟩
  · next hraw =>
    rw [if_neg hraw]
    have hlit : strchr lit c = false := Bool.eq_false_iff.mpr fun h => hraw (Or.inr h)
    by_cases hhex : HexEscaped c
    · rw [(esc_hex c hhex).1] at h
      exact ⟨_, (Option.some.inj h).symm⟩
    · by_cases hascii : c < 128
      · rw [(esc_simple c ⟨hascii, hlit, hhex⟩).1] at h
        exact ⟨_, (Option.some.inj h).symm⟩
      · rw [(esc_none c hascii).2.1] at h
        cases h

theorem encodeLoop_first (h : encodeLoop triesc data = some body) :
    ∃ rest, body ++ ending = firstChar triesc data :: rest := by
  cases data with
  | nil =>
    obtain rfl := Option.some.inj h
    exact ⟨_, rfl⟩
  | cons c data =>
    obtain ⟨repl, body', hrepl, -, rfl⟩ := encodeLoop_cons h
    obtain ⟨rest, rfl⟩ := @putByte_first _ _ data _ hrepl
    exact ⟨rest ++ body' ++ ending, rfl⟩

theorem firstChar_true (data : List Byte) : firstChar true data ≠ chr '?' := by
  cases data with
  | nil => decide
  | cons c data =>
    rw [firstChar_cons]
    by_cases h : (true = false ∧ c = chr '?') ∨ strchr lit c = true
    · rw [if_pos h]
      rcases h with h | hlit
      · cases h.1
      · exact (lit_plain c hlit).2.1
    · rw [if_neg h]
      decide

theorem firstChar_mark (h : firstChar triesc data = chr '?') :
    triesc = false ∧ ∃ rest, data = chr '?' :: rest := by
  cases triesc with
  | true => exact absurd h (firstChar_true data)
  | false =>
    refine ⟨rfl, ?_⟩
    cases data with
    | nil => cases h
    | cons c data =>
      rw [firstChar_cons] at h
      split at h
      · exact ⟨data, by rw [h]⟩
      · cases h

/-- The first character is a digit, or can end a trigraph, if and only if the first byte is and
can. -/
theorem firstChar_iff {P : Byte → Prop} (hlit : ∀ c, P c → strchr lit c = true)
    (hquote : ¬ P (chr '"')) (hslash : ¬ P (chr '\\')) (triesc : Bool) (data : List Byte) :
    P (firstChar triesc data) ↔ ∃ d ∈ data.head?, P d := by
  cases data with
  | nil => exact ⟨fun h => absurd h hquote, fun ⟨_, h, _⟩ => by cases h⟩
  | cons c data =>
    rw [firstChar_cons]
    constructor
    · intro h
      split at h
      · exact ⟨c, rfl, h⟩
      · exact absurd h hslash
    · rintro ⟨d, hd, h⟩
      obtain rfl := Option.some.inj hd
      rw [if_pos (Or.inr (hlit c h))]
      exact h

theorem replaceTrigraphs_first (h : encodeLoop triesc data = some body) :
    ∃ rest, replaceTrigraphs (body ++ ending) = firstChar triesc data :: rest := by
  obtain ⟨rest, hrest⟩ := encodeLoop_first h
  rw [hrest]
  refine ⟨_, replaceTrigraphs_cons ?_⟩
  intro hmarks
  obtain ⟨rfl, data', rfl⟩ := firstChar_mark hmarks.1
  obtain ⟨repl, body', hrepl, hbody, rfl⟩ := encodeLoop_cons h
  obtain rfl : [chr '?'] = repl := Option.some.inj hrepl
  obtain ⟨rest', hrest'⟩ := encodeLoop_first hbody
  have hrest'' : rest = firstChar true data' :: rest' := by
    have hcons := (List.cons.inj hrest).2
    rw [← hcons]
    exact hrest'
  rw [hrest''] at hmarks
  exact firstChar_true data' (Option.some.inj hmarks.2)

theorem decoded_plain (hc : textStep c = some (.text, [c]))
    (hmark : ¬ (c = chr '?' ∧ (body ++ ending).head? = some (chr '?'))) :
    decoded (c :: body) = (decoded body).map (c :: ·) := by
  have hstep : step .text c = some (.text, [c]) := hc
  unfold decoded
  rw [List.cons_append, replaceTrigraphs_cons hmark]
  exact readFrom_cons hstep _

theorem decoded_escape {e : Byte} (he : step .escape e = some (.text, [c]))
    (hreplace : replaceTrigraphs (e :: (body ++ ending)) = e :: replaceTrigraphs (body ++ ending)) :
    decoded (chr '\\' :: e :: body) = (decoded body).map (c :: ·) := by
  have hstart : step .text (chr '\\') = some (.escape, []) := rfl
  unfold decoded
  rw [List.cons_append, List.cons_append, replaceTrigraphs_cons (fun h => absurd h.1 (by decide)),
    hreplace, readFrom_silent hstart]
  exact readFrom_cons he _

/-- After a hexadecimal escape the rest can still change its value. -/
theorem decoded_hex (h : HexEscaped c) :
    decoded ([chr '\\', chr 'x', escChar c 2, escChar c 3] ++ body) =
      readFrom (.hex c.toNat) (replaceTrigraphs (body ++ ending)) := by
  obtain ⟨-, hhigh, hlow, hfirst, hsecond⟩ := esc_hex c h
  have hstart : step .text (chr '\\') = some (.escape, []) := rfl
  have hx : step .escape (chr 'x') = some (.hexStart, []) := rfl
  have hdigit : step .hexStart (escChar c 2) = some (.hex (c.toNat / 16), []) := by
    rw [step, hfirst]
    rfl
  have hdigits : step (.hex (c.toNat / 16)) (escChar c 3) = some (.hex c.toNat, []) := by
    rw [step, hsecond]
    show some (LexState.hex (16 * (c.toNat / 16) + c.toNat % 16), _) = _
    rw [Nat.div_add_mod]
  show readFrom _ (replaceTrigraphs (chr '\\' :: chr 'x' :: escChar c 2 :: escChar c 3 ::
    (body ++ ending))) = _
  rw [replaceTrigraphs_cons (fun h => absurd h.1 (by decide)),
    replaceTrigraphs_cons (fun h => absurd h.1 (by decide)),
    replaceTrigraphs_cons (fun h => absurd h.1 hhigh),
    replaceTrigraphs_cons (fun h => absurd h.1 hlow), readFrom_silent hstart,
    readFrom_silent hx, readFrom_silent hdigit, readFrom_silent hdigits]

theorem map_cons_iff {x : Option (List Byte)} :
    x.map (c :: ·) = some (c :: data) ↔ x = some data := by
  constructor
  · intro h
    obtain ⟨data', hx, hdata⟩ := Option.map_eq_some_iff.mp h
    rw [hx, (List.cons.inj hdata).2]
  · intro h
    rw [h]
    rfl

end text

/-! ### The whole file -/

section file

variable {c : Byte} {before data : List Byte} {body text : Str}

def odd (before : List Byte) : Bool := marks before % 2 == 1

theorem marks_append (before : List Byte) (c : Byte) :
    marks (before ++ [c]) = if c = chr '?' then marks before + 1 else 0 := by
  unfold marks
  rw [List.reverse_append, List.reverse_singleton, List.singleton_append]
  by_cases h : c = chr '?'
  · rw [if_pos h, List.takeWhile_cons_of_pos (by rw [h]; rfl), List.length_cons]
  · rw [if_neg h, List.takeWhile_cons_of_neg (by simpa using h), List.length_nil]

theorem nextTriesc_odd (before : List Byte) (c : Byte) :
    nextTriesc (odd before) c = odd (before ++ [c]) := by
  unfold nextTriesc odd
  rw [marks_append]
  by_cases h : c = chr '?'
  · rw [if_pos h, if_pos h, odd_succ]
  · rw [if_neg h, if_neg h]
    rfl

theorem odd_eq_false : odd before = false ↔ marks before % 2 = 0 := by
  unfold odd
  rw [beq_eq_false_iff_ne]
  omega

/-- A byte of the plain characters is always kept. -/
theorem kept_lit (h : strchr lit c = true) : Kept before c data := by
  obtain ⟨-, hmark, hascii, hhex⟩ := lit_plain c h
  exact ⟨hascii, fun h => absurd h hhex, fun h => absurd h hmark⟩

theorem step_lit (h : strchr lit c = true) :
    decoded (c :: body) = some (c :: data) ↔ Kept before c data ∧ decoded body = some data := by
  obtain ⟨hplain, hmark, -⟩ := lit_plain c h
  rw [decoded_plain hplain fun h => hmark h.1, map_cons_iff]
  exact (and_iff_right (kept_lit h)).symm

theorem step_simple (h : c < 128 ∧ strchr lit c = false ∧ ¬ HexEscaped c) (hc : c ≠ chr '?') :
    decoded ([chr '\\', escChar c 1] ++ body) = some (c :: data) ↔
      Kept before c data ∧ decoded body = some data := by
  obtain ⟨-, hstep, hmark⟩ := esc_simple c h
  have hne : escChar c 1 ≠ chr '?' := fun he => hc ((decide_eq_decide.mp hmark).mp he)
  have hkept : Kept before c data :=
    ⟨h.1, fun hhex => absurd hhex h.2.2, fun hc' => absurd hc' hc⟩
  show decoded (chr '\\' :: escChar c 1 :: body) = _ ↔ _
  rw [decoded_escape hstep (replaceTrigraphs_cons fun he => hne he.1), map_cons_iff]
  exact (and_iff_right hkept).symm

theorem firstChar_hexDigit (triesc : Bool) (data : List Byte) :
    hexDigit (firstChar triesc data) ≠ none ↔ ∃ d ∈ data.head?, hexDigit d ≠ none :=
  @firstChar_iff (fun d => hexDigit d ≠ none) hexDigit_lit (by decide) (by decide) triesc data

theorem firstChar_trigraph (triesc : Bool) (data : List Byte) :
    CLiterals.trigraph (firstChar triesc data) ≠ none ↔
      ∃ d ∈ data.head?, CLiterals.trigraph d ≠ none :=
  @firstChar_iff (fun d => CLiterals.trigraph d ≠ none) trigraph_lit (by decide) (by decide)
    triesc data

theorem step_hex (h : HexEscaped c) {triesc : Bool} (hbody : encodeLoop triesc data = some body) :
    decoded ([chr '\\', chr 'x', escChar c 2, escChar c 3] ++ body) = some (c :: data) ↔
      Kept before c data ∧ decoded body = some data := by
  obtain ⟨-, hmark, hascii, hzero⟩ := hexEscaped_ne c h
  obtain ⟨rest, hrest⟩ := replaceTrigraphs_first hbody
  rw [decoded_hex h]
  by_cases hdigit : hexDigit (firstChar triesc data) = none
  · have hkept : Kept before c data := by
      refine ⟨hascii, ?_, fun hc => absurd hc hmark⟩
      intro _ d hd
      by_contra hne
      exact (firstChar_hexDigit triesc data).mpr ⟨d, hd, hne⟩ hdigit
    have hvalue : c.toNat ≤ 255 := Nat.le_of_lt_succ c.toNat_lt
    rw [hrest, readFrom_hex hvalue hdigit, ← hrest, UInt8.ofNat_toNat]
    show (decoded body).map (c :: ·) = _ ↔ _
    rw [map_cons_iff]
    exact (and_iff_right hkept).symm
  · constructor
    · intro hread
      obtain ⟨digit, hdigit⟩ := Option.ne_none_iff_exists'.mp hdigit
      have hstep : step (.hex c.toNat) (firstChar triesc data) =
          some (.hex (16 * c.toNat + digit), []) := by
        rw [step, hdigit]
      rw [hrest, readFrom_silent hstep] at hread
      obtain ⟨greater, rest', hge, hle, hout⟩ := readFrom_hex_ge hread
      have hvalue : c.toNat = greater := by
        rw [(List.cons.inj hout).1]
        exact UInt8.toNat_ofNat_of_lt (Nat.lt_succ_of_le hle)
      have hpos : c.toNat ≠ 0 := fun h0 => hzero (UInt8.toNat_inj.mp h0)
      omega
    · intro hkept
      obtain ⟨d, hd, hne⟩ := (firstChar_hexDigit triesc data).mp hdigit
      exact absurd (hkept.1.escape h d hd) hne

/-- A question mark after an even number of them is written as it is. -/
theorem step_mark (heven : odd before = false) (hbody : encodeLoop true data = some body) :
    decoded (chr '?' :: body) = some (chr '?' :: data) ↔
      Kept before (chr '?') data ∧ decoded body = some data := by
  obtain ⟨rest, hrest⟩ := encodeLoop_first hbody
  have hkept : Kept before (chr '?') data :=
    ⟨by decide, fun h => absurd h (by decide), fun _ _ _ _ _ => odd_eq_false.mp heven⟩
  have hplain : textStep (chr '?') = some (.text, [chr '?']) := rfl
  rw [decoded_plain hplain, map_cons_iff]
  · exact (and_iff_right hkept).symm
  · intro h
    rw [hrest] at h
    exact firstChar_true data (Option.some.inj h.2)

/-- The next one is escaped, but it can begin a trigraph with the one that follows. -/
theorem step_escaped (hodd : odd before = true) (hbody : encodeLoop false data = some body) :
    decoded (chr '\\' :: chr '?' :: body) = some (chr '?' :: data) ↔
      Kept before (chr '?') data ∧ decoded body = some data := by
  have hstep : step .escape (chr '?') = some (.text, [chr '?']) := rfl
  have hkept (h : ∀ x rest, data = chr '?' :: x :: rest → CLiterals.trigraph x = none) :
      Kept before (chr '?') data :=
    ⟨by decide, fun h => absurd h (by decide), fun _ x rest hx hne => absurd (h x rest hx) hne⟩
  obtain ⟨rest, hrest⟩ := encodeLoop_first hbody
  by_cases hfirst : firstChar false data = chr '?'
  · obtain ⟨-, data', rfl⟩ := firstChar_mark hfirst
    obtain ⟨repl, body', hrepl, hbody', rfl⟩ := encodeLoop_cons hbody
    obtain rfl : [chr '?'] = repl := Option.some.inj hrepl
    obtain ⟨rest', hrest'⟩ := encodeLoop_first hbody'
    have htext : [chr '?'] ++ body' ++ ending = chr '?' :: firstChar true data' :: rest' :=
      congrArg (chr '?' :: ·) hrest'
    cases htri : CLiterals.trigraph (firstChar true data') with
    | none =>
      rw [decoded_escape hstep, map_cons_iff]
      · refine (and_iff_right (hkept ?_)).symm
        intro x rest'' hx
        by_contra hne
        refine absurd htri ((firstChar_trigraph true data').mpr ⟨x, ?_, hne⟩)
        rw [(List.cons.inj hx).2]
        rfl
      · rw [htext]
        exact replaceTrigraphs_marks htri rest'
    | some r =>
      constructor
      · intro h
        exfalso
        have hstart : step .text (chr '\\') = some (.escape, []) := rfl
        unfold decoded at h
        rw [List.cons_append, List.cons_append, htext,
          replaceTrigraphs_cons (fun h => absurd h.1 (by decide)), replaceTrigraphs_some htri,
          readFrom_silent hstart] at h
        rcases trigraph_escape _ r htri with hnone | hslash
        · rw [readFrom_none hnone] at h
          cases h
        · rw [readFrom_cons hslash] at h
          obtain ⟨data'', _, hdata⟩ := Option.map_eq_some_iff.mp h
          exact absurd (List.cons.inj hdata).1 (by decide)
      · intro h
        obtain ⟨d, hd, hne⟩ := (firstChar_trigraph true data').mp fun h => by
          rw [h] at htri
          cases htri
        cases data' with
        | nil => cases hd
        | cons x rest'' =>
          obtain rfl := Option.some.inj hd
          have heven := h.1.trigraph rfl x rest'' rfl hne
          rw [odd_eq_false.mpr heven] at hodd
          cases hodd
  · have hmark : ¬ (chr '?' = chr '?' ∧ (body ++ ending).head? = some (chr '?')) := by
      intro h
      rw [hrest] at h
      exact hfirst (Option.some.inj h.2)
    rw [decoded_escape hstep (replaceTrigraphs_cons hmark), map_cons_iff]
    refine (and_iff_right (hkept ?_)).symm
    rintro x rest' rfl
    exact absurd rfl hfirst

theorem decoded_cons (h : encodeLoop (odd before) (c :: data) = some text) :
    ∃ body, encodeLoop (odd (before ++ [c])) data = some body ∧
      (decoded text = some (c :: data) ↔ Kept before c data ∧ decoded body = some data) := by
  obtain ⟨repl, body, hrepl, hbody, rfl⟩ := encodeLoop_cons h
  refine ⟨body, nextTriesc_odd before c ▸ hbody, ?_⟩
  unfold putByte at hrepl
  by_cases hlit : strchr lit c = true
  · rw [if_pos (Or.inr hlit)] at hrepl
    obtain rfl := Option.some.inj hrepl
    exact step_lit hlit
  by_cases hmark : c = chr '?'
  · subst hmark
    cases hodd : odd before with
    | false =>
      rw [hodd] at hrepl hbody
      obtain rfl : [chr '?'] = repl := Option.some.inj hrepl
      exact step_mark hodd hbody
    | true =>
      rw [hodd] at hrepl hbody
      obtain rfl : [chr '\\', chr '?'] = repl := Option.some.inj hrepl
      exact step_escaped hodd hbody
  · rw [if_neg fun hraw => hraw.elim (fun h => hmark h.2) hlit] at hrepl
    by_cases hhex : HexEscaped c
    · rw [(esc_hex c hhex).1] at hrepl
      obtain rfl := Option.some.inj hrepl
      exact step_hex hhex hbody
    by_cases hascii : c < 128
    · have hsimple : c < 128 ∧ strchr lit c = false ∧ ¬ HexEscaped c :=
        ⟨hascii, Bool.eq_false_iff.mpr hlit, hhex⟩
      rw [(esc_simple c hsimple).1] at hrepl
      obtain rfl := Option.some.inj hrepl
      exact step_simple hsimple hmark
    · rw [(esc_none c hascii).2.1] at hrepl
      cases hrepl

/-- What holds at each place of a list. -/
theorem forall_split_cons {P : List Byte → Byte → List Byte → Prop} :
    (∀ pre d post, c :: data = pre ++ d :: post → P pre d post) ↔
      P [] c data ∧ ∀ pre d post, data = pre ++ d :: post → P (c :: pre) d post := by
  constructor
  · intro h
    exact ⟨h [] c data rfl, fun pre d post hdata => h (c :: pre) d post (by rw [hdata]; rfl)⟩
  · intro h pre d post hdata
    cases pre with
    | nil =>
      obtain ⟨rfl, rfl⟩ := List.cons.inj hdata
      exact h.1
    | cons a pre =>
      obtain ⟨rfl, rfl⟩ := List.cons.inj hdata
      exact h.2 pre d post rfl

theorem decoded_iff (h : encodeLoop (odd before) data = some text) :
    decoded text = some data ↔
      ∀ pre c post, data = pre ++ c :: post → Kept (before ++ pre) c post := by
  induction data generalizing before text with
  | nil =>
    obtain rfl := Option.some.inj h
    refine ⟨fun _ pre c post hdata => ?_, fun _ => by decide⟩
    exact absurd hdata.symm (List.append_ne_nil_of_right_ne_nil pre (List.cons_ne_nil c post))
  | cons c data ih =>
    obtain ⟨body, hbody, hstep⟩ := decoded_cons h
    rw [hstep, ih hbody, forall_split_cons, List.append_nil]
    simp only [List.append_assoc, List.singleton_append]

theorem encodeLoop_defined (triesc : Bool) (h : ∀ c ∈ data, c < 128) :
    ∃ text, encodeLoop triesc data = some text := by
  induction data generalizing triesc with
  | nil => exact ⟨[], rfl⟩
  | cons c data ih =>
    obtain ⟨body, hbody⟩ := ih (nextTriesc triesc c) fun d hd => h d (List.mem_cons_of_mem c hd)
    obtain ⟨repl, hrepl⟩ : ∃ repl, putByte triesc c = some repl := by
      unfold putByte
      by_cases hraw : (triesc = false ∧ c = chr '?') ∨ strchr lit c = true
      · exact ⟨[c], if_pos hraw⟩
      rw [if_neg hraw]
      by_cases hhex : HexEscaped c
      · exact ⟨_, (esc_hex c hhex).1⟩
      · have hlit : strchr lit c = false := Bool.eq_false_iff.mpr fun h => hraw (Or.inr h)
        exact ⟨_, (esc_simple c ⟨h c List.mem_cons_self, hlit, hhex⟩).1⟩
    refine ⟨repl ++ body, ?_⟩
    show (putByte triesc c).bind _ = _
    rw [hrepl]
    show (encodeLoop (nextTriesc triesc c) data).bind _ = _
    rw [hbody]
    rfl

theorem readLiteral_bin2cstr (body : Str) :
    readLiteral (chr '"' :: (body ++ [chr '"', chr '\n'])) = decoded body := by
  unfold readLiteral
  rw [replaceTrigraphs_cons fun h => absurd h.1 (by decide)]
  rfl

/-- The text of a file is read as the bytes of the file in exactly one case. -/
theorem lossless_iff (data : List Byte) :
    (∃ text, bin2cstr data = some text ∧ readLiteral text = some data) ↔ Lossless data := by
  constructor
  · rintro ⟨text, htext, hread⟩
    obtain ⟨body, hbody, rfl⟩ := Option.map_eq_some_iff.mp htext
    rw [readLiteral_bin2cstr] at hread
    exact (@decoded_iff [] data body hbody).mp hread
  · intro h
    have hascii : ∀ c ∈ data, c < 128 := by
      intro c hc
      obtain ⟨before, after, hdata⟩ := List.append_of_mem hc
      exact (h before c after hdata).ascii
    obtain ⟨body, hbody⟩ := encodeLoop_defined false hascii
    refine ⟨_, by rw [bin2cstr, hbody]; rfl, ?_⟩
    rw [readLiteral_bin2cstr]
    exact (@decoded_iff [] data body hbody).mpr h

/-- The escape takes the digit that follows it. -/
theorem dollar_one_lost :
    bin2cstr (str "$1") = some (str "\"\\x241\"\n") ∧
      ¬ ∃ text, bin2cstr (str "$1") = some text ∧ readLiteral text = some (str "$1") := by
  have htext : bin2cstr (str "$1") = some (str "\"\\x241\"\n") := by decide +kernel
  refine ⟨htext, ?_⟩
  rw [htext]
  rintro ⟨text, heq, hread⟩
  obtain rfl := Option.some.inj heq
  exact absurd hread (by decide +kernel)

end file

end Swad.Bin2cstr
