import Swad.TextOutput

/-!
Decoding of form fields. The loop reads a slice of a string by positions and appends to a
growing text. It agrees with the decoding of forms, in which the digits of an escape may have
either case, exactly as long as no escape has a lower-case digit.
-/
namespace Swad.FormDecoding

open Bytes Util TextCodecs GrowingBuffer TextOutput PercentCoding

/-- The byte that the text at a position stands for, and the position behind it. -/
def decodeAt (s : List Byte) (inpos : ℕ) : Option (Byte × ℕ) :=
  s[inpos]?.bind fun c =>
    if c = chr '+' then some (chr ' ', inpos + 1)
    else if c = chr '%' ∧ 1 < s.length - (inpos + 1) then
      s[inpos + 1]?.bind fun d => s[inpos + 2]?.bind fun e =>
        if isHex d ∧ isHex e then some (hexVal e ||| hexVal d <<< 4, inpos + 3)
        else some (c, inpos + 1)
    else some (c, inpos + 1)

def urldecodeLoop (s : List Byte) : ℕ → ℕ → Buffer Byte → Option (Buffer Byte)
  | rounds + 1, inpos, out =>
    if inpos < s.length then
      (decodeAt s inpos).bind fun r =>
        (appendchr OUTCHUNK r.1 out).bind (urldecodeLoop s rounds r.2)
    else some out
  | 0, inpos, out => if inpos < s.length then none else some out

/-- The block that is returned. -/
def urldecode (s : List Byte) : Option (Buffer Byte) :=
  ((urldecodeLoop s s.length 0 (.alloc s.length)).bind (appendchr 1 0)).map fun out =>
    out.realloc out.pos

/-! ### The decoding of forms -/

/-- A hexadecimal digit of either case. -/
def isHexDigit (c : Byte) : Bool := isHex c || (chr 'a' ≤ c && c ≤ chr 'f')

def hexDigitVal (c : Byte) : ℕ :=
  if c ≤ chr '9' then (c - chr '0').toNat
  else if c ≤ chr 'F' then (c - chr 'A').toNat + 10
  else (c - chr 'a').toNat + 10

def decodeForm : List Byte → Str
  | c :: d :: e :: s =>
    if c = chr '%' ∧ isHexDigit d ∧ isHexDigit e then
      UInt8.ofNat (hexDigitVal d * 16 + hexDigitVal e) :: decodeForm s
    else decodePlain c :: decodeForm (d :: e :: s)
  | c :: s => decodePlain c :: decodeForm s
  | [] => []

/-- A text and one of its encodings: any byte may be escaped. -/
inductive Encodes : Str → Str → Prop
  | nil : Encodes [] []
  | plain {c : Byte} {t s : Str} : c ≠ chr '%' → c ≠ chr '+' → Encodes t s →
      Encodes (c :: t) (c :: s)
  | plus {t s : Str} : Encodes t s → Encodes (chr ' ' :: t) (chr '+' :: s)
  | escape {d e : Byte} {t s : Str} : isHexDigit d = true → isHexDigit e = true → Encodes t s →
      Encodes (UInt8.ofNat (hexDigitVal d * 16 + hexDigitVal e) :: t) (chr '%' :: d :: e :: s)

/-- Some escape has a digit that is a lower-case letter. -/
def LowerEscape (s : Str) : Prop :=
  ∃ before d e after, s = before ++ chr '%' :: d :: e :: after ∧ isHexDigit d = true ∧
    isHexDigit e = true ∧ ¬ (isHex d = true ∧ isHex e = true)

theorem isHexDigit_ne : ∀ c : Byte, isHexDigit c = true → c ≠ chr '%' := by
  apply byte_all
  decide +kernel

theorem isHexDigit_of_isHex {c : Byte} (h : isHex c = true) : isHexDigit c = true := by
  rw [isHexDigit, h, Bool.true_or]

theorem hexVal_lt : ∀ c : Byte, isHex c = true →
    (hexVal c).toNat < 16 ∧ hexDigitVal c = (hexVal c).toNat := by
  apply byte_all
  decide +kernel

/-- The two halves of an escaped byte. -/
theorem escaped_byte {d e : Byte} (hd : isHex d = true) (he : isHex e = true) :
    hexVal e ||| hexVal d <<< 4 = hexVal d * 16 + hexVal e ∧
      UInt8.ofNat (hexDigitVal d * 16 + hexDigitVal e) = hexVal d * 16 + hexVal e := by
  have hnibbles : ∀ x < 16, ∀ y < 16,
      UInt8.ofNat y ||| UInt8.ofNat x <<< 4 = UInt8.ofNat x * 16 + UInt8.ofNat y := by
    decide +kernel
  obtain ⟨hdlt, hdval⟩ := hexVal_lt d hd
  obtain ⟨helt, heval⟩ := hexVal_lt e he
  constructor
  · have h := hnibbles _ hdlt _ helt
    rwa [UInt8.ofNat_toNat, UInt8.ofNat_toNat] at h
  · rw [hdval, heval, UInt8.ofNat_add, UInt8.ofNat_mul, UInt8.ofNat_toNat, UInt8.ofNat_toNat]
    rfl

/-! ### The loop -/

theorem decodeAt_eq {s : List Byte} {inpos : ℕ} (h : inpos < s.length) :
    ∃ b next, decodeAt s inpos = some (b, next) ∧ inpos < next ∧
      decodeBytes (s.drop inpos) = b :: decodeBytes (s.drop next) := by
  have hdrop := List.drop_eq_getElem_cons h
  have hlength : (s.drop (inpos + 1)).length = s.length - (inpos + 1) := List.length_drop
  have hsecond : s[inpos + 1]? = (s.drop (inpos + 1))[0]? := by
    rw [List.getElem?_drop, Nat.add_zero]
  have hthird : s[inpos + 2]? = (s.drop (inpos + 1))[1]? := by rw [List.getElem?_drop]
  have hafter : s.drop (inpos + 3) = (s.drop (inpos + 1)).drop 2 := by rw [List.drop_drop]
  rw [decodeAt, List.getElem?_eq_getElem h, Option.bind_some, hsecond, hthird, ← hlength]
  generalize s[inpos] = c at hdrop ⊢
  by_cases hplus : c = chr '+'
  · refine ⟨chr ' ', inpos + 1, if_pos hplus, Nat.lt_succ_self _, ?_⟩
    rw [hdrop, decodeBytes_cons (by rw [hplus]; decide), decodePlain, if_pos hplus]
  rw [if_neg hplus]
  have hplain : decodePlain c = c := if_neg hplus
  by_cases hopen : c = chr '%' ∧ 1 < (s.drop (inpos + 1)).length
  · rw [if_pos hopen]
    rcases ht : s.drop (inpos + 1) with _ | ⟨d, _ | ⟨e, t⟩⟩
    · rw [ht] at hopen
      exact absurd hopen.2 (by decide)
    · rw [ht] at hopen
      exact absurd hopen.2 (by simp)
    · change ∃ b next, (if isHex d ∧ isHex e then _ else _) = some (b, next) ∧ _
      by_cases hhex : isHex d = true ∧ isHex e = true
      · refine ⟨_, inpos + 3, if_pos hhex, by omega, ?_⟩
        rw [hdrop, ht, hafter, ht, decodeBytes, if_pos ⟨hopen.1, hhex⟩,
          (escaped_byte hhex.1 hhex.2).1]
        rfl
      · refine ⟨c, inpos + 1, if_neg hhex, Nat.lt_succ_self _, ?_⟩
        rw [hdrop, ht, decodeBytes, if_neg fun h => hhex h.2, hplain]
  · rw [if_neg hopen]
    refine ⟨c, inpos + 1, rfl, Nat.lt_succ_self _, ?_⟩
    rw [hdrop]
    by_cases hpercent : c = chr '%'
    · rcases ht : s.drop (inpos + 1) with _ | ⟨d, _ | ⟨e, t⟩⟩
      · rw [decodeBytes, hplain]
        · intro d e s' h
          cases h
      · rw [decodeBytes, hplain]
        · intro d' e s' h
          cases h
      · rw [ht] at hopen
        exact absurd ⟨hpercent, by simp⟩ hopen
    · rw [decodeBytes_cons hpercent, hplain]

theorem emits_urldecodeLoop (s : List Byte) (rounds inpos : ℕ) (h : s.length ≤ inpos + rounds) :
    Emits (urldecodeLoop s rounds inpos) (decodeBytes (s.drop inpos)) := by
  induction rounds generalizing inpos with
  | zero =>
    intro out hout
    rw [urldecodeLoop, if_neg (by omega), List.drop_eq_nil_of_le (by omega)]
    exact emits_nothing hout
  | succ rounds ih =>
    intro out hout
    by_cases hlt : inpos < s.length
    · obtain ⟨b, next, hstep, hnext, hbytes⟩ := decodeAt_eq hlt
      rw [urldecodeLoop, if_pos hlt, hstep, Option.bind_some, hbytes]
      exact ((emits_chunk b).bind (ih next (by omega))) hout
    · rw [urldecodeLoop, if_neg hlt, List.drop_eq_nil_of_le (by omega)]
      exact emits_nothing hout

/-- The block is the text of the decoded bytes, with a NUL behind it. -/
theorem urldecode_cells (s : List Byte) :
    (urldecode s).map Buffer.cells = some ((decodeBytes s ++ [0]).map some) := by
  have hloop := emits_urldecodeLoop s s.length 0 (by omega)
  rw [urldecode, Option.map_map]
  exact hloop.cells_cut s.length 0

/-! ### Escapes with a lower-case digit -/

section agreement

variable {c d e : Byte} {s : Str}

theorem lowerEscape_cons (h : c ≠ chr '%') : LowerEscape (c :: s) ↔ LowerEscape s := by
  constructor
  · rintro ⟨before, d, e, after, heq, hescape⟩
    cases before with
    | nil => exact absurd (List.cons.inj heq).1 h
    | cons b before => exact ⟨before, d, e, after, (List.cons.inj heq).2, hescape⟩
  · rintro ⟨before, d, e, after, rfl, hescape⟩
    exact ⟨c :: before, d, e, after, rfl, hescape⟩

theorem lowerEscape_escape (hd : isHexDigit d = true) (he : isHexDigit e = true) :
    LowerEscape (chr '%' :: d :: e :: s) ↔ ¬ (isHex d = true ∧ isHex e = true) ∨ LowerEscape s := by
  have hskip : LowerEscape (d :: e :: s) ↔ LowerEscape s :=
    (lowerEscape_cons (isHexDigit_ne d hd)).trans (lowerEscape_cons (isHexDigit_ne e he))
  rw [← hskip]
  constructor
  · rintro ⟨before, d', e', after, heq, hd', he', hlower⟩
    cases before with
    | nil =>
      obtain ⟨hdd, htail⟩ := List.cons.inj (List.cons.inj heq).2
      obtain ⟨hee, -⟩ := List.cons.inj htail
      rw [hdd, hee]
      exact Or.inl hlower
    | cons b before => exact Or.inr ⟨before, d', e', after, (List.cons.inj heq).2, hd', he', hlower⟩
  · rintro (hlower | ⟨before, d', e', after, heq, hescape⟩)
    · exact ⟨[], d, e, s, rfl, hd, he, hlower⟩
    · exact ⟨chr '%' :: before, d', e', after, by rw [heq]; rfl, hescape⟩

theorem lowerEscape_other (h : ¬ (c = chr '%' ∧ isHexDigit d = true ∧ isHexDigit e = true)) :
    LowerEscape (c :: d :: e :: s) ↔ LowerEscape (d :: e :: s) := by
  constructor
  · rintro ⟨before, d', e', after, heq, hd', he', hlower⟩
    cases before with
    | nil =>
      obtain ⟨hc, htail⟩ := List.cons.inj heq
      obtain ⟨hdd, htail⟩ := List.cons.inj htail
      obtain ⟨hee, -⟩ := List.cons.inj htail
      rw [hc, hdd, hee] at h
      exact absurd ⟨rfl, hd', he'⟩ h
    | cons b before => exact ⟨before, d', e', after, (List.cons.inj heq).2, hd', he', hlower⟩
  · rintro ⟨before, d', e', after, heq, hescape⟩
    exact ⟨c :: before, d', e', after, congrArg (c :: ·) heq, hescape⟩

theorem decodeForm_escape (hd : isHexDigit d = true) (he : isHexDigit e = true) :
    decodeForm (chr '%' :: d :: e :: s) =
      UInt8.ofNat (hexDigitVal d * 16 + hexDigitVal e) :: decodeForm s := by
  rw [decodeForm, if_pos ⟨rfl, hd, he⟩]

theorem decodeForm_cons (h : c ≠ chr '%') : decodeForm (c :: s) = decodePlain c :: decodeForm s := by
  rcases s with _ | ⟨d, _ | ⟨e, s⟩⟩
  · rfl
  · rfl
  · rw [decodeForm, if_neg fun hc => h hc.1]

/-- Where an escape has a lower-case digit, three bytes stay that the decoding makes one of. -/
theorem decodeBytes_lower (hd : isHexDigit d = true) (he : isHexDigit e = true)
    (h : ¬ (isHex d = true ∧ isHex e = true)) :
    (decodeBytes (chr '%' :: d :: e :: s)).length = (decodeBytes s).length + 3 := by
  rw [decodeBytes, if_neg fun hc => h hc.2, decodeBytes_cons (isHexDigit_ne d hd),
    decodeBytes_cons (isHexDigit_ne e he)]
  rfl

end agreement

/-- The two decodings agree on a text exactly if no escape has a lower-case digit; otherwise
too many bytes are left. -/
theorem decode_agreement (s : Str) :
    (¬ LowerEscape s → decodeBytes s = decodeForm s) ∧
      (decodeForm s).length ≤ (decodeBytes s).length ∧
      (LowerEscape s → (decodeForm s).length < (decodeBytes s).length) := by
  have hshort : ∀ s : Str, s.length < 3 → ¬ LowerEscape s := by
    rintro s hs ⟨before, d, e, after, rfl, -⟩
    simp only [List.length_append, List.length_cons] at hs
    omega
  induction s using decodeForm.induct with
  | case1 c d e s hescape ih =>
    obtain ⟨rfl, hd, he⟩ := hescape
    obtain ⟨hagree, hle, hlt⟩ := ih
    rw [lowerEscape_escape hd he, decodeForm_escape hd he]
    by_cases hhex : isHex d = true ∧ isHex e = true
    · rw [decodeBytes, if_pos ⟨rfl, hhex⟩, (escaped_byte hhex.1 hhex.2).2, List.length_cons,
        List.length_cons]
      refine ⟨fun h => ?_, Nat.succ_le_succ hle, fun h => ?_⟩
      · rw [hagree fun hlower => h (Or.inr hlower)]
      · exact Nat.succ_lt_succ (hlt (h.resolve_left (not_not_intro hhex)))
    · rw [decodeBytes_lower hd he hhex, List.length_cons]
      refine ⟨fun h => absurd (Or.inl hhex) h, by omega, fun _ => by omega⟩
  | case2 c d e s hplain ih =>
    obtain ⟨hagree, hle, hlt⟩ := ih
    have hhex : ¬ (c = chr '%' ∧ isHex d = true ∧ isHex e = true) := fun h =>
      hplain ⟨h.1, isHexDigit_of_isHex h.2.1, isHexDigit_of_isHex h.2.2⟩
    rw [lowerEscape_other hplain, decodeForm, if_neg hplain, decodeBytes, if_neg hhex,
      List.length_cons, List.length_cons]
    refine ⟨fun h => ?_, Nat.succ_le_succ hle, fun h => Nat.succ_lt_succ (hlt h)⟩
    rw [hagree h]
  | case3 c s hs ih =>
    have hlen : (c :: s).length < 3 := by
      rcases s with _ | ⟨d, _ | ⟨e, s⟩⟩
      · exact Nat.lt_of_sub_eq_succ rfl
      · exact Nat.lt_of_sub_eq_succ rfl
      · exact (hs d e s rfl).elim
    have heq : decodeBytes (c :: s) = decodeForm (c :: s) := by
      rcases s with _ | ⟨d, _ | ⟨e, s⟩⟩
      · rfl
      · rfl
      · exact (hs d e s rfl).elim
    exact ⟨fun _ => heq, Nat.le_of_eq (congrArg List.length heq.symm),
      fun h => absurd h (hshort _ hlen)⟩
  | case4 => exact ⟨fun _ => rfl, le_rfl, fun h => absurd h (hshort [] (by decide))⟩

/-- The decoding undoes every encoding of every text. -/
theorem decodeForm_of_encodes {t s : Str} (h : Encodes t s) : decodeForm s = t := by
  induction h with
  | nil => rfl
  | @plain c t s hpercent hplus _ ih =>
    rw [decodeForm_cons hpercent, decodePlain, if_neg hplus, ih]
  | plus _ ih =>
    rw [decodeForm_cons (by decide), ih]
    rfl
  | escape hd he _ ih => rw [decodeForm_escape hd he, ih]

theorem urldecode_eq_decodeForm (s : Str) :
    (urldecode s).map Buffer.cells = some ((decodeForm s ++ [0]).map some) ↔ ¬ LowerEscape s := by
  obtain ⟨hagree, -, hlt⟩ := decode_agreement s
  rw [urldecode_cells]
  constructor
  · intro h hlower
    have hlength := congrArg List.length (Option.some.inj h)
    simp only [List.length_map, List.length_append] at hlength
    have hless := hlt hlower
    omega
  · intro h
    rw [hagree h]

/-- A text is decoded as a form is, and an encoded text is read back, exactly if no escape has
a digit that is a lower-case letter. -/
theorem urldecode_decodes_iff (s : Str) :
    ((urldecode s).map Buffer.cells = some ((decodeForm s ++ [0]).map some) ↔ ¬ LowerEscape s) ∧
    ∀ t, Encodes t s →
      ((urldecode s).map Buffer.cells = some ((t ++ [0]).map some) ↔ ¬ LowerEscape s) := by
  refine ⟨urldecode_eq_decodeForm s, fun t h => ?_⟩
  rw [← decodeForm_of_encodes h]
  exact urldecode_eq_decodeForm s

/-- An escape of the letter J is left as it is. -/
theorem lower_escape_kept :
    decodeForm (str "%4a") = str "J" ∧ Encodes (str "J") (str "%4a") ∧
      (urldecode (str "%4a")).map Buffer.cells = some ((str "%4a" ++ [0]).map some) ∧
      (urldecode (str "%4a")).map Buffer.cells ≠
        some ((decodeForm (str "%4a") ++ [0]).map some) := by
  have hencodes := Encodes.escape (d := chr '4') (e := chr 'a') rfl rfl Encodes.nil
  refine ⟨rfl, hencodes, rfl, ?_⟩
  rw [urldecode_cells]
  decide

end Swad.FormDecoding
