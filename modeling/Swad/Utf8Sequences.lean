import Mathlib.Algebra.Order.Ring.Int
import Mathlib.Data.List.Flatten

/-!
Sequences of bytes in the pattern of UTF-8: a lead byte tells how many continuation bytes
follow. A text splits into such sequences in one way at most. It is the encoding of some
characters exactly if every sequence is the shortest one of its code point, and the code
point is a character.
-/
namespace Swad.Utf8Sequences

/-- A continuation byte. -/
def IsTail (b : UInt8) : Prop := 0x80 ≤ b.toNat ∧ b.toNat ≤ 0xbf

inductive IsSequence : List UInt8 → Prop
  | one {a : UInt8} : a.toNat ≤ 0x7f → IsSequence [a]
  | two {a b : UInt8} : 0xc0 ≤ a.toNat → a.toNat ≤ 0xdf → IsTail b → IsSequence [a, b]
  | three {a b c : UInt8} : 0xe0 ≤ a.toNat → a.toNat ≤ 0xef → IsTail b → IsTail c →
      IsSequence [a, b, c]
  | four {a b c d : UInt8} : 0xf0 ≤ a.toNat → a.toNat ≤ 0xf7 → IsTail b → IsTail c → IsTail d →
      IsSequence [a, b, c, d]

/-- The number that the bits of a sequence spell. -/
def codePoint : List UInt8 → ℕ
  | [a] => a.toNat
  | [a, b] => a.toNat % 0x20 * 64 + b.toNat % 64
  | [a, b, c] => (a.toNat % 0x10 * 64 + b.toNat % 64) * 64 + c.toNat % 64
  | [a, b, c, d] =>
    ((a.toNat % 0x08 * 64 + b.toNat % 64) * 64 + c.toNat % 64) * 64 + d.toNat % 64
  | _ => 0

/-- The least number that needs so many bytes. -/
def least : ℕ → ℕ
  | 2 => 0x80
  | 3 => 0x800
  | 4 => 0x10000
  | _ => 0

/-- Neither overlong nor a surrogate nor above the last character. -/
structure Proper (l : List UInt8) : Prop where
  shortest : least l.length ≤ codePoint l
  scalar : (codePoint l).isValidChar

theorem IsSequence.ne_nil {l : List UInt8} (h : IsSequence l) : l ≠ [] := by
  cases h <;> exact List.cons_ne_nil _ _

/-- The first byte of a sequence decides about its length. -/
theorem IsSequence.unique {l l' s s' : List UInt8} (h : IsSequence l) (h' : IsSequence l')
    (heq : l ++ s = l' ++ s') : l = l' := by
  have hlength : l.length = l'.length := by
    cases h <;> cases h' <;> first
      | rfl
      | obtain ⟨rfl, -⟩ := List.cons.inj heq
        omega
  exact (List.append_inj heq hlength).1

/-- A continuation byte starts no sequence. -/
theorem IsSequence.not_tail {b : UInt8} {l : List UInt8} (h : IsSequence (b :: l)) : ¬ IsTail b := by
  rintro ⟨hlow, hhigh⟩
  cases h <;> omega

theorem IsSequence.tails {b : UInt8} {l : List UInt8} (h : IsSequence (b :: l)) :
    ∀ c ∈ l, IsTail c := by
  cases h <;> simp_all

/-! ### Characters -/

/-- The shortest sequence of a number. -/
def encode (v : ℕ) : List UInt8 :=
  if v ≤ 0x7f then [UInt8.ofNat v]
  else if v ≤ 0x7ff then [UInt8.ofNat (v / 64 % 0x20 + 0xc0), UInt8.ofNat (v % 0x40 + 0x80)]
  else if v ≤ 0xffff then
    [UInt8.ofNat (v / 4096 % 0x10 + 0xe0), UInt8.ofNat (v / 64 % 0x40 + 0x80),
      UInt8.ofNat (v % 0x40 + 0x80)]
  else
    [UInt8.ofNat (v / 262144 % 0x08 + 0xf0), UInt8.ofNat (v / 4096 % 0x40 + 0x80),
      UInt8.ofNat (v / 64 % 0x40 + 0x80), UInt8.ofNat (v % 0x40 + 0x80)]

theorem utf8EncodeChar_eq (c : Char) : String.utf8EncodeChar c = encode c.toNat := rfl

theorem ofNat_toNat_of_lt {n : ℕ} (h : n < 256) : (UInt8.ofNat n).toNat = n :=
  UInt8.toNat_ofNat_of_lt' h

theorem isTail_ofNat (n : ℕ) : IsTail (UInt8.ofNat (n % 0x40 + 0x80)) := by
  rw [IsTail, ofNat_toNat_of_lt (by omega)]
  omega

theorem isSequence_encode (v : ℕ) : IsSequence (encode v) := by
  unfold encode
  by_cases h1 : v ≤ 0x7f
  · rw [if_pos h1]
    refine .one ?_
    rwa [ofNat_toNat_of_lt (by omega)]
  rw [if_neg h1]
  by_cases h2 : v ≤ 0x7ff
  · rw [if_pos h2]
    refine .two ?_ ?_ (isTail_ofNat v) <;> rw [ofNat_toNat_of_lt (by omega)] <;> omega
  rw [if_neg h2]
  by_cases h3 : v ≤ 0xffff
  · rw [if_pos h3]
    refine .three ?_ ?_ (isTail_ofNat _) (isTail_ofNat v) <;>
      rw [ofNat_toNat_of_lt (by omega)] <;> omega
  · rw [if_neg h3]
    refine .four ?_ ?_ (isTail_ofNat _) (isTail_ofNat _) (isTail_ofNat v) <;>
      rw [ofNat_toNat_of_lt (by omega)] <;> omega

/-- The shortest sequence spells its number. -/
theorem codePoint_encode {v : ℕ} (h : v < 0x200000) : codePoint (encode v) = v := by
  unfold encode
  by_cases h1 : v ≤ 0x7f
  · rw [if_pos h1]
    exact ofNat_toNat_of_lt (by omega)
  rw [if_neg h1]
  by_cases h2 : v ≤ 0x7ff
  · rw [if_pos h2]
    simp only [codePoint]
    rw [ofNat_toNat_of_lt (by omega), ofNat_toNat_of_lt (by omega)]
    omega
  rw [if_neg h2]
  by_cases h3 : v ≤ 0xffff
  · rw [if_pos h3]
    simp only [codePoint]
    rw [ofNat_toNat_of_lt (by omega), ofNat_toNat_of_lt (by omega), ofNat_toNat_of_lt (by omega)]
    omega
  · rw [if_neg h3]
    simp only [codePoint]
    rw [ofNat_toNat_of_lt (by omega), ofNat_toNat_of_lt (by omega), ofNat_toNat_of_lt (by omega),
      ofNat_toNat_of_lt (by omega)]
    omega

theorem least_encode (v : ℕ) : least (encode v).length ≤ v := by
  unfold encode
  by_cases h1 : v ≤ 0x7f
  · rw [if_pos h1]
    exact Nat.zero_le v
  rw [if_neg h1]
  by_cases h2 : v ≤ 0x7ff
  · rw [if_pos h2]
    simp only [List.length_cons, List.length_nil, least]
    omega
  rw [if_neg h2]
  by_cases h3 : v ≤ 0xffff
  · rw [if_pos h3]
    simp only [List.length_cons, List.length_nil, least]
    omega
  · rw [if_neg h3]
    simp only [List.length_cons, List.length_nil, least]
    omega

theorem ofNat_eq {n : ℕ} {a : UInt8} (h : n = a.toNat) : UInt8.ofNat n = a := by
  rw [h, UInt8.ofNat_toNat]

/-- A sequence that is not overlong is the shortest one of its number. -/
theorem IsSequence.encode_codePoint {l : List UInt8} (h : IsSequence l)
    (hshortest : least l.length ≤ codePoint l) : encode (codePoint l) = l := by
  cases h with
  | @one a ha =>
    have hvalue : codePoint [a] = a.toNat := rfl
    rw [hvalue, encode, if_pos ha, UInt8.ofNat_toNat]
  | @two a b ha1 ha2 hb =>
    have hvalue : codePoint [a, b] = a.toNat % 0x20 * 64 + b.toNat % 64 := rfl
    have hleast : 0x80 ≤ codePoint [a, b] := hshortest
    obtain ⟨hb1, hb2⟩ := hb
    generalize codePoint [a, b] = v at hvalue hleast
    rw [encode, if_neg (by omega), if_pos (by omega), ofNat_eq (a := a) (by omega),
      ofNat_eq (a := b) (by omega)]
  | @three a b c ha1 ha2 hb hc =>
    have hvalue : codePoint [a, b, c] =
        (a.toNat % 0x10 * 64 + b.toNat % 64) * 64 + c.toNat % 64 := rfl
    have hleast : 0x800 ≤ codePoint [a, b, c] := hshortest
    obtain ⟨hb1, hb2⟩ := hb
    obtain ⟨hc1, hc2⟩ := hc
    generalize codePoint [a, b, c] = v at hvalue hleast
    rw [encode, if_neg (by omega), if_neg (by omega), if_pos (by omega),
      ofNat_eq (a := a) (by omega), ofNat_eq (a := b) (by omega), ofNat_eq (a := c) (by omega)]
  | @four a b c d ha1 ha2 hb hc hd =>
    have hvalue : codePoint [a, b, c, d] =
        ((a.toNat % 0x08 * 64 + b.toNat % 64) * 64 + c.toNat % 64) * 64 + d.toNat % 64 := rfl
    have hleast : 0x10000 ≤ codePoint [a, b, c, d] := hshortest
    obtain ⟨hb1, hb2⟩ := hb
    obtain ⟨hc1, hc2⟩ := hc
    obtain ⟨hd1, hd2⟩ := hd
    generalize codePoint [a, b, c, d] = v at hvalue hleast
    rw [encode, if_neg (by omega), if_neg (by omega), if_neg (by omega),
      ofNat_eq (a := a) (by omega), ofNat_eq (a := b) (by omega), ofNat_eq (a := c) (by omega),
      ofNat_eq (a := d) (by omega)]

/-- The sequences of characters are the proper ones. -/
theorem proper_iff {l : List UInt8} (h : IsSequence l) :
    Proper l ↔ ∃ c : Char, l = String.utf8EncodeChar c := by
  constructor
  · rintro ⟨hshortest, hscalar⟩
    refine ⟨Char.ofNatAux (codePoint l) hscalar, ?_⟩
    rw [utf8EncodeChar_eq]
    exact (h.encode_codePoint hshortest).symm
  · rintro ⟨c, rfl⟩
    rw [utf8EncodeChar_eq]
    have hlt : c.toNat < 0x200000 := by
      rcases c.valid with hlow | ⟨-, hhigh⟩
      · exact Nat.lt_trans hlow (by decide)
      · exact Nat.lt_trans hhigh (by decide)
    have hvalue := codePoint_encode hlt
    have hleast := least_encode c.toNat
    refine ⟨by rwa [hvalue], ?_⟩
    rw [hvalue]
    exact c.valid

/-! ### Splitting a text -/

/-- The sequences of a text, one behind the other. -/
structure Splits (s : List UInt8) (chunks : List (List UInt8)) : Prop where
  eq_flatten : s = chunks.flatten
  sequences : ∀ l ∈ chunks, IsSequence l

theorem Splits.nil : Splits [] [] := ⟨rfl, List.forall_mem_nil _⟩

theorem Splits.single {l : List UInt8} (h : IsSequence l) : Splits l [l] :=
  ⟨List.flatten_singleton.symm, List.forall_mem_singleton.mpr h⟩

theorem Splits.cons {l s : List UInt8} {chunks : List (List UInt8)} (hl : IsSequence l)
    (h : Splits s chunks) : Splits (l ++ s) (l :: chunks) :=
  ⟨by rw [List.flatten_cons, h.eq_flatten], List.forall_mem_cons.mpr ⟨hl, h.sequences⟩⟩

theorem Splits.inv {l s : List UInt8} {chunks : List (List UInt8)} (hl : IsSequence l)
    (h : Splits (l ++ s) chunks) : ∃ rest, chunks = l :: rest ∧ Splits s rest := by
  cases chunks with
  | nil =>
    have hnil := h.eq_flatten
    exact absurd (List.append_eq_nil_iff.mp hnil).1 hl.ne_nil
  | cons l' rest =>
    obtain ⟨hl', hrest⟩ := List.forall_mem_cons.mp h.sequences
    have heq := h.eq_flatten
    rw [List.flatten_cons] at heq
    obtain rfl := hl.unique hl' heq
    exact ⟨rest, rfl, List.append_cancel_left heq, hrest⟩

/-- A text splits in one way at most. -/
theorem Splits.unique {s : List UInt8} {chunks chunks' : List (List UInt8)} (h : Splits s chunks)
    (h' : Splits s chunks') : chunks = chunks' := by
  induction chunks generalizing s chunks' with
  | nil =>
    cases chunks' with
    | nil => rfl
    | cons l rest =>
      obtain ⟨hl, -⟩ := List.forall_mem_cons.mp h'.sequences
      have heq := h'.eq_flatten
      rw [h.eq_flatten] at heq
      exact absurd (List.append_eq_nil_iff.mp heq.symm).1 hl.ne_nil
  | cons l chunks ih =>
    obtain ⟨hl, hchunks⟩ := List.forall_mem_cons.mp h.sequences
    obtain rfl := h.eq_flatten
    obtain ⟨rest, rfl, hrest⟩ := h'.inv hl
    rw [ih ⟨rfl, hchunks⟩ hrest]

theorem splits_encoded (text : List Char) :
    Splits (text.flatMap String.utf8EncodeChar) (text.map String.utf8EncodeChar) := by
  induction text with
  | nil => exact Splits.nil
  | cons c text ih => exact Splits.cons (isSequence_encode c.toNat) ih

/-- A text that splits is the encoding of characters exactly if all its sequences are proper. -/
theorem Splits.encoded_iff {s : List UInt8} {chunks : List (List UInt8)} (h : Splits s chunks) :
    (∃ text : List Char, s = text.flatMap String.utf8EncodeChar) ↔ ∀ l ∈ chunks, Proper l := by
  constructor
  · rintro ⟨text, rfl⟩
    obtain rfl := h.unique (splits_encoded text)
    intro l hl
    obtain ⟨c, -, rfl⟩ := List.mem_map.mp hl
    exact (proper_iff (isSequence_encode c.toNat)).mpr ⟨c, rfl⟩
  · obtain ⟨rfl, hsequences⟩ := h
    intro hproper
    induction chunks with
    | nil => exact ⟨[], rfl⟩
    | cons l chunks ih =>
      obtain ⟨hl, hchunks⟩ := List.forall_mem_cons.mp hsequences
      obtain ⟨hpl, hpchunks⟩ := List.forall_mem_cons.mp hproper
      obtain ⟨c, rfl⟩ := (proper_iff hl).mp hpl
      obtain ⟨text, htext⟩ := ih hchunks hpchunks
      exact ⟨c :: text, by rw [List.flatten_cons, htext, List.flatMap_cons]⟩

/-! ### Bytes of complete sequences -/

/-- A text is read sequence by sequence, and a byte at which none starts by itself. -/
theorem scan_induction {motive : List UInt8 → Prop} (nil : motive [])
    (sequence : ∀ l s, IsSequence l → motive s → motive (l ++ s))
    (stray : ∀ b s, (∀ l after, IsSequence l → b :: s ≠ l ++ after) → motive s → motive (b :: s))
    (s : List UInt8) : motive s := by
  induction hn : s.length using Nat.strong_induction_on generalizing s with
  | _ n ih =>
    subst hn
    cases s with
    | nil => exact nil
    | cons b s =>
      by_cases hstart : ∃ l after, IsSequence l ∧ b :: s = l ++ after
      · obtain ⟨l, after, hl, heq⟩ := hstart
        have hpos := List.length_pos_iff.mpr hl.ne_nil
        have hlength := congrArg List.length heq
        rw [List.length_append] at hlength
        rw [heq]
        exact sequence l after hl (ih after.length (by omega) after rfl)
      · refine stray b s (fun l after hl heq => hstart ⟨l, after, hl, heq⟩) ?_
        exact ih s.length (Nat.lt_succ_self _) s rfl

/-- The byte at a place is part of a complete sequence. -/
def Covered (s : List UInt8) (i : ℕ) : Prop :=
  ∃ before l after, s = before ++ l ++ after ∧ IsSequence l ∧ before.length ≤ i ∧
    i < before.length + l.length

section covered

variable {l s : List UInt8} {b : UInt8} {i : ℕ}

/-- No sequence starts inside of another one. -/
theorem covered_sequence (hl : IsSequence l) :
    Covered (l ++ s) i ↔ i < l.length ∨ l.length ≤ i ∧ Covered s (i - l.length) := by
  constructor
  · rintro ⟨before, l', after, heq, hl', hle, hlt⟩
    rw [List.append_assoc] at heq
    rcases List.append_eq_append_iff.mp heq with ⟨u, rfl, rfl⟩ | ⟨w, hw, hrest⟩
    · rw [List.length_append] at hle hlt
      refine Or.inr ⟨by omega, u, l', after, (List.append_assoc u l' after).symm, hl', ?_, ?_⟩ <;>
        omega
    · cases before with
      | nil =>
        rw [List.nil_append] at hw
        subst hw
        obtain rfl := hl.unique hl' hrest.symm
        left
        rwa [List.length_nil, Nat.zero_add] at hlt
      | cons b before =>
        subst hw
        cases w with
        | nil =>
          rw [List.append_nil, List.length_cons] at *
          refine Or.inr ⟨hle, [], l', after, hrest.symm, hl', Nat.zero_le _, ?_⟩
          rw [List.length_nil]
          omega
        | cons c w =>
          have htail : IsTail c := hl.tails c (by simp)
          cases l' with
          | nil => exact absurd rfl hl'.ne_nil
          | cons c' l' =>
            obtain ⟨rfl, -⟩ := List.cons.inj hrest
            exact absurd htail hl'.not_tail
  · rintro (hlt | ⟨hle, before, l', after, rfl, hl', hle', hlt⟩)
    · exact ⟨[], l, s, rfl, hl, Nat.zero_le i, by rwa [List.length_nil, Nat.zero_add]⟩
    · refine ⟨l ++ before, l', after, by simp only [List.append_assoc], hl', ?_, ?_⟩ <;>
        rw [List.length_append] <;> omega

theorem covered_stray (hstray : ∀ l after, IsSequence l → b :: s ≠ l ++ after) :
    Covered (b :: s) i ↔ 0 < i ∧ Covered s (i - 1) := by
  constructor
  · rintro ⟨before, l, after, heq, hl, hle, hlt⟩
    cases before with
    | nil => exact absurd heq (hstray l after hl)
    | cons c before =>
      rw [List.length_cons] at hle hlt
      exact ⟨by omega, before, l, after, (List.cons.inj heq).2, hl, by omega, by omega⟩
  · rintro ⟨hpos, before, l, after, rfl, hl, hle, hlt⟩
    refine ⟨b :: before, l, after, rfl, hl, ?_, ?_⟩ <;> rw [List.length_cons] <;> omega

theorem covered_of_ascii (h : s[i]? = some b) (hb : b.toNat ≤ 0x7f) : Covered s i := by
  obtain ⟨hi, rfl⟩ := List.getElem?_eq_some_iff.mp h
  refine ⟨s.take i, [s[i]], s.drop (i + 1), ?_, .one hb, ?_, ?_⟩
  · rw [List.append_assoc, List.singleton_append, ← List.drop_eq_getElem_cons,
      List.take_append_drop]
  · exact List.length_take_le i s
  · rw [List.length_take_of_le (Nat.le_of_lt hi)]
    exact Nat.lt_succ_self i

end covered

end Swad.Utf8Sequences
