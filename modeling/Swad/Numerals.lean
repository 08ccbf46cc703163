import Swad.PercentCoding

/-!
The texts that the number reader of the C library takes for a number, and the value that it
gives them: blanks, a sign and, in base 16, a prefix may stand before the digits. A printed
number is its digits alone and is read back.
-/
namespace Swad.Numerals

open Bytes Util

/-- A number as it is written. -/
structure Numeral where
  blanks : Str
  sign : Str
  mark : Str
  digits : Str

def Numeral.text (self : Numeral) : Str := self.blanks ++ (self.sign ++ (self.mark ++ self.digits))

def valueOf (base : ℕ) (digits : Str) : ℕ := digits.foldl (fun v c => v * base + digitVal c) 0

def Numeral.value (base : ℕ) (self : Numeral) : ℕ := valueOf base self.digits

/-- A number that is not negative: a minus stands before zero only. -/
structure Numeral.Valid (base : ℕ) (numeral : Numeral) : Prop where
  blanks : ∀ c ∈ numeral.blanks, isspace c = true
  sign : numeral.sign = [] ∨ numeral.sign = [chr '+'] ∨ (numeral.sign = [chr '-'] ∧ numeral.value base = 0)
  mark : numeral.mark = [] ∨ (base = 16 ∧ ∃ x, numeral.mark = [chr '0', x] ∧ tolower x = chr 'x')
  some : numeral.digits ≠ []
  digits : ∀ c ∈ numeral.digits, digitVal c < base

/-- Digits and nothing else. -/
def Numeral.Plain (self : Numeral) : Prop := self.blanks = [] ∧ self.sign = [] ∧ self.mark = []

/-- What can stand behind a number without being read as part of it. -/
def Ends (rest : Str) : Prop := ∀ c ∈ rest.head?, digitVal c = 16 ∧ tolower c ≠ chr 'x'

section characters

theorem digit_plain : ∀ c : Byte, digitVal c < 16 →
    isspace c = false ∧ c ≠ chr '-' ∧ c ≠ chr '+' ∧ tolower c ≠ chr 'x' ∧ c ≠ chr '/' ∧
      c ≠ chr ':' ∧ c ≠ chr '.' := by
  apply PercentCoding.byte_all
  decide +kernel

theorem blank_plain : ∀ c : Byte, isspace c = true →
    c ≠ chr '/' ∧ c ≠ chr ':' ∧ c ≠ chr '.' := by
  apply PercentCoding.byte_all
  decide +kernel

theorem mark_plain : ∀ c : Byte, tolower c = chr 'x' →
    digitVal c = 16 ∧ c ≠ chr '/' ∧ c ≠ chr ':' ∧ c ≠ chr '.' := by
  apply PercentCoding.byte_all
  decide +kernel

theorem digitVal_digitChar : ∀ d < 16, digitVal (chr (Nat.digitChar d)) = d := by
  decide

end characters

section reading

variable {base : ℕ} {numeral : Numeral} {s rest : Str}

theorem sign_of_digit {c : Byte} (h : digitVal c < 16) (s : Str) :
    sign (c :: s) = (false, c :: s) := by
  obtain ⟨-, hminus, hplus, -⟩ := digit_plain c h
  rw [sign, if_neg hminus, if_neg hplus]

theorem skip0x_short (base : ℕ) (h : ∀ x ∈ s.head?, tolower x ≠ chr 'x') (c : Byte) :
    skip0x base (c :: s) = c :: s := by
  match s with
  | [] => rfl
  | [x] => rfl
  | x :: d :: s =>
    rw [skip0x, if_neg]
    exact fun hc => h x rfl hc.2.2.1

/-- Digits and what stands behind them are passed to the conversion as they are. -/
theorem skip0x_digits (hbase : base ≤ 16) {digits : Str} (hsome : digits ≠ [])
    (hdigits : ∀ c ∈ digits, digitVal c < base) (hrest : Ends rest) :
    skip0x base (digits ++ rest) = digits ++ rest := by
  cases digits with
  | nil => exact absurd rfl hsome
  | cons c digits =>
    apply skip0x_short
    intro x hx
    cases digits with
    | nil => exact (hrest x hx).2
    | cons d digits =>
      obtain rfl := Option.some.inj hx
      have hd := hdigits d (List.mem_cons_of_mem c List.mem_cons_self)
      exact (digit_plain d (by omega)).2.2.2.1

theorem skip0x_mark (hbase : base = 16) {x : Byte} (hx : tolower x = chr 'x') {digits : Str}
    (hsome : digits ≠ []) (hdigits : ∀ c ∈ digits, digitVal c < base) (rest : Str) :
    skip0x base (chr '0' :: x :: (digits ++ rest)) = digits ++ rest := by
  cases digits with
  | nil => exact absurd rfl hsome
  | cons d digits =>
    have hd := hdigits d List.mem_cons_self
    show (if base = 16 ∧ chr '0' = chr '0' ∧ tolower x = chr 'x' ∧ digitVal d < 16 then _ else _) = _
    rw [if_pos ⟨hbase, rfl, hx, by omega⟩]
    rfl

/-- The number behind blanks and the sign. -/
def unsigned (numeral : Numeral) (rest : Str) : Str := numeral.mark ++ (numeral.digits ++ rest)

theorem unsigned_head (hbase : base ≤ 16) (h : numeral.Valid base) (rest : Str) :
    ∃ c s, unsigned numeral rest = c :: s ∧ digitVal c < 16 := by
  unfold unsigned
  rcases h.mark with hmark | ⟨-, x, hmark, -⟩
  · rw [hmark]
    cases hdigits : numeral.digits with
    | nil => exact absurd hdigits h.some
    | cons c digits =>
      have hc := h.digits c (by rw [hdigits]; exact List.mem_cons_self)
      exact ⟨c, digits ++ rest, rfl, by omega⟩
  · rw [hmark]
    exact ⟨chr '0', _, rfl, by decide⟩

theorem skip0x_unsigned (hbase : base ≤ 16) (h : numeral.Valid base) (hrest : Ends rest) :
    skip0x base (unsigned numeral rest) = numeral.digits ++ rest := by
  unfold unsigned
  rcases h.mark with hmark | ⟨hsixteen, x, hmark, hx⟩
  · rw [hmark, List.nil_append]
    exact skip0x_digits hbase h.some h.digits hrest
  · rw [hmark]
    exact skip0x_mark hsixteen hx h.some h.digits rest

/-- Blanks and the sign are passed over. -/
theorem sign_numeral (hbase : base ≤ 16) (h : numeral.Valid base) (rest : Str) :
    ∃ minus, sign ((numeral.text ++ rest).dropWhile isspace) = (minus, unsigned numeral rest) ∧
      (minus = true → numeral.value base = 0) := by
  obtain ⟨c, s, hunsigned, hc⟩ := unsigned_head hbase h rest
  have htext : numeral.text ++ rest = numeral.blanks ++ (numeral.sign ++ unsigned numeral rest) := by
    unfold Numeral.text unsigned
    simp only [List.append_assoc]
  have hspace := (digit_plain c hc).1
  rw [htext]
  rcases h.sign with hsign | hsign | ⟨hsign, hzero⟩
  · rw [hsign, List.nil_append, hunsigned, dropWhile_stop h.blanks hspace, sign_of_digit hc]
    exact ⟨false, rfl, fun h => by cases h⟩
  · rw [hsign, List.singleton_append, dropWhile_stop h.blanks (by decide)]
    exact ⟨false, rfl, fun h => by cases h⟩
  · rw [hsign, List.singleton_append, dropWhile_stop h.blanks (by decide)]
    exact ⟨true, rfl, fun _ => hzero⟩

theorem digits_split (h : numeral.Valid base) (hbase : base ≤ 16) (hrest : Ends rest) :
    (numeral.digits ++ rest).takeWhile (fun c => digitVal c < base) = numeral.digits ∧
      (numeral.digits ++ rest).dropWhile (fun c => digitVal c < base) = rest := by
  have hall : ∀ c ∈ numeral.digits, decide (digitVal c < base) = true :=
    fun c hc => decide_eq_true (h.digits c hc)
  rw [List.takeWhile_append_of_pos hall, List.dropWhile_append_of_pos hall]
  cases rest with
  | nil => exact ⟨by rw [List.takeWhile_nil, List.append_nil], rfl⟩
  | cons c rest =>
    have hc : ¬ decide (digitVal c < base) = true := by
      have := (hrest c rfl).1
      rw [decide_eq_true_eq]
      omega
    have htake := List.takeWhile_cons_of_neg (p := fun c => decide (digitVal c < base)) (l := rest) hc
    have hdrop := List.dropWhile_cons_of_neg (p := fun c => decide (digitVal c < base)) (l := rest) hc
    exact ⟨by rw [htake, List.append_nil], hdrop⟩

theorem foldl_cast (base : ℕ) (digits : Str) (v : ℕ) :
    digits.foldl (fun (v : ℤ) c => v * base + digitVal c) v =
      (digits.foldl (fun v c => v * base + digitVal c) v : ℕ) := by
  induction digits generalizing v with
  | nil => rfl
  | cons c digits ih =>
    rw [List.foldl_cons, List.foldl_cons, ← ih]
    congr 1

/-- A number is read up to its end. -/
theorem strtol_numeral (hbase : base ≤ 16) (h : numeral.Valid base) (hrest : Ends rest)
    (hvalue : (numeral.value base : ℤ) ≤ LLONG_MAX) :
    strtol base (numeral.text ++ rest) = ⟨numeral.value base, rest, false⟩ := by
  obtain ⟨minus, hsign, hminus⟩ := sign_numeral hbase h rest
  obtain ⟨htake, hdrop⟩ := digits_split h hbase hrest
  have hmax : (0 : ℤ) ≤ LLONG_MAX ∧ LLONG_MIN ≤ 0 := by decide
  have hcast := foldl_cast base numeral.digits 0
  unfold strtol
  rw [hsign]
  dsimp only
  rw [skip0x_unsigned hbase h hrest, htake, hdrop, if_neg h.some]
  have hsigned : (if minus = true then
        -numeral.digits.foldl (fun (v : ℤ) c => v * base + digitVal c) 0
      else numeral.digits.foldl (fun (v : ℤ) c => v * base + digitVal c) 0) =
        (numeral.value base : ℤ) := by
    have hvalueOf : numeral.digits.foldl (fun (v : ℤ) c => v * base + digitVal c) 0 =
        (numeral.value base : ℤ) := hcast
    rw [hvalueOf]
    split
    · next hm =>
      rw [hminus hm]
      rfl
    · rfl
  rw [hsigned, Int.min_eq_right hvalue, Int.max_eq_right (by omega)]
  congr 1
  rw [Bool.or_eq_false_iff, decide_eq_false_iff_not, decide_eq_false_iff_not]
  omega

theorem sign_split (s : Str) :
    ∃ text, s = text ++ (sign s).2 ∧
      (text = [] ∧ (sign s).1 = false ∨ text = [chr '+'] ∧ (sign s).1 = false ∨
        text = [chr '-'] ∧ (sign s).1 = true) := by
  cases s with
  | nil => exact ⟨[], rfl, Or.inl ⟨rfl, rfl⟩⟩
  | cons c s =>
    by_cases hminus : c = chr '-'
    · rw [sign, if_pos hminus, hminus]
      exact ⟨[chr '-'], rfl, Or.inr (Or.inr ⟨rfl, rfl⟩)⟩
    by_cases hplus : c = chr '+'
    · rw [sign, if_neg hminus, if_pos hplus, hplus]
      exact ⟨[chr '+'], rfl, Or.inr (Or.inl ⟨rfl, rfl⟩)⟩
    · rw [sign, if_neg hminus, if_neg hplus]
      exact ⟨[], rfl, Or.inl ⟨rfl, rfl⟩⟩

theorem skip0x_split (base : ℕ) (s : Str) :
    ∃ mark, s = mark ++ skip0x base s ∧
      (mark = [] ∨ (base = 16 ∧ ∃ x, mark = [chr '0', x] ∧ tolower x = chr 'x')) := by
  match s with
  | [] => exact ⟨[], rfl, Or.inl rfl⟩
  | [z] => exact ⟨[], rfl, Or.inl rfl⟩
  | [z, x] => exact ⟨[], rfl, Or.inl rfl⟩
  | z :: x :: d :: s =>
    rw [skip0x]
    by_cases h : base = 16 ∧ z = chr '0' ∧ tolower x = chr 'x' ∧ digitVal d < 16
    · rw [if_pos h, h.2.1]
      exact ⟨[chr '0', x], rfl, Or.inr ⟨h.1, x, rfl, h.2.2.1⟩⟩
    · rw [if_neg h]
      exact ⟨[], rfl, Or.inl rfl⟩

/-- What is read is a number that is not negative, and the text is the number and the rest. -/
theorem numeral_of_strtol (hread : (strtol base s).rest ≠ s) (herange : (strtol base s).erange = false)
    (hpos : 0 ≤ (strtol base s).value) :
    ∃ numeral : Numeral, numeral.Valid base ∧ s = numeral.text ++ (strtol base s).rest ∧
      (strtol base s).value = numeral.value base := by
  obtain ⟨signText, hsign, hminus⟩ := sign_split (s.dropWhile isspace)
  obtain ⟨mark, hmark, hmarks⟩ := skip0x_split base (sign (s.dropWhile isspace)).2
  have hcast := foldl_cast base ((skip0x base (sign (s.dropWhile isspace)).2).takeWhile
    fun c => digitVal c < base) 0
  unfold strtol at hread herange hpos ⊢
  dsimp only at hread herange hpos ⊢
  generalize hdigits : (skip0x base (sign (s.dropWhile isspace)).2).takeWhile
    (fun c => digitVal c < base) = digits at *
  by_cases hnone : digits = []
  · rw [if_pos hnone] at hread
    exact absurd rfl hread
  rw [if_neg hnone] at herange hpos ⊢
  dsimp only at herange hpos ⊢
  obtain ⟨hlow, hhigh⟩ := Bool.or_eq_false_iff.mp herange
  rw [decide_eq_false_iff_not] at hlow hhigh
  have hvalue : digits.foldl (fun (v : ℤ) c => v * base + digitVal c) 0 = valueOf base digits := hcast
  rw [hvalue] at hlow hhigh hpos ⊢
  rw [Int.min_eq_right (by omega), Int.max_eq_right (by omega)] at hpos ⊢
  have hzero : (sign (s.dropWhile isspace)).1 = true → valueOf base digits = 0 := by
    intro hm
    rw [if_pos hm] at hpos
    omega
  refine ⟨⟨s.takeWhile isspace, signText, mark, digits⟩, ⟨?_, ?_, hmarks, hnone, ?_⟩, ?_, ?_⟩
  · exact fun c hc => List.mem_takeWhile_imp hc
  · rcases hminus with h | h | h
    · exact Or.inl h.1
    · exact Or.inr (Or.inl h.1)
    · exact Or.inr (Or.inr ⟨h.1, hzero h.2⟩)
  · intro c hc
    rw [← hdigits] at hc
    have hlt := List.mem_takeWhile_imp (p := fun c => decide (digitVal c < base)) hc
    exact of_decide_eq_true hlt
  · rw [Numeral.text]
    simp only [List.append_assoc]
    rw [← hdigits, List.takeWhile_append_dropWhile, ← hmark, ← hsign,
      List.takeWhile_append_dropWhile]
  · show (if (sign (s.dropWhile isspace)).1 = true then -(valueOf base digits : ℤ)
      else (valueOf base digits : ℤ)) = valueOf base digits
    split
    · next hm =>
      rw [hzero hm]
      rfl
    · rfl

end reading

section printing

variable {base : ℕ}

/-- The digits of a number, as they are printed. -/
def printed (base n : ℕ) : Numeral := ⟨[], [], [], (Nat.toDigits base n).map chr⟩

theorem valueOf_append (base : ℕ) (s : Str) (c : Byte) :
    valueOf base (s ++ [c]) = valueOf base s * base + digitVal c := by
  unfold valueOf
  rw [List.foldl_append]
  rfl

theorem printed_spec (hbase : 2 ≤ base) (hle : base ≤ 16) (n : ℕ) :
    valueOf base ((Nat.toDigits base n).map chr) = n ∧
      ∀ c ∈ (Nat.toDigits base n).map chr, digitVal c < base := by
  induction n using Nat.strongRecOn with
  | ind n ih =>
    rw [Nat.toDigits_eq_if hbase]
    by_cases hlt : n < base
    · have hdigit := digitVal_digitChar n (by omega)
      rw [if_pos hlt, List.map_singleton]
      constructor
      · show 0 * base + digitVal (chr (Nat.digitChar n)) = n
        omega
      · intro c hc
        rw [List.mem_singleton.mp hc, hdigit]
        exact hlt
    · have hmod := Nat.mod_lt n (show 0 < base by omega)
      have hdigit := digitVal_digitChar (n % base) (by omega)
      obtain ⟨hvalue, hall⟩ := ih (n / base) (Nat.div_lt_self (by omega) hbase)
      rw [if_neg hlt, List.map_append, List.map_singleton]
      constructor
      · rw [valueOf_append, hvalue, hdigit, Nat.mul_comm]
        exact Nat.div_add_mod n base
      · intro c hc
        rcases List.mem_append.mp hc with hc | hc
        · exact hall c hc
        · rw [List.mem_singleton.mp hc, hdigit]
          exact hmod

theorem printed_valid (hbase : 2 ≤ base) (hle : base ≤ 16) (n : ℕ) :
    (printed base n).Valid base ∧ (printed base n).value base = n := by
  obtain ⟨hvalue, hall⟩ := printed_spec hbase hle n
  refine ⟨⟨fun c hc => (by cases hc), Or.inl rfl, Or.inl rfl, ?_, hall⟩, hvalue⟩
  intro hnil
  exact Nat.toDigits_ne_nil (List.map_eq_nil_iff.mp hnil)

theorem printed_plain (base n : ℕ) : (printed base n).Plain := ⟨rfl, rfl, rfl⟩

theorem printed_length (hbase : 2 ≤ base) {n k : ℕ} (hk : 0 < k) (h : n < base ^ k) :
    (printed base n).text.length ≤ k := by
  show (List.map chr (Nat.toDigits base n)).length ≤ k
  rw [List.length_map]
  exact (Nat.length_toDigits_le_iff hbase hk).mpr h

end printing

end Swad.Numerals
