import Swad.Template

/-!
The encodings of parameters, and what undoes them. A byte that is percent-encoded is decoded
to itself, and none of the separators of a query occurs in an encoded text. The check for
UTF-8 accepts every sequence of encoded characters as it is, and counts them.
-/
namespace Swad.PercentCoding

open Bytes Util TextCodecs Template

/-! ### Percent-encoding -/

/-- A property of all bytes is checked for each of them. -/
theorem byte_all {P : Byte → Prop} (h : ∀ n < 256, P (UInt8.ofNat n)) (c : Byte) : P c := by
  have hc := h c.toNat c.toNat_lt_size
  rwa [UInt8.ofNat_toNat] at hc

/-- The two digits of an encoded byte. -/
theorem hexDigit_pair : ∀ c : Byte, isHex (hexDigit (c >>> 4)) = true ∧
    isHex (hexDigit (c &&& 15)) = true ∧
      hexVal (hexDigit (c >>> 4)) * 16 + hexVal (hexDigit (c &&& 15)) = c := by
  apply byte_all
  decide +kernel

theorem isUnreserved_plain : ∀ c : Byte, isUnreserved c = true →
    c ≠ chr '%' ∧ c ≠ chr '+' := by
  apply byte_all
  decide +kernel

theorem isUnreserved_hexDigit : ∀ c : Byte, isUnreserved (hexDigit (c >>> 4)) = true ∧
    isUnreserved (hexDigit (c &&& 15)) = true := by
  apply byte_all
  decide +kernel

theorem decodeBytes_cons {c : Byte} (h : c ≠ chr '%') (s : List Byte) :
    decodeBytes (c :: s) = decodePlain c :: decodeBytes s := by
  cases s with
  | nil => rfl
  | cons d s =>
    cases s with
    | nil => rfl
    | cons e s => rw [decodeBytes, if_neg fun hc => h hc.1]

def encodeByte (c : Byte) : Str :=
  if isUnreserved c then [c] else [chr '%', hexDigit (c >>> 4), hexDigit (c &&& 15)]

theorem urlencode_cons (c : Byte) (s : Str) : urlencode (c :: s) = encodeByte c ++ urlencode s :=
  List.flatMap_cons

theorem decodeBytes_encodeByte (c : Byte) (s : List Byte) :
    decodeBytes (encodeByte c ++ s) = c :: decodeBytes s := by
  unfold encodeByte
  by_cases h : isUnreserved c = true
  · obtain ⟨hpercent, hplus⟩ := isUnreserved_plain c h
    rw [if_pos h, List.singleton_append, decodeBytes_cons hpercent, decodePlain, if_neg hplus]
  · obtain ⟨hhigh, hlow, hvalue⟩ := hexDigit_pair c
    rw [if_neg h]
    show decodeBytes (chr '%' :: hexDigit (c >>> 4) :: hexDigit (c &&& 15) :: s) = _
    rw [decodeBytes, if_pos ⟨rfl, hhigh, hlow⟩, hvalue]

theorem decodeBytes_urlencode (s : Str) : decodeBytes (urlencode s) = s := by
  induction s with
  | nil => rfl
  | cons c s ih => rw [urlencode_cons, decodeBytes_encodeByte, ih]

/-- Decoding undoes encoding. -/
theorem urldecode_urlencode {s : Str} (h : (0 : Byte) ∉ s) : urldecode (urlencode s) = s := by
  rw [urldecode, decodeBytes_urlencode, cstr_eq_self h]

/-- An encoded text consists of unreserved bytes and percent signs. -/
theorem mem_urlencode {s : Str} {c : Byte} (h : c ∈ urlencode s) :
    isUnreserved c = true ∨ c = chr '%' := by
  obtain ⟨d, _, hc⟩ := List.mem_flatMap.mp h
  split at hc
  · next hd =>
    obtain rfl := List.mem_singleton.mp hc
    exact Or.inl hd
  · obtain ⟨hhigh, hlow⟩ := isUnreserved_hexDigit d
    rw [List.mem_cons, List.mem_cons, List.mem_singleton] at hc
    rcases hc with rfl | rfl | rfl
    · exact Or.inr rfl
    · exact Or.inl hhigh
    · exact Or.inl hlow

theorem notMem_urlencode {c : Byte} (hc : isUnreserved c = false) (hpercent : c ≠ chr '%')
    (s : Str) : c ∉ urlencode s := by
  intro h
  rcases mem_urlencode h with hu | rfl
  · rw [hc] at hu
    cases hu
  · exact hpercent rfl

/-! ### Characters -/

/-- The bytes of a text in UTF-8. -/
def utf8 (text : List Char) : Str := text.flatMap String.utf8EncodeChar

/-- A byte that starts a character, and the bytes that follow it. -/
structure IsChar (c : Byte) (l : List Byte) : Prop where
  high : c &&& 0x80 ≠ 0
  lead : isBadLead c = false
  length : l.length = followers c
  follow : l.all isContinuation = true

theorem checksan_skip (l s : List Byte) : checksan l.length (l ++ s) =
    ⟨(checksan 0 s).valid, l ++ (checksan 0 s).text, (checksan 0 s).len⟩ := by
  induction l with
  | nil => rfl
  | cons c l ih =>
    rw [List.length_cons, List.cons_append, checksan, ih]
    rfl

theorem IsChar.checksan {c : Byte} {l : List Byte} (h : IsChar c l) (s : List Byte) :
    checksan 0 (c :: (l ++ s)) =
      ⟨(checksan 0 s).valid, c :: (l ++ (checksan 0 s).text), (checksan 0 s).len + 1⟩ := by
  have htake : (l ++ s).take (followers c) = l := List.take_left' h.length
  have hlength : ¬ followers c > (l ++ s).length := by
    rw [List.length_append, h.length]
    omega
  have hgood : ¬ (isBadLead c || followers c > (l ++ s).length ||
      !((l ++ s).take (followers c)).all isContinuation) = true := by
    rw [h.lead, htake, h.follow, decide_eq_false hlength]
    decide
  rw [TextCodecs.checksan, if_neg h.high, if_neg hgood, ← h.length, checksan_skip]
  rfl

theorem checksan_ascii {c : Byte} (h : c &&& 0x80 = 0) (s : List Byte) :
    checksan 0 (c :: s) =
      ⟨(checksan 0 s).valid, c :: (checksan 0 s).text, (checksan 0 s).len + 1⟩ := by
  rw [checksan, if_pos h]
  rfl

/-! The bytes of the encoding, by the number of bytes of the character. -/

theorem ascii_high : ∀ n ≤ 0x7f, UInt8.ofNat n &&& 0x80 = 0 := by decide +kernel

theorem lead_two : ∀ n < 0x20, UInt8.ofNat (n + 0xc0) &&& 0x80 ≠ 0 ∧
    isBadLead (UInt8.ofNat (n + 0xc0)) = false ∧ followers (UInt8.ofNat (n + 0xc0)) = 1 := by
  decide +kernel

theorem lead_three : ∀ n < 0x10, UInt8.ofNat (n + 0xe0) &&& 0x80 ≠ 0 ∧
    isBadLead (UInt8.ofNat (n + 0xe0)) = false ∧ followers (UInt8.ofNat (n + 0xe0)) = 2 := by
  decide +kernel

theorem lead_four : ∀ n < 0x08, UInt8.ofNat (n + 0xf0) &&& 0x80 ≠ 0 ∧
    isBadLead (UInt8.ofNat (n + 0xf0)) = false ∧ followers (UInt8.ofNat (n + 0xf0)) = 3 := by
  decide +kernel

theorem follow_byte : ∀ n < 0x40, isContinuation (UInt8.ofNat (n + 0x80)) = true := by
  decide +kernel

/-- One character counts once, and stays as it is. -/
theorem checksan_char (c : Char) (s : List Byte) :
    checksan 0 (String.utf8EncodeChar c ++ s) = ⟨(checksan 0 s).valid,
      String.utf8EncodeChar c ++ (checksan 0 s).text, (checksan 0 s).len + 1⟩ := by
  have hmod : ∀ n, n % 0x40 < 0x40 := fun n => Nat.mod_lt n (by decide)
  unfold String.utf8EncodeChar
  dsimp only
  generalize c.val.toNat = v
  by_cases h1 : v ≤ 0x7f
  · rw [if_pos h1]
    exact checksan_ascii (ascii_high v h1) s
  rw [if_neg h1]
  by_cases h2 : v ≤ 0x7ff
  · rw [if_pos h2]
    obtain ⟨hhigh, hlead, hfollow⟩ := lead_two (v / 64 % 0x20) (Nat.mod_lt _ (by decide))
    have hchar : IsChar (UInt8.ofNat (v / 64 % 0x20 + 0xc0)) [UInt8.ofNat (v % 0x40 + 0x80)] := by
      refine ⟨hhigh, hlead, hfollow.symm, ?_⟩
      simp only [List.all_cons, List.all_nil, follow_byte _ (hmod v), Bool.and_true]
    exact hchar.checksan s
  rw [if_neg h2]
  by_cases h3 : v ≤ 0xffff
  · rw [if_pos h3]
    obtain ⟨hhigh, hlead, hfollow⟩ := lead_three (v / 4096 % 0x10) (Nat.mod_lt _ (by decide))
    have hchar : IsChar (UInt8.ofNat (v / 4096 % 0x10 + 0xe0))
        [UInt8.ofNat (v / 64 % 0x40 + 0x80), UInt8.ofNat (v % 0x40 + 0x80)] := by
      refine ⟨hhigh, hlead, hfollow.symm, ?_⟩
      simp only [List.all_cons, List.all_nil, follow_byte _ (hmod v),
        follow_byte _ (hmod (v / 64)), Bool.and_true]
    exact hchar.checksan s
  rw [if_neg h3]
  obtain ⟨hhigh, hlead, hfollow⟩ := lead_four (v / 262144 % 0x08) (Nat.mod_lt _ (by decide))
  have hchar : IsChar (UInt8.ofNat (v / 262144 % 0x08 + 0xf0))
      [UInt8.ofNat (v / 4096 % 0x40 + 0x80), UInt8.ofNat (v / 64 % 0x40 + 0x80),
        UInt8.ofNat (v % 0x40 + 0x80)] := by
    refine ⟨hhigh, hlead, hfollow.symm, ?_⟩
    simp only [List.all_cons, List.all_nil, follow_byte _ (hmod v), follow_byte _ (hmod (v / 64)),
      follow_byte _ (hmod (v / 4096)), Bool.and_true]
  exact hchar.checksan s

/-- Valid text passes the check unchanged, and its characters are counted. -/
theorem utf8Sanitize_utf8 (text : List Char) :
    utf8Sanitize (utf8 text) = ⟨true, utf8 text, text.length⟩ := by
  unfold utf8Sanitize utf8
  induction text with
  | nil => rfl
  | cons c text ih =>
    rw [List.flatMap_cons, checksan_char, ih]
    rfl

theorem zero_ne_ofNat {n : ℕ} (h : n % 256 ≠ 0) : (0 : Byte) ≠ UInt8.ofNat n := by
  intro heq
  have htoNat := congrArg UInt8.toNat heq
  rw [UInt8.toNat_ofNat'] at htoNat
  exact h htoNat.symm

/-- Only the character NUL has a NUL in its bytes. -/
theorem zero_notMem_utf8 {text : List Char} (h : '\x00' ∉ text) : (0 : Byte) ∉ utf8 text := by
  intro hmem
  obtain ⟨c, hc, hzero⟩ := List.mem_flatMap.mp hmem
  have hne : c.val.toNat ≠ 0 := by
    intro hval
    apply h
    have hnul : c = '\x00' := Char.ext (UInt32.toNat.inj hval)
    rwa [← hnul]
  unfold String.utf8EncodeChar at hzero
  dsimp only at hzero
  generalize c.val.toNat = v at hzero hne
  split at hzero
  · exact zero_ne_ofNat (by omega) (List.mem_singleton.mp hzero)
  split at hzero
  · simp only [List.mem_cons, List.not_mem_nil, or_false] at hzero
    rcases hzero with hzero | hzero
    all_goals exact zero_ne_ofNat (by omega) hzero
  split at hzero
  · simp only [List.mem_cons, List.not_mem_nil, or_false] at hzero
    rcases hzero with hzero | hzero | hzero
    all_goals exact zero_ne_ofNat (by omega) hzero
  · simp only [List.mem_cons, List.not_mem_nil, or_false] at hzero
    rcases hzero with hzero | hzero | hzero | hzero
    all_goals exact zero_ne_ofNat (by omega) hzero

end Swad.PercentCoding
