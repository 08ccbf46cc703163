import Swad.PercentCoding
import Swad.StringPrograms
import Swad.Utf8Sequences

/-!
The scan that checks or sanitizes a string in place. It reads a lead byte, counts the bytes
that have to follow, and goes on behind them if they are there; otherwise it fails, or marks
the lead byte and goes on at the next one. It never gets behind the NUL of the string.
-/
namespace Swad.Utf8Scan

open Bytes TextCodecs StringPrograms PercentCoding Utf8Sequences

/-- A character is signed where it is converted to a number. -/
def toUnsigned (c : Byte) : UInt32 :=
  if c &&& 0x80 = 0 then c.toUInt32 else c.toUInt32 ||| 0xffffff00

/-- `while (x & 0x20) { x <<= 1; ++s; }`, for at most so many rounds. -/
def leadLoop : ℕ → UInt32 → ℕ → ℕ
  | rounds + 1, x, s => if x &&& 0x20 = 0 then s else leadLoop rounds (x <<< 1) (s + 1)
  | 0, _, s => s

/-- Whether so many continuation bytes stand from a place on. -/
def followLoop : ℕ → ℕ → Prog Bool
  | s + 1, i => do
    let c ← load i
    if isContinuation c then followLoop s (i + 1) else return false
  | 0, _ => return true

/-- The loop over the string. A string that is only checked is left at the first byte that is
wrong, and its characters are not reported then. -/
def checksanLoop (sanitize : Bool) : ℕ → ℕ → ℕ → ℤ → Prog (ℤ × Option ℕ)
  | rounds + 1, i, l, rc => do
    let c ← load i
    if c = 0 then return (rc, some l)
    else if c &&& 0x80 = 0 then checksanLoop sanitize rounds (i + 1) (l + 1) rc
    else if isBadLead c then
      if sanitize then do
        store i (chr '?')
        checksanLoop sanitize rounds (i + 1) (l + 1) (-1)
      else return (-1, none)
    else do
      let s := leadLoop 32 (toUnsigned c) 1
      let complete ← followLoop s (i + 1)
      if complete then checksanLoop sanitize rounds (i + 1 + s) (l + 1) rc
      else if sanitize then do
        store i (chr '?')
        checksanLoop sanitize rounds (i + 1) (l + 1) (-1)
      else return (-1, none)
  | 0, _, _, _ => fail .outside

def utf8Checksan (sanitize : Bool) : Prog (ℤ × Option ℕ) := fun m =>
  checksanLoop sanitize (m.length + 1) 0 0 0 m

def utf8Check : Prog (ℤ × Option ℕ) := utf8Checksan false

def utf8Sanitize : Prog (ℤ × Option ℕ) := utf8Checksan true

/-! ### What the scan does -/

theorem leadLoop_eq : ∀ c : Byte, c &&& 0x80 ≠ 0 → isBadLead c = false →
    leadLoop 32 (toUnsigned c) 1 = followers c := by
  apply byte_all
  decide +kernel

section runs

variable {m s t : List Byte} {i : ℕ} {c : Byte}

theorem followLoop_run (n : ℕ) (h : m.drop i = s ++ 0 :: t) :
    followLoop n i m = .ok (decide (n ≤ s.length ∧ (s.take n).all isContinuation = true), m) := by
  induction n generalizing i s with
  | zero =>
    rw [followLoop, decide_eq_true ⟨Nat.zero_le _, by rw [List.take_zero, List.all_nil]⟩]
    rfl
  | succ n ih =>
    rw [followLoop]
    cases s with
    | nil =>
      rw [bind_ok (load_run h), decide_eq_false fun hle => absurd hle.1 (by simp)]
      rfl
    | cons c s =>
      rw [bind_ok (load_run h)]
      by_cases hc : isContinuation c = true
      · have hnext : m.drop (i + 1) = s ++ 0 :: t := drop_add (s := [c]) h
        rw [if_pos hc, ih hnext]
        simp only [List.length_cons, Nat.succ_le_succ_iff, List.take_succ_cons, List.all_cons, hc,
          Bool.true_and]
      · rw [if_neg hc, decide_eq_false fun hall => hc ?_]
        · rfl
        · exact List.all_eq_true.mp hall.2 c (by rw [List.take_succ_cons]; exact List.mem_cons_self ..)

/-- What the scan makes of the rest of a string, behind a part that is done. -/
def outcome (sanitize : Bool) (l : ℕ) (rc : ℤ) (done s t : List Byte) :
    Except Fault ((ℤ × Option ℕ) × List Byte) :=
  if (checksan 0 s).valid || sanitize then
    .ok ((if (checksan 0 s).valid then rc else -1, some (l + (checksan 0 s).len)),
      done ++ (checksan 0 s).text ++ 0 :: t)
  else .ok ((-1, none), done ++ s ++ 0 :: t)

variable {sanitize : Bool} {l : ℕ} {rc : ℤ} {done chunk : List Byte}

theorem outcome_chunk (h : checksan 0 (chunk ++ s) =
      ⟨(checksan 0 s).valid, chunk ++ (checksan 0 s).text, (checksan 0 s).len + 1⟩) :
    outcome sanitize (l + 1) rc (done ++ chunk) s t = outcome sanitize l rc done (chunk ++ s) t := by
  have hlen : l + 1 + (checksan 0 s).len = l + ((checksan 0 s).len + 1) := by omega
  simp only [outcome, h, hlen, List.append_assoc]

theorem outcome_marked (h : checksan 0 (c :: s) = (checksan 0 s).cons (chr '?') false 1) :
    outcome true (l + 1) (-1) (done ++ [chr '?']) s t = outcome true l rc done (c :: s) t := by
  have hlen : l + 1 + (checksan 0 s).len = l + ((checksan 0 s).len + 1) := by omega
  simp only [outcome, h, Checked.cons, hlen, Bool.or_true, if_true, Bool.false_and, if_false,
    Bool.false_eq_true, List.append_assoc, List.cons_append, List.nil_append, ite_self]

theorem outcome_left (h : checksan 0 (c :: s) = (checksan 0 s).cons (chr '?') false 1) :
    outcome false l rc done (c :: s) t = .ok ((-1, none), done ++ (c :: s) ++ 0 :: t) := by
  simp only [outcome, h, Checked.cons, Bool.or_false, Bool.false_and, if_false,
    Bool.false_eq_true]

theorem checksan_badLead (hascii : ¬ c &&& 0x80 = 0) (hlead : isBadLead c = true) :
    checksan 0 (c :: s) = (checksan 0 s).cons (chr '?') false 1 := by
  rw [checksan, if_neg hascii, hlead, Bool.true_or, Bool.true_or, if_pos rfl]

/-- The bytes behind the first one are too few, or some is no continuation. -/
theorem checksan_incomplete (hascii : ¬ c &&& 0x80 = 0)
    (hcomplete : ¬ (followers c ≤ s.length ∧ (s.take (followers c)).all isContinuation = true)) :
    checksan 0 (c :: s) = (checksan 0 s).cons (chr '?') false 1 := by
  have hbad : (isBadLead c || followers c > s.length ||
      !(s.take (followers c)).all isContinuation) = true := by
    rw [Bool.or_eq_true, Bool.or_eq_true, decide_eq_true_eq, Bool.not_eq_true']
    by_cases hle : followers c ≤ s.length
    · right
      exact Bool.eq_false_iff.mpr fun hall => hcomplete ⟨hle, hall⟩
    · left
      right
      omega
  rw [checksan, if_neg hascii, if_pos hbad]

/-- A byte that is refused is marked, or ends the scan. -/
theorem mark_run {rounds : ℕ} (hbad : checksan 0 (c :: s) = (checksan 0 s).cons (chr '?') false 1)
    (hgo : checksanLoop sanitize rounds (done.length + 1) (l + 1) (-1)
        (done ++ ([chr '?'] ++ s) ++ 0 :: t) =
      outcome sanitize (l + 1) (-1) (done ++ [chr '?']) s t) :
    (if sanitize = true then do
        store done.length (chr '?')
        checksanLoop sanitize rounds (done.length + 1) (l + 1) (-1)
      else return (-1, none)) (done ++ c :: s ++ 0 :: t) =
        outcome sanitize l rc done (c :: s) t := by
  cases sanitize with
  | false =>
    rw [outcome_left hbad]
    rfl
  | true =>
    have hdrop : (done ++ c :: s ++ 0 :: t).drop done.length = c :: (s ++ 0 :: t) := by
      rw [List.append_assoc, List.drop_left, List.cons_append]
    have hset : (done ++ c :: s ++ 0 :: t).set done.length (chr '?') =
        done ++ ([chr '?'] ++ s) ++ 0 :: t := by
      simp [List.set_append_right]
    rw [if_pos rfl, bind_ok (store_run hdrop (chr '?')), hset, ← outcome_marked hbad]
    exact hgo

/-- The scan does to a string in memory what the check does to it as a text. -/
theorem checksanLoop_run (hs : (0 : Byte) ∉ s) {rounds : ℕ} (hrounds : s.length < rounds) :
    checksanLoop sanitize rounds done.length l rc (done ++ s ++ 0 :: t) =
      outcome sanitize l rc done s t := by
  induction hn : s.length using Nat.strong_induction_on generalizing s rounds done l rc with
  | _ n ih =>
    subst hn
    obtain ⟨rounds, rfl⟩ := Nat.exists_eq_succ_of_ne_zero (Nat.ne_of_gt (Nat.zero_lt_of_lt hrounds))
    have hdrop : (done ++ s ++ 0 :: t).drop done.length = s ++ 0 :: t := by
      rw [List.append_assoc, List.drop_left]
    rw [checksanLoop]
    cases s with
    | nil =>
      rw [bind_ok (load_run hdrop), if_pos rfl]
      rfl
    | cons c s =>
      obtain ⟨hc, hrest⟩ : c ≠ 0 ∧ (0 : Byte) ∉ s := by
        rw [List.mem_cons, not_or] at hs
        exact ⟨Ne.symm hs.1, hs.2⟩
      -- the scan goes on behind a chunk that is done
      have hgo : ∀ (chunk rest : List Byte) (l : ℕ) (rc : ℤ), chunk ≠ [] → (0 : Byte) ∉ rest →
          chunk.length + rest.length = s.length + 1 →
          checksanLoop sanitize rounds (done.length + chunk.length) l rc
            (done ++ (chunk ++ rest) ++ 0 :: t) = outcome sanitize l rc (done ++ chunk) rest t := by
        intro chunk rest l rc hne hnul hlength
        have hpos := List.length_pos_of_ne_nil hne
        rw [List.length_cons] at hrounds
        rw [← List.length_append, ← List.append_assoc done chunk]
        exact ih rest.length (by rw [List.length_cons]; omega) hnul (by omega) rfl
      have hone : ∀ b : Byte, [b] ≠ [] := fun b => List.cons_ne_nil b []
      have hmarked := hgo [chr '?'] s (l + 1) (-1) (hone _) hrest (Nat.add_comm 1 s.length)
      rw [bind_ok (load_run hdrop), if_neg hc]
      by_cases hascii : c &&& 0x80 = 0
      · have hchunk : checksan 0 ([c] ++ s) =
            ⟨(checksan 0 s).valid, [c] ++ (checksan 0 s).text, (checksan 0 s).len + 1⟩ :=
          checksan_ascii hascii s
        have hnext := hgo [c] s (l + 1) rc (hone c) hrest (Nat.add_comm 1 s.length)
        rw [outcome_chunk hchunk] at hnext
        rw [if_pos hascii]
        exact hnext
      rw [if_neg hascii]
      by_cases hlead : isBadLead c = true
      · rw [if_pos hlead]
        exact mark_run (checksan_badLead hascii hlead) hmarked
      have hgood := Bool.eq_false_iff.mpr hlead
      have hfollow : (done ++ (c :: s) ++ 0 :: t).drop (done.length + 1) = s ++ 0 :: t :=
        drop_add (s := [c]) hdrop
      rw [if_neg hlead, leadLoop_eq c hascii hgood, bind_ok (followLoop_run (followers c) hfollow)]
      by_cases hcomplete : followers c ≤ s.length ∧
          (s.take (followers c)).all isContinuation = true
      · have hchar : IsChar c (s.take (followers c)) :=
          ⟨hascii, hgood, List.length_take_of_le hcomplete.1, hcomplete.2⟩
        have hsplit : s.take (followers c) ++ s.drop (followers c) = s := List.take_append_drop _ _
        have hchunk : checksan 0 ((c :: s.take (followers c)) ++ s.drop (followers c)) = _ :=
          hchar.checksan (s.drop (followers c))
        have hnul : (0 : Byte) ∉ s.drop (followers c) := fun h => hrest (List.mem_of_mem_drop h)
        have hlength : (c :: s.take (followers c)).length + (s.drop (followers c)).length =
            s.length + 1 := by
          rw [List.length_cons, hchar.length, List.length_drop]
          omega
        have hnext := hgo _ _ (l + 1) rc (List.cons_ne_nil _ _) hnul hlength
        rw [outcome_chunk hchunk, List.cons_append, hsplit, List.length_cons, hchar.length,
          Nat.add_comm (followers c) 1, ← Nat.add_assoc] at hnext
        rw [decide_eq_true hcomplete, if_pos rfl]
        exact hnext
      · rw [decide_eq_false hcomplete, if_neg Bool.false_ne_true]
        exact mark_run (checksan_incomplete hascii hcomplete) hmarked

end runs

/-! ### Sequences -/

theorem ascii_iff : ∀ c : Byte, c &&& 0x80 = 0 ↔ c.toNat ≤ 0x7f := by
  apply byte_all
  decide +kernel

theorem isContinuation_iff : ∀ c : Byte, isContinuation c = true ↔ IsTail c := by
  unfold IsTail
  apply byte_all
  decide +kernel

/-- The lead bytes by their ranges. -/
theorem lead_iff : ∀ c : Byte, c &&& 0x80 ≠ 0 ∧ isBadLead c = false ↔
    0xc0 ≤ c.toNat ∧ c.toNat ≤ 0xf7 := by
  apply byte_all
  decide +kernel

theorem followers_eq : ∀ c : Byte, 0xc0 ≤ c.toNat → c.toNat ≤ 0xf7 →
    followers c = if c.toNat ≤ 0xdf then 1 else if c.toNat ≤ 0xef then 2 else 3 := by
  apply byte_all
  decide +kernel

section grammar

variable {c : Byte} {l s : List Byte}

theorem isChar_of_isSequence (h : IsSequence (c :: l)) (hc : ¬ c.toNat ≤ 0x7f) : IsChar c l := by
  have htails : l.all isContinuation = true :=
    List.all_eq_true.mpr fun b hb => (isContinuation_iff b).mpr (h.tails b hb)
  have hlength : 0xc0 ≤ c.toNat ∧ c.toNat ≤ 0xf7 ∧
      l.length = if c.toNat ≤ 0xdf then 1 else if c.toNat ≤ 0xef then 2 else 3 := by
    cases h with
    | one h => exact absurd h hc
    | two h1 h2 => exact ⟨h1, by omega, by rw [if_pos h2]; rfl⟩
    | three h1 h2 => exact ⟨by omega, by omega, by rw [if_neg (by omega), if_pos h2]; rfl⟩
    | four h1 h2 => exact ⟨by omega, h2, by rw [if_neg (by omega), if_neg (by omega)]; rfl⟩
  obtain ⟨hlow, hhigh, hlength⟩ := hlength
  obtain ⟨hbit, hgood⟩ := (lead_iff c).mpr ⟨hlow, hhigh⟩
  exact ⟨hbit, hgood, hlength.trans (followers_eq c hlow hhigh).symm, htails⟩

theorem isSequence_of_isChar (h : IsChar c l) : IsSequence (c :: l) := by
  obtain ⟨hlow, hhigh⟩ := (lead_iff c).mp ⟨h.high, h.lead⟩
  have hlength := h.length
  have htails : ∀ b ∈ l, IsTail b := fun b hb =>
    (isContinuation_iff b).mp (List.all_eq_true.mp h.follow b hb)
  rw [followers_eq c hlow hhigh] at hlength
  by_cases htwo : c.toNat ≤ 0xdf
  · rw [if_pos htwo] at hlength
    obtain ⟨b, rfl⟩ := List.length_eq_one_iff.mp hlength
    exact .two hlow htwo (htails b (by simp))
  rw [if_neg htwo] at hlength
  by_cases hthree : c.toNat ≤ 0xef
  · rw [if_pos hthree] at hlength
    obtain ⟨b, d, rfl⟩ := List.length_eq_two.mp hlength
    exact .three (by omega) hthree (htails b (by simp)) (htails d (by simp))
  · rw [if_neg hthree] at hlength
    obtain ⟨b, d, e, rfl⟩ := List.length_eq_three.mp hlength
    exact .four (by omega) hhigh (htails b (by simp)) (htails d (by simp)) (htails e (by simp))

/-- A complete sequence counts once, and stays as it is. -/
theorem checksan_sequence (h : IsSequence l) (s : List Byte) :
    checksan 0 (l ++ s) = ⟨(checksan 0 s).valid, l ++ (checksan 0 s).text, (checksan 0 s).len + 1⟩ := by
  cases l with
  | nil => exact absurd rfl h.ne_nil
  | cons c l =>
    by_cases hc : c.toNat ≤ 0x7f
    · have hnil : l = [] := by
        cases h with
        | one => rfl
        | two | three | four => omega
      rw [hnil]
      exact checksan_ascii ((ascii_iff c).mpr hc) s
    · exact (isChar_of_isSequence h hc).checksan s

/-- A byte at which no sequence starts is marked. -/
theorem checksan_stray (h : ∀ l after, IsSequence l → c :: s ≠ l ++ after) :
    0x7f < c.toNat ∧ checksan 0 (c :: s) = (checksan 0 s).cons (chr '?') false 1 := by
  have hc : ¬ c.toNat ≤ 0x7f := fun hc => h [c] s (.one hc) rfl
  have hbad : (isBadLead c || followers c > s.length ||
      !(s.take (followers c)).all isContinuation) = true := by
    by_contra hgood
    rw [Bool.not_eq_true, Bool.or_eq_false_iff, Bool.or_eq_false_iff, decide_eq_false_iff_not,
      Bool.not_eq_false'] at hgood
    obtain ⟨⟨hlead, hle⟩, hall⟩ := hgood
    have hchar : IsChar c (s.take (followers c)) :=
      ⟨fun hbit => hc ((ascii_iff c).mp hbit), hlead, List.length_take_of_le (by omega), hall⟩
    refine h _ (s.drop (followers c)) (isSequence_of_isChar hchar) ?_
    rw [List.cons_append, List.take_append_drop]
  refine ⟨by omega, ?_⟩
  rw [checksan, if_neg fun hbit => hc ((ascii_iff c).mp hbit), if_pos hbad]

/-- What is marked splits into as many sequences as are counted. -/
theorem splits_checksan (s : List Byte) :
    ∃ chunks, Splits (checksan 0 s).text chunks ∧ chunks.length = (checksan 0 s).len := by
  induction s using scan_induction with
  | nil => exact ⟨[], Splits.nil, rfl⟩
  | sequence l s hl ih =>
    obtain ⟨chunks, hsplits, hlength⟩ := ih
    rw [checksan_sequence hl]
    exact ⟨l :: chunks, hsplits.cons hl, congrArg (· + 1) hlength⟩
  | stray b s hstray ih =>
    obtain ⟨chunks, hsplits, hlength⟩ := ih
    rw [(checksan_stray hstray).2]
    exact ⟨[chr '?'] :: chunks, hsplits.cons (.one (by decide)), congrArg (· + 1) hlength⟩

theorem checksan_splits {chunks : List (List Byte)} (h : Splits s chunks) :
    checksan 0 s = ⟨true, s, chunks.length⟩ := by
  obtain ⟨rfl, hsequences⟩ := h
  induction chunks with
  | nil => rfl
  | cons l chunks ih =>
    obtain ⟨hl, hchunks⟩ := List.forall_mem_cons.mp hsequences
    rw [List.flatten_cons, checksan_sequence hl, ih hchunks]
    rfl

/-- The check fails exactly if something is marked. -/
theorem checksan_valid_iff (s : List Byte) : (checksan 0 s).valid = true ↔ (checksan 0 s).text = s := by
  induction s using scan_induction with
  | nil => exact iff_of_true rfl rfl
  | sequence l s hl ih =>
    rw [checksan_sequence hl]
    exact ih.trans (List.append_right_inj l).symm
  | stray b s hstray ih =>
    obtain ⟨hb, hchecked⟩ := checksan_stray hstray
    rw [hchecked]
    refine iff_of_false Bool.false_ne_true fun heq => ?_
    obtain ⟨rfl, -⟩ := List.cons.inj heq
    exact absurd hb (by decide)

theorem checksan_length_eq (s : List Byte) : (checksan 0 s).text.length = s.length := by
  induction s using scan_induction with
  | nil => rfl
  | sequence l s hl ih => rw [checksan_sequence hl, List.length_append, List.length_append, ih]
  | stray b s hstray ih =>
    rw [(checksan_stray hstray).2, List.length_cons, ← ih]
    rfl

/-- A byte stays exactly if it is part of a complete sequence. -/
theorem checksan_getElem? (s : List Byte) (i : ℕ) (hi : i < s.length) :
    (Covered s i → (checksan 0 s).text[i]? = s[i]?) ∧
      (¬ Covered s i → (checksan 0 s).text[i]? = some (chr '?')) := by
  induction s using scan_induction generalizing i with
  | nil => exact absurd hi (Nat.not_lt_zero i)
  | sequence l s hl ih =>
    rw [checksan_sequence hl, covered_sequence hl]
    by_cases hlt : i < l.length
    · refine ⟨fun _ => ?_, fun h => absurd (Or.inl hlt) h⟩
      rw [List.getElem?_append_left hlt, List.getElem?_append_left hlt]
    · rw [List.length_append] at hi
      obtain ⟨hkept, hmarked⟩ := ih (i - l.length) (by omega)
      rw [List.getElem?_append_right (by omega), List.getElem?_append_right (by omega)]
      refine ⟨fun h => hkept (h.resolve_left hlt).2, fun h => hmarked fun hcovered => h ?_⟩
      exact Or.inr ⟨by omega, hcovered⟩
  | stray b s hstray ih =>
    rw [(checksan_stray hstray).2, covered_stray hstray]
    cases i with
    | zero => exact ⟨fun h => absurd h.1 (Nat.lt_irrefl 0), fun _ => rfl⟩
    | succ i =>
      obtain ⟨hkept, hmarked⟩ := ih i (Nat.lt_of_succ_lt_succ hi)
      exact ⟨fun h => hkept h.2, fun h => hmarked fun hcovered => h ⟨Nat.succ_pos i, hcovered⟩⟩

end grammar

/-! ### The check -/

section results

variable {s : List Byte} (hs : (0 : Byte) ∉ s)
include hs

theorem utf8Checksan_run (sanitize : Bool) (t : List Byte) :
    utf8Checksan sanitize (s ++ 0 :: t) = outcome sanitize 0 0 [] s t := by
  have hrounds : s.length < (s ++ 0 :: t).length + 1 := by
    rw [List.length_append]
    omega
  have hrun : checksanLoop sanitize _ ([] : List Byte).length 0 0 ([] ++ s ++ 0 :: t) =
      outcome sanitize 0 0 [] s t := checksanLoop_run hs hrounds
  exact hrun

theorem utf8Check_splits {chunks : List (List Byte)} (h : Splits s chunks) (t : List Byte) :
    utf8Check (s ++ 0 :: t) = .ok ((0, some chunks.length), s ++ 0 :: t) := by
  rw [utf8Check, utf8Checksan_run hs, outcome, checksan_splits h]
  simp only [Bool.true_or, if_true, Nat.zero_add, List.nil_append]

theorem utf8Check_fails (h : ¬ ∃ chunks, Splits s chunks) (t : List Byte) :
    utf8Check (s ++ 0 :: t) = .ok ((-1, none), s ++ 0 :: t) := by
  have hinvalid : (checksan 0 s).valid = false := by
    rw [Bool.eq_false_iff]
    intro hvalid
    obtain ⟨chunks, hsplits, -⟩ := splits_checksan s
    rw [(checksan_valid_iff s).mp hvalid] at hsplits
    exact h ⟨chunks, hsplits⟩
  rw [utf8Check, utf8Checksan_run hs, outcome, hinvalid]
  rfl

theorem utf8Sanitize_run (t : List Byte) :
    utf8Sanitize (s ++ 0 :: t) = .ok ((if (checksan 0 s).valid then 0 else -1,
      some (checksan 0 s).len), (checksan 0 s).text ++ 0 :: t) := by
  rw [utf8Sanitize, utf8Checksan_run hs, outcome]
  simp only [Bool.or_true, if_true, Nat.zero_add, List.nil_append]

theorem zero_notMem_checksan : (0 : Byte) ∉ (checksan 0 s).text := by
  induction s using scan_induction with
  | nil => exact List.not_mem_nil
  | sequence l s hl ih =>
    rw [List.mem_append, not_or] at hs
    rw [checksan_sequence hl, List.mem_append, not_or]
    exact ⟨hs.1, ih hs.2⟩
  | stray b s hstray ih =>
    rw [List.mem_cons, not_or] at hs
    rw [(checksan_stray hstray).2]
    exact fun hmem => (List.mem_cons.mp hmem).elim (by decide) (ih hs.2)

end results

/-- The check accepts the strings that split into complete sequences, and counts these.
Well-formed strings are among them: those in which no sequence is overlong, a surrogate or
above the last character. -/
theorem utf8Check_accepts (s : List Byte) (hs : (0 : Byte) ∉ s) (t : List Byte) :
    (∀ chunks, Splits s chunks →
      utf8Check (s ++ 0 :: t) = .ok ((0, some chunks.length), s ++ 0 :: t) ∧
        ((∃ text : List Char, s = utf8 text) ↔ ∀ l ∈ chunks, Proper l)) ∧
    ((¬ ∃ chunks, Splits s chunks) →
      utf8Check (s ++ 0 :: t) = .ok ((-1, none), s ++ 0 :: t)) ∧
    ∀ text : List Char, s = utf8 text →
      utf8Check (s ++ 0 :: t) = .ok ((0, some text.length), s ++ 0 :: t) := by
  refine ⟨fun chunks h => ⟨utf8Check_splits hs h t, h.encoded_iff⟩, fun h => utf8Check_fails hs h t,
    ?_⟩
  rintro text rfl
  have hsplits := utf8Check_splits hs (splits_encoded text) t
  rwa [List.length_map] at hsplits

theorem utf8Check_accepts_umlaut :
    (∃ text : List Char, [0xc3, 0xa4] = utf8 text) ∧
      utf8Check ([0xc3, 0xa4] ++ [0]) = .ok ((0, some 1), [0xc3, 0xa4] ++ [0]) ∧
      utf8Check ([0xa4, 0xc3] ++ [0]) = .ok ((-1, none), [0xa4, 0xc3] ++ [0]) := by
  have hsplits : Splits [0xc3, 0xa4] [[0xc3, 0xa4]] :=
    Splits.nil.cons (.two (by decide) (by decide) ⟨by decide, by decide⟩)
  obtain ⟨haccepted, hwell⟩ := (utf8Check_accepts [0xc3, 0xa4] (by decide) []).1 _ hsplits
  refine ⟨hwell.mpr (List.forall_mem_singleton.mpr ⟨by decide, Or.inl (by decide)⟩), haccepted, ?_⟩
  refine (utf8Check_accepts [0xa4, 0xc3] (by decide) []).2.1 ?_
  rintro ⟨chunks, hchunks⟩
  have hfirst : ∀ l after, IsSequence l → [0xa4, 0xc3] ≠ l ++ after := by
    intro l after hl heq
    cases l with
    | nil => exact absurd rfl hl.ne_nil
    | cons b l =>
      obtain ⟨rfl, -⟩ := List.cons.inj heq
      exact hl.not_tail ⟨by decide, by decide⟩
  cases chunks with
  | nil => exact absurd hchunks.eq_flatten (List.cons_ne_nil _ _)
  | cons l chunks =>
    exact hfirst l _ (hchunks.sequences l (List.mem_cons_self ..)) hchunks.eq_flatten

/-- An overlong form, a surrogate and a number above the last character are accepted. -/
theorem ill_formed_accepted :
    (utf8Check [0xc1, 0x81, 0] = .ok ((0, some 1), [0xc1, 0x81, 0]) ∧
      ¬ ∃ text : List Char, [0xc1, 0x81] = utf8 text) ∧
    (utf8Check [0xed, 0xa0, 0x80, 0] = .ok ((0, some 1), [0xed, 0xa0, 0x80, 0]) ∧
      ¬ ∃ text : List Char, [0xed, 0xa0, 0x80] = utf8 text) ∧
    (utf8Check [0xf4, 0x90, 0x80, 0x80, 0] = .ok ((0, some 1), [0xf4, 0x90, 0x80, 0x80, 0]) ∧
      ¬ ∃ text : List Char, [0xf4, 0x90, 0x80, 0x80] = utf8 text) := by
  have hcase : ∀ l : List Byte, IsSequence l → (0 : Byte) ∉ l → ¬ Proper l →
      utf8Check (l ++ [0]) = .ok ((0, some 1), l ++ [0]) ∧ ¬ ∃ text : List Char, l = utf8 text := by
    intro l hl hnul himproper
    have hsplits := Splits.single hl
    refine ⟨utf8Check_splits hnul hsplits [], fun htext => himproper ?_⟩
    exact hsplits.encoded_iff.mp htext l (List.mem_singleton_self l)
  refine ⟨hcase [0xc1, 0x81] ?_ (by decide) ?_, hcase [0xed, 0xa0, 0x80] ?_ (by decide) ?_,
    hcase [0xf4, 0x90, 0x80, 0x80] ?_ (by decide) ?_⟩
  · exact .two (by decide) (by decide) ⟨by decide, by decide⟩
  · exact fun h => absurd h.shortest (by decide)
  · exact .three (by decide) (by decide) ⟨by decide, by decide⟩ ⟨by decide, by decide⟩
  · exact fun h => absurd h.scalar (by decide)
  · exact .four (by decide) (by decide) ⟨by decide, by decide⟩ ⟨by decide, by decide⟩
      ⟨by decide, by decide⟩
  · exact fun h => absurd h.scalar (by decide)

/-! ### The sanitized string -/

/-- The sanitized string is as long and is accepted; the bytes of complete sequences stay, and
every other byte becomes a question mark. Nothing behind the NUL is read. -/
theorem utf8Sanitize_result (s : List Byte) (hs : (0 : Byte) ∉ s) :
    ∃ (text : List Byte) (rc : ℤ) (len : ℕ),
      (∀ t, utf8Sanitize (s ++ 0 :: t) = .ok ((rc, some len), text ++ 0 :: t)) ∧
      text.length = s.length ∧ (0 : Byte) ∉ text ∧
      (∀ t, utf8Check (text ++ 0 :: t) = .ok ((0, some len), text ++ 0 :: t)) ∧
      (∀ i < s.length, (Covered s i → text[i]? = s[i]?) ∧
        (¬ Covered s i → text[i]? = some (chr '?'))) ∧
      (∀ (i : ℕ) (b : Byte), s[i]? = some b → b.toNat ≤ 0x7f → text[i]? = some b) ∧
      (rc = 0 ↔ text = s) ∧
      ∀ t, utf8Sanitize (text ++ 0 :: t) = .ok ((0, some len), text ++ 0 :: t) := by
  have hnul := zero_notMem_checksan hs
  obtain ⟨chunks, hsplits, hlength⟩ := splits_checksan s
  refine ⟨(checksan 0 s).text, if (checksan 0 s).valid then 0 else -1, (checksan 0 s).len,
    utf8Sanitize_run hs, checksan_length_eq s, hnul, ?_, checksan_getElem? s, ?_, ?_, ?_⟩
  · intro t
    rw [← hlength]
    exact utf8Check_splits hnul hsplits t
  · intro i b hb hascii
    obtain ⟨hi, -⟩ := List.getElem?_eq_some_iff.mp hb
    rw [(checksan_getElem? s i hi).1 (covered_of_ascii hb hascii), hb]
  · rw [← checksan_valid_iff]
    cases (checksan 0 s).valid <;> decide
  · intro t
    rw [utf8Sanitize_run hnul, checksan_splits hsplits, ← hlength]
    rfl

/-- A sequence that the string ends in is marked byte by byte. -/
theorem utf8Sanitize_result_truncated :
    ∃ (text : List Byte) (len : ℕ), text = str "a??b" ∧
      utf8Sanitize ([0x61, 0xe2, 0x82, 0x62] ++ [0]) = .ok ((-1, some len), text ++ [0]) ∧
      utf8Check (text ++ [0]) = .ok ((0, some len), text ++ [0]) := by
  obtain ⟨text, rc, len, hrun, -, -, hcheck, -⟩ :=
    utf8Sanitize_result [0x61, 0xe2, 0x82, 0x62] (by decide)
  have hresult : utf8Sanitize ([0x61, 0xe2, 0x82, 0x62] ++ [0]) =
      .ok ((-1, some 4), str "a??b" ++ [0]) := by
    decide +kernel
  have heq := Except.ok.inj ((hrun []).symm.trans hresult)
  obtain ⟨hrc, htext⟩ := Prod.mk.inj heq
  obtain ⟨rfl, -⟩ := Prod.mk.inj hrc
  exact ⟨text, len, List.append_cancel_right htext, hrun [], hcheck []⟩

end Swad.Utf8Scan
