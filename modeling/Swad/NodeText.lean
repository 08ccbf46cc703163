import Swad.Proxylist

/-!
What is read off the text of an entry. A backslash takes the next byte as it is, quotes are
dropped, and brackets around the text limit it; then a single colon separates a port. The
loop over the bytes computes this with one pass and a few counters.
-/
namespace Swad.NodeText

open Bytes Proxylist

/-- A byte of the text, and whether a backslash stands before it. -/
structure Symbol where
  escaped : Bool
  byte : Byte
  deriving DecidableEq

def plainByte (c : Char) : Symbol := ⟨false, chr c⟩

/-- The bytes of the text without the backslashes and the quotes, behind a backslash or not. -/
def symbolsFrom : Bool → Str → List Symbol
  | _, [] => []
  | true, c :: s => ⟨true, c⟩ :: symbolsFrom false s
  | false, c :: s =>
    if c = chr '\\' then symbolsFrom true s
    else if c = chr '"' then symbolsFrom false s
    else ⟨false, c⟩ :: symbolsFrom false s

def symbols (s : Str) : List Symbol := symbolsFrom false s

/-- The part up to the bracket that closes all open ones, without the brackets. -/
def inBrackets : ℕ → List Symbol → List Symbol
  | _, [] => []
  | 0, _ => []
  | depth + 1, x :: xs =>
    if x = plainByte '[' then inBrackets (depth + 2) xs
    else if x = plainByte ']' then inBrackets depth xs
    else x :: inBrackets (depth + 1) xs

/-- A bracket counts at the beginning only, where a closing one stands for itself. -/
def unbracketed : List Symbol → List Symbol
  | [] => []
  | x :: xs =>
    if x = plainByte ']' then x :: unbracketed xs
    else if x = plainByte '[' then inBrackets 1 xs
    else x :: xs

/-- The bytes that an entry has in the buffer. -/
def stored (value : Str) : List Symbol := unbracketed (symbols value)

/-- The bytes before a port. -/
def beforePort (xs : List Symbol) : List Symbol :=
  if xs.count (plainByte ':') = 1 then xs.takeWhile (· ≠ plainByte ':') else xs

def addressText (value : Str) : Str := (beforePort (stored value)).map Symbol.byte

/-- The bytes and the NUL behind the address fit a buffer of 512 bytes. -/
def Fits (value : Str) : Prop :=
  (stored value).length < 512 ∨
    ((stored value).length = 512 ∧ (stored value).count (plainByte ':') = 1)

section collecting

variable {state : Collect} {xs : List Symbol}

/-- The counters after some bytes have been collected. -/
structure Reads (xs : List Symbol) (state : Collect) : Prop where
  buf : state.buf = xs.map Symbol.byte
  ncolons : state.ncolons = xs.count (plainByte ':')
  lastcolon : state.ncolons ≠ 0 → state.lastcolon < state.buf.length
  port : state.ncolons = 1 →
    state.buf.take state.lastcolon = (xs.takeWhile (· ≠ plainByte ':')).map Symbol.byte

theorem reads_nil : Reads [] ⟨false, 0, [], 0, 0⟩ :=
  ⟨rfl, rfl, fun h => absurd rfl h, fun h => by cases h⟩

/-- A byte that is not a colon of its own. -/
theorem Reads.take (h : Reads xs state) {x : Symbol} (hx : x ≠ plainByte ':') (esc : Bool)
    (bracket : ℤ) :
    Reads (xs ++ [x]) { state with esc := esc, bracket := bracket, buf := state.buf ++ [x.byte] } := by
  have hne : ¬ [x].count (plainByte ':') ≠ 0 := by
    rw [List.count_singleton, beq_false_of_ne hx]
    decide
  refine ⟨?_, ?_, ?_, ?_⟩
  · rw [List.map_append, ← h.buf]
    rfl
  · rw [List.count_append, ← h.ncolons]
    dsimp only
    omega
  · intro hcolons
    have hlast := h.lastcolon hcolons
    rw [List.length_append]
    dsimp only
    omega
  · intro hone
    have hlast := h.lastcolon (by rw [hone]; decide)
    have hmem : plainByte ':' ∈ xs := by
      apply List.count_pos_iff.mp
      rw [← h.ncolons]
      dsimp only at hone
      omega
    have hsame : (xs ++ [x]).takeWhile (· ≠ plainByte ':') =
        xs.takeWhile (· ≠ plainByte ':') := by
      rw [List.takeWhile_append, if_neg]
      intro hall
      have hwhole := (List.takeWhile_prefix (· ≠ plainByte ':')).eq_of_length hall
      have hcolon := List.takeWhile_eq_self_iff.mp hwhole (plainByte ':') hmem
      simp at hcolon
    rw [hsame, ← h.port hone]
    exact List.take_append_of_le_length (Nat.le_of_lt hlast)

theorem Reads.colon (h : Reads xs state) (esc : Bool) (bracket : ℤ) :
    Reads (xs ++ [plainByte ':'])
      { state with
        esc := esc
        lastcolon := state.buf.length
        ncolons := state.ncolons + 1
        bracket := bracket
        buf := state.buf ++ [chr ':'] } := by
  refine ⟨?_, ?_, ?_, ?_⟩
  · rw [List.map_append, ← h.buf]
    rfl
  · rw [List.count_append, ← h.ncolons]
    rfl
  · intro _
    rw [List.length_append]
    exact Nat.lt_succ_self _
  · intro hone
    have hnone : plainByte ':' ∉ xs := by
      intro hmem
      have hpos := List.count_pos_iff.mpr hmem
      rw [← h.ncolons] at hpos
      dsimp only at hone
      omega
    rw [List.take_left, h.buf, List.takeWhile_append, if_pos, List.takeWhile_cons_of_neg]
    · rw [List.append_nil]
    · simp
    · rw [List.takeWhile_eq_self_iff.mpr]
      intro x hx
      have hne : x ≠ plainByte ':' := fun heq => hnone (by rw [← heq]; exact hx)
      simpa using hne

/-- The symbols that the loop still takes. -/
def limited (bracket : ℤ) (xs : List Symbol) : List Symbol :=
  if bracket < 0 then xs
  else if bracket = 0 then unbracketed xs
  else inBrackets bracket.toNat xs

theorem inBrackets_nil (depth : ℕ) : inBrackets depth [] = [] := by
  cases depth with
  | zero => rfl
  | succ depth => rfl

theorem limited_nil (bracket : ℤ) : limited bracket [] = [] := by
  unfold limited
  split
  · rfl
  · split
    · rfl
    · exact inBrackets_nil _

theorem exists_depth {bracket : ℤ} (h : 0 < bracket) :
    ∃ depth : ℕ, bracket = (depth : ℤ) + 1 ∧ bracket.toNat = depth + 1 :=
  ⟨(bracket - 1).toNat, by omega, by omega⟩

theorem limited_plain {x : Symbol} (hopen : x ≠ plainByte '[') (hclose : x ≠ plainByte ']')
    (bracket : ℤ) (xs : List Symbol) :
    limited bracket (x :: xs) = x :: limited (outside bracket) xs := by
  unfold limited outside
  by_cases hneg : bracket < 0
  · have hsame : (if bracket = 0 then -1 else bracket) = bracket := if_neg (by omega)
    rw [hsame, if_pos hneg, if_pos hneg]
  · by_cases hzero : bracket = 0
    · rw [if_neg hneg, if_pos hzero, if_pos hzero, unbracketed, if_neg hclose, if_neg hopen]
      rfl
    · obtain ⟨depth, -, hdepth⟩ := exists_depth (show 0 < bracket by omega)
      rw [if_neg hneg, if_neg hzero, if_neg hzero, if_neg hneg, if_neg hzero, hdepth, inBrackets,
        if_neg hopen, if_neg hclose]

theorem limited_open {bracket : ℤ} (h : 0 ≤ bracket) (xs : List Symbol) :
    limited bracket (plainByte '[' :: xs) = limited (bracket + 1) xs := by
  unfold limited
  rw [if_neg (by omega), if_neg (show ¬ bracket + 1 < 0 by omega),
    if_neg (show ¬ bracket + 1 = 0 by omega)]
  by_cases hzero : bracket = 0
  · rw [if_pos hzero, hzero, unbracketed, if_neg (by decide), if_pos rfl]
    rfl
  · obtain ⟨depth, hbracket, hdepth⟩ := exists_depth (show 0 < bracket by omega)
    rw [if_neg hzero, hdepth, inBrackets, if_pos rfl,
      show (bracket + 1).toNat = depth + 2 by omega]

theorem limited_open_neg {bracket : ℤ} (h : bracket < 0) (x : Symbol) (xs : List Symbol) :
    limited bracket (x :: xs) = x :: limited bracket xs := by
  unfold limited
  rw [if_pos h, if_pos h]

theorem limited_close_last (xs : List Symbol) : limited 1 (plainByte ']' :: xs) = [] := by
  cases xs with
  | nil => rfl
  | cons x xs => rfl

theorem limited_close_pos {bracket : ℤ} (h : 1 < bracket) (xs : List Symbol) :
    limited bracket (plainByte ']' :: xs) = limited (bracket - 1) xs := by
  obtain ⟨depth, hbracket, hdepth⟩ := exists_depth (show 0 < bracket by omega)
  unfold limited
  rw [if_neg (by omega), if_neg (by omega), if_neg (show ¬ bracket - 1 < 0 by omega),
    if_neg (show ¬ bracket - 1 = 0 by omega), hdepth, inBrackets, if_neg (by decide),
    if_pos rfl, show (bracket - 1).toNat = depth by omega]

theorem limited_close {bracket : ℤ} (h : bracket ≤ 0) (xs : List Symbol) :
    limited bracket (plainByte ']' :: xs) = plainByte ']' :: limited bracket xs := by
  by_cases hneg : bracket < 0
  · exact limited_open_neg hneg _ xs
  · unfold limited
    rw [if_neg hneg, if_pos (by omega), if_neg hneg, if_pos (by omega), unbracketed, if_pos rfl]

theorem append_cons {α : Type} {zs xs ys : List α} {x : α} (h : zs = x :: ys) :
    xs ++ zs = xs ++ [x] ++ ys := by
  rw [h, List.append_assoc]
  rfl

/-- The loop takes what it has collected and the symbols that are left. -/
theorem collect_reads (h : Reads xs state) (value : Str) :
    Reads (xs ++ limited state.bracket (symbolsFrom state.esc value)) (collect state value) := by
  induction value generalizing xs state with
  | nil =>
    have hnone : symbolsFrom state.esc [] = [] := by
      rw [symbolsFrom]
    rw [hnone, limited_nil, List.append_nil]
    exact h
  | cons c value ih =>
    unfold collect
    by_cases hesc : state.esc = true
    · have hne (d : Char) : Symbol.mk true c ≠ plainByte d := fun heq => by cases heq
      rw [if_pos hesc, hesc, symbolsFrom, append_cons (limited_plain (hne '[') (hne ']') _ _)]
      exact ih (h.take (hne ':') false (outside state.bracket))
    have hfalse := Bool.eq_false_iff.mpr hesc
    have hne {d : Char} (hd : c ≠ chr d) : Symbol.mk false c ≠ plainByte d :=
      fun heq => hd (congrArg Symbol.byte heq)
    have hrest : symbolsFrom false value = symbolsFrom state.esc value := by rw [hfalse]
    rw [if_neg hesc, hfalse, symbolsFrom]
    by_cases hslash : c = chr '\\'
    · rw [if_pos hslash, if_pos hslash]
      exact @ih { state with esc := true } xs ⟨h.buf, h.ncolons, h.lastcolon, h.port⟩
    rw [if_neg hslash, if_neg hslash]
    by_cases hquote : c = chr '"'
    · rw [if_pos hquote, if_pos hquote, hrest]
      exact ih h
    rw [if_neg hquote, if_neg hquote]
    by_cases hopen : c = chr '['
    · have hx : Symbol.mk false c = plainByte '[' := congrArg (Symbol.mk false) hopen
      rw [if_pos hopen, hx]
      by_cases hbracket : 0 ≤ state.bracket
      · rw [if_pos hbracket, limited_open hbracket]
        exact @ih { state with esc := false, bracket := state.bracket + 1 } xs
          ⟨h.buf, h.ncolons, h.lastcolon, h.port⟩
      · rw [if_neg hbracket, append_cons (limited_open_neg (by omega) _ _), hrest, hopen]
        exact ih (h.take (by decide) state.esc state.bracket)
    rw [if_neg hopen]
    by_cases hclose : c = chr ']'
    · have hx : Symbol.mk false c = plainByte ']' := congrArg (Symbol.mk false) hclose
      rw [if_pos hclose, hx]
      by_cases hbracket : 0 < state.bracket
      · rw [if_pos hbracket]
        by_cases hlast : state.bracket - 1 = 0
        · rw [if_pos hlast, show state.bracket = 1 by omega, limited_close_last, List.append_nil]
          exact ⟨h.buf, h.ncolons, h.lastcolon, h.port⟩
        · rw [if_neg hlast, limited_close_pos (by omega)]
          exact @ih { state with esc := false, bracket := state.bracket - 1 } xs
            ⟨h.buf, h.ncolons, h.lastcolon, h.port⟩
      · rw [if_neg hbracket, append_cons (limited_close (by omega) _), hrest, hclose]
        exact ih (h.take (by decide) state.esc state.bracket)
    rw [if_neg hclose, append_cons (limited_plain (hne hopen) (hne hclose) _ _), hrest]
    by_cases hcolon : c = chr ':'
    · have hx : Symbol.mk false c = plainByte ':' := congrArg (Symbol.mk false) hcolon
      rw [if_pos hcolon, hx]
      exact ih (h.colon state.esc (outside state.bracket))
    · rw [if_neg hcolon]
      exact ih (h.take (hne hcolon) state.esc (outside state.bracket))

theorem collect_value (value : Str) :
    Reads (stored value) (collect ⟨false, 0, [], 0, 0⟩ value) :=
  collect_reads reads_nil value

theorem Reads.address (h : Reads xs state) :
    state.address = (beforePort xs).map Symbol.byte := by
  unfold Collect.address beforePort
  rw [← h.ncolons]
  by_cases hone : state.ncolons = 1
  · rw [if_pos hone, if_pos hone]
    exact h.port hone
  · rw [if_neg hone, if_neg hone]
    exact h.buf

/-- No store is behind the end of the buffer if the bytes fit. -/
theorem Reads.fits (h : Reads xs state) :
    ¬ (512 < state.buf.length ∨ 511 < state.address.length) ↔
      xs.length < 512 ∨ (xs.length = 512 ∧ xs.count (plainByte ':') = 1) := by
  have hbuf : state.buf.length = xs.length := by rw [h.buf, List.length_map]
  unfold Collect.address
  rw [← h.ncolons]
  by_cases hone : state.ncolons = 1
  · have hlast := h.lastcolon (by omega)
    rw [if_pos hone, List.length_take]
    omega
  · rw [if_neg hone]
    omega

end collecting

section entries

variable {entry value : Str} {rfc7239 : Bool}

/-- The text of an entry that the loop reads. -/
def entryText (rfc7239 : Bool) (entry : Str) : Option Str :=
  if rfc7239 then stripRfc7239 entry else some entry

/-- The address of an entry, empty if there is none. -/
def entryAddress (rfc7239 : Bool) (entry : Str) : Str :=
  (entryText rfc7239 entry).elim [] addressText

def EntryFits (rfc7239 : Bool) (entry : Str) : Prop :=
  ∀ value ∈ entryText rfc7239 entry, Fits value

theorem parseEntry_of_text (h : entryText rfc7239 entry = some value) :
    parseEntry entry rfc7239 =
      if 512 < (collect ⟨false, 0, [], 0, 0⟩ value).buf.length ∨
          511 < (collect ⟨false, 0, [], 0, 0⟩ value).address.length then none
      else if (collect ⟨false, 0, [], 0, 0⟩ value).address = [] then some none
      else some (some (collect ⟨false, 0, [], 0, 0⟩ value).address) := by
  unfold entryText at h
  rw [parseEntry, h]

theorem parseEntry_fits (h : EntryFits rfc7239 entry) :
    parseEntry entry rfc7239 =
      some (if entryAddress rfc7239 entry = [] then none
        else some (entryAddress rfc7239 entry)) := by
  unfold entryAddress
  cases htext : entryText rfc7239 entry with
  | none =>
    unfold entryText at htext
    rw [parseEntry, htext]
    rfl
  | some value =>
    have hreads := collect_value value
    have haddress : (collect ⟨false, 0, [], 0, 0⟩ value).address = addressText value :=
      hreads.address
    rw [parseEntry_of_text htext, if_neg (hreads.fits.mpr (h value htext)), haddress,
      Option.elim_some]
    split
    · rfl
    · rfl

theorem parseEntry_overflows (h : ¬ EntryFits rfc7239 entry) : parseEntry entry rfc7239 = none := by
  unfold EntryFits at h
  push Not at h
  obtain ⟨value, htext, hfits⟩ := h
  have hover := fun hnot => hfits ((collect_value value).fits.mp hnot)
  rw [parseEntry_of_text htext, if_pos (not_not.mp hover)]

end entries

end Swad.NodeText
