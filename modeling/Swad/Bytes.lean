import Mathlib.Algebra.Order.Ring.Int
import Mathlib.Data.FinEnum
import Mathlib.Data.List.Basic
import Mathlib.Data.List.Infix
import Mathlib.Data.List.TakeWhile

/-!
Byte strings. A C string is the list of its bytes before the terminating NUL,
so a buffer is read as a string by cutting it at the first NUL byte.
-/
namespace Swad.Bytes

abbrev Byte := UInt8
abbrev Str := List Byte

/-- The byte of an ASCII character. -/
def chr (c : Char) : Byte := UInt8.ofNat c.toNat

/-- The bytes of an ASCII literal. -/
def str (s : String) : Str := s.toList.map chr

/-- A buffer read as a C string. -/
def cstr (buf : List Byte) : Str := buf.takeWhile (· != 0)

/-- The two bytes that end a line of the protocol. -/
def crlf : Str := [chr '\r', chr '\n']

theorem zero_notMem_cstr (buf : List Byte) : (0 : Byte) ∉ cstr buf := by
  intro h
  have := List.mem_takeWhile_imp h
  simp at this

theorem cstr_subset (buf : List Byte) : cstr buf ⊆ buf :=
  (List.takeWhile_prefix _).subset

/-! ### Scanning a text up to a byte -/

/-- A list up to the first entry that does not continue a loop. -/
theorem split_of_dropWhile {A : Type*} {p : A → Bool} {a : A} {s t : List A}
    (h : s.dropWhile p = a :: t) : s = s.takeWhile p ++ a :: t ∧ p a = false := by
  have hhead := List.head?_dropWhile_not p s
  rw [h] at hhead
  rw [← h, List.takeWhile_append_dropWhile]
  exact ⟨rfl, hhead⟩

section scanning

variable {p : Byte → Bool} {c : Byte} {s : Str}

theorem takeWhile_stop (hs : ∀ b ∈ s, p b = true) (hc : p c = false) (t : Str) :
    (s ++ c :: t).takeWhile p = s := by
  rw [List.takeWhile_append_of_pos hs, List.takeWhile_cons, if_neg (by simp [hc]), List.append_nil]

theorem dropWhile_stop (hs : ∀ b ∈ s, p b = true) (hc : p c = false) (t : Str) :
    (s ++ c :: t).dropWhile p = c :: t := by
  rw [List.dropWhile_append_of_pos hs, List.dropWhile_cons, if_neg (by simp [hc])]

theorem bne_of_notMem (h : c ∉ s) : ∀ b ∈ s, (b != c) = true := by
  intro b hb
  rw [bne_iff_ne]
  exact fun heq => h (heq ▸ hb)

theorem takeWhile_of_notMem (h : c ∉ s) : s.takeWhile (· != c) = s :=
  List.takeWhile_eq_self_iff.mpr (bne_of_notMem h)

theorem cstr_eq_self (h : (0 : Byte) ∉ s) : cstr s = s := takeWhile_of_notMem h

theorem takeWhile_until (h : c ∉ s) (t : Str) : (s ++ c :: t).takeWhile (· != c) = s :=
  takeWhile_stop (bne_of_notMem h) (bne_self_eq_false c) t

theorem dropWhile_until (h : c ∉ s) (t : Str) : (s ++ c :: t).dropWhile (· != c) = c :: t :=
  dropWhile_stop (bne_of_notMem h) (bne_self_eq_false c) t

/-- The same if the text may end where the byte is expected. -/
theorem takeWhile_sep (h : c ∉ s) {rest : Str} (hrest : rest = [] ∨ ∃ more, rest = c :: more) :
    (s ++ rest).takeWhile (· != c) = s := by
  rcases hrest with rfl | ⟨more, rfl⟩
  · rw [List.append_nil, takeWhile_of_notMem h]
  · exact takeWhile_until h more

end scanning

/-- One more byte changes the parity of what is counted. -/
theorem odd_succ (n : ℕ) : ((n + 1) % 2 == 1) = !(n % 2 == 1) := by
  rcases Nat.mod_two_eq_zero_or_one n with h | h
  · rw [h, show (n + 1) % 2 = 1 by omega]
    rfl
  · rw [h, show (n + 1) % 2 = 0 by omega]
    rfl

end Swad.Bytes
