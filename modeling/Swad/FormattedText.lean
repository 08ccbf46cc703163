import Mathlib.Algebra.Order.Ring.Int
import Mathlib.Data.List.Basic

/-!
Texts that are formatted. A format has conversions, each a mark and a letter, and each of them
is replaced by the next argument. The length of the result is known from the lengths of the
format and of the arguments before anything is formatted.
-/
namespace Swad.FormattedText

variable {A : Type*} [DecidableEq A]

/-- A format is read with or without a mark right before. There is no text if an argument is
missing, or if the letter is another one. -/
def formatFrom (mark letter : A) : Bool → List A → List (List A) → Option (List A)
  | false, [], _ => some []
  | false, c :: fmt, args =>
    if c = mark then formatFrom mark letter true fmt args
    else (formatFrom mark letter false fmt args).map (c :: ·)
  | true, c :: fmt, arg :: args =>
    if c = letter then (formatFrom mark letter false fmt args).map (arg ++ ·) else none
  | true, _, _ => none

def format (mark letter : A) (fmt : List A) (args : List (List A)) : Option (List A) :=
  formatFrom mark letter false fmt args

/-- The pieces of a format, with a conversion behind each of them. -/
def conversions (mark letter : A) (pieces : List (List A)) : List A :=
  pieces.flatMap (· ++ [mark, letter])

variable {mark letter : A}

theorem format_nil (args : List (List A)) : format mark letter [] args = some [] := rfl

theorem format_piece {piece : List A} (h : mark ∉ piece) (fmt : List A) (args : List (List A)) :
    format mark letter (piece ++ fmt) args = (format mark letter fmt args).map (piece ++ ·) := by
  induction piece with
  | nil => exact Option.map_id'.symm
  | cons c piece ih =>
    rw [List.mem_cons, not_or] at h
    obtain ⟨hc, hpiece⟩ := h
    have hrest := ih hpiece
    unfold format at hrest ⊢
    rw [List.cons_append, formatFrom, if_neg (Ne.symm hc), hrest, Option.map_map]
    rfl

theorem format_conversion (fmt arg : List A) (args : List (List A)) :
    format mark letter (mark :: letter :: fmt) (arg :: args) =
      (format mark letter fmt args).map (arg ++ ·) := by
  rw [format, formatFrom, if_pos rfl, formatFrom, if_pos rfl, format]

/-- Every piece is followed by its argument. -/
theorem format_conversions (letter : A) {pieces args : List (List A)} (hpieces : ∀ p ∈ pieces, mark ∉ p)
    (hlength : pieces.length = args.length) {last : List A} (hlast : mark ∉ last) :
    format mark letter (conversions mark letter pieces ++ last) args =
      some ((pieces.zip args).flatMap (fun p => p.1 ++ p.2) ++ last) := by
  induction pieces generalizing args with
  | nil =>
    have hnil : args = [] := List.length_eq_zero_iff.mp hlength.symm
    have hpiece := @format_piece _ _ mark letter last hlast [] args
    rw [List.append_nil, format_nil, Option.map_some, List.append_nil] at hpiece
    rw [hnil] at hpiece ⊢
    exact hpiece
  | cons piece pieces ih =>
    cases args with
    | nil => cases hlength
    | cons arg args =>
      obtain ⟨hpiece, hrest⟩ := List.forall_mem_cons.mp hpieces
      have hsplit : conversions mark letter (piece :: pieces) ++ last =
          piece ++ mark :: letter :: (conversions mark letter pieces ++ last) := by
        simp [conversions]
      rw [hsplit, format_piece hpiece, format_conversion, ih hrest (Nat.succ.inj hlength)]
      simp

/-- The length of a formatted text: two characters for each conversion are gone, and the
arguments are there. -/
theorem length_format {pieces args : List (List A)} (hpieces : ∀ p ∈ pieces, mark ∉ p)
    (hlength : pieces.length = args.length) {last : List A} (hlast : mark ∉ last) {text : List A}
    (h : format mark letter (conversions mark letter pieces ++ last) args = some text) :
    text.length + 2 * args.length =
      (conversions mark letter pieces ++ last).length + args.flatten.length := by
  rw [format_conversions letter hpieces hlength hlast] at h
  obtain rfl := Option.some.inj h
  clear h hpieces hlast
  induction pieces generalizing args with
  | nil =>
    have hnil : args = [] := List.length_eq_zero_iff.mp hlength.symm
    subst hnil
    rfl
  | cons piece pieces ih =>
    cases args with
    | nil => cases hlength
    | cons arg args =>
      have hrest := ih (Nat.succ.inj hlength)
      simp only [conversions, List.flatMap_cons, List.zip_cons_cons, List.length_append,
        List.length_cons, List.length_nil, List.flatten_cons] at hrest ⊢
      omega

end Swad.FormattedText
