import Mathlib.Data.List.Infix

/-!
Splitting a list at a separator of two different letters. Two occurrences of such a
separator cannot overlap, so a list that is put together from parts and separators is
split into the parts of its parts.
-/
namespace Swad.PairSplitting

variable {A : Type*}

/-- Put a letter in front of the first part. -/
def consHead (x : A) : List (List A) → List (List A)
  | [] => [[x]]
  | part :: parts => (x :: part) :: parts

theorem consHead_append (x : A) {parts : List (List A)} (h : parts ≠ []) (rest : List (List A)) :
    consHead x (parts ++ rest) = consHead x parts ++ rest := by
  cases parts with
  | nil => exact absurd rfl h
  | cons part parts => rfl

variable [DecidableEq A] {a b : A}

def splitPair (a b : A) : List A → List (List A)
  | x :: y :: s =>
    if x = a ∧ y = b then [] :: splitPair a b s else consHead x (splitPair a b (y :: s))
  | [x] => [[x]]
  | [] => [[]]

theorem splitPair_ne_nil (a b : A) (s : List A) : splitPair a b s ≠ [] := by
  match s with
  | [] => simp [splitPair]
  | [x] => simp [splitPair]
  | x :: y :: s =>
    rw [splitPair]
    split
    · simp
    · cases splitPair a b (y :: s) <;> simp [consHead]

theorem splitPair_append (hab : a ≠ b) (s t : List A) :
    splitPair a b (s ++ a :: b :: t) = splitPair a b s ++ splitPair a b t := by
  induction s using splitPair.induct a b with
  | case1 x y s heq ih =>
    simp only [List.cons_append, splitPair]
    rw [if_pos heq, if_pos heq, ih]
    rfl
  | case2 x y s hne ih =>
    have hstep : splitPair a b (x :: y :: s ++ a :: b :: t) =
        consHead x (splitPair a b (y :: s ++ a :: b :: t)) := by
      simp only [List.cons_append, splitPair]
      rw [if_neg hne]
    rw [hstep, ih, consHead_append x (splitPair_ne_nil a b (y :: s)), splitPair, if_neg hne]
  | case3 x =>
    have hne : ¬ (x = a ∧ a = b) := fun h => hab h.2
    simp only [List.cons_append, List.nil_append, splitPair, and_self, if_true]
    rw [if_neg hne]
    rfl
  | case4 => simp [splitPair]

/-- A list without the separator is its only part. -/
theorem splitPair_eq_singleton (hab : a ≠ b) {s : List A} :
    splitPair a b s = [s] ↔ ¬ [a, b] <:+: s := by
  constructor
  · rintro h ⟨before, after, rfl⟩
    rw [List.append_assoc, List.cons_append, List.cons_append, List.nil_append,
      splitPair_append hab] at h
    have hlength := congrArg List.length h
    have hbefore := List.length_pos_iff.mpr (splitPair_ne_nil a b before)
    have hafter := List.length_pos_iff.mpr (splitPair_ne_nil a b after)
    simp only [List.length_append, List.length_singleton] at hlength
    omega
  · intro h
    induction s using splitPair.induct a b with
    | case1 x y s heq ih =>
      obtain ⟨rfl, rfl⟩ := heq
      exact absurd ⟨[], s, rfl⟩ h
    | case2 x y s hne ih =>
      have hrest : ¬ [a, b] <:+: y :: s := fun hinfix => h (List.infix_cons hinfix)
      rw [splitPair, if_neg hne, ih hrest, consHead]
    | case3 x => rfl
    | case4 => rfl

/-- Lines that are written one after the other, each with the separator behind it. -/
theorem splitPair_flatMap (hab : a ≠ b) (lines : List (List A)) (rest : List A) :
    splitPair a b (lines.flatMap (· ++ [a, b]) ++ rest) =
      lines.flatMap (splitPair a b) ++ splitPair a b rest := by
  induction lines with
  | nil => simp
  | cons line lines ih =>
    simp only [List.flatMap_cons, List.append_assoc, List.cons_append, List.nil_append]
    rw [splitPair_append hab, ih]

theorem length_le_flatMap (a b : A) (lines : List (List A)) :
    lines.length ≤ (lines.flatMap (splitPair a b)).length := by
  induction lines with
  | nil => simp
  | cons line lines ih =>
    have hline := List.length_pos_iff.mpr (splitPair_ne_nil a b line)
    simp only [List.flatMap_cons, List.length_append, List.length_cons]
    omega

/-- Written lines are read back exactly when none of them contains the separator. -/
theorem flatMap_splitPair_eq (hab : a ≠ b) {lines : List (List A)} :
    lines.flatMap (splitPair a b) = lines ↔ ∀ line ∈ lines, ¬ [a, b] <:+: line := by
  induction lines with
  | nil => simp
  | cons line lines ih =>
    rw [List.flatMap_cons, List.forall_mem_cons, ← splitPair_eq_singleton hab, ← ih]
    constructor
    · intro h
      have hlength := congrArg List.length h
      have hline := List.length_pos_iff.mpr (splitPair_ne_nil a b line)
      have hlines := length_le_flatMap a b lines
      simp only [List.length_append, List.length_cons] at hlength
      have hone : (splitPair a b line).length = [line].length := by
        rw [List.length_singleton]
        omega
      have hparts : splitPair a b line ++ lines.flatMap (splitPair a b) = [line] ++ lines := h
      exact List.append_inj hparts hone
    · rintro ⟨hline, hlines⟩
      rw [hline, hlines]
      rfl

end Swad.PairSplitting
