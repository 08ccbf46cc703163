import Mathlib.Data.List.Infix

/-!
A value that waits to be taken over. Taking it makes it the current value and leaves
nothing behind; putting it back makes the current value wait again. What is current in
the end depends only on the first of the moves and on whether two takings followed each
other, since the second one of them finds nothing but a default.
-/
namespace Swad.PendingValue

variable {A : Type*}

inductive Move
  | take
  | putBack
  deriving DecidableEq

structure Places (A : Type*) where
  pending : Option A
  current : Option A

def move (d : A) (p : Places A) : Move → Places A
  | .take => ⟨none, some (p.pending.getD d)⟩
  | .putBack => ⟨some (p.current.getD d), p.current⟩

def moves (d : A) (p : Places A) (ms : List Move) : Places A := ms.foldl (move d) p

/-- The current value, or the default. -/
def Places.value (p : Places A) (d : A) : A := p.current.getD d

@[simp] theorem moves_nil (d : A) (p : Places A) : moves d p [] = p := rfl

@[simp] theorem moves_cons (d : A) (p : Places A) (m : Move) (ms : List Move) :
    moves d p (m :: ms) = moves d (move d p m) ms := rfl

theorem moves_snoc (d : A) (p : Places A) (ms : List Move) (m : Move) :
    moves d p (ms ++ [m]) = move d (moves d p ms) m := by
  simp [moves, List.foldl_append]

def Twice (ms : List Move) : Prop := [Move.take, Move.take] <:+: ms

instance (ms : List Move) : Decidable (Twice ms) := inferInstanceAs (Decidable (_ <:+: _))

theorem twice_putBack (ms : List Move) : Twice (.putBack :: ms) ↔ Twice ms := by
  rw [Twice, List.infix_cons_iff]
  exact or_iff_right fun h => absurd (List.cons_prefix_cons.mp h).1 (by decide)

theorem twice_take_putBack (ms : List Move) : Twice (.take :: .putBack :: ms) ↔ Twice ms := by
  rw [Twice, List.infix_cons_iff, ← Twice, twice_putBack]
  refine or_iff_right fun h => ?_
  have hrest := (List.cons_prefix_cons.mp h).2
  exact absurd (List.cons_prefix_cons.mp hrest).1 (by decide)

theorem twice_take_take (ms : List Move) : Twice (.take :: .take :: ms) := ⟨[], ms, rfl⟩

/-- A value is kept while it waits or is current, until a taking finds nothing. -/
theorem value_moves (d y : A) (ms : List Move) :
    (∀ current, current.getD d = y →
      (moves d ⟨some y, current⟩ ms).value d = if Twice ms then d else y) ∧
    (moves d ⟨none, some y⟩ ms).value d = if Twice (.take :: ms) then d else y := by
  induction ms generalizing y with
  | nil =>
    have hnot : ¬ Twice [] := by decide
    have hnot' : ¬ Twice [Move.take] := by decide
    rw [if_neg hnot, if_neg hnot']
    exact ⟨fun current h => h, rfl⟩
  | cons m ms ih =>
    cases m with
    | take =>
      refine ⟨fun current _ => (ih y).2, ?_⟩
      have hlost := (ih d).2
      rw [ite_self] at hlost
      rw [if_pos (twice_take_take ms)]
      exact hlost
    | putBack =>
      refine ⟨fun current h => ?_, ?_⟩
      · have hkept := (ih y).1 current h
        rw [moves_cons, move, h, hkept, if_congr (twice_putBack ms) rfl rfl]
      · rw [if_congr (twice_take_putBack ms) rfl rfl]
        exact (ih y).1 (some y) rfl

/-- The value that is current after a value was left waiting. -/
theorem value_of_pending (d v : A) (x : Option A) {ms : List Move} (h : ms ≠ []) :
    (moves d ⟨some v, x⟩ ms).value d =
      if Twice ms then d else if ms.head? = some .take then v else x.getD d := by
  cases ms with
  | nil => exact absurd rfl h
  | cons m ms =>
    cases m with
    | take =>
      rw [List.head?_cons, if_pos rfl]
      exact (value_moves d v ms).2
    | putBack =>
      have hkept := (value_moves d (x.getD d) ms).1 x rfl
      have hne : ¬ some Move.putBack = some Move.take := by decide
      rw [List.head?_cons, if_neg hne, if_congr (twice_putBack ms) rfl rfl]
      exact hkept

end Swad.PendingValue
