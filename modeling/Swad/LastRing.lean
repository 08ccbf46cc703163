import Mathlib.Algebra.Order.Ring.Int
import Mathlib.Data.Fin.Basic
import Mathlib.Data.List.Induction
import Mathlib.Logic.Function.Basic

/-!
A ring that keeps the last values that were put into it. Walking back from the slot
that was written last visits the values from the newest to the oldest, for as many steps
as there are slots.
-/
namespace Swad.LastRing

variable {α : Type} {n : ℕ} [NeZero n]

/-- Slots, the number of values put into them, and the slot that was written last. -/
structure Kept (α : Type) (n : ℕ) where
  slots : Fin n → Option α
  count : ℕ
  last : Fin n

def Kept.empty : Kept α n := ⟨fun _ => none, 0, 0⟩

def Kept.put (self : Kept α n) (value : α) : Kept α n where
  slots := Function.update self.slots (Fin.ofNat n self.count) (some value)
  count := self.count + 1
  last := Fin.ofNat n self.count

/-- One slot back, around the ring. -/
def before (i : Fin n) : Fin n :=
  ⟨if i.val = 0 then n - 1 else i.val - 1, by
    have hpos : 0 < n := Nat.pos_of_ne_zero (NeZero.ne n)
    have hi := i.isLt
    split <;> omega⟩

theorem before_ofNat (j : ℕ) : before (Fin.ofNat n (j + 1)) = Fin.ofNat n j := by
  have hpos : 0 < n := Nat.pos_of_ne_zero (NeZero.ne n)
  have hj := Nat.mod_lt j hpos
  have hsucc : (j + 1) % n = (j % n + 1) % n := (Nat.mod_add_mod j n 1).symm
  apply Fin.ext
  show (if (j + 1) % n = 0 then n - 1 else (j + 1) % n - 1) = j % n
  rw [hsucc]
  by_cases hwrap : j % n + 1 = n
  · rw [hwrap, Nat.mod_self, if_pos rfl]
    omega
  · rw [Nat.mod_eq_of_lt (by omega), if_neg (by omega)]
    omega

/-- Two numbers that are less than one round apart have different slots. -/
theorem ofNat_ne {j m : ℕ} (hlt : j < m) (hnear : m < j + n) : Fin.ofNat n j ≠ Fin.ofNat n m := by
  intro heq
  have hmod : m % n = j % n := (congrArg Fin.val heq).symm
  have hzero := Nat.sub_mod_eq_zero_of_mod_eq hmod
  rw [Nat.mod_eq_of_lt (by omega)] at hzero
  omega

theorem foldl_count (values : List α) :
    (values.foldl Kept.put (Kept.empty : Kept α n)).count = values.length := by
  induction values using List.reverseRecOn with
  | nil => rfl
  | append_singleton values value ih =>
    rw [List.foldl_append, List.length_append]
    exact congrArg (· + 1) ih

theorem foldl_last (values : List α) (value : α) :
    ((values ++ [value]).foldl Kept.put (Kept.empty : Kept α n)).last =
      Fin.ofNat n values.length := by
  rw [List.foldl_append]
  exact congrArg (Fin.ofNat n) (foldl_count values)

/-- The values that were put last are still there. -/
theorem foldl_slots (values : List α) (j : ℕ) (hj : j < values.length)
    (hlast : values.length ≤ j + n) :
    (values.foldl Kept.put (Kept.empty : Kept α n)).slots (Fin.ofNat n j) = values[j]? := by
  induction values using List.reverseRecOn with
  | nil => exact absurd hj (Nat.not_lt_zero j)
  | append_singleton values value ih =>
    have hcount := @foldl_count α n _ values
    rw [List.length_append, List.length_singleton] at hj hlast
    rw [List.foldl_append]
    show Function.update (values.foldl Kept.put Kept.empty).slots
      (Fin.ofNat n (values.foldl Kept.put (Kept.empty : Kept α n)).count) (some value)
      (Fin.ofNat n j) = _
    rw [hcount]
    by_cases hnew : j = values.length
    · subst hnew
      rw [Function.update_self, List.getElem?_append_right (Nat.le_refl _), Nat.sub_self]
      rfl
    · have hold : j < values.length := by omega
      rw [Function.update_of_ne (ofNat_ne hold (by omega)), ih hold (by omega),
        List.getElem?_append_left hold]

end Swad.LastRing
