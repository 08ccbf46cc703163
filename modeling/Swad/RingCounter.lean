import Mathlib.Algebra.BigOperators.Group.Finset.Basic
import Mathlib.Algebra.BigOperators.Intervals
import Mathlib.Algebra.Order.BigOperators.Group.Finset
import Mathlib.Data.List.GetD
import Mathlib.Tactic.Ring

/-!
A ring of counters, one for each of the latest time slots, and the histories it
summarizes. Slots are named by age, the current slot having age zero. Moving to
the next slot reuses the counter of the oldest one. The number of events in the
newest slots is compared with the events of a history lying in a window.
-/
namespace Swad.RingCounter

structure Ring where
  counts : List ℕ
  pos : ℕ

namespace Ring

def size (r : Ring) : ℕ := r.counts.length

def Valid (r : Ring) : Prop := r.pos < r.size

def nextPos (r : Ring) : ℕ := if r.pos + 1 = r.size then 0 else r.pos + 1

/-- Enter the next slot: its counter starts at zero. -/
def advance (r : Ring) : Ring := ⟨r.counts.set r.nextPos 0, r.nextPos⟩

/-- Count one event in the current slot. -/
def bump (r : Ring) : Ring := ⟨r.counts.set r.pos (r.counts.getD r.pos 0 + 1), r.pos⟩

/-- The counter of the slot that is `i` slots old. -/
def age (r : Ring) (i : ℕ) : ℕ := r.counts.getD ((r.pos + (r.size - i)) % r.size) 0

/-- The number of events counted in the `k` newest slots. -/
def upTo (r : Ring) (k : ℕ) : ℕ := ∑ i ∈ Finset.range k, r.age i

def fresh (n : ℕ) : Ring := ⟨List.replicate n 0, 0⟩

theorem fresh_valid (n : ℕ) (hn : 0 < n) : (fresh n).Valid := by
  simpa [Valid, size, fresh] using hn

theorem fresh_upTo (n k : ℕ) : (fresh n).upTo k = 0 := by
  apply Finset.sum_eq_zero
  intro i _
  unfold age fresh
  rw [List.getD_eq_getElem?_getD, List.getElem?_replicate]
  split <;> rfl

@[simp] theorem size_advance (r : Ring) : r.advance.size = r.size := by
  simp [size, advance]

@[simp] theorem size_bump (r : Ring) : r.bump.size = r.size := by
  simp [size, bump]

theorem nextPos_lt (r : Ring) (hr : r.Valid) : r.nextPos < r.size := by
  unfold Valid at hr
  unfold nextPos
  split <;> omega

theorem advance_valid (r : Ring) (hr : r.Valid) : r.advance.Valid := by
  unfold Valid
  rw [size_advance]
  exact r.nextPos_lt hr

theorem bump_valid (r : Ring) (hr : r.Valid) : r.bump.Valid := by
  unfold Valid
  rw [size_bump]
  exact hr

/-- The index of a slot is its position counted back from the current one. -/
theorem slot_index (r : Ring) (hr : r.Valid) (i : ℕ) (hi : i < r.size) :
    (r.pos + (r.size - i)) % r.size =
      if i ≤ r.pos then r.pos - i else r.pos + r.size - i := by
  unfold Valid at hr
  split
  · rw [show r.pos + (r.size - i) = (r.pos - i) + r.size by omega, Nat.add_mod_right]
    exact Nat.mod_eq_of_lt (by omega)
  · rw [show r.pos + (r.size - i) = r.pos + r.size - i by omega]
    exact Nat.mod_eq_of_lt (by omega)

theorem nextPos_eq_oldest (r : Ring) (hr : r.Valid) :
    r.nextPos = (r.pos + (r.size - (r.size - 1))) % r.size := by
  have hpos : 0 < r.size := Nat.zero_lt_of_lt hr
  rw [r.slot_index hr (r.size - 1) (by omega)]
  unfold Valid at hr
  unfold nextPos
  split <;> split <;> omega

/-- The counter that the next slot takes over is the one of the oldest slot. -/
theorem oldest (r : Ring) (hr : r.Valid) :
    r.counts.getD r.nextPos 0 = r.age (r.size - 1) := by
  unfold age
  rw [← r.nextPos_eq_oldest hr]

theorem age_advance_zero (r : Ring) (hr : r.Valid) : r.advance.age 0 = 0 := by
  have hlt := r.nextPos_lt hr
  unfold age
  rw [r.advance.slot_index (r.advance_valid hr) 0 (Nat.zero_lt_of_lt (r.advance_valid hr))]
  have hlen : r.nextPos < r.counts.length := hlt
  simp [advance, List.getD_eq_getElem?_getD, hlen]

theorem age_advance_succ (r : Ring) (hr : r.Valid) (i : ℕ) (hi : i + 1 < r.size) :
    r.advance.age (i + 1) = r.age i := by
  have hpos : r.advance.pos = r.nextPos := rfl
  have hindex : (r.advance.pos + (r.advance.size - (i + 1))) % r.advance.size =
      (r.pos + (r.size - i)) % r.size := by
    rw [r.advance.slot_index (r.advance_valid hr) (i + 1) (by simpa using hi),
      r.slot_index hr i (by omega), size_advance, hpos]
    unfold Valid at hr
    unfold nextPos
    split <;> split <;> split <;> omega
  have hne : r.nextPos ≠ (r.pos + (r.size - i)) % r.size := by
    rw [r.slot_index hr i (by omega)]
    unfold Valid at hr
    unfold nextPos
    split <;> split <;> omega
  unfold age
  rw [hindex]
  simp only [advance, List.getD_eq_getElem?_getD]
  rw [List.getElem?_set_ne hne]

theorem age_bump_zero (r : Ring) (hr : r.Valid) : r.bump.age 0 = r.age 0 + 1 := by
  have h0 : 0 < r.size := Nat.zero_lt_of_lt hr
  unfold age
  rw [r.bump.slot_index (r.bump_valid hr) 0 (by simpa using h0), r.slot_index hr 0 h0]
  have hlt : r.pos < r.counts.length := hr
  simp [bump, List.getD_eq_getElem?_getD, hlt]

theorem age_bump_succ (r : Ring) (hr : r.Valid) (i : ℕ) (hi : i + 1 < r.size) :
    r.bump.age (i + 1) = r.age (i + 1) := by
  have hne : r.pos ≠ (r.pos + (r.size - (i + 1))) % r.size := by
    rw [r.slot_index hr (i + 1) hi]
    unfold Valid at hr
    split <;> omega
  unfold age
  rw [size_bump]
  simp only [bump, List.getD_eq_getElem?_getD]
  rw [List.getElem?_set_ne hne]

theorem upTo_mono (r : Ring) {j k : ℕ} (hjk : j ≤ k) : r.upTo j ≤ r.upTo k := by
  unfold upTo
  exact Finset.sum_le_sum_of_subset (Finset.range_mono hjk)

theorem upTo_advance (r : Ring) (hr : r.Valid) (k : ℕ) (hk : k ≤ r.size) :
    r.advance.upTo k = r.upTo (k - 1) := by
  cases k with
  | zero => rfl
  | succ k =>
    unfold upTo
    rw [Finset.sum_range_succ', r.age_advance_zero hr, Nat.add_zero, Nat.add_sub_cancel]
    apply Finset.sum_congr rfl
    intro i hi
    have hik : i < k := Finset.mem_range.mp hi
    exact r.age_advance_succ hr i (by omega)

theorem upTo_bump (r : Ring) (hr : r.Valid) (k : ℕ) (hk : k ≤ r.size) (h0 : 0 < k) :
    r.bump.upTo k = r.upTo k + 1 := by
  obtain ⟨k, rfl⟩ : ∃ j, k = j + 1 := ⟨k - 1, by omega⟩
  unfold upTo
  rw [Finset.sum_range_succ', Finset.sum_range_succ', r.age_bump_zero hr]
  have hrest : ∑ i ∈ Finset.range k, r.bump.age (i + 1) =
      ∑ i ∈ Finset.range k, r.age (i + 1) := by
    apply Finset.sum_congr rfl
    intro i hi
    have hik : i < k := Finset.mem_range.mp hi
    exact r.age_bump_succ hr i (by omega)
  rw [hrest]
  ring

/-- Leaving a slot behind removes exactly the count of the oldest slot. -/
theorem upTo_size_advance (r : Ring) (hr : r.Valid) :
    r.advance.upTo r.size + r.age (r.size - 1) = r.upTo r.size := by
  have h0 : 0 < r.size := Nat.zero_lt_of_lt hr
  rw [r.upTo_advance hr r.size (Nat.le_refl _)]
  conv_rhs => rw [show r.size = (r.size - 1) + 1 by omega]
  exact (Finset.sum_range_succ r.age (r.size - 1)).symm

theorem iterate_advance_valid (r : Ring) (hr : r.Valid) (g : ℕ) :
    (Ring.advance^[g] r).Valid ∧ (Ring.advance^[g] r).size = r.size := by
  induction g with
  | zero => exact ⟨hr, rfl⟩
  | succ g ih =>
    rw [Function.iterate_succ_apply']
    exact ⟨advance_valid _ ih.1, by rw [size_advance, ih.2]⟩

/-- After `g` slots the newest `k` slots hold what the newest `k - g` held. -/
theorem upTo_iterate_advance (r : Ring) (hr : r.Valid) (g k : ℕ) (hk : k ≤ r.size) :
    (Ring.advance^[g] r).upTo k = r.upTo (k - g) := by
  induction g generalizing k with
  | zero => rfl
  | succ g ih =>
    obtain ⟨hvalid, hsize⟩ := r.iterate_advance_valid hr g
    rw [Function.iterate_succ_apply', upTo_advance _ hvalid k (by omega),
      ih (k - 1) (by omega), Nat.sub_sub, Nat.add_comm 1 g]

end Ring

/-- The number of events of a history in the last `k` slots, the current slot
being `now`. -/
def within (history : List ℕ) (now k : ℕ) : ℕ :=
  history.countP (fun h => decide (now < h + k))

theorem within_mono (history : List ℕ) (now : ℕ) {j k : ℕ} (hjk : j ≤ k) :
    within history now j ≤ within history now k := by
  apply List.countP_mono_left
  intro h _ hj
  simp only [decide_eq_true_eq] at hj ⊢
  omega

/-- Letting `g` slots pass shortens the window of the events by `g` slots. -/
theorem within_later (history : List ℕ) (now g k : ℕ) (hpast : ∀ h ∈ history, h ≤ now) :
    within history (now + g) k = within history now (k - g) := by
  apply List.countP_congr
  intro h hh
  have := hpast h hh
  simp only [decide_eq_true_eq]
  omega

theorem within_snoc_now (history : List ℕ) (now k : ℕ) (h0 : 0 < k) :
    within (history ++ [now]) now k = within history now k + 1 := by
  simp [within, List.countP_append, h0]

theorem within_eq_zero (history : List ℕ) (now k : ℕ)
    (hold : ∀ h ∈ history, h + k ≤ now) : within history now k = 0 := by
  rw [within, List.countP_eq_zero]
  intro h hh
  have := hold h hh
  simp only [decide_eq_true_eq]
  omega

end Swad.RingCounter
