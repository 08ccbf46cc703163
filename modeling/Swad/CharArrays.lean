import Mathlib.Algebra.Order.Ring.Int
import Mathlib.Data.List.TakeWhile

/-!
Texts in arrays. An array has a fixed number of cells, a copy that would leave it is a fault,
and a text in it is what stands before the first cell with the entry that ends texts. A text
that leaves room for its end can be put behind what an array holds already, and the array then
holds both.
-/
namespace Swad.CharArrays

variable {A : Type*}

/-- Copy entries into an array from a cell on. -/
def memcpy (dest : List A) (pos : ℕ) (src : List A) : Option (List A) :=
  if pos + src.length ≤ dest.length then
    some (dest.take pos ++ src ++ dest.drop (pos + src.length))
  else none

theorem length_memcpy {dest src cells : List A} {pos : ℕ}
    (h : memcpy dest pos src = some cells) : cells.length = dest.length := by
  unfold memcpy at h
  split at h
  · obtain rfl := Option.some.inj h
    simp only [List.length_append, List.length_take, List.length_drop]
    omega
  · cases h

/-- Behind a part that stays. -/
theorem memcpy_append (front : List A) {src tail : List A} (h : src.length ≤ tail.length) :
    memcpy (front ++ tail) front.length src = some (front ++ src ++ tail.drop src.length) := by
  have hroom : front.length + src.length ≤ (front ++ tail).length := by
    rw [List.length_append]
    omega
  rw [memcpy, if_pos hroom, List.take_left, List.drop_append, List.drop_eq_nil_of_le (by omega),
    Nat.add_sub_cancel_left, List.nil_append]

theorem memcpy_start {src dest : List A} (h : src.length ≤ dest.length) :
    memcpy dest 0 src = some (src ++ dest.drop src.length) :=
  memcpy_append [] h

/-! ### Texts -/

variable {stop : A} {cells text front tail : List A}

/-- The text in an array; it is a fault to look for an end that is not there. -/
def readText [DecidableEq A] (stop : A) (cells : List A) : Option (List A) :=
  if stop ∈ cells then some (cells.takeWhile fun a => decide (a ≠ stop)) else none

/-- Copy a text and put its end behind it. -/
def storeText (stop : A) (dest : List A) (pos : ℕ) (text : List A) : Option (List A) :=
  (memcpy dest pos text).bind fun dest => memcpy dest (pos + text.length) [stop]

/-- An array holds a text. -/
def HoldsText (stop : A) (cells text : List A) : Prop :=
  stop ∉ text ∧ ∃ rest, cells = text ++ stop :: rest

theorem HoldsText.stop_mem (h : HoldsText stop cells text) : stop ∈ cells := by
  obtain ⟨_, rest, rfl⟩ := h
  exact List.mem_append_right _ (List.mem_cons_self ..)

theorem HoldsText.takeWhile_eq [DecidableEq A] (h : HoldsText stop cells text) :
    (cells.takeWhile fun a => decide (a ≠ stop)) = text := by
  obtain ⟨hstop, rest, rfl⟩ := h
  have hall : ∀ a ∈ text, decide (a ≠ stop) = true := by
    intro a ha
    rw [decide_eq_true_eq]
    rintro rfl
    exact hstop ha
  rw [List.takeWhile_append_of_pos hall, List.takeWhile_cons, if_neg (by simp), List.append_nil]

theorem HoldsText.read [DecidableEq A] (h : HoldsText stop cells text) : readText stop cells = some text := by
  rw [readText, if_pos h.stop_mem, h.takeWhile_eq]

theorem holdsText_replicate {n : ℕ} (hn : 0 < n) : HoldsText stop (List.replicate n stop) [] := by
  obtain ⟨m, rfl⟩ := Nat.exists_eq_add_of_lt hn
  rw [Nat.zero_add, List.replicate_succ]
  exact ⟨List.not_mem_nil, _, rfl⟩

/-- A text that leaves room for its end is put behind what is there. -/
theorem storeText_append (hfront : stop ∉ front) (htext : stop ∉ text)
    (hroom : text.length < tail.length) :
    ∃ cells, storeText stop (front ++ tail) front.length text = some cells ∧
      cells.length = (front ++ tail).length ∧ HoldsText stop cells (front ++ text) := by
  have hone : [stop].length ≤ (tail.drop text.length).length := by
    rw [List.length_singleton, List.length_drop]
    omega
  have hcopy := memcpy_append front (Nat.le_of_lt hroom)
  have hend := memcpy_append (front ++ text) hone
  have hstore : storeText stop (front ++ tail) front.length text =
      some (front ++ text ++ [stop] ++ (tail.drop text.length).drop [stop].length) := by
    rw [storeText, hcopy, Option.bind_some, ← List.length_append, hend]
  refine ⟨_, hstore, ?_, ?_, (tail.drop text.length).drop 1, ?_⟩
  · simp only [List.length_append, List.length_drop, List.length_singleton]
    omega
  · rw [List.mem_append, not_or]
    exact ⟨hfront, htext⟩
  · rw [List.append_assoc (front ++ text)]
    rfl

theorem storeText_start {dest : List A} (htext : stop ∉ text) (hroom : text.length < dest.length) :
    ∃ cells, storeText stop dest 0 text = some cells ∧ cells.length = dest.length ∧
      HoldsText stop cells text :=
  storeText_append List.not_mem_nil htext hroom

end Swad.CharArrays
