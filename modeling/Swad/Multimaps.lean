import Mathlib.Algebra.BigOperators.Group.List.Basic
import Mathlib.Algebra.Order.Ring.Int

/-!
Lists of entries with keys, in the order of insertion, and the parts of such a list that a
hash table keeps in its buckets. What looks for a key, or takes its entries away, finds in
the bucket of the key what it would find in the whole list, and leaves the other buckets as
they are.
-/
namespace Swad.Multimaps

variable {α κ β : Type*} [DecidableEq β]

section buckets

variable (key : α → κ) (hash : κ → β)

def bucket (entries : List α) (b : β) : List α := entries.filter fun x => hash (key x) = b

variable {key hash} {p : α → Bool} {k : κ}

theorem bucket_cons_of_eq {x : α} {b : β} (h : hash (key x) = b) (entries : List α) :
    bucket key hash (x :: entries) b = x :: bucket key hash entries b :=
  List.filter_cons_of_pos (decide_eq_true h)

theorem bucket_cons_of_ne {x : α} {b : β} (h : hash (key x) ≠ b) (entries : List α) :
    bucket key hash (x :: entries) b = bucket key hash entries b :=
  List.filter_cons_of_neg (by simpa using h)

theorem bucket_append (entries : List α) (x : α) (b : β) :
    bucket key hash (entries ++ [x]) b =
      bucket key hash entries b ++ if hash (key x) = b then [x] else [] := by
  have hsplit : bucket key hash (entries ++ [x]) b =
      bucket key hash entries b ++ bucket key hash [x] b := List.filter_append ..
  rw [hsplit]
  by_cases hb : hash (key x) = b
  · rw [if_pos hb, bucket_cons_of_eq hb]
    rfl
  · rw [if_neg hb, bucket_cons_of_ne hb]
    rfl

/-- What a predicate selects among the entries of one key is in the bucket of this key. -/
theorem filter_bucket (hp : ∀ x, p x = true → key x = k) (entries : List α) :
    (bucket key hash entries (hash k)).filter p = entries.filter p := by
  unfold bucket
  rw [List.filter_filter]
  apply List.filter_congr
  intro x _
  cases hx : p x with
  | false => rfl
  | true => rw [hp x hx, decide_eq_true rfl, Bool.and_self]

theorem find?_bucket (hp : ∀ x, p x = true → key x = k) (entries : List α) :
    (bucket key hash entries (hash k)).find? p = entries.find? p := by
  rw [← List.head?_filter, ← List.head?_filter, filter_bucket hp]

theorem bucket_eraseP (hp : ∀ x, p x = true → key x = k) (entries : List α) (b : β) :
    bucket key hash (entries.eraseP p) b =
      if b = hash k then (bucket key hash entries b).eraseP p else bucket key hash entries b := by
  induction entries with
  | nil =>
    split <;> rfl
  | cons x entries ih =>
    by_cases hx : p x = true
    · rw [List.eraseP_cons_of_pos hx]
      by_cases hb : hash (key x) = b
      · have hbk : b = hash k := by rw [← hb, hp x hx]
        rw [if_pos hbk, bucket_cons_of_eq hb, List.eraseP_cons_of_pos hx]
      · have hbk : b ≠ hash k := by
          rw [← hp x hx]
          exact Ne.symm hb
        rw [if_neg hbk, bucket_cons_of_ne hb]
    · rw [List.eraseP_cons_of_neg hx]
      by_cases hb : hash (key x) = b
      · rw [bucket_cons_of_eq hb, bucket_cons_of_eq hb, ih, List.eraseP_cons_of_neg hx]
        split <;> rfl
      · rw [bucket_cons_of_ne hb, bucket_cons_of_ne hb, ih]

end buckets

/-! ### Taking entries away one by one -/

section erasing

variable {p q : α → Bool} {x : α}

/-- The list around the first entry that a predicate selects. -/
theorem exists_first {entries : List α} (h : entries.find? p = some x) :
    p x = true ∧ ∃ l r, entries = l ++ x :: r ∧ entries.eraseP p = l ++ r ∧
      ∀ y ∈ l, p y = false := by
  obtain ⟨hx, l, r, hsplit, hl⟩ := List.find?_eq_some_iff_append.mp h
  have hnot : ∀ y ∈ l, ¬ p y = true := by
    intro y hy
    simpa using hl y hy
  refine ⟨hx, l, r, hsplit, ?_, ?_⟩
  · rw [hsplit, List.eraseP_append_right _ hnot, List.eraseP_cons_of_pos hx]
  · intro y hy
    simpa using hl y hy

theorem sum_eraseP {entries : List α} (h : entries.find? p = some x) (f : α → ℕ) :
    (entries.map f).sum = ((entries.eraseP p).map f).sum + f x := by
  obtain ⟨_, l, r, hsplit, herase, _⟩ := exists_first h
  rw [herase, hsplit, List.map_append, List.map_append, List.map_cons, List.sum_append,
    List.sum_append, List.sum_cons]
  omega

theorem length_eraseP {entries : List α} (h : entries.find? p = some x) :
    entries.length = (entries.eraseP p).length + 1 := by
  obtain ⟨_, l, r, hsplit, herase, _⟩ := exists_first h
  rw [herase, hsplit, List.length_append, List.length_append, List.length_cons]
  omega

theorem filter_eraseP {entries : List α} (h : entries.find? p = some x) (hq : q x = false) :
    (entries.eraseP p).filter q = entries.filter q := by
  obtain ⟨_, l, r, hsplit, herase, _⟩ := exists_first h
  rw [herase, hsplit, List.filter_append, List.filter_append,
    List.filter_cons_of_neg (by rw [hq]; exact Bool.false_ne_true)]

theorem length_filter_eraseP {entries : List α} (h : entries.find? p = some x) :
    (entries.filter p).length = ((entries.eraseP p).filter p).length + 1 := by
  obtain ⟨hx, l, r, hsplit, herase, _⟩ := exists_first h
  rw [herase, hsplit, List.filter_append, List.filter_append, List.filter_cons_of_pos hx,
    List.length_append, List.length_append, List.length_cons]
  omega

end erasing

end Swad.Multimaps
