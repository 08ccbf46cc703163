import Mathlib.Data.List.Induction

/-!
Two runs side by side, where each step may fail. A relation between the states of both runs
that every step keeps is kept by whole runs, and then either both runs fail, with the same
error, or none.
-/
namespace Swad.PairedRuns

variable {ε α α' β β' γ : Type}

section runs

variable {f : Except ε α} {g : α → Except ε β} {h : α → β} {c : β}

theorem bind_inv (hbind : f >>= g = .ok c) : ∃ a, f = .ok a ∧ g a = .ok c := by
  cases f with
  | error e => cases hbind
  | ok a => exact ⟨a, rfl, hbind⟩

theorem map_inv (hmap : f.map h = .ok c) : ∃ a, f = .ok a ∧ h a = c := by
  cases f with
  | error e => cases hmap
  | ok a => exact ⟨a, rfl, Except.ok.inj hmap⟩

theorem map_error_inv {e : ε} (hmap : f.map h = .error e) : f = .error e := by
  cases f with
  | error e' => exact congrArg Except.error (Except.error.inj hmap)
  | ok a => cases hmap

variable {step : α → γ → Except ε α} {a b : α}

theorem foldlM_cons_ok {x : γ} (h : step a x = .ok b) (xs : List γ) :
    (x :: xs).foldlM step a = xs.foldlM step b := by
  rw [List.foldlM_cons, h]
  rfl

theorem foldlM_append_ok {xs : List γ} (h : xs.foldlM step a = .ok b) (ys : List γ) :
    (xs ++ ys).foldlM step a = ys.foldlM step b := by
  rw [List.foldlM_append, h]
  rfl

/-- What the steps that a run reaches keep, the whole run keeps. -/
theorem foldlM_keeps {P : α → Prop} {xs : List γ} (hstart : P a)
    (hstep : ∀ pre x post b c, xs = pre ++ x :: post → pre.foldlM step a = .ok b → P b →
      step b x = .ok c → P c) :
    ∀ pre post b, xs = pre ++ post → pre.foldlM step a = .ok b → P b := by
  intro pre
  induction pre using List.reverseRecOn with
  | nil =>
    intro post b _ hrun
    exact Except.ok.inj hrun ▸ hstart
  | append_singleton pre x ih =>
    intro post c hxs hrun
    rw [List.append_assoc, List.singleton_append] at hxs
    rw [List.foldlM_append] at hrun
    obtain ⟨b, hb, hlast⟩ := bind_inv hrun
    obtain ⟨c', hc, heq⟩ := bind_inv hlast
    obtain rfl := Except.ok.inj heq
    exact hstep pre x post b c' hxs hb (ih (x :: post) b hxs hb) hc

/-- A run fails in one of its steps. -/
theorem foldlM_error_inv {e : ε} {xs : List γ} (h : xs.foldlM step a = .error e) :
    ∃ pre x post b, xs = pre ++ x :: post ∧ pre.foldlM step a = .ok b ∧ step b x = .error e := by
  induction xs generalizing a with
  | nil => cases h
  | cons x xs ih =>
    rw [List.foldlM_cons] at h
    cases hstep : step a x with
    | error e' =>
      rw [hstep] at h
      exact ⟨[], x, xs, a, rfl, rfl, hstep.trans h⟩
    | ok a' =>
      rw [hstep] at h
      obtain ⟨pre, y, post, b, hxs, hrun, hfail⟩ := ih h
      exact ⟨x :: pre, y, post, b, by rw [hxs, List.cons_append],
        (foldlM_cons_ok hstep pre).trans hrun, hfail⟩

end runs

/-- Both results fail with the same error, or both are values that are related. -/
def Paired (R : α → α' → Prop) : Except ε α → Except ε α' → Prop
  | .error e, .error e' => e = e'
  | .ok a, .ok a' => R a a'
  | _, _ => False

variable {R : α → α' → Prop} {S : β → β' → Prop} {f : Except ε α} {f' : Except ε α'}

theorem paired_refl {R : α → α → Prop} (hR : ∀ a, R a a) (f : Except ε α) : Paired R f f := by
  cases f with
  | error e => rfl
  | ok a => exact hR a

theorem paired_bind {g : α → Except ε β} {g' : α' → Except ε β'} (h : Paired R f f')
    (hg : ∀ a a', R a a' → Paired S (g a) (g' a')) : Paired S (f >>= g) (f' >>= g') := by
  cases f with
  | error e => cases f' with
    | error e' => exact h
    | ok a' => cases h
  | ok a => cases f' with
    | error e' => cases h
    | ok a' => exact hg a a' h

theorem paired_map {g : α → β} {g' : α' → β'} (h : Paired R f f')
    (hg : ∀ a a', R a a' → S (g a) (g' a')) : Paired S (f.map g) (f'.map g') := by
  cases f with
  | error e => cases f' with
    | error e' => exact h
    | ok a' => cases h
  | ok a => cases f' with
    | error e' => cases h
    | ok a' => exact hg a a' h

/-- What related results show is the same. -/
theorem paired_map_eq {g : α → γ} {g' : α' → γ} (h : Paired R f f')
    (hg : ∀ a a', R a a' → g a = g' a') : f.map g = f'.map g' := by
  cases f with
  | error e => cases f' with
    | error e' => exact congrArg Except.error h
    | ok a' => cases h
  | ok a => cases f' with
    | error e' => cases h
    | ok a' => exact congrArg Except.ok (hg a a' h)

/-- Whole runs keep what every step keeps. -/
theorem paired_foldlM {step : α → γ → Except ε α} {step' : α' → γ → Except ε α'}
    (hstep : ∀ a a' x, R a a' → Paired R (step a x) (step' a' x)) (xs : List γ) {a : α} {a' : α'}
    (h : R a a') : Paired R (xs.foldlM step a) (xs.foldlM step' a') := by
  induction xs generalizing a a' with
  | nil => exact h
  | cons x xs ih =>
    rw [List.foldlM_cons, List.foldlM_cons]
    exact paired_bind (hstep a a' x h) fun b b' hb => ih hb

end Swad.PairedRuns
