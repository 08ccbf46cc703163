import Mathlib.Algebra.Order.Ring.Int
import Mathlib.Data.List.Induction

/-!
Finite runs of a labelled transition relation. A run carries the list of its
labels, latest last, so properties of histories are properties of that list.
A function from state and input to state and output gives such a relation,
labelled with the inputs and the outputs they got.
-/
namespace Swad.LabelledRuns

variable {S L I O : Type*}

inductive Run (step : S → L → S → Prop) (s₀ : S) : List L → S → Prop
  | nil : Run step s₀ [] s₀
  | snoc {trace : List L} {s s' : S} {l : L} :
      Run step s₀ trace s → step s l s' → Run step s₀ (trace ++ [l]) s'

/-- Every label of a history satisfies a condition that may look at the labels
before it. -/
def Along (Q : List L → L → Prop) (trace : List L) : Prop :=
  ∀ pre l post, trace = pre ++ l :: post → Q pre l

theorem along_nil (Q : List L → L → Prop) : Along Q [] := by
  intro pre l post h
  simp at h

theorem along_snoc (Q : List L → L → Prop) (trace : List L) (l : L) :
    Along Q (trace ++ [l]) ↔ Along Q trace ∧ Q trace l := by
  constructor
  · intro h
    refine ⟨?_, h trace l [] rfl⟩
    intro pre m post heq
    exact h pre m (post ++ [l]) (by simp [heq])
  · rintro ⟨h, hl⟩ pre m post heq
    induction post using List.reverseRecOn with
    | nil =>
      obtain ⟨rfl, hm⟩ := List.append_inj' heq rfl
      obtain rfl : l = m := by simpa using hm
      exact hl
    | append_singleton post x _ =>
      rw [← List.cons_append, ← List.append_assoc] at heq
      obtain ⟨htr, _⟩ := List.append_inj' heq rfl
      exact h pre m post htr

theorem along_singleton {Q : List L → L → Prop} {l : L} : Along Q [l] ↔ Q [] l := by
  rw [← List.nil_append [l], along_snoc]
  exact and_iff_right (along_nil Q)

theorem along_append {Q : List L → L → Prop} {tr₁ tr₂ : List L} (h₁ : Along Q tr₁)
    (h₂ : ∀ pre l post, tr₂ = pre ++ l :: post → Q (tr₁ ++ pre) l) : Along Q (tr₁ ++ tr₂) := by
  induction tr₂ using List.reverseRecOn with
  | nil => simpa using h₁
  | append_singleton tr l ih =>
    rw [← List.append_assoc, along_snoc]
    refine ⟨ih fun pre m post heq => h₂ pre m (post ++ [l]) (by simp [heq]), ?_⟩
    exact h₂ tr l [] rfl

/-- The transition relation of a partial function with outputs. -/
def stepOf (f : S → I → Option (S × O)) (s : S) (l : I × O) (s' : S) : Prop :=
  f s l.1 = some (s', l.2)

variable {step : S → L → S → Prop} {s₀ : S}

theorem Run.trans {tr₁ tr₂ : List L} {s s' : S}
    (h₁ : Run step s₀ tr₁ s) (h₂ : Run step s tr₂ s') : Run step s₀ (tr₁ ++ tr₂) s' := by
  induction h₂ with
  | nil => simpa only [List.append_nil] using h₁
  | snoc _ hl ih => simpa only [List.append_assoc] using Run.snoc ih hl

theorem Run.single {s : S} {l : L} (h : step s₀ l s) : Run step s₀ [l] s :=
  Run.snoc Run.nil h

theorem Run.eq_of_nil {s : S} (h : Run step s₀ [] s) : s = s₀ := by
  generalize htr : ([] : List L) = full at h
  cases h with
  | nil => rfl
  | snoc _ _ => simp at htr

/-- The last step of a nonempty run. -/
theorem Run.last {trace : List L} {l : L} {s : S} (h : Run step s₀ (trace ++ [l]) s) :
    ∃ m, Run step s₀ trace m ∧ step m l s := by
  generalize htr : trace ++ [l] = full at h
  cases h with
  | nil => simp at htr
  | snoc hrun hl =>
    obtain ⟨rfl, hl'⟩ := List.append_inj' htr rfl
    obtain rfl : l = _ := by simpa using hl'
    exact ⟨_, hrun, hl⟩

/-- A run can be cut wherever its label list is cut. -/
theorem Run.split {tr₁ tr₂ : List L} {s : S} (h : Run step s₀ (tr₁ ++ tr₂) s) :
    ∃ m, Run step s₀ tr₁ m ∧ Run step m tr₂ s := by
  induction tr₂ using List.reverseRecOn generalizing s with
  | nil => exact ⟨s, by simpa using h, Run.nil⟩
  | append_singleton tr l ih =>
    rw [← List.append_assoc] at h
    obtain ⟨m, hm, hl⟩ := h.last
    obtain ⟨k, hk, hkm⟩ := ih hm
    exact ⟨k, hk, Run.snoc hkm hl⟩

/-- Every label of a run is taken at a state reached by the labels before it. -/
theorem Run.at {pre post : List L} {l : L} {s : S} (h : Run step s₀ (pre ++ l :: post) s) :
    ∃ m m', Run step s₀ pre m ∧ step m l m' ∧ Run step m' post s := by
  rw [show pre ++ l :: post = (pre ++ [l]) ++ post by simp] at h
  obtain ⟨m', h₁, h₂⟩ := h.split
  obtain ⟨m, hm, hl⟩ := h₁.last
  exact ⟨m, m', hm, hl, h₂⟩

/-- The state of an observer after the events it saw, if it accepts them all. -/
def track {A E : Type*} (next : A → E → Option A) (a : A) (events : List E) : Option A :=
  events.foldlM next a

/-- The history of a function determines the state. -/
theorem Run.unique {f : S → I → Option (S × O)} {s₀ s s' : S} {trace : List (I × O)}
    (h : Run (stepOf f) s₀ trace s) (h' : Run (stepOf f) s₀ trace s') : s' = s := by
  induction h generalizing s' with
  | nil => exact h'.eq_of_nil
  | snoc _ hl ih =>
    obtain ⟨m, hm, hl'⟩ := h'.last
    obtain rfl := ih hm
    exact (Prod.mk.inj (Option.some.inj (hl'.symm.trans hl))).1

/-- Run a partial function on a list of inputs: the final state and the history. -/
def exec (f : S → I → Option (S × O)) (s : S) : List I → Option (S × List (I × O))
  | [] => some (s, [])
  | i :: is =>
    (f s i).bind fun r => (exec f r.1 is).map fun q => (q.1, (i, r.2) :: q.2)

theorem exec_cons {f : S → I → Option (S × O)} {i : I} {is : List I} {s s' : S}
    {trace : List (I × O)} (h : exec f s (i :: is) = some (s', trace)) :
    ∃ m o rest, f s i = some (m, o) ∧ exec f m is = some (s', rest) ∧ trace = (i, o) :: rest := by
  simp only [exec, Option.bind_eq_some_iff, Option.map_eq_some_iff] at h
  obtain ⟨⟨m, o⟩, hstep, ⟨_, rest⟩, hexec, heq⟩ := h
  obtain ⟨rfl, rfl⟩ := Prod.mk.inj heq
  exact ⟨m, o, rest, hstep, hexec, rfl⟩

theorem run_of_exec {f : S → I → Option (S × O)} (is : List I) {s s' : S}
    {trace : List (I × O)} (h : exec f s is = some (s', trace)) :
    Run (stepOf f) s trace s' ∧ trace.map Prod.fst = is := by
  induction is generalizing s trace with
  | nil =>
    obtain ⟨rfl, rfl⟩ := Prod.mk.inj (Option.some.inj h)
    exact ⟨Run.nil, rfl⟩
  | cons i is ih =>
    obtain ⟨m, o, rest, hstep, hexec, rfl⟩ := exec_cons h
    have hfirst : stepOf f s (i, o) m := hstep
    obtain ⟨hrun, hinputs⟩ := ih hexec
    exact ⟨(Run.single hfirst).trans hrun, by simpa using hinputs⟩

theorem last_of_exec {f : S → I → Option (S × O)} {is : List I} {i : I} {s s' : S}
    {trace : List (I × O)} (h : exec f s (is ++ [i]) = some (s', trace)) :
    ∃ pre m o, Run (stepOf f) s pre m ∧ f m i = some (s', o) ∧ trace = pre ++ [(i, o)] := by
  obtain ⟨hrun, hinputs⟩ := run_of_exec _ h
  obtain ⟨pre, last, rfl, hpre, hlast⟩ := List.map_eq_append_iff.mp hinputs
  obtain ⟨⟨i', o⟩, rest, rfl, rfl, hnil⟩ := List.map_eq_cons_iff.mp hlast
  obtain rfl := List.map_eq_nil_iff.mp hnil
  obtain ⟨m, hm, hstep⟩ := hrun.last
  exact ⟨pre, m, o, hm, hstep, rfl⟩

end Swad.LabelledRuns
