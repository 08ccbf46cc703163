import Mathlib.Algebra.Order.Ring.Int
import Mathlib.Data.List.Induction

/-!
A register that a history of events writes. Each event leaves the register alone,
stores a value or clears it, so the content after a history is what the last event
that touched it left there.
-/
namespace Swad.Registers

variable {E A : Type*}

/-- What one event does to a register. -/
inductive Effect (A : Type*)
  | keep
  | store (a : A)
  | clear

def Effect.apply (content : Option A) : Effect A → Option A
  | .keep => content
  | .store a => some a
  | .clear => none

/-- The content of a register after some events. -/
def update (effect : E → Effect A) (content : Option A) (events : List E) : Option A :=
  events.foldl (fun a e => (effect e).apply a) content

/-- The content of a register that was empty before a history. -/
def content (effect : E → Effect A) (history : List E) : Option A := update effect none history

variable {effect : E → Effect A}

@[simp] theorem update_nil (a : Option A) : update effect a [] = a := rfl

@[simp] theorem update_cons (a : Option A) (e : E) (events : List E) :
    update effect a (e :: events) = update effect ((effect e).apply a) events := rfl

@[simp] theorem content_nil : content effect [] = none := rfl

theorem content_append (history events : List E) :
    content effect (history ++ events) = update effect (content effect history) events :=
  List.foldl_append ..

theorem content_snoc (history : List E) (e : E) :
    content effect (history ++ [e]) = (effect e).apply (content effect history) :=
  content_append ..

/-- A content was stored by an event that none after it has touched. -/
theorem content_eq_some {history : List E} {a : A} (h : content effect history = some a) :
    ∃ before e after, history = before ++ e :: after ∧ effect e = .store a ∧
      ∀ x ∈ after, effect x = .keep := by
  induction history using List.reverseRecOn with
  | nil => simp at h
  | append_singleton history e ih =>
    rw [content_snoc] at h
    cases heffect : effect e with
    | keep =>
      rw [heffect, Effect.apply] at h
      obtain ⟨before, x, after, rfl, hstore, hkeep⟩ := ih h
      refine ⟨before, x, after ++ [e], by simp, hstore, fun y hy => ?_⟩
      rcases List.mem_append.mp hy with hold | hnew
      · exact hkeep y hold
      · rw [List.mem_singleton.mp hnew]
        exact heffect
    | store b =>
      rw [heffect, Effect.apply] at h
      obtain rfl := Option.some.inj h
      exact ⟨history, e, [], rfl, heffect, by simp⟩
    | clear =>
      rw [heffect, Effect.apply] at h
      exact absurd h (by simp)

/-- After an event that clears the register, a content comes from a later event. -/
theorem stored_after_clear {before after : List E} {e : E} {a : A} (hclear : effect e = .clear)
    (h : content effect (before ++ e :: after) = some a) : ∃ x ∈ after, effect x = .store a := by
  induction after using List.reverseRecOn with
  | nil =>
    rw [content_snoc, hclear, Effect.apply] at h
    exact absurd h (by simp)
  | append_singleton after x ih =>
    rw [← List.cons_append, ← List.append_assoc, content_snoc] at h
    cases heffect : effect x with
    | keep =>
      rw [heffect, Effect.apply] at h
      obtain ⟨y, hy, hstore⟩ := ih h
      exact ⟨y, List.mem_append_left _ hy, hstore⟩
    | store b =>
      rw [heffect, Effect.apply] at h
      obtain rfl := Option.some.inj h
      exact ⟨x, by simp, heffect⟩
    | clear =>
      rw [heffect, Effect.apply] at h
      exact absurd h (by simp)

end Swad.Registers
