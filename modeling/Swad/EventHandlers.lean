import Mathlib.Algebra.Order.Ring.Int
import Mathlib.Data.List.Count

/-!
Events with handlers. Raising an event calls the handlers that are registered at that time, in
their order; one that another has removed is not called. If only one handler changes a state
and it is registered once, then raising the event is calling this handler.
-/
namespace Swad.EventHandlers

variable {H S : Type*} [DecidableEq H]

def raise (registered : S → List H) (call : H → S → S) (s : S) : S :=
  (registered s).foldl (fun s h => if h ∈ registered s then call h s else s) s

variable {registered : S → List H} {call : H → S → S} {s : S} {h : H}

/-- Calls of handlers that change nothing. -/
theorem foldl_silent {l : List H} (hsilent : ∀ g ∈ l, call g s = s) :
    l.foldl (fun s h => if h ∈ registered s then call h s else s) s = s := by
  induction l with
  | nil => rfl
  | cons g l ih =>
    obtain ⟨hg, hl⟩ := List.forall_mem_cons.mp hsilent
    rw [List.foldl_cons, hg, ite_self]
    exact ih hl

theorem raise_absent (hsilent : ∀ g, g ≠ h → ∀ s, call g s = s) (habsent : h ∉ registered s) :
    raise registered call s = s :=
  foldl_silent fun g hg => hsilent g (fun heq => habsent (heq ▸ hg)) s

theorem raise_once (hsilent : ∀ g, g ≠ h → ∀ s, call g s = s)
    (honce : (registered s).count h = 1) : raise registered call s = call h s := by
  have hmem : h ∈ registered s := List.one_le_count_iff.mp honce.ge
  obtain ⟨before, after, hsplit⟩ := List.append_of_mem hmem
  rw [hsplit, List.count_append, List.count_cons_self] at honce
  have hbefore : h ∉ before := List.count_eq_zero.mp (by omega)
  have hafter : h ∉ after := List.count_eq_zero.mp (by omega)
  rw [raise, hsplit, List.foldl_append,
    foldl_silent fun g hg => hsilent g (fun heq => hbefore (heq ▸ hg)) s, List.foldl_cons,
    if_pos hmem]
  exact foldl_silent fun g hg => hsilent g (fun heq => hafter (heq ▸ hg)) _

end Swad.EventHandlers
