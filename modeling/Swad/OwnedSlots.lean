import Mathlib.Data.List.Basic
import Mathlib.Logic.Function.Basic

/-!
Slots that hold pointers to texts. A block is taken for every copy, and given back when its
slot is set again; a pointer that was fetched from a slot may be used as long as the slot is
left alone. Every operation is undefined where it would read or free a block that is not
live.
-/
namespace Swad.OwnedSlots

variable {K T : Type}

/-- A block, or a text that outlives all slots. -/
inductive Ptr (T : Type)
  | block (a : ℕ)
  | fixed (t : T)
  deriving DecidableEq

structure Memory (K T : Type) where
  blocks : ℕ → Option T
  allocated : ℕ
  slots : K → Option (Ptr T)
  deleter : K → Bool

namespace Memory

def init : Memory K T := ⟨fun _ => none, 0, fun _ => none, fun _ => false⟩

def read (self : Memory K T) : Ptr T → Option T
  | .block a => self.blocks a
  | .fixed t => some t

/-- A null pointer may be freed. -/
def free (self : Memory K T) : Option (Ptr T) → Option (Memory K T)
  | none => some self
  | some (.fixed _) => none
  | some (.block a) =>
    (self.blocks a).map fun _ => { self with blocks := Function.update self.blocks a none }

def copy (self : Memory K T) (t : T) : Memory K T × Ptr T :=
  ({ self with
    blocks := Function.update self.blocks self.allocated (some t)
    allocated := self.allocated + 1 }, .block self.allocated)

def release (self : Memory K T) (k : K) : Option (Memory K T) :=
  if self.deleter k then self.free (self.slots k) else some self

variable [DecidableEq K]

def put (self : Memory K T) (k : K) (value : Option (Ptr T)) (deleter : Bool) : Memory K T :=
  { self with
    slots := Function.update self.slots k value
    deleter := Function.update self.deleter k deleter }

def set (self : Memory K T) (k : K) (value : Option (Ptr T)) (deleter : Bool) :
    Option (Memory K T) :=
  (self.release k).map fun self => self.put k value deleter

/-- The text is copied before the slot gives up its old one. -/
def setCopy (self : Memory K T) (k : K) (p : Ptr T) : Option (Memory K T) := do
  let t ← self.read p
  (self.copy t).1.set k (some (self.copy t).2) true

def clear (self : Memory K T) (k : K) : Option (Memory K T) := self.set k none false

/-- All the slots are cleared, one after the other. -/
def destroy (self : Memory K T) (ks : List K) : Option (Memory K T) := ks.foldlM clear self

end Memory

/-- The slots hold these texts, each in its own block, which it frees. -/
structure Slotted (m : Memory K T) (v : K → Option T) : Prop where
  texts : ∀ k, (m.slots k).map m.read = (v k).map some
  freed : ∀ k p, m.slots k = some p → m.deleter k = true → ∃ a, p = .block a
  owned : ∀ k a, m.slots k = some (.block a) → m.deleter k = true
  apart : ∀ k k' a, m.slots k = some (.block a) → m.slots k' = some (.block a) → k = k'
  fresh : ∀ a, m.allocated ≤ a → m.blocks a = none

/-- There are no other blocks. -/
structure Holds (m : Memory K T) (v : K → Option T) : Prop extends Slotted m v where
  live : ∀ a t, m.blocks a = some t → ∃ k, m.slots k = some (.block a)

/-- A block must be live and in no slot yet, and is to be freed. -/
structure Fits (m : Memory K T) (value : Option (Ptr T)) (deleter : Bool) : Prop where
  block : ∀ a, value = some (.block a) →
    deleter = true ∧ (m.blocks a).isSome ∧ ∀ k, m.slots k ≠ some (.block a)
  fixed : ∀ t, value = some (.fixed t) → deleter = false

section specs

variable {m : Memory K T} {v : K → Option T} {k : K} {p : Ptr T} {t : T}

theorem Holds.init : Holds (Memory.init : Memory K T) fun _ => none where
  texts _ := rfl
  freed := nofun
  owned := nofun
  apart := nofun
  live := nofun
  fresh _ _ := rfl

/-- A pointer that is fetched can be read. -/
theorem Slotted.get (h : Slotted m v) (hp : m.slots k = some p) :
    ∃ t, m.read p = some t ∧ v k = some t := by
  have htexts := h.texts k
  rw [hp, Option.map_some] at htexts
  obtain ⟨t, hv, heq⟩ := Option.map_eq_some_iff.mp htexts.symm
  exact ⟨t, heq.symm, hv⟩

theorem Slotted.slot (h : Slotted m v) (k : K) (hv : v k = some t) :
    ∃ p, m.slots k = some p ∧ m.read p = some t := by
  have htexts := h.texts k
  rw [hv, Option.map_some] at htexts
  exact Option.map_eq_some_iff.mp htexts

theorem Slotted.null (h : Slotted m v) (k : K) (hv : v k = none) : m.slots k = none := by
  rw [← Option.map_eq_none_iff (f := m.read), h.texts k, hv, Option.map_none]

theorem Slotted.lt (h : Slotted m v) {a : ℕ} (ha : m.slots k = some (.block a)) :
    a < m.allocated := by
  obtain ⟨t, hread, _⟩ := h.get ha
  by_contra hge
  have hsome : m.blocks a = some t := hread
  rw [h.fresh a (Nat.le_of_not_lt hge)] at hsome
  cases hsome

/-- A copy is in a block of its own. -/
theorem Slotted.copy (h : Slotted m v) (t : T) : Slotted (m.copy t).1 v where
  texts k := by
    rw [← h.texts k]
    cases hslot : m.slots k with
    | none =>
      show (m.slots k).map _ = _
      rw [hslot]
      rfl
    | some p =>
      show (m.slots k).map _ = _
      rw [hslot]
      cases p with
      | fixed t' => rfl
      | block a => exact congrArg some (Function.update_of_ne (Nat.ne_of_lt (h.lt hslot)) _ _)
  freed := h.freed
  owned := h.owned
  apart := h.apart
  fresh a ha := by
    have hlt : m.allocated < a := ha
    exact (Function.update_of_ne (Nat.ne_of_gt hlt) _ _).trans (h.fresh a (Nat.le_of_lt hlt))

theorem Slotted.fits_copy (h : Slotted m v) (t : T) :
    Fits (m.copy t).1 (some (m.copy t).2) true where
  block a ha := by
    obtain rfl : m.allocated = a := Ptr.block.inj (Option.some.inj ha)
    refine ⟨rfl, ?_, fun k hk => Nat.lt_irrefl _ (h.lt hk)⟩
    show (Function.update m.blocks m.allocated (some t) m.allocated).isSome = true
    rw [Function.update_self]
    rfl
  fixed t' ht' := by cases ht'

/-- What a slot had is freed: the other slots keep their texts, and nothing is left of it. -/
theorem Slotted.release (h : Slotted m v) (k : K) :
    ∃ m', m.release k = some m' ∧
      m'.slots = m.slots ∧ m'.deleter = m.deleter ∧ m'.allocated = m.allocated ∧
      (∀ p, (∀ a, p = .block a → m.slots k ≠ some (.block a)) → m'.read p = m.read p) ∧
      (∀ a t, m'.blocks a = some t → m.blocks a = some t ∧ m.slots k ≠ some (.block a)) := by
  unfold Memory.release
  by_cases hdeleter : m.deleter k = true
  · rw [if_pos hdeleter]
    cases hslot : m.slots k with
    | none => exact ⟨m, rfl, rfl, rfl, rfl, fun _ _ => rfl, fun a t ha => ⟨ha, nofun⟩⟩
    | some p =>
      obtain ⟨a, rfl⟩ := h.freed k p hslot hdeleter
      obtain ⟨t, hread, _⟩ := h.get hslot
      have hblock : m.blocks a = some t := hread
      rw [Memory.free, hblock]
      refine ⟨{ m with blocks := Function.update m.blocks a none }, rfl, rfl, rfl, rfl,
        fun p hp => ?_, fun b t' hb => ?_⟩
      · cases p with
        | fixed t' => rfl
        | block b =>
          have hother : b ≠ a := by
            rintro rfl
            exact hp b rfl rfl
          exact Function.update_of_ne hother _ _
      · have hblock' : Function.update m.blocks a none b = some t' := hb
        have hother : b ≠ a := by
          rintro rfl
          rw [Function.update_self] at hblock'
          cases hblock'
        rw [Function.update_of_ne hother] at hblock'
        exact ⟨hblock', fun heq => hother (Ptr.block.inj (Option.some.inj heq)).symm⟩
  · rw [if_neg hdeleter]
    refine ⟨m, rfl, rfl, rfl, rfl, fun _ _ => rfl, fun a t ha => ⟨ha, fun heq => ?_⟩⟩
    exact hdeleter (h.owned k a heq)

variable [DecidableEq K]

/-- A slot is set. The other slots are left alone, and so are their texts. -/
theorem Slotted.set (h : Slotted m v) (k : K) {value : Option (Ptr T)} {deleter : Bool}
    (hfits : Fits m value deleter)
    (hlive : ∀ a t, m.blocks a = some t →
      (∃ k', m.slots k' = some (.block a)) ∨ value = some (.block a)) :
    ∃ m', m.set k value deleter = some m' ∧
      Holds m' (Function.update v k (value.bind m.read)) ∧
      ∀ k' ≠ k, m'.slots k' = m.slots k' := by
  obtain ⟨m', hrelease, hslots, hdeleter, hallocated, hread, hblocks⟩ := h.release k
  have hother : ∀ k' ≠ k, (m'.put k value deleter).slots k' = m.slots k' := by
    intro k' hne
    rw [← hslots]
    exact Function.update_of_ne hne _ _
  have hown : (m'.put k value deleter).slots k = value := Function.update_self _ _ _
  have hnew : ∀ a, value = some (.block a) → m'.read (.block a) = m.read (.block a) := by
    intro a ha
    refine hread _ fun b hb hk => ?_
    rw [← hb] at hk
    exact (hfits.block a ha).2.2 k hk
  refine ⟨m'.put k value deleter, by rw [Memory.set, hrelease]; rfl, ?_, hother⟩
  refine ⟨⟨fun k' => ?_, fun k' p hp hdel => ?_, fun k' a hp => ?_, fun k₁ k₂ a h₁ h₂ => ?_,
    fun a ha => ?_⟩, fun a t' ha => ?_⟩
  · by_cases heq : k' = k
    · subst heq
      rw [hown, Function.update_self]
      cases value with
      | none => rfl
      | some p =>
        rw [Option.map_some, Option.bind_some]
        cases p with
        | fixed t => rfl
        | block a =>
          obtain ⟨_, hsome, _⟩ := hfits.block a rfl
          obtain ⟨t, ht⟩ := Option.isSome_iff_exists.mp hsome
          have hsame : m'.read (.block a) = m.read (.block a) := hnew a rfl
          show some (m'.read (.block a)) = (m.read (.block a)).map some
          rw [hsame]
          show some (m.blocks a) = (m.blocks a).map some
          rw [ht]
          rfl
    · rw [hother k' heq, Function.update_of_ne heq, ← h.texts k']
      cases hslot : m.slots k' with
      | none => rfl
      | some p =>
        refine congrArg some (hread p fun a hpa hk => heq ?_)
        rw [hpa] at hslot
        exact h.apart k' k a hslot hk
  · by_cases heq : k' = k
    · subst heq
      rw [hown] at hp
      have hdel' : deleter = true := by
        rw [← hdel]
        exact (Function.update_self k' deleter m'.deleter).symm
      cases p with
      | block a => exact ⟨a, rfl⟩
      | fixed t =>
        rw [hfits.fixed t hp] at hdel'
        cases hdel'
    · rw [hother k' heq] at hp
      refine h.freed k' p hp ?_
      rw [← hdel, ← hdeleter]
      exact (Function.update_of_ne heq _ _).symm
  · by_cases heq : k' = k
    · subst heq
      rw [hown] at hp
      refine Eq.trans (Function.update_self _ _ _) (hfits.block a hp).1
    · rw [hother k' heq] at hp
      refine Eq.trans (Function.update_of_ne heq _ _) ?_
      rw [hdeleter]
      exact h.owned k' a hp
  · have hmixed : ∀ k', k' ≠ k → (m'.put k value deleter).slots k' = some (.block a) →
        value ≠ some (.block a) := by
      intro k' hne hk' hvalue
      rw [hother k' hne] at hk'
      exact (hfits.block a hvalue).2.2 k' hk'
    by_cases heq₁ : k₁ = k
    · by_cases heq₂ : k₂ = k
      · rw [heq₁, heq₂]
      · rw [heq₁, hown] at h₁
        exact absurd h₁ (hmixed k₂ heq₂ h₂)
    · by_cases heq₂ : k₂ = k
      · rw [heq₂, hown] at h₂
        exact absurd h₂ (hmixed k₁ heq₁ h₁)
      · rw [hother k₁ heq₁] at h₁
        rw [hother k₂ heq₂] at h₂
        exact h.apart k₁ k₂ a h₁ h₂
  · have hle : m.allocated ≤ a := by
      rw [← hallocated]
      exact ha
    cases hblock : m'.blocks a with
    | none => exact hblock
    | some t' =>
      have hnone := h.fresh a hle
      rw [(hblocks a t' hblock).1] at hnone
      cases hnone
  · obtain ⟨hold, hnot⟩ := hblocks a t' ha
    rcases hlive a t' hold with ⟨k', hk'⟩ | hvalue
    · have hne : k' ≠ k := fun heq => hnot (heq ▸ hk')
      exact ⟨k', (hother k' hne).trans hk'⟩
    · exact ⟨k, hown.trans hvalue⟩

/-- A slot is set to nothing, or to a text that outlives it. -/
theorem Holds.setFixed (h : Holds m v) (k : K) (t : Option T) :
    ∃ m', m.set k (t.map .fixed) false = some m' ∧ Holds m' (Function.update v k t) ∧
      ∀ k' ≠ k, m'.slots k' = m.slots k' := by
  have hfits : Fits m (t.map .fixed) false := by
    refine ⟨fun a ha => ?_, fun _ _ => rfl⟩
    cases t <;> cases ha
  obtain ⟨m', hset, hholds, hothers⟩ :=
    h.toSlotted.set k hfits fun a t' ha => Or.inl (h.live a t' ha)
  have hvalue : (t.map Ptr.fixed).bind m.read = t := by cases t <;> rfl
  rw [hvalue] at hholds
  exact ⟨m', hset, hholds, hothers⟩

theorem Holds.clear (h : Holds m v) (k : K) :
    ∃ m', m.clear k = some m' ∧ Holds m' (Function.update v k none) ∧
      ∀ k' ≠ k, m'.slots k' = m.slots k' :=
  h.setFixed k none

/-- A slot is set to a copy of a text that can be read, which may be its own. -/
theorem Holds.setCopy (h : Holds m v) (k : K) (hp : m.read p = some t) :
    ∃ m', m.setCopy k p = some m' ∧ Holds m' (Function.update v k (some t)) ∧
      ∀ k' ≠ k, m'.slots k' = m.slots k' := by
  have hlive : ∀ a t', (m.copy t).1.blocks a = some t' →
      (∃ k', (m.copy t).1.slots k' = some (.block a)) ∨
        some (m.copy t).2 = some (.block a) := by
    intro a t' ha
    by_cases heq : a = m.allocated
    · exact Or.inr (by rw [heq]; rfl)
    · have hold : m.blocks a = some t' := (Function.update_of_ne heq _ _).symm.trans ha
      exact Or.inl (h.live a t' hold)
  obtain ⟨m', hset, hholds, hothers⟩ := (h.toSlotted.copy t).set k (h.toSlotted.fits_copy t) hlive
  have hvalue : (some (m.copy t).2).bind (m.copy t).1.read = some t := by
    show Function.update m.blocks m.allocated (some t) m.allocated = some t
    exact Function.update_self _ _ _
  rw [hvalue] at hholds
  refine ⟨m', ?_, hholds, hothers⟩
  unfold Memory.setCopy
  rw [hp]
  exact hset

/-- When all slots were cleared, no block is left. -/
theorem Holds.destroy (h : Holds m v) {ks : List K} (hks : ∀ k, v k = none ∨ k ∈ ks) :
    ∃ m', m.destroy ks = some m' ∧ ∀ a, m'.blocks a = none := by
  induction ks generalizing m v with
  | nil =>
    refine ⟨m, rfl, fun a => ?_⟩
    cases hblock : m.blocks a with
    | none => rfl
    | some t =>
      obtain ⟨k, hk⟩ := h.live a t hblock
      obtain ⟨_, _, hv⟩ := h.toSlotted.get hk
      rcases hks k with hnone | hmem
      · rw [hnone] at hv
        cases hv
      · cases hmem
  | cons k ks ih =>
    obtain ⟨m₁, hclear, hholds, _⟩ := h.clear k
    obtain ⟨m', hdestroy, hblocks⟩ := ih hholds fun k' => by
      by_cases heq : k' = k
      · exact Or.inl (by rw [heq, Function.update_self])
      · rw [Function.update_of_ne heq]
        rcases hks k' with hnone | hmem
        · exact Or.inl hnone
        · exact Or.inr ((List.mem_cons.mp hmem).resolve_left heq)
    refine ⟨m', ?_, hblocks⟩
    unfold Memory.destroy
    rw [List.foldlM_cons, hclear]
    exact hdestroy

end specs

end Swad.OwnedSlots
