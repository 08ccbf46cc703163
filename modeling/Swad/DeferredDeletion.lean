import Mathlib.Data.List.Nodup
import Mathlib.Data.Nat.Notation
import Mathlib.Logic.Function.Basic

/-!
Objects that are deleted at once or when all events are done. An object whose deletion
is scheduled cannot be deleted at once, so the handler that deletes it still finds it.
Whatever touches an object that is not there is undefined.
-/
namespace Swad.DeferredDeletion

variable {V : Type*}

structure Object (V : Type*) where
  val : V
  deleteScheduled : ℕ

structure Pool (V : Type*) where
  object : ℕ → Option (Object V)
  eventsDone : List ℕ
  created : ℕ

namespace Pool

def empty : Pool V := ⟨fun _ => none, [], 0⟩

def get (self : Pool V) (a : ℕ) : Option V := (self.object a).map Object.val

def put (self : Pool V) (a : ℕ) (x : Option (Object V)) : Pool V :=
  { self with object := Function.update self.object a x }

def create (self : Pool V) (v : V) : Pool V :=
  { self.put self.created (some ⟨v, 0⟩) with created := self.created + 1 }

def modify (self : Pool V) (a : ℕ) (g : V → V) : Option (Pool V) :=
  (self.object a).map fun o => self.put a (some ⟨g o.val, o.deleteScheduled⟩)

def destroy (self : Pool V) (a : ℕ) : Option (Pool V) :=
  (self.object a).map fun o =>
    if o.deleteScheduled = 1 then self
    else if o.deleteScheduled = 0 then self.put a none
    else { self.put a none with eventsDone := self.eventsDone.erase a }

def deleteLater (self : Pool V) (a : ℕ) : Option (Pool V) :=
  (self.object a).map fun o =>
    if o.deleteScheduled = 0 then
      { self.put a (some ⟨o.val, 1⟩) with eventsDone := self.eventsDone ++ [a] }
    else self

/-- The handler of an object whose deletion was scheduled. -/
def deleteNow (self : Pool V) (a : ℕ) : Option (Pool V) :=
  (self.object a).bind fun o => (self.put a (some ⟨o.val, 2⟩)).destroy a

/-- All events are done: the handlers are called in their order. -/
def collect (self : Pool V) : Option (Pool V) :=
  self.eventsDone.foldlM (fun pool a => if a ∈ pool.eventsDone then pool.deleteNow a else some pool)
    self

/-- An object that nobody has given up yet. -/
def Owned (self : Pool V) (a : ℕ) (v : V) : Prop := self.object a = some ⟨v, 0⟩

structure WellFormed (pool : Pool V) : Prop where
  nodup : pool.eventsDone.Nodup
  scheduled : ∀ a, a ∈ pool.eventsDone ↔ ∃ v, pool.object a = some ⟨v, 1⟩
  flag : ∀ a o, pool.object a = some o → o.deleteScheduled ≤ 1
  bound : ∀ a, pool.created ≤ a → pool.object a = none

variable {self : Pool V} {a : ℕ} {v w : V}

@[simp] theorem put_self (x : Option (Object V)) : (self.put a x).object a = x :=
  Function.update_self ..

theorem put_of_ne {b : ℕ} (hb : b ≠ a) (x : Option (Object V)) :
    (self.put a x).object b = self.object b :=
  Function.update_of_ne hb ..

theorem wellFormed_empty : WellFormed (empty : Pool V) where
  nodup := List.nodup_nil
  scheduled _ := iff_of_false List.not_mem_nil fun ⟨_, h⟩ => nomatch h
  flag _ _ h := nomatch h
  bound _ _ := rfl

theorem Owned.get (h : self.Owned a v) : self.get a = some v := by
  rw [Pool.get, h]
  rfl

theorem WellFormed.lt_created (h : WellFormed self) (ha : self.Owned a v) : a < self.created := by
  by_contra hle
  have hnone := h.bound a (by omega)
  rw [ha] at hnone
  cases hnone

theorem WellFormed.notMem (h : WellFormed self) (ha : self.Owned a v) : a ∉ self.eventsDone := by
  rw [h.scheduled, ha]
  simp

theorem owned_create (v : V) : (self.create v).Owned self.created v := put_self _

theorem WellFormed.create_of_ne (h : WellFormed self) (ha : self.Owned a v) (w : V) :
    (self.create w).Owned a v := by
  have hlt := h.lt_created ha
  exact (put_of_ne (by omega) _).trans ha

theorem WellFormed.create (h : WellFormed self) (v : V) : WellFormed (self.create v) := by
  have hnone := h.bound _ (Nat.le_refl self.created)
  refine ⟨h.nodup, fun a => ?_, fun a o ho => ?_, fun a ha => ?_⟩
  · by_cases ha : a = self.created
    · subst ha
      refine iff_of_false (fun hmem => ?_) ?_
      · obtain ⟨w, hw⟩ := (h.scheduled _).mp hmem
        rw [hnone] at hw
        cases hw
      · rintro ⟨w, hw⟩
        rw [owned_create] at hw
        cases hw
    · exact (h.scheduled a).trans (by rw [← put_of_ne ha (some ⟨v, 0⟩)]; rfl)
  · by_cases ha : a = self.created
    · subst ha
      obtain rfl := Option.some.inj ((owned_create v).symm.trans ho)
      exact Nat.zero_le _
    · exact h.flag a o ((put_of_ne ha _).symm.trans ho)
  · have hlt : self.created + 1 ≤ a := ha
    exact (put_of_ne (by omega) _).trans (h.bound a (by omega))

/-- An owned object may be changed or taken away. -/
theorem WellFormed.put (h : WellFormed self) (ha : self.Owned a v) {x : Option (Object V)}
    (hx : ∀ o, x = some o → o.deleteScheduled = 0) : WellFormed (self.put a x) := by
  refine ⟨h.nodup, fun b => ?_, fun b o ho => ?_, fun b hb => ?_⟩
  · by_cases hba : b = a
    · subst hba
      refine iff_of_false (h.notMem ha) ?_
      rintro ⟨w, hw⟩
      rw [put_self] at hw
      exact Nat.one_ne_zero (hx _ hw)
    · rw [put_of_ne hba]
      exact h.scheduled b
  · by_cases hba : b = a
    · subst hba
      rw [put_self] at ho
      rw [hx o ho]
      exact Nat.zero_le _
    · rw [put_of_ne hba] at ho
      exact h.flag b o ho
  · have hlt := h.lt_created ha
    have hle : self.created ≤ b := hb
    rw [put_of_ne (by omega)]
    exact h.bound b hle

/-- Changing an object that is owned leaves it owned, and the others alone. -/
theorem WellFormed.modify (h : WellFormed self) (ha : self.Owned a v) (g : V → V) :
    ∃ self', self.modify a g = some self' ∧ WellFormed self' ∧ self'.Owned a (g v) ∧
      self'.created = self.created := by
  refine ⟨self.put a (some ⟨g v, 0⟩), by rw [Pool.modify, ha]; rfl, h.put ha ?_, put_self _, rfl⟩
  intro o ho
  obtain rfl := Option.some.inj ho
  rfl

theorem WellFormed.destroy (h : WellFormed self) (ha : self.Owned a v) :
    ∃ self', self.destroy a = some self' ∧ WellFormed self' ∧ self'.object a = none ∧
      self'.created = self.created ∧ ∀ b, b ≠ a → self'.object b = self.object b := by
  refine ⟨self.put a none, by rw [Pool.destroy, ha]; rfl, h.put ha ?_, put_self _, rfl,
    fun b hb => put_of_ne hb _⟩
  intro o ho
  cases ho

/-- An object whose deletion is scheduled is given up. -/
theorem WellFormed.deleteLater (h : WellFormed self) (ha : self.Owned a v) :
    ∃ self', self.deleteLater a = some self' ∧ WellFormed self' ∧ self'.created = self.created ∧
      ∀ b, b ≠ a → self'.object b = self.object b := by
  refine ⟨{ self.put a (some ⟨v, 1⟩) with eventsDone := self.eventsDone ++ [a] },
    by rw [Pool.deleteLater, ha]; rfl, ?_, rfl, fun b hb => put_of_ne hb _⟩
  refine ⟨?_, fun b => ?_, fun b o ho => ?_, fun b hb => ?_⟩
  · rw [List.nodup_append]
    refine ⟨h.nodup, by simp, fun x hx y hy => ?_⟩
    obtain rfl : y = a := by simpa using hy
    rintro rfl
    exact h.notMem ha hx
  · by_cases hba : b = a
    · subst hba
      exact iff_of_true (by simp) ⟨v, put_self _⟩
    · have hold : (self.put a (some ⟨v, 1⟩)).object b = self.object b := put_of_ne hba _
      show b ∈ self.eventsDone ++ [a] ↔ ∃ v', (self.put a (some ⟨v, 1⟩)).object b = some ⟨v', 1⟩
      rw [hold, ← h.scheduled]
      simp [hba]
  · by_cases hba : b = a
    · subst hba
      obtain rfl := Option.some.inj ((put_self _).symm.trans ho)
      exact Nat.le_refl _
    · exact h.flag b o ((put_of_ne hba _).symm.trans ho)
  · have hlt := h.lt_created ha
    have hle : self.created ≤ b := hb
    exact (put_of_ne (by omega) _).trans (h.bound b hle)

theorem deleteNow_eq (ha : self.object a = some ⟨v, 1⟩) :
    self.deleteNow a =
      some { self.put a none with eventsDone := self.eventsDone.erase a } := by
  rw [deleteNow, ha, Option.bind_some, Pool.destroy, put_self]
  simp [Pool.put]

theorem collect_list (l : List ℕ) (h : WellFormed self) (hl : l = self.eventsDone) :
    ∃ self', l.foldlM (fun pool a => if a ∈ pool.eventsDone then pool.deleteNow a else some pool)
        self = some self' ∧ WellFormed self' ∧ self'.eventsDone = [] ∧
      self'.created = self.created ∧ ∀ a v, self.Owned a v → self'.Owned a v := by
  induction l generalizing self with
  | nil => exact ⟨self, rfl, h, hl.symm, rfl, fun _ _ ha => ha⟩
  | cons b l ih =>
    have hmem : b ∈ self.eventsDone := by
      rw [← hl]
      exact List.mem_cons_self ..
    obtain ⟨w, hw⟩ := (h.scheduled b).mp hmem
    have hnodup := h.nodup
    rw [← hl] at hnodup
    obtain ⟨hbl, _⟩ := List.nodup_cons.mp hnodup
    have herase : self.eventsDone.erase b = l := by
      rw [← hl]
      exact List.erase_cons_head ..
    have hnext : WellFormed { self.put b none with eventsDone := self.eventsDone.erase b } := by
      refine ⟨h.nodup.erase b, fun c => ?_, fun c o ho => ?_, fun c hc => ?_⟩
      · by_cases hcb : c = b
        · subst hcb
          refine iff_of_false (herase ▸ hbl) ?_
          rintro ⟨w, hw⟩
          cases (put_self _).symm.trans hw
        · rw [List.mem_erase_of_ne hcb, h.scheduled c, ← put_of_ne hcb none]
      · by_cases hcb : c = b
        · subst hcb
          cases (put_self _).symm.trans ho
        · exact h.flag c o ((put_of_ne hcb _).symm.trans ho)
      · by_cases hcb : c = b
        · subst hcb
          exact put_self _
        · exact (put_of_ne hcb _).trans (h.bound c hc)
    obtain ⟨self', hfold, hwf, hdone, hcreated, howned⟩ := ih hnext herase.symm
    refine ⟨self', ?_, hwf, hdone, hcreated, fun a v ha => howned a v ?_⟩
    · rw [List.foldlM_cons, if_pos hmem, deleteNow_eq hw]
      exact hfold
    · have hab : a ≠ b := by
        rintro rfl
        rw [ha] at hw
        cases hw
      exact (put_of_ne hab _).trans ha

/-- When all events are done, what was scheduled is deleted, and nothing that is owned. -/
theorem WellFormed.collect (h : WellFormed self) :
    ∃ self', self.collect = some self' ∧ WellFormed self' ∧ self'.eventsDone = [] ∧
      self'.created = self.created ∧ ∀ a v, self.Owned a v → self'.Owned a v :=
  collect_list _ h rfl

end Pool

end Swad.DeferredDeletion
