import Mathlib.Algebra.BigOperators.Intervals
import Mathlib.Algebra.Order.Group.Multiset
import Mathlib.Tactic.Abel
import Swad.LinkedChains

/-!
Hash tables that own what their entries stand for. A value that is replaced, and every value
that is left when the table is destroyed, is released. What was released and what the table
still holds is together what was ever given to it, so nothing is released twice, nothing that
can still be found has been released, and in the end nothing is left.
-/
namespace Swad.OwnedTables

open LinkedChains

/-! ### What the nodes of chains own -/

section held

variable {K V R : Type} (owns : V → Option R) {self self' : Chains K V} {a : Addr} {v : V}

def owned (v : V) : Multiset R := ((owns v).toList : Multiset R)

def held (self : Chains K V) : Multiset R :=
  ∑ a ∈ Finset.range self.allocated, (self.read a).elim 0 (owned owns)

theorem held_empty : held owns (Chains.empty : Chains K V) = 0 := Finset.sum_range_zero _

variable {owns}

theorem held_congr (hread : ∀ b, self'.read b = self.read b)
    (halloc : self'.allocated = self.allocated) : held owns self' = held owns self := by
  rw [held, held, halloc]
  exact Finset.sum_congr rfl fun b _ => by rw [hread b]

/-- One node apart. -/
theorem held_split (ha : a < self.allocated) (hread : self.read a = some v) :
    held owns self = owned owns v + held owns (self.free a) := by
  have hfree : (self.free a).read a = none := by
    rw [Chains.read, Chains.free_node_self]
    rfl
  have hothers : ∀ b ∈ (Finset.range self.allocated).erase a,
      (self.read b).elim 0 (owned owns) = ((self.free a).read b).elim 0 (owned owns) := by
    intro b hb
    rw [Chains.read, Chains.read, Chains.free_node_of_ne (Finset.ne_of_mem_erase hb)]
  have hmem : a ∈ Finset.range self.allocated := Finset.mem_range.mpr ha
  have hold := Finset.add_sum_erase _ (fun b => (self.read b).elim 0 (owned owns)) hmem
  have hnew := Finset.add_sum_erase _ (fun b => ((self.free a).read b).elim 0 (owned owns)) hmem
  simp only [hread, hfree, Option.elim_some, Option.elim_none, zero_add] at hold hnew
  rw [held, ← hold, Finset.sum_congr rfl hothers, hnew]
  rfl

theorem held_modify (ha : a < self.allocated) (hread : self.read a = some v) (g : V → V) :
    held owns (self.modify a g) + owned owns v = held owns self + owned owns (g v) := by
  have hnew : (self.modify a g).read a = some (g v) := by
    rw [Chains.read, Option.map_eq_some_iff] at hread
    obtain ⟨n, hn, rfl⟩ := hread
    rw [Chains.read, Chains.modify_node_self, hn]
    rfl
  have hsame : held owns ((self.modify a g).free a) = held owns (self.free a) := by
    refine held_congr (fun b => ?_) rfl
    rw [Chains.read, Chains.read]
    by_cases hb : b = a
    · rw [hb, Chains.free_node_self, Chains.free_node_self]
    · rw [Chains.free_node_of_ne hb, Chains.free_node_of_ne hb, Chains.modify_node_of_ne hb]
  have hsplit : held owns (self.modify a g) = owned owns (g v) + held owns ((self.modify a g).free a) :=
    held_split ha hnew
  rw [hsplit, held_split ha hread, hsame]
  abel

variable [DecidableEq K] {k : K}

theorem link_read (next parent : Option Addr) (b : Addr) :
    (self.link k next parent).read b = self.read b := by
  cases parent with
  | none => rfl
  | some p =>
    by_cases hb : b = p
    · rw [hb, Chains.read, Chains.link_node_self, Option.map_map]
      rfl
    · exact congrArg (Option.map Node.val) (Function.update_of_ne hb _ _)

theorem held_append (h : self.append k v = some self') :
    held owns self' = held owns self + owned owns v := by
  obtain ⟨parent, _, rfl⟩ := Option.map_eq_some_iff.mp h
  rw [held_congr (link_read _ _) (Chains.link_allocated _ _), held, Finset.sum_range_succ, held]
  congr 1
  · refine Finset.sum_congr rfl fun b hb => ?_
    have hne : b ≠ self.allocated := (Finset.mem_range.mp hb).ne
    simp only [Chains.read, Function.update_of_ne hne]
  · simp [Chains.read]

omit [DecidableEq K] in
theorem held_discardFrom {fuel : ℕ} {p : Option Addr} {vals : List V}
    (hbound : ∀ b, (self.node b).isSome → b < self.allocated)
    (h : Chains.discardFrom fuel self p = some (self', vals)) :
    held owns self = (vals.map (owned owns)).sum + held owns self' := by
  induction fuel generalizing self p vals with
  | zero =>
    cases p with
    | none =>
      obtain ⟨rfl, rfl⟩ := Prod.mk.inj (Option.some.inj h)
      simp
    | some a => cases h
  | succ fuel ih =>
    cases p with
    | none =>
      obtain ⟨rfl, rfl⟩ := Prod.mk.inj (Option.some.inj h)
      simp
    | some a =>
      rw [Chains.discardFrom] at h
      cases hn : self.node a with
      | none => rw [hn] at h; cases h
      | some n =>
        simp only [hn] at h
        obtain ⟨⟨rest, vals⟩, hrest, heq⟩ := Option.map_eq_some_iff.mp h
        obtain ⟨rfl, rfl⟩ := Prod.mk.inj heq
        have hfree : ∀ b, ((self.free a).node b).isSome → b < (self.free a).allocated := by
          intro b hb
          by_cases hba : b = a
          · rw [hba, Chains.free_node_self] at hb
            cases hb
          · rw [Chains.free_node_of_ne hba] at hb
            exact hbound b hb
        have hread : self.read a = some n.val := by rw [Chains.read, hn]; rfl
        rw [held_split (hbound a (by rw [hn]; rfl)) hread, ih hfree hrest, List.map_cons,
          List.sum_cons, add_assoc]

omit [DecidableEq K] in
theorem bounded_of_represents {cells : K → List (Addr × V)} (h : self.Represents cells) (b : Addr)
    (hb : (self.node b).isSome) : b < self.allocated := by
  obtain ⟨k, hk⟩ := h.reached b hb
  exact h.bound k b hk

/-- A chain that is freed gives up what its nodes owned. -/
theorem held_discard {cells : K → List (Addr × V)} {vals : List V} (hrep : self.Represents cells)
    (h : self.discard k = some (self', vals)) :
    held owns self = (vals.map (owned owns)).sum + held owns self' := by
  obtain ⟨⟨rest, vals⟩, hrest, heq⟩ := Option.map_eq_some_iff.mp h
  obtain ⟨rfl, rfl⟩ := Prod.mk.inj heq
  rw [held_discardFrom (bounded_of_represents hrep) hrest]
  rfl

end held

theorem coe_filterMap_cons {A R : Type} (f : A → Option R) (a : A) (l : List A) :
    ((a :: l).filterMap f : Multiset R) = ((f a).toList : Multiset R) + (l.filterMap f : List R) := by
  rw [List.filterMap_cons]
  cases f a with
  | none => rw [Option.toList_none, Multiset.coe_nil, zero_add]
  | some r => rfl

theorem sum_owned {V R : Type} (owns : V → Option R) (vals : List V) :
    (vals.map (owned owns)).sum = (vals.filterMap owns : List R) := by
  induction vals with
  | nil => rfl
  | cons v vals ih => rw [List.map_cons, List.sum_cons, ih, coe_filterMap_cons, owned]

/-! ### Tables -/

structure Entry (N V : Type) where
  name : N
  value : V

/-- What was released is written down. -/
structure Table (K N V R : Type) where
  chains : Chains K (Entry N V)
  released : List R

section tables

variable {K N V R : Type} [DecidableEq K] [DecidableEq N] (hash : N → K) (owns : V → Option R)

namespace Table

def create : Table K N V R := ⟨.empty, []⟩

def find (self : Table K N V R) (n : N) : Option (Option Addr) :=
  (self.chains.search (fun e => e.name == n) (hash n)).map Prod.snd

/-- What an entry owns is released before the entry is given another value. -/
def insertOrUpdate (self : Table K N V R) (init : V) (n : N) : Option (Table K N V R × Addr) := do
  match ← self.find hash n with
  | some a =>
    let e ← self.chains.read a
    return ({ self with released := self.released ++ (owns e.value).toList }, a)
  | none =>
    let chains ← self.chains.append (hash n) ⟨n, init⟩
    return ({ self with chains }, self.chains.allocated)

def set (self : Table K N V R) (init : V) (n : N) (v : V) : Option (Table K N V R) := do
  let (self, a) ← self.insertOrUpdate hash owns init n
  return { self with chains := self.chains.modify a fun e => ⟨e.name, v⟩ }

def get (self : Table K N V R) (n : N) : Option (Option V) := do
  match ← self.find hash n with
  | some a => (self.chains.read a).map fun e => some e.value
  | none => return none

def destroy (self : Table K N V R) (keys : List K) : Option (Table K N V R) :=
  keys.foldlM (fun self k => do
    let (chains, entries) ← self.chains.discard k
    return ⟨chains, self.released ++ entries.filterMap fun e => owns e.value⟩) self

end Table

/-- Every name is in the chain of its hash, and there once. -/
structure Holds (table : Table K N V R) (cells : K → List (Addr × Entry N V)) : Prop where
  chains : table.chains.Represents cells
  hashed : ∀ k, ∀ c ∈ cells k, hash c.2.name = k
  names : ∀ k, ((cells k).map fun c => c.2.name).Nodup

def cell (cells : K → List (Addr × Entry N V)) (n : N) : Option (Addr × Entry N V) :=
  (cells (hash n)).find? fun c => c.2.name == n

def lookup (cells : K → List (Addr × Entry N V)) (n : N) : Option V :=
  (cell hash cells n).map fun c => c.2.value

/-- What was released, and what the table holds. -/
def ledger (self : Table K N V R) : Multiset R :=
  (self.released : Multiset R) + held (fun e : Entry N V => owns e.value) self.chains

variable {hash owns} {self : Table K N V R} {cells : K → List (Addr × Entry N V)} {init v : V} {n : N}

omit [DecidableEq K] [DecidableEq N] in
theorem holds_create : Holds hash (Table.create : Table K N V R) fun _ => [] :=
  ⟨Chains.represents_empty, fun _ _ h => absurd h List.not_mem_nil, fun _ => List.nodup_nil⟩

omit [DecidableEq K] [DecidableEq N] in
theorem ledger_create : ledger owns (Table.create : Table K N V R) = 0 := by
  rw [ledger, Table.create, held_empty]
  rfl

omit [DecidableEq K] in
theorem find_eq (h : Holds hash self cells) (n : N) :
    self.find hash n = some ((cell hash cells n).map Prod.fst) := by
  rw [Table.find]
  cases hcell : cell hash cells n with
  | none =>
    rw [h.chains.search_none (f := fun e : Entry N V => e.name == n)]
    · rfl
    · exact fun c hc => by simpa using List.find?_eq_none.mp hcell c hc
  | some c =>
    obtain ⟨a, e⟩ := c
    obtain ⟨hname, l, r, hsplit, hl⟩ := List.find?_eq_some_iff_append.mp hcell
    rw [h.chains.search_found (f := fun e : Entry N V => e.name == n) hsplit
      (fun c hc => by simpa using hl c hc) hname]
    rfl

omit [DecidableEq K] in
theorem cell_spec {a : Addr} {e : Entry N V} (h : Holds hash self cells)
    (hcell : cell hash cells n = some (a, e)) :
    e.name = n ∧ self.chains.read a = some e ∧ a < self.chains.allocated := by
  have hmem := List.mem_of_find?_eq_some hcell
  exact ⟨by simpa using List.find?_some hcell, h.chains.read_eq hmem,
    h.chains.bound _ a (List.mem_map_of_mem hmem)⟩

omit [DecidableEq K] in
theorem get_eq (h : Holds hash self cells) (n : N) : self.get hash n = some (lookup hash cells n) := by
  rw [Table.get, find_eq h, lookup]
  cases hcell : cell hash cells n with
  | none => rfl
  | some c =>
    obtain ⟨a, e⟩ := c
    obtain ⟨_, hread, _⟩ := cell_spec h hcell
    simp [hread]

omit [DecidableEq K] [DecidableEq N] in
/-- An entry with another value. -/
theorem holds_modify (h : Holds hash self cells) (a : Addr) (v : V) :
    Holds hash { self with chains := self.chains.modify a fun e => ⟨e.name, v⟩ }
      fun k => (cells k).map fun c => if c.1 = a then (c.1, ⟨c.2.name, v⟩) else c := by
  refine ⟨h.chains.modify a fun e => ⟨e.name, v⟩, fun k c hc => ?_, fun k => ?_⟩
  · obtain ⟨d, hd, rfl⟩ := List.mem_map.mp hc
    rw [← h.hashed k d hd]
    split <;> rfl
  · rw [List.map_map]
    convert h.names k using 1
    refine List.map_congr_left fun c _ => ?_
    simp only [Function.comp]
    split <;> rfl

omit [DecidableEq K] in
theorem lookup_modify (h : Holds hash self cells) {a : Addr} {e : Entry N V}
    (hcell : cell hash cells n = some (a, e)) (m : N) :
    lookup hash (fun k => (cells k).map fun c => if c.1 = a then (c.1, ⟨c.2.name, v⟩) else c) m =
      if m = n then some v else lookup hash cells m := by
  have hsame : cell hash (fun k => (cells k).map fun c =>
      if c.1 = a then (c.1, (⟨c.2.name, v⟩ : Entry N V)) else c) m =
      (cell hash cells m).map fun c => if c.1 = a then (c.1, ⟨c.2.name, v⟩) else c := by
    rw [cell, cell, List.find?_map]
    congr 2
    funext c
    simp only [Function.comp]
    split <;> rfl
  rw [lookup, hsame, Option.map_map]
  by_cases hm : m = n
  · rw [hm, hcell, if_pos rfl]
    simp
  · rw [if_neg hm, lookup]
    cases hother : cell hash cells m with
    | none => rfl
    | some c =>
      obtain ⟨b, f⟩ := c
      have hne : b ≠ a := by
        rintro rfl
        obtain ⟨hname, hread, _⟩ := cell_spec h hcell
        obtain ⟨hname', hread', _⟩ := cell_spec h hother
        rw [hread] at hread'
        obtain rfl := Option.some.inj hread'
        exact hm (hname'.symm.trans hname)
      simp [hne]

/-- A new entry stands at the end of its chain. -/
theorem holds_append (h : Holds hash self cells) (hnone : cell hash cells n = none)
    {chains : Chains K (Entry N V)} {a : Addr}
    (hrep : chains.Represents
      (Function.update cells (hash n) (cells (hash n) ++ [(a, ⟨n, v⟩)]))) :
    Holds hash { self with chains }
      (Function.update cells (hash n) (cells (hash n) ++ [(a, ⟨n, v⟩)])) := by
  refine ⟨hrep, fun k c hc => ?_, fun k => ?_⟩
  · by_cases hk : k = hash n
    · subst hk
      rw [Function.update_self, List.mem_append, List.mem_singleton] at hc
      rcases hc with hc | rfl
      · exact h.hashed _ c hc
      · rfl
    · rw [Function.update_of_ne hk] at hc
      exact h.hashed k c hc
  · by_cases hk : k = hash n
    · subst hk
      rw [Function.update_self, List.map_append, List.nodup_append]
      refine ⟨h.names _, by simp, fun x hx y hy => ?_⟩
      obtain rfl : y = n := by simpa using hy
      obtain ⟨c, hc, rfl⟩ := List.mem_map.mp hx
      intro heq
      exact List.find?_eq_none.mp hnone c hc (by simpa using heq)
    · rw [Function.update_of_ne hk]
      exact h.names k

theorem cell_append (hnone : cell hash cells n = none) (a : Addr) (m : N) :
    cell hash (Function.update cells (hash n) (cells (hash n) ++ [(a, ⟨n, v⟩)])) m =
      if m = n then some (a, ⟨n, v⟩) else cell hash cells m := by
  have hchain : (cells (hash n)).find? (fun c => c.2.name == n) = none := hnone
  by_cases hm : m = n
  · rw [hm, if_pos rfl, cell, Function.update_self, List.find?_append, hchain]
    simp
  · have hname : ¬ (n == m) = true := by simpa using Ne.symm hm
    rw [if_neg hm, cell, cell]
    by_cases hk : hash m = hash n
    · rw [hk, Function.update_self, List.find?_append, List.find?_singleton, if_neg hname,
        Option.or_none]
    · rw [Function.update_of_ne hk]

/-- The entry for a name is found or made; what it owned is released. -/
theorem insertOrUpdate_spec (h : Holds hash self cells) (n : N) :
    ∃ self' cells' a e, self.insertOrUpdate hash owns init n = some (self', a) ∧
      Holds hash self' cells' ∧ cell hash cells' n = some (a, e) ∧
      (∀ m, m ≠ n → lookup hash cells' m = lookup hash cells m) ∧
      self'.released = self.released ++ ((lookup hash cells n).bind owns).toList ∧
      ledger owns self' = ledger owns self + owned owns e.value := by
  cases hcell : cell hash cells n with
  | some c =>
    obtain ⟨a, e⟩ := c
    obtain ⟨_, hread, _⟩ := cell_spec h hcell
    refine ⟨{ self with released := self.released ++ (owns e.value).toList }, cells, a, e, ?_,
      ⟨h.chains, h.hashed, h.names⟩, hcell, fun _ _ => rfl, by rw [lookup, hcell]; rfl, ?_⟩
    · rw [Table.insertOrUpdate, find_eq h, hcell]
      simp only [Option.map_some, Option.bind_eq_bind, Option.bind_some, hread]
      rfl
    · rw [ledger, ledger, ← Multiset.coe_add, owned]
      abel
  | none =>
    obtain ⟨chains, happend, _, hrep⟩ :=
      h.chains.append (hash n) (⟨n, init⟩ : Entry N V)
    refine ⟨{ self with chains }, _, self.chains.allocated, ⟨n, init⟩, ?_,
      holds_append h hcell hrep, ?_, fun m hm => ?_, ?_, ?_⟩
    · rw [Table.insertOrUpdate, find_eq h, hcell]
      simp only [Option.map_none, Option.bind_eq_bind, Option.bind_some, happend]
      rfl
    · rw [cell_append hcell, if_pos rfl]
    · rw [lookup, cell_append hcell, if_neg hm, lookup]
    · rw [lookup, hcell]
      exact (List.append_nil _).symm
    · rw [ledger, ledger, held_append happend, owned, add_assoc]
      rfl

/-- A name is set, the others keep their values, and the table takes over what the value owns. -/
theorem set_spec (h : Holds hash self cells) (n : N) (v : V) :
    ∃ self' cells', self.set hash owns init n v = some self' ∧ Holds hash self' cells' ∧
      lookup hash cells' = Function.update (lookup hash cells) n (some v) ∧
      self'.released = self.released ++ ((lookup hash cells n).bind owns).toList ∧
      ledger owns self' = ledger owns self + owned owns v := by
  obtain ⟨mid, cells₁, a, e, hinsert, hmid, hcell, hothers, hreleased, hledger⟩ :=
    insertOrUpdate_spec h n
  obtain ⟨_, hread, ha⟩ := cell_spec hmid hcell
  refine ⟨{ mid with chains := mid.chains.modify a fun e => ⟨e.name, v⟩ }, _, ?_,
    holds_modify hmid a v, ?_, hreleased, ?_⟩
  · rw [Table.set, hinsert]
    rfl
  · funext m
    rw [lookup_modify hmid hcell, Function.update_apply]
    by_cases hm : m = n
    · rw [if_pos hm, if_pos hm]
    · rw [if_neg hm, if_neg hm, hothers m hm]
  · have hheld : held (fun e : Entry N V => owns e.value)
        (mid.chains.modify a fun e => ⟨e.name, v⟩) + owned owns e.value =
        held (fun e : Entry N V => owns e.value) mid.chains + owned owns v :=
      held_modify ha hread fun e => ⟨e.name, v⟩
    have hrest : ledger owns mid + owned owns v =
        ledger owns self + owned owns e.value + owned owns v := by rw [hledger]
    simp only [ledger, owned] at hheld hrest ⊢
    have hsum : (mid.released : Multiset R) +
        held (fun e : Entry N V => owns e.value) (mid.chains.modify a fun e => ⟨e.name, v⟩) +
          ((owns e.value).toList : Multiset R) =
        (self.released : Multiset R) + held (fun e : Entry N V => owns e.value) self.chains +
          ((owns v).toList : Multiset R) + ((owns e.value).toList : Multiset R) := by
      rw [add_assoc, hheld, ← add_assoc, hrest, add_right_comm]
    exact add_right_cancel hsum

/-! ### What a table is for -/

/-- A value for each name, and what was released because its name was set again. -/
structure Ideal (N V R : Type) where
  value : N → Option V
  released : List R

namespace Ideal

def empty : Ideal N V R := ⟨fun _ => none, []⟩

def set (owns : V → Option R) (self : Ideal N V R) (n : N) (v : V) : Ideal N V R where
  value := Function.update self.value n (some v)
  released := self.released ++ ((self.value n).bind owns).toList

end Ideal

/-- The table has the values of the map, has released what it released, and everything that
was ever given to it is released or held. -/
structure Refines (hash : N → K) (owns : V → Option R) (table : Table K N V R) (ideal : Ideal N V R)
    (given : Multiset R) : Prop where
  holds : ∃ cells, Holds hash table cells ∧ lookup hash cells = ideal.value
  released : table.released = ideal.released
  ledger : ledger owns table = given

variable {ideal : Ideal N V R} {given : Multiset R}

omit [DecidableEq K] in
theorem refines_create : Refines hash owns (Table.create : Table K N V R) .empty 0 :=
  ⟨⟨_, holds_create, rfl⟩, rfl, ledger_create⟩

omit [DecidableEq K] in
theorem Refines.get (h : Refines hash owns self ideal given) (n : N) :
    self.get hash n = some (ideal.value n) := by
  obtain ⟨cells, hholds, hvalue⟩ := h.holds
  rw [get_eq hholds, hvalue]

theorem Refines.set (h : Refines hash owns self ideal given) (init : V) (n : N) (v : V) :
    ∃ self', self.set hash owns init n v = some self' ∧
      Refines hash owns self' (ideal.set owns n v) (given + owned owns v) := by
  obtain ⟨cells, hholds, hvalue⟩ := h.holds
  obtain ⟨self', cells', hset, hholds', hlookup, hreleased, hledger⟩ :=
    set_spec hholds n v
  refine ⟨self', hset, ⟨cells', hholds', ?_⟩, ?_, ?_⟩
  · rw [hlookup, hvalue]
    rfl
  · rw [hreleased, hvalue, h.released]
    rfl
  · rw [hledger, h.ledger]

omit [DecidableEq N] in
theorem destroyFrom_spec (h : self.chains.Represents cells) (keys : List K) :
    ∃ self', self.destroy owns keys = some self' ∧
      self'.chains.Represents (fun k => if k ∈ keys then [] else cells k) ∧
      ledger owns self' = ledger owns self := by
  induction keys generalizing self cells with
  | nil => exact ⟨self, rfl, by simpa using h, rfl⟩
  | cons k keys ih =>
    obtain ⟨chains, hdiscard, _, hrep⟩ := h.discard k
    have hnext : (⟨chains, self.released ++ ((cells k).map Prod.snd).filterMap fun e =>
        owns e.value⟩ : Table K N V R).chains.Represents _ := hrep
    obtain ⟨self', hfold, hrep', hledger⟩ := ih hnext
    refine ⟨self', ?_, ?_, ?_⟩
    · rw [Table.destroy, List.foldlM_cons, hdiscard]
      exact hfold
    · convert hrep' using 1
      funext k'
      by_cases hk : k' = k
      · simp [hk]
      · simp [hk]
    · rw [hledger, ledger, ledger, held_discard h hdiscard, sum_owned, ← Multiset.coe_add, add_assoc]

omit [DecidableEq N] in
/-- A table that is destroyed has nothing left, and has released whatever it held. -/
theorem destroy_spec (h : self.chains.Represents cells) {keys : List K} (hkeys : ∀ k, k ∈ keys) :
    ∃ self', self.destroy owns keys = some self' ∧ (∀ a, self'.chains.node a = none) ∧
      (self'.released : Multiset R) = ledger owns self := by
  obtain ⟨self', hdestroy, hrep, hledger⟩ := destroyFrom_spec h keys
  have hnone : ∀ a, self'.chains.node a = none := by
    intro a
    by_contra hne
    obtain ⟨k, hk⟩ := hrep.reached a (Option.isSome_iff_ne_none.mpr hne)
    rw [if_pos (hkeys k)] at hk
    exact List.not_mem_nil hk
  refine ⟨self', hdestroy, hnone, ?_⟩
  have hheld : held (fun e : Entry N V => owns e.value) self'.chains = 0 :=
    Finset.sum_eq_zero fun a _ => by rw [Chains.read, hnone a]; rfl
  rw [← hledger, ledger, hheld, add_zero]

/-- In the end everything that was given has been released, and nothing is left. -/
theorem Refines.destroy (h : Refines hash owns self ideal given) {keys : List K}
    (hkeys : ∀ k, k ∈ keys) :
    ∃ self', self.destroy owns keys = some self' ∧ (∀ a, self'.chains.node a = none) ∧
      (self'.released : Multiset R) = given := by
  obtain ⟨cells, hholds, _⟩ := h.holds
  obtain ⟨self', hdestroy, hnone, hreleased⟩ := destroy_spec hholds.chains hkeys
  exact ⟨self', hdestroy, hnone, hreleased.trans h.ledger⟩

end tables

end Swad.OwnedTables
