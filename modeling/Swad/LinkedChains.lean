import Mathlib.Data.List.Basic
import Mathlib.Data.List.Nodup
import Mathlib.Data.Finset.Card
import Mathlib.Data.Fintype.Basic
import Mathlib.Logic.Function.Basic

/-!
Singly linked chains in memory, one for each key, as the buckets of a hash table keep
them. Nodes are numbered in the order of their allocation. The loops follow the links
with a pointer to the node before; a dangling link leaves them undefined. What the
chains hold is a list for each key, and every loop is a function of that list.
-/
namespace Swad.LinkedChains

variable {K V : Type*}

abbrev Addr := ℕ

structure Node (V : Type*) where
  val : V
  next : Option Addr

structure Chains (K V : Type*) where
  head : K → Option Addr
  node : Addr → Option (Node V)
  allocated : ℕ

namespace Chains

def empty : Chains K V := ⟨fun _ => none, fun _ => none, 0⟩

def read (self : Chains K V) (a : Addr) : Option V := (self.node a).map Node.val

/-- The first node that satisfies the predicate, and the node before it. -/
def walk (p : V → Bool) (node : Addr → Option (Node V)) :
    ℕ → Option Addr → Option Addr → Option (Option Addr × Option Addr)
  | _, parent, none => some (parent, none)
  | 0, _, some _ => none
  | fuel + 1, parent, some a =>
    match node a with
    | none => none
    | some n => if p n.val then some (parent, some a) else walk p node fuel (some a) n.next

def search (self : Chains K V) (p : V → Bool) (k : K) : Option (Option Addr × Option Addr) :=
  walk p self.node self.allocated none (self.head k)

/-- The last node of a chain. -/
def lastFrom (node : Addr → Option (Node V)) : ℕ → Option Addr → Option (Option Addr)
  | _, none => some none
  | 0, some _ => none
  | fuel + 1, some a =>
    match node a with
    | none => none
    | some n =>
      match n.next with
      | none => some (some a)
      | some b => lastFrom node fuel (some b)

def free (self : Chains K V) (a : Addr) : Chains K V :=
  { self with node := Function.update self.node a none }

def modify (self : Chains K V) (a : Addr) (g : V → V) : Chains K V :=
  { self with
    node := Function.update self.node a ((self.node a).map fun n => ⟨g n.val, n.next⟩) }

variable [DecidableEq K]

/-- Let a node, or the head of the chain if there is none, point to another node. -/
def link (self : Chains K V) (k : K) (next : Option Addr) : Option Addr → Chains K V
  | none => { self with head := Function.update self.head k next }
  | some p =>
    { self with node := Function.update self.node p ((self.node p).map fun n => ⟨n.val, next⟩) }

/-- Take a node out of its chain and free it. -/
def unlink (self : Chains K V) (k : K) (parent : Option Addr) (a : Addr) : Option (Chains K V) :=
  (self.node a).map fun n => (self.link k n.next parent).free a

/-- Put a new node at the end of a chain. -/
def append (self : Chains K V) (k : K) (v : V) : Option (Chains K V) :=
  (lastFrom self.node self.allocated (self.head k)).map fun parent =>
    { self with
      node := Function.update self.node self.allocated (some ⟨v, none⟩)
      allocated := self.allocated + 1 }.link k (some self.allocated) parent

/-- Take all nodes that satisfy the predicate out of a chain. -/
def sweepFrom (p : V → Bool) (k : K) :
    ℕ → Chains K V → Option Addr → Option Addr → Option (Chains K V × List Addr)
  | _, self, _, none => some (self, [])
  | 0, _, _, some _ => none
  | fuel + 1, self, parent, some a =>
    match self.node a with
    | none => none
    | some n =>
      if p n.val then
        (sweepFrom p k fuel ((self.link k n.next parent).free a) parent n.next).map
          fun r => (r.1, a :: r.2)
      else sweepFrom p k fuel self (some a) n.next

def sweep (self : Chains K V) (p : V → Bool) (k : K) : Option (Chains K V × List Addr) :=
  sweepFrom p k self.allocated self none (self.head k)

/-- Free the nodes of a chain one after the other. -/
def discardFrom : ℕ → Chains K V → Option Addr → Option (Chains K V × List V)
  | _, self, none => some (self, [])
  | 0, _, some _ => none
  | fuel + 1, self, some a =>
    match self.node a with
    | none => none
    | some n => (discardFrom fuel (self.free a) n.next).map fun r => (r.1, n.val :: r.2)

/-- Free a whole chain: the values that were in it. -/
def discard (self : Chains K V) (k : K) : Option (Chains K V × List V) :=
  (discardFrom self.allocated self (self.head k)).map fun r =>
    ({ r.1 with head := Function.update r.1.head k none }, r.2)

end Chains

/-! ### Segments -/

/-- The links from one pointer to another pass these nodes. -/
def Segment (node : Addr → Option (Node V)) :
    Option Addr → List (Addr × V) → Option Addr → Prop
  | p, [], q => p = q
  | p, (a, v) :: cells, q => p = some a ∧ ∃ n, node a = some ⟨v, n⟩ ∧ Segment node n cells q

def addrs (cells : List (Addr × V)) : List Addr := cells.map Prod.fst

@[simp] theorem addrs_append (l r : List (Addr × V)) : addrs (l ++ r) = addrs l ++ addrs r :=
  List.map_append

@[simp] theorem addrs_cons (c : Addr × V) (l : List (Addr × V)) : addrs (c :: l) = c.1 :: addrs l :=
  rfl

@[simp] theorem addrs_nil : addrs ([] : List (Addr × V)) = [] := rfl

variable {node node' : Addr → Option (Node V)} {p q m : Option Addr} {a : Addr} {v : V}
  {cells l r : List (Addr × V)}

theorem segment_append :
    Segment node p (l ++ r) q ↔ ∃ m, Segment node p l m ∧ Segment node m r q := by
  induction l generalizing p with
  | nil => simp [Segment]
  | cons c l ih =>
    obtain ⟨a, v⟩ := c
    simp only [List.cons_append, Segment, ih]
    constructor
    · rintro ⟨rfl, n, hn, m, hl, hr⟩
      exact ⟨m, ⟨rfl, n, hn, hl⟩, hr⟩
    · rintro ⟨m, ⟨rfl, n, hn, hl⟩, hr⟩
      exact ⟨rfl, n, hn, m, hl, hr⟩

/-- A segment depends on its own nodes only. -/
theorem segment_congr (h : Segment node p cells q) (heq : ∀ a ∈ addrs cells, node' a = node a) :
    Segment node' p cells q := by
  induction cells generalizing p with
  | nil => exact h
  | cons c cells ih =>
    obtain ⟨a, v⟩ := c
    obtain ⟨rfl, n, hn, hrest⟩ := h
    refine ⟨rfl, n, ?_, ih hrest fun b hb => heq b (List.mem_cons_of_mem _ hb)⟩
    rw [heq a (List.mem_cons_self ..), hn]

theorem segment_update {x : Option (Node V)} (h : Segment node p cells q) (ha : a ∉ addrs cells) :
    Segment (Function.update node a x) p cells q := by
  apply segment_congr h
  intro b hb
  apply Function.update_of_ne
  rintro rfl
  exact ha hb

theorem mem_of_segment (h : Segment node p cells q) (hmem : (a, v) ∈ cells) :
    ∃ n, node a = some ⟨v, n⟩ := by
  obtain ⟨l, r, rfl⟩ := List.append_of_mem hmem
  obtain ⟨m, _, _, n, hn, _⟩ := segment_append.mp h
  exact ⟨n, hn⟩

/-- The pointer before the end of a segment. -/
def lastAddr (parent : Option Addr) (cells : List (Addr × V)) : Option Addr :=
  (cells.getLast?.map Prod.fst).or parent

@[simp] theorem lastAddr_nil (parent : Option Addr) :
    lastAddr parent ([] : List (Addr × V)) = parent := rfl

theorem lastAddr_cons (parent : Option Addr) (c : Addr × V) (cells : List (Addr × V)) :
    lastAddr parent (c :: cells) = lastAddr (some c.1) cells := by
  cases cells with
  | nil => rfl
  | cons d cells =>
    rw [lastAddr, lastAddr, List.getLast?_cons_cons, List.getLast?_cons]
    rfl

@[simp] theorem lastAddr_snoc (parent : Option Addr) (c : Addr × V) (cells : List (Addr × V)) :
    lastAddr parent (cells ++ [c]) = some c.1 := by
  simp [lastAddr]

/-! ### Loops over a segment -/

theorem walk_found {f : V → Bool} {fuel : ℕ} {parent : Option Addr}
    (h : Segment node p (l ++ (a, v) :: r) none) (hl : ∀ c ∈ l, f c.2 = false) (hv : f v = true)
    (hfuel : (l ++ (a, v) :: r).length ≤ fuel) :
    Chains.walk f node fuel parent p = some (lastAddr parent l, some a) := by
  induction l generalizing p parent fuel with
  | nil =>
    obtain ⟨rfl, n, hn, _⟩ := h
    cases fuel with
    | zero => simp at hfuel
    | succ fuel => simp [Chains.walk, hn, hv]
  | cons c l ih =>
    obtain ⟨b, w⟩ := c
    obtain ⟨rfl, n, hn, hrest⟩ := h
    cases fuel with
    | zero => simp at hfuel
    | succ fuel =>
      have hw : f w = false := hl _ (List.mem_cons_self ..)
      have hlen : (l ++ (a, v) :: r).length ≤ fuel := by
        rw [List.cons_append, List.length_cons] at hfuel
        omega
      rw [lastAddr_cons, Chains.walk]
      simp only [hn, hw, Bool.false_eq_true, if_false]
      exact ih hrest (fun c hc => hl c (List.mem_cons_of_mem _ hc)) hlen

theorem walk_none {f : V → Bool} {fuel : ℕ} {parent : Option Addr}
    (h : Segment node p cells none) (hf : ∀ c ∈ cells, f c.2 = false)
    (hfuel : cells.length ≤ fuel) :
    Chains.walk f node fuel parent p = some (lastAddr parent cells, none) := by
  induction cells generalizing p parent fuel with
  | nil =>
    obtain rfl : p = none := h
    rw [Chains.walk]
    rfl
  | cons c cells ih =>
    obtain ⟨b, w⟩ := c
    obtain ⟨rfl, n, hn, hrest⟩ := h
    cases fuel with
    | zero => simp at hfuel
    | succ fuel =>
      have hw : f w = false := hf _ (List.mem_cons_self ..)
      have hlen : cells.length ≤ fuel := by
        rw [List.length_cons] at hfuel
        omega
      rw [lastAddr_cons, Chains.walk]
      simp only [hn, hw, Bool.false_eq_true, if_false]
      exact ih hrest (fun c hc => hf c (List.mem_cons_of_mem _ hc)) hlen

theorem lastFrom_eq {fuel : ℕ} (h : Segment node p cells none) (hfuel : cells.length ≤ fuel) :
    Chains.lastFrom node fuel p = some (lastAddr none cells) := by
  induction cells generalizing p fuel with
  | nil =>
    obtain rfl : p = none := h
    rw [Chains.lastFrom]
    rfl
  | cons c cells ih =>
    obtain ⟨b, w⟩ := c
    obtain ⟨rfl, n, hn, hrest⟩ := h
    cases fuel with
    | zero => simp at hfuel
    | succ fuel =>
      have hlen : cells.length ≤ fuel := by
        rw [List.length_cons] at hfuel
        omega
      rw [lastAddr_cons, Chains.lastFrom]
      simp only [hn]
      cases cells with
      | nil =>
        obtain rfl : n = none := hrest
        rfl
      | cons d cells =>
        have hnext := ih hrest hlen
        obtain ⟨rfl, _⟩ := hrest
        rw [lastAddr_cons] at hnext ⊢
        exact hnext

/-! ### What the chains hold -/

namespace Chains

/-- The chains hold these lists of nodes, no node is in two places, and every node in
memory is in one of them. -/
structure Represents (chains : Chains K V) (cells : K → List (Addr × V)) : Prop where
  chain : ∀ k, Segment chains.node (chains.head k) (cells k) none
  nodup : ∀ k, (addrs (cells k)).Nodup
  apart : ∀ k k' a, a ∈ addrs (cells k) → a ∈ addrs (cells k') → k = k'
  reached : ∀ a, (chains.node a).isSome → ∃ k, a ∈ addrs (cells k)
  bound : ∀ k, ∀ a ∈ addrs (cells k), a < chains.allocated

theorem represents_empty : Represents (empty : Chains K V) fun _ => [] where
  chain _ := rfl
  nodup _ := List.nodup_nil
  apart _ _ _ h := absurd h List.not_mem_nil
  reached _ h := absurd h (by simp [empty])
  bound _ _ h := absurd h List.not_mem_nil

variable {self : Chains K V} {cells : K → List (Addr × V)} {k : K}

theorem Represents.length_le (h : Represents self cells) (k : K) :
    (cells k).length ≤ self.allocated := by
  have hsub : addrs (cells k) ⊆ List.range self.allocated := fun a ha =>
    List.mem_range.mpr (h.bound k a ha)
  have hle := (List.subperm_of_subset (h.nodup k) hsub).length_le
  rwa [addrs, List.length_map, List.length_range] at hle

theorem Represents.notMem (h : Represents self cells) {a : Addr} (ha : self.allocated ≤ a) (k : K) :
    a ∉ addrs (cells k) :=
  fun hmem => Nat.not_lt.mpr ha (h.bound k a hmem)

/-- An address holds the value with which it stands in a chain. -/
theorem Represents.read_eq (h : Represents self cells) (hmem : (a, v) ∈ cells k) :
    self.read a = some v := by
  obtain ⟨n, hn⟩ := mem_of_segment (h.chain k) hmem
  rw [read, hn]
  rfl

theorem Represents.search_found {f : V → Bool} (h : Represents self cells)
    (hk : cells k = l ++ (a, v) :: r) (hl : ∀ c ∈ l, f c.2 = false) (hv : f v = true) :
    self.search f k = some (lastAddr none l, some a) := by
  apply walk_found (r := r) (v := v) _ hl hv
  · rw [← hk]
    exact h.length_le k
  · rw [← hk]
    exact h.chain k

theorem Represents.search_none {f : V → Bool} (h : Represents self cells)
    (hf : ∀ c ∈ cells k, f c.2 = false) :
    self.search f k = some (lastAddr none (cells k), none) :=
  walk_none (h.chain k) hf (h.length_le k)

theorem free_node_self : (self.free a).node a = none := Function.update_self ..

theorem free_node_of_ne {b : Addr} (hne : b ≠ a) : (self.free a).node b = self.node b :=
  Function.update_of_ne hne ..

theorem modify_node_self (g : V → V) :
    (self.modify a g).node a = (self.node a).map fun n => ⟨g n.val, n.next⟩ :=
  Function.update_self ..

theorem modify_node_of_ne {b : Addr} (hne : b ≠ a) (g : V → V) :
    (self.modify a g).node b = self.node b :=
  Function.update_of_ne hne ..

/-- Changing a value leaves the links alone. -/
theorem Represents.modify (h : Represents self cells) (a : Addr) (g : V → V) :
    Represents (self.modify a g)
      fun k => (cells k).map fun c => if c.1 = a then (c.1, g c.2) else c := by
  have haddrs : ∀ l : List (Addr × V),
      addrs (l.map fun c => if c.1 = a then (c.1, g c.2) else c) = addrs l := by
    intro l
    rw [addrs, List.map_map]
    apply List.map_congr_left
    intro c _
    simp only [Function.comp]
    split <;> rfl
  refine ⟨fun k => ?_, fun k => ?_, fun k k' b hb hb' => ?_, fun b hb => ?_, fun k b hb => ?_⟩
  · have hsegment := h.chain k
    show Segment _ (self.head k) _ none
    generalize self.head k = p at hsegment
    generalize cells k = l at hsegment
    induction l generalizing p with
    | nil => exact hsegment
    | cons c l ih =>
      obtain ⟨b, w⟩ := c
      obtain ⟨rfl, n, hn, hrest⟩ := hsegment
      by_cases hb : b = a
      · subst hb
        simp only [List.map_cons, if_true]
        refine ⟨rfl, n, ?_, ih _ hrest⟩
        rw [modify_node_self, hn]
        rfl
      · simp only [List.map_cons, hb, if_false]
        refine ⟨rfl, n, ?_, ih _ hrest⟩
        rw [modify_node_of_ne hb, hn]
  · rw [haddrs]
    exact h.nodup k
  · rw [haddrs] at hb hb'
    exact h.apart k k' b hb hb'
  · have hsome : (self.node b).isSome := by
      by_cases hba : b = a
      · subst hba
        rwa [modify_node_self, Option.isSome_map] at hb
      · rwa [modify_node_of_ne hba] at hb
    obtain ⟨k, hk⟩ := h.reached b hsome
    exact ⟨k, by rwa [haddrs]⟩
  · rw [haddrs] at hb
    exact h.bound k b hb

variable [DecidableEq K]

theorem link_head_of_ne {k' : K} (hne : k' ≠ k) (next parent : Option Addr) :
    (self.link k next parent).head k' = self.head k' := by
  cases parent with
  | none => exact Function.update_of_ne hne _ _
  | some p => rfl

theorem link_node_self (next : Option Addr) (p : Addr) :
    (self.link k next (some p)).node p = (self.node p).map fun n => ⟨n.val, next⟩ :=
  Function.update_self ..

theorem link_node_of_notMem (next : Option Addr) (ha : a ∉ addrs l) :
    (self.link k next (lastAddr none l)).node a = self.node a := by
  rcases List.eq_nil_or_concat' l with rfl | ⟨l, ⟨b, w⟩, rfl⟩
  · rfl
  · rw [lastAddr_snoc]
    apply Function.update_of_ne
    rintro rfl
    simp at ha

theorem link_isSome (next parent : Option Addr) (b : Addr) :
    ((self.link k next parent).node b).isSome = (self.node b).isSome := by
  cases parent with
  | none => rfl
  | some p =>
    by_cases hb : b = p
    · subst hb
      simp [link]
    · show (Function.update self.node p _ b).isSome = _
      rw [Function.update_of_ne hb]

@[simp] theorem link_allocated (next parent : Option Addr) :
    (self.link k next parent).allocated = self.allocated := by
  cases parent <;> rfl

/-- The nodes up to a pointer are followed by the node it is set to. -/
theorem segment_link (h : Segment self.node (self.head k) l q) (hnodup : (addrs l).Nodup)
    (next : Option Addr) :
    Segment (self.link k next (lastAddr none l)).node
      ((self.link k next (lastAddr none l)).head k) l next := by
  rcases List.eq_nil_or_concat' l with rfl | ⟨l, ⟨b, w⟩, rfl⟩
  · show Function.update self.head k next k = next
    exact Function.update_self ..
  · rw [lastAddr_snoc]
    obtain ⟨m, hl, rfl, n, hn, _⟩ := segment_append.mp h
    have hb : b ∉ addrs l := by
      rw [addrs_append, List.nodup_append] at hnodup
      exact fun hmem => hnodup.2.2 b hmem b (by simp) rfl
    refine segment_append.mpr ⟨some b, segment_update hl hb, rfl, next, ?_, rfl⟩
    rw [link_node_self, hn]
    rfl

theorem Represents.unlink (h : Represents self cells) (hk : cells k = l ++ (a, v) :: r) :
    ∃ n self', self.node a = some ⟨v, n⟩ ∧ self' = (self.link k n (lastAddr none l)).free a ∧
      Segment self'.node n r none ∧ Represents self' (Function.update cells k (l ++ r)) := by
  have hsegment := h.chain k
  rw [hk] at hsegment
  obtain ⟨m, hl, rfl, n, hn, hr⟩ := segment_append.mp hsegment
  have hnodup := h.nodup k
  rw [hk, addrs_append, addrs_cons, List.nodup_append] at hnodup
  obtain ⟨hnodupl, hnodupr, hdisjoint⟩ := hnodup
  obtain ⟨har, hnodupr⟩ := List.nodup_cons.mp hnodupr
  have hal : a ∉ addrs l := fun hmem => hdisjoint a hmem a (List.mem_cons_self ..) rfl
  have hframe : ∀ b, b ∉ addrs l → b ≠ a →
      ((self.link k n (lastAddr none l)).free a).node b = self.node b := by
    intro b hb hba
    rw [free_node_of_ne hba]
    exact link_node_of_notMem n hb
  have hsegmentr : Segment ((self.link k n (lastAddr none l)).free a).node n r none := by
    apply segment_congr hr
    intro b hb
    apply hframe b
    · exact fun hbl => hdisjoint b hbl b (List.mem_cons_of_mem _ hb) rfl
    · rintro rfl
      exact har hb
  have hsub : ∀ k' b, b ∈ addrs (Function.update cells k (l ++ r) k') → b ∈ addrs (cells k') := by
    intro k' b hb
    by_cases hkk : k' = k
    · subst hkk
      rw [Function.update_self, addrs_append] at hb
      rw [hk, addrs_append, addrs_cons]
      simp only [List.mem_append, List.mem_cons] at hb ⊢
      tauto
    · rwa [Function.update_of_ne hkk] at hb
  refine ⟨n, _, hn, rfl, hsegmentr, ⟨fun k' => ?_, fun k' => ?_, ?_, fun b hb => ?_, ?_⟩⟩
  · by_cases hkk : k' = k
    · subst hkk
      rw [Function.update_self]
      refine segment_append.mpr ⟨n, ?_, hsegmentr⟩
      exact segment_update (segment_link hl hnodupl n) hal
    · rw [Function.update_of_ne hkk, free]
      show Segment _ ((self.link k n _).head k') _ _
      rw [link_head_of_ne hkk]
      apply segment_congr (h.chain k')
      intro b hb
      have hapart : ∀ c ∈ addrs (cells k), b ≠ c := by
        rintro c hc rfl
        exact hkk (h.apart k' k b hb hc)
      rw [hk] at hapart
      apply hframe b
      · exact fun hmem => hapart b (by simp [hmem]) rfl
      · exact hapart a (by simp)
  · by_cases hkk : k' = k
    · subst hkk
      rw [Function.update_self, addrs_append, List.nodup_append]
      exact ⟨hnodupl, hnodupr, fun b hb c hc => hdisjoint b hb c (List.mem_cons_of_mem _ hc)⟩
    · rw [Function.update_of_ne hkk]
      exact h.nodup k'
  · exact fun k₁ k₂ b hb hb' => h.apart k₁ k₂ b (hsub k₁ b hb) (hsub k₂ b hb')
  · have hba : b ≠ a := by
      rintro rfl
      rw [free_node_self] at hb
      cases hb
    rw [free_node_of_ne hba, link_isSome] at hb
    obtain ⟨k', hk'⟩ := h.reached b hb
    refine ⟨k', ?_⟩
    by_cases hkk : k' = k
    · subst hkk
      rw [Function.update_self]
      rw [hk] at hk'
      simpa [hba] using hk'
    · rwa [Function.update_of_ne hkk]
  · intro k' b hb
    show b < (self.link k n _).allocated
    rw [link_allocated]
    exact h.bound k' b (hsub k' b hb)

theorem Represents.append (h : Represents self cells) (k : K) (v : V) :
    ∃ self', self.append k v = some self' ∧ self'.allocated = self.allocated + 1 ∧
      Represents self' (Function.update cells k (cells k ++ [(self.allocated, v)])) := by
  have hfresh := fun k' => h.notMem (Nat.le_refl self.allocated) k'
  have hlast := lastFrom_eq (h.chain k) (h.length_le k)
  refine ⟨_, by rw [Chains.append, hlast]; rfl, link_allocated .., ?_⟩
  generalize hself : ({ self with
    node := Function.update self.node self.allocated (some ⟨v, none⟩)
    allocated := self.allocated + 1 } : Chains K V) = grown
  have hhead : grown.head = self.head := by rw [← hself]
  have hnode : ∀ b, b ≠ self.allocated → grown.node b = self.node b := by
    intro b hb
    rw [← hself]
    exact Function.update_of_ne hb ..
  have hself' : grown.node self.allocated = some ⟨v, none⟩ := by
    rw [← hself]
    exact Function.update_self ..
  have hchain : ∀ k', Segment grown.node (grown.head k') (cells k') none := by
    intro k'
    rw [hhead]
    apply segment_congr (h.chain k')
    intro b hb
    apply hnode
    rintro rfl
    exact hfresh k' hb
  have hnewNode : (grown.link k (some self.allocated) (lastAddr none (cells k))).node
      self.allocated = some ⟨v, none⟩ := by
    rw [link_node_of_notMem _ (hfresh k), hself']
  have hmem : ∀ k' b,
      b ∈ addrs (Function.update cells k (cells k ++ [(self.allocated, v)]) k') ↔
        b ∈ addrs (cells k') ∨ (k' = k ∧ b = self.allocated) := by
    intro k' b
    by_cases hkk : k' = k
    · subst hkk
      simp
    · simp [hkk]
  refine ⟨fun k' => ?_, fun k' => ?_, fun k₁ k₂ b hb hb' => ?_, fun b hb => ?_, fun k' b hb => ?_⟩
  · by_cases hkk : k' = k
    · subst hkk
      rw [Function.update_self]
      refine segment_append.mpr ⟨_, segment_link (hchain k') (h.nodup k') _, rfl, none, ?_, rfl⟩
      exact hnewNode
    · rw [Function.update_of_ne hkk, link_head_of_ne hkk]
      apply segment_congr (hchain k')
      intro b hb
      apply link_node_of_notMem
      exact fun hbk => hkk (h.apart k' k b hb hbk)
  · by_cases hkk : k' = k
    · subst hkk
      rw [Function.update_self, addrs_append, List.nodup_append]
      refine ⟨h.nodup k', by simp, fun b hb c hc => ?_⟩
      obtain rfl : c = self.allocated := by simpa using hc
      rintro rfl
      exact hfresh k' hb
    · rw [Function.update_of_ne hkk]
      exact h.nodup k'
  · rw [hmem] at hb hb'
    rcases hb with hb | ⟨rfl, rfl⟩ <;> rcases hb' with hb' | ⟨rfl, hb'⟩
    · exact h.apart k₁ k₂ b hb hb'
    · subst hb'
      exact absurd hb (hfresh k₁)
    · exact absurd hb' (hfresh k₂)
    · rfl
  · rw [link_isSome] at hb
    by_cases hba : b = self.allocated
    · exact ⟨k, (hmem k b).mpr (.inr ⟨rfl, hba⟩)⟩
    · rw [hnode b hba] at hb
      obtain ⟨k', hk'⟩ := h.reached b hb
      exact ⟨k', (hmem k' b).mpr (.inl hk')⟩
  · rw [link_allocated, ← hself]
    show b < self.allocated + 1
    rcases (hmem k' b).mp hb with hold | ⟨_, rfl⟩
    · exact Nat.lt_succ_of_lt (h.bound k' b hold)
    · exact Nat.lt_succ_self _

/-- A sweep that has passed some nodes drops what it meets of the others. -/
theorem Represents.sweepFrom {f : V → Bool} {fuel : ℕ} (h : Represents self cells)
    (hk : cells k = l ++ r) (hr : Segment self.node p r none) (hfuel : r.length ≤ fuel) :
    ∃ self', sweepFrom f k fuel self (lastAddr none l) p =
        some (self', addrs (r.filter fun c => f c.2)) ∧
      self'.allocated = self.allocated ∧
      Represents self' (Function.update cells k (l ++ r.filter fun c => !f c.2)) := by
  induction r generalizing self cells l p fuel with
  | nil =>
    obtain rfl : p = none := hr
    refine ⟨self, by rw [Chains.sweepFrom]; rfl, rfl, ?_⟩
    rwa [List.filter_nil, ← hk, Function.update_eq_self]
  | cons c r ih =>
    obtain ⟨a, v⟩ := c
    obtain ⟨rfl, n, hn, hrest⟩ := hr
    cases fuel with
    | zero => simp at hfuel
    | succ fuel =>
      have hlen : r.length ≤ fuel := by
        rw [List.length_cons] at hfuel
        omega
      rw [Chains.sweepFrom]
      simp only [hn]
      by_cases hv : f v = true
      · obtain ⟨n', self', hn', hself', hr', hrep⟩ := h.unlink hk
        obtain rfl : n = n' := by
          rw [hn] at hn'
          exact (Node.mk.inj (Option.some.inj hn')).2
        obtain ⟨self'', hsweep, halloc, hrep''⟩ := ih hrep (Function.update_self ..) hr' hlen
        rw [Function.update_idem] at hrep''
        refine ⟨self'', ?_, ?_, ?_⟩
        · rw [if_pos hv, ← hself', hsweep]
          simp [hv]
        · rw [halloc, hself']
          exact link_allocated ..
        · simpa [hv] using hrep''
      · have hk' : cells k = (l ++ [(a, v)]) ++ r := by rw [hk, List.append_assoc]; rfl
        obtain ⟨self', hsweep, halloc, hrep⟩ := ih h hk' hrest hlen
        rw [lastAddr_snoc] at hsweep
        refine ⟨self', ?_, halloc, ?_⟩
        · rw [if_neg hv, hsweep]
          simp [hv]
        · rw [List.append_assoc] at hrep
          simpa [hv] using hrep

theorem Represents.sweep (h : Represents self cells) (f : V → Bool) (k : K) :
    ∃ self', self.sweep f k = some (self', addrs ((cells k).filter fun c => f c.2)) ∧
      self'.allocated = self.allocated ∧
      Represents self' (Function.update cells k ((cells k).filter fun c => !f c.2)) :=
  h.sweepFrom (l := []) rfl (h.chain k) (h.length_le k)

omit [DecidableEq K] in
theorem discardFrom_spec {fuel : ℕ} (h : Segment self.node p r none) (hnodup : (addrs r).Nodup)
    (hfuel : r.length ≤ fuel) :
    ∃ self', discardFrom fuel self p = some (self', r.map Prod.snd) ∧
      self'.head = self.head ∧ self'.allocated = self.allocated ∧
      ∀ b, self'.node b = if b ∈ addrs r then none else self.node b := by
  induction r generalizing self p fuel with
  | nil =>
    obtain rfl : p = none := h
    exact ⟨self, by rw [discardFrom]; rfl, rfl, rfl, fun b => by simp⟩
  | cons c r ih =>
    obtain ⟨a, v⟩ := c
    obtain ⟨rfl, n, hn, hrest⟩ := h
    obtain ⟨har, hnodup⟩ := List.nodup_cons.mp hnodup
    cases fuel with
    | zero => simp at hfuel
    | succ fuel =>
      have hlen : r.length ≤ fuel := by
        rw [List.length_cons] at hfuel
        omega
      have hfree : Segment (self.free a).node n r none := segment_update hrest har
      obtain ⟨self', hdiscard, hhead, halloc, hnode⟩ := ih hfree hnodup hlen
      refine ⟨self', ?_, hhead, halloc, fun b => ?_⟩
      · rw [discardFrom]
        simp only [hn, hdiscard]
        rfl
      · rw [hnode b]
        by_cases hba : b = a
        · subst hba
          rw [free_node_self]
          simp
        · simp [free_node_of_ne hba, hba]

theorem Represents.discard (h : Represents self cells) (k : K) :
    ∃ self', self.discard k = some (self', (cells k).map Prod.snd) ∧
      self'.allocated = self.allocated ∧ Represents self' (Function.update cells k []) := by
  obtain ⟨rest, hdiscard, hhead, halloc, hnode⟩ :=
    discardFrom_spec (h.chain k) (h.nodup k) (h.length_le k)
  refine ⟨{ rest with head := Function.update rest.head k none },
    by rw [Chains.discard, hdiscard]; rfl, halloc, ⟨fun k' => ?_, fun k' => ?_,
    fun k₁ k₂ b hb hb' => ?_, fun b hb => ?_, fun k' b hb => ?_⟩⟩
  · by_cases hkk : k' = k
    · subst hkk
      rw [Function.update_self]
      exact Function.update_self ..
    · rw [Function.update_of_ne hkk]
      show Segment rest.node (Function.update rest.head k none k') (cells k') none
      rw [Function.update_of_ne hkk, hhead]
      apply segment_congr (h.chain k')
      intro b hb
      rw [hnode b, if_neg fun hbk => hkk (h.apart k' k b hb hbk)]
  · by_cases hkk : k' = k
    · subst hkk
      rw [Function.update_self]
      exact List.nodup_nil
    · rw [Function.update_of_ne hkk]
      exact h.nodup k'
  · by_cases hk₁ : k₁ = k
    · subst hk₁
      simp at hb
    · by_cases hk₂ : k₂ = k
      · subst hk₂
        simp at hb'
      · rw [Function.update_of_ne hk₁] at hb
        rw [Function.update_of_ne hk₂] at hb'
        exact h.apart k₁ k₂ b hb hb'
  · have hbk : b ∉ addrs (cells k) := fun hmem => by simp [hnode b, hmem] at hb
    rw [hnode b, if_neg hbk] at hb
    obtain ⟨k', hk'⟩ := h.reached b hb
    refine ⟨k', ?_⟩
    by_cases hkk : k' = k
    · subst hkk
      exact absurd hk' hbk
    · rwa [Function.update_of_ne hkk]
  · by_cases hkk : k' = k
    · subst hkk
      simp at hb
    · rw [Function.update_of_ne hkk] at hb
      rw [halloc]
      exact h.bound k' b hb

end Chains

end Swad.LinkedChains
