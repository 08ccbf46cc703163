import Mathlib.Algebra.BigOperators.Fin
import Mathlib.Algebra.Order.Ring.Int
import Swad.HeaderMultimap

/-!
The walk through all headers of a set, bucket by bucket. An iterator on an entry has the rest
of its chain and the later buckets left, and the loop that goes on to them stops at the last
bucket. The loop that looks for the first entry tests its bound too late, so it reads behind
the buckets if no bucket holds anything.
-/
namespace Swad.HeaderWalk

open Bytes Util LinkedChains HeaderChains HeaderMultimap

open Headerset hiding HeaderIterator

/-- Where an iterator stands each time it could be moved on, and how it is left. -/
def walk (self : Memory) : ℕ → HeaderIterator → Option (List HeaderIterator × HeaderIterator)
  | 0, _ => none
  | fuel + 1, it => do
    let (it, moved) ← self.moveNext it
    if moved then
      let (visited, last) ← walk self fuel it
      return (it :: visited, last)
    else return ([], it)

/-- The entries of the buckets from one on. -/
def behind (cells : Cells) (n : ℕ) : List (Addr × HeaderSetEntry) :=
  ((List.finRange (2 ^ HSHT_BITS)).drop n).flatMap cells

theorem behind_step (cells : Cells) {n : ℕ} (hn : n < 2 ^ HSHT_BITS) :
    behind cells n = cells ⟨n, hn⟩ ++ behind cells (n + 1) := by
  unfold behind
  rw [List.drop_eq_getElem_cons (by rwa [List.length_finRange]), List.flatMap_cons,
    List.getElem_finRange]
  rfl

theorem behind_last (cells : Cells) {n : ℕ} (hn : 2 ^ HSHT_BITS ≤ n) : behind cells n = [] := by
  unfold behind
  rw [List.drop_eq_nil_of_le (by rwa [List.length_finRange])]
  rfl

variable {self : Memory} {cells : Cells} {m : Multimap} {hashval : UInt8} {fuel : ℕ}
  {left : List (Addr × HeaderSetEntry)} {it : HeaderIterator} {a : Addr} {e : HeaderSetEntry}

/-! ### The loops over the buckets -/

/-- An iterator stands on an entry, and these entries are left. -/
structure Standing (set : Memory) (cells : Cells) (it : HeaderIterator) (a : Addr)
    (e : HeaderSetEntry) (left : List (Addr × HeaderSetEntry)) : Prop where
  key : it.key = none
  entry : it.entry = some a
  hash : it.hash.toNat < 2 ^ HSHT_BITS
  rest : ∃ next r, set.buckets.node a = some ⟨e, next⟩ ∧ Segment set.buckets.node next r none ∧
    left = r ++ behind cells (it.hash.toNat + 1)

theorem bucketAt_eq (h : hashval.toNat < 2 ^ HSHT_BITS) :
    self.bucketAt hashval = some (self.buckets.head ⟨hashval.toNat, h⟩) := dif_pos h

theorem bucketAt_outside (h : ¬ hashval.toNat < 2 ^ HSHT_BITS) :
    self.bucketAt hashval = none := dif_neg h

/-- A bucket is passed if it is empty, otherwise its first entry is the next one. -/
theorem bucket_cases (h : self.buckets.Represents cells) (hhash : hashval.toNat < 2 ^ HSHT_BITS) :
    (self.bucketAt hashval = some none ∧
        behind cells hashval.toNat = behind cells (hashval.toNat + 1)) ∨
      ∃ a e left, self.bucketAt hashval = some (some a) ∧
        behind cells hashval.toNat = (a, e) :: left ∧
        Standing self cells ⟨none, some a, hashval⟩ a e left := by
  have hchain := h.chain ⟨hashval.toNat, hhash⟩
  rw [bucketAt_eq hhash, behind_step cells hhash]
  cases hcells : cells ⟨hashval.toNat, hhash⟩ with
  | nil =>
    rw [hcells] at hchain
    exact Or.inl ⟨congrArg some hchain, rfl⟩
  | cons c r =>
    obtain ⟨a, e⟩ := c
    rw [hcells] at hchain
    obtain ⟨hhead, next, hnode, hrest⟩ := hchain
    exact Or.inr ⟨a, e, _, congrArg some hhead, rfl, rfl, rfl, hhash, next, r, hnode, hrest, rfl⟩

theorem toNat_next (h : hashval.toNat < 255) : (hashval + 1).toNat = hashval.toNat + 1 := by
  rw [UInt8.toNat_add]
  exact Nat.mod_eq_of_lt (by have hone : (1 : UInt8).toNat = 1 := rfl; omega)

/-- The loop behind the first entry never leaves the buckets. -/
theorem laterBucket_spec (h : self.buckets.Represents cells)
    (hhash : hashval.toNat < 2 ^ HSHT_BITS) (hfuel : 2 ^ HSHT_BITS ≤ hashval.toNat + fuel) :
    (behind cells (hashval.toNat + 1) = [] ∧
        self.laterBucket fuel hashval = some (⟨none, none, 0xff⟩, false)) ∨
      ∃ a e left it', behind cells (hashval.toNat + 1) = (a, e) :: left ∧
        self.laterBucket fuel hashval = some (it', true) ∧ Standing self cells it' a e left := by
  have hbits : 2 ^ HSHT_BITS = 32 := rfl
  induction fuel generalizing hashval with
  | zero => omega
  | succ fuel ih =>
    unfold Memory.laterBucket
    by_cases hlast : hashval.toNat < 2 ^ HSHT_BITS - 1
    · rw [if_pos hlast]
      have hnext : (hashval + 1).toNat = hashval.toNat + 1 := toNat_next (by omega)
      have hbound : (hashval + 1).toNat < 2 ^ HSHT_BITS := by omega
      rcases bucket_cases h hbound with
        ⟨hempty, hsame⟩ | ⟨a, e, left, hbucket, hleft, hstanding⟩
      · rw [hempty, ← hnext, hsame]
        exact ih (by omega) (by omega)
      · rw [hbucket]
        exact Or.inr ⟨a, e, left, _, by rw [← hnext, hleft], rfl, hstanding⟩
    · rw [if_neg hlast]
      exact Or.inl ⟨behind_last cells (by omega), rfl⟩

/-- The loop before the first entry finds it if there is one. -/
theorem firstBucket_found (h : self.buckets.Represents cells)
    (hhash : (hashval + 1).toNat < 2 ^ HSHT_BITS)
    (hfuel : 2 ^ HSHT_BITS ≤ (hashval + 1).toNat + fuel)
    (hleft : behind cells (hashval + 1).toNat = (a, e) :: left) :
    ∃ it', self.firstBucket fuel hashval = some (it', true) ∧
      Standing self cells it' a e left := by
  have hbits : 2 ^ HSHT_BITS = 32 := rfl
  induction fuel generalizing hashval with
  | zero => omega
  | succ fuel ih =>
    unfold Memory.firstBucket
    rcases bucket_cases h hhash with ⟨hempty, hsame⟩ | ⟨a', e', left', hbucket, hleft', hstanding⟩
    · have hnext : (hashval + 1 + 1).toNat = (hashval + 1).toNat + 1 := toNat_next (by omega)
      have hmore : (hashval + 1).toNat + 1 < 2 ^ HSHT_BITS := by
        by_contra hnot
        rw [hsame, behind_last cells (by omega)] at hleft
        exact List.cons_ne_nil _ _ hleft.symm
      rw [hempty]
      dsimp only [Option.bind_eq_bind, Option.bind_some]
      rw [if_pos hhash]
      exact ih (by omega) (by omega) (by rw [hnext, ← hsame, hleft])
    · rw [hleft'] at hleft
      obtain ⟨hc, rfl⟩ := List.cons.inj hleft
      obtain ⟨rfl, rfl⟩ := Prod.mk.inj hc
      rw [hbucket]
      exact ⟨_, rfl, hstanding⟩

/-- If there is none it goes on to the place behind the last bucket, whatever its fuel is. -/
theorem firstBucket_outside (h : self.buckets.Represents cells)
    (hhash : (hashval + 1).toNat ≤ 2 ^ HSHT_BITS)
    (hleft : behind cells (hashval + 1).toNat = []) : self.firstBucket fuel hashval = none := by
  have hbits : 2 ^ HSHT_BITS = 32 := rfl
  induction fuel generalizing hashval with
  | zero => rfl
  | succ fuel ih =>
    unfold Memory.firstBucket
    by_cases hlast : (hashval + 1).toNat < 2 ^ HSHT_BITS
    · rcases bucket_cases h hlast with ⟨hempty, hsame⟩ | ⟨a, e, left, _, hcons, _⟩
      · have hnext : (hashval + 1 + 1).toNat = (hashval + 1).toNat + 1 := toNat_next (by omega)
        rw [hempty]
        dsimp only [Option.bind_eq_bind, Option.bind_some]
        rw [if_pos hlast]
        exact ih (by omega) (by rw [hnext, ← hsame, hleft])
      · rw [hcons] at hleft
        exact absurd hleft (List.cons_ne_nil _ _)
    · rw [bucketAt_outside hlast]
      rfl

/-! ### The walk -/

/-- From an entry the iterator is moved on to the next one that is left. -/
theorem Standing.moveNext (h : self.buckets.Represents cells)
    (hstanding : Standing self cells it a e left) :
    (left = [] ∧ self.moveNext it = some (⟨none, none, 0xff⟩, false)) ∨
      ∃ a' e' left' it', left = (a', e') :: left' ∧ self.moveNext it = some (it', true) ∧
        Standing self cells it' a' e' left' := by
  obtain ⟨hkey, hentry, hhash, next, r, hnode, hsegment, rfl⟩ := hstanding
  unfold Memory.moveNext
  rw [hkey, hentry]
  dsimp only
  rw [hnode]
  cases r with
  | nil =>
    rw [show next = none from hsegment]
    exact laterBucket_spec h hhash (by omega)
  | cons c r =>
    obtain ⟨a', e'⟩ := c
    obtain ⟨rfl, next', hnode', hrest⟩ := hsegment
    exact Or.inr ⟨a', e', _, _, rfl, rfl, rfl, rfl, hhash, next', r, hnode', hrest, rfl⟩

theorem Standing.current (hstanding : Standing self cells it a e left) :
    self.current it = some (some e.header) := by
  obtain ⟨next, r, hnode, _⟩ := hstanding.rest
  unfold Memory.current
  rw [hstanding.entry]
  show (self.buckets.read a).map _ = _
  rw [Chains.read, hnode]
  rfl

/-- A walk visits these entries, one after the other, and ends on none. -/
def Visits (self : Memory) (it : HeaderIterator) (left : List (Addr × HeaderSetEntry)) : Prop :=
  ∃ visited, (∀ fuel, left.length < fuel →
      walk self fuel it = some (visited, ⟨none, none, 0xff⟩)) ∧
    visited.map HeaderChains.HeaderIterator.entry = left.map (fun c => some c.1) ∧
    visited.map self.current = left.map (fun c => some (some c.2.header))

theorem visits_nil (hmove : self.moveNext it = some (⟨none, none, 0xff⟩, false)) :
    Visits self it [] := by
  refine ⟨[], fun fuel hfuel => ?_, rfl, rfl⟩
  cases fuel with
  | zero => exact absurd hfuel (Nat.lt_irrefl _)
  | succ fuel =>
    unfold walk
    rw [hmove]
    rfl

/-- One step, and then the rest of the walk. -/
theorem Standing.visits_cons {it' : HeaderIterator} (hstanding : Standing self cells it' a e left)
    (hmove : self.moveNext it = some (it', true)) (hrest : Visits self it' left) :
    Visits self it ((a, e) :: left) := by
  obtain ⟨visited, hwalk, hentries, hheaders⟩ := hrest
  refine ⟨it' :: visited, fun fuel hfuel => ?_, ?_, ?_⟩
  · cases fuel with
    | zero => exact absurd hfuel (Nat.not_lt_zero _)
    | succ fuel =>
      unfold HeaderWalk.walk
      rw [hmove]
      show (HeaderWalk.walk self fuel it').bind _ = _
      rw [hwalk fuel (Nat.lt_of_succ_lt_succ hfuel)]
      rfl
  · rw [List.map_cons, List.map_cons, hentries]
    exact congrArg (· :: _) hstanding.entry
  · rw [List.map_cons, List.map_cons, hstanding.current, hheaders]

/-- An iterator on an entry visits what is left. -/
theorem Standing.visits (h : self.buckets.Represents cells)
    (hstanding : Standing self cells it a e left) : Visits self it left := by
  induction left generalizing it a e with
  | nil =>
    rcases hstanding.moveNext h with ⟨_, hmove⟩ | ⟨_, _, _, _, hcons, _⟩
    · exact visits_nil hmove
    · exact absurd hcons.symm (List.cons_ne_nil _ _)
  | cons c left ih =>
    rcases hstanding.moveNext h with ⟨hnil, _⟩ | ⟨a', e', left', it', hcons, hmove, hstanding'⟩
    · exact absurd hnil (List.cons_ne_nil _ _)
    · obtain ⟨rfl, rfl⟩ := List.cons.inj hcons
      exact hstanding'.visits_cons hmove (ih hstanding')

theorem visits_all (h : self.buckets.Represents cells) (hleft : behind cells 0 ≠ []) :
    Visits self Memory.all (behind cells 0) := by
  obtain ⟨c, left, hcons⟩ := List.exists_cons_of_ne_nil hleft
  obtain ⟨a, e⟩ := c
  have hstart : ((0xff : UInt8) + 1).toNat = 0 := rfl
  have hbound : ((0xff : UInt8) + 1).toNat < 2 ^ HSHT_BITS := by decide
  have hfuel : 2 ^ HSHT_BITS ≤ ((0xff : UInt8) + 1).toNat + (2 ^ HSHT_BITS + 1) := by decide
  obtain ⟨it', hmove, hstanding⟩ := firstBucket_found h hbound hfuel (by rw [hstart, hcons])
  rw [hcons]
  exact hstanding.visits_cons hmove (hstanding.visits h)

/-! ### All buckets together -/

/-- No header is lost or doubled when a list is spread over the buckets. -/
theorem all_perm (m : Multimap) : (toSet m).all.Perm m := by
  rw [List.perm_iff_count]
  intro x
  have hone (b : Fin (2 ^ HSHT_BITS)) :
      (inBucket m b).count x = if hash x.key HSHT_BITS = b then m.count x else 0 := by
    rw [inBucket, Multimaps.bucket]
    by_cases hb : hash x.key HSHT_BITS = b
    · rw [if_pos hb, List.count_filter (by simpa using hb)]
    · rw [if_neg hb, List.count_eq_zero]
      intro hmem
      exact hb (of_decide_eq_true (List.mem_filter.mp hmem).2)
  show ((List.finRange (2 ^ HSHT_BITS)).flatMap (inBucket m)).count x = _
  have hsum : List.count x ∘ inBucket m =
      fun b => if hash x.key HSHT_BITS = b then m.count x else 0 := funext hone
  rw [List.count_flatMap, hsum, ← Fin.sum_univ_def, Finset.sum_ite_eq,
    if_pos (Finset.mem_univ _)]

theorem headers_behind (h : Stored self cells m) :
    (behind cells 0).map (fun c => c.2.header) = (toSet m).all := by
  unfold behind HeaderSet.all
  rw [List.drop_zero, List.map_flatMap]
  congr 1
  funext b
  exact h.headers b

theorem nodup_behind (h : self.buckets.Represents cells) : (addrs (behind cells 0)).Nodup := by
  unfold addrs behind
  rw [List.drop_zero, List.map_flatMap, List.nodup_flatMap]
  refine ⟨fun b _ => h.nodup b, ?_⟩
  refine (List.nodup_finRange _).imp ?_
  intro b b' hne a hb hb'
  exact hne (h.apart b b' a hb hb')

theorem mem_behind (h : self.buckets.Represents cells) (a : Addr) :
    a ∈ addrs (behind cells 0) ↔ (self.buckets.node a).isSome := by
  unfold addrs behind
  rw [List.drop_zero, List.map_flatMap, List.mem_flatMap]
  constructor
  · rintro ⟨b, _, hmem⟩
    obtain ⟨c, hc, rfl⟩ := List.mem_map.mp hmem
    obtain ⟨next, hnode⟩ := mem_of_segment (h.chain b) (show (c.1, c.2) ∈ cells b from hc)
    rw [hnode]
    rfl
  · intro halive
    obtain ⟨b, hb⟩ := h.reached a halive
    exact ⟨b, List.mem_finRange b, hb⟩

/-- A fresh iterator over all headers comes to every entry of the set once, is moved on as
often as there are headers, and has none in the end; nothing but the buckets is read. -/
def AllVisited (self : Memory) (m : Multimap) : Prop :=
  ∃ visited last, (∀ fuel, m.length < fuel → walk self fuel Memory.all = some (visited, last)) ∧
    self.current last = some none ∧
    (visited.map HeaderChains.HeaderIterator.entry).Nodup ∧
    (∀ a, some a ∈ visited.map HeaderChains.HeaderIterator.entry ↔ (self.buckets.node a).isSome) ∧
    ∃ headers : List Header, visited.map self.current = headers.map (fun h => some (some h)) ∧
      headers.Perm m

theorem length_behind (h : Stored self cells m) : (behind cells 0).length = m.length := by
  rw [← (all_perm m).length_eq, ← headers_behind h, List.length_map]

/-- Every set that operations lead to is walked through as it should be if and only if there
is a header in it. -/
theorem all_visited_iff (ops : List Op) :
    ∃ self m rcs, Memory.create.run ops = some (self, rcs) ∧ Multimap.run [] ops = (m, rcs) ∧
      self.count = m.length ∧ (AllVisited self m ↔ m ≠ []) := by
  obtain ⟨self, cells, hrun, hstored⟩ := stored_create.run ops
  refine ⟨self, _, _, hrun, rfl, hstored.count, ?_⟩
  have hlength := length_behind hstored
  constructor
  · rintro ⟨visited, last, hwalk, _⟩ hempty
    have hnone : behind cells 0 = [] := by
      rw [← List.length_eq_zero_iff, hlength, hempty]
      rfl
    have hbound : ((0xff : UInt8) + 1).toNat ≤ 2 ^ HSHT_BITS := by decide
    have hmove : self.moveNext Memory.all = none :=
      firstBucket_outside hstored.chains hbound hnone
    have hsome := hwalk _ (Nat.lt_succ_self _)
    unfold walk at hsome
    rw [hmove] at hsome
    exact absurd hsome.symm (Option.some_ne_none _)
  · intro hne
    have hleft : behind cells 0 ≠ [] := by
      rw [← List.length_pos_iff, hlength]
      exact List.length_pos_iff.mpr hne
    obtain ⟨visited, hwalk, hentries, hheaders⟩ := visits_all hstored.chains hleft
    have haddrs : visited.map HeaderChains.HeaderIterator.entry =
        (addrs (behind cells 0)).map some := by
      rw [hentries, addrs, List.map_map]
      rfl
    refine ⟨visited, _, fun fuel hfuel => hwalk fuel (by omega), rfl, ?_, ?_, ?_⟩
    · rw [haddrs, List.nodup_map_iff (Option.some_injective _)]
      exact nodup_behind hstored.chains
    · intro a
      rw [haddrs, List.mem_map_of_injective (Option.some_injective _), mem_behind hstored.chains]
    · refine ⟨(toSet _).all, ?_, all_perm _⟩
      rw [hheaders, ← headers_behind hstored, List.map_map]
      rfl

/-- Before the first header is added there is no bucket to stop at. -/
theorem empty_not_visited : ¬ AllVisited Memory.create [] := by
  rintro ⟨visited, last, hwalk, _⟩
  exact absurd (hwalk 1 (by decide)).symm (Option.some_ne_none _)

end Swad.HeaderWalk
