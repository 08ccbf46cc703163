import Swad.Ratelimit
import Swad.LabelledRuns

/-!
The limiter compared with the plain history of its calls. The history model
accepts a call when fewer than the allowed number of earlier calls for the same
id were accepted in the slots that the buffer covers, counted on the unwrapped
clock. A buffer never counts less than the history, whatever the 16-bit slot
number does; it counts the same as long as no stale counter comes back.
-/
namespace Swad.RatelimitHistory

open Bytes Tables RingCounter Ratelimit LabelledRuns

structure Call where
  ts : Timespec
  id : Str

/-- The calls made so far, with what each of them returned. -/
abbrev Trace := List (Call × Bool)

def callStep (l : Limit) (c : Call) : Option (Limit × Bool) := some (checkLimit l c.ts c.id)

/-- The slot of a call on the real clock. -/
def slot (res : ℕ) (c : Call) : ℕ := c.ts.tv_sec / res

def Chronological (trace : Trace) : Prop :=
  trace.Pairwise (fun a b => a.1.ts.nanos ≤ b.1.ts.nanos)

/-- The slots of the calls for an id that returned 1. -/
def accepted (res : ℕ) (id : Str) (trace : Trace) : List ℕ :=
  (trace.filter (fun l => decide (l.1.id = id) && l.2)).map (fun l => slot res l.1)

/-- The history model: fewer than `limit` earlier calls for the same id returned
1 in the current slot and the `ncounts - 1` slots before it. -/
def historyAllows (l : Limit) (trace : Trace) (c : Call) : Prop :=
  within (accepted l.res c.id trace) (slot l.res c) l.ncounts < l.limit

/-- Every call of the trace returned what the history model says. -/
def Refines (l : Limit) (trace : Trace) : Prop :=
  Along (fun pre x => x.2 = true ↔ historyAllows l pre x.1) trace

/-- The slot of the latest call for an id, and the slots of the calls for other
ids after it. -/
def touch (res : ℕ) (id : Str) (trace : Trace) : Option (ℕ × List ℕ) :=
  trace.foldl (fun seen l =>
    if l.1.id = id then some (slot res l.1, [])
    else seen.map (fun t => (t.1, t.2 ++ [slot res l.1]))) none

/-- The 16-bit slot number cannot mislead a call: less than its range has
passed since the previous call for the id, or the wrapped difference still
clears the whole buffer, or a call for another id has deleted the entry. -/
def Unwrapped (l : Limit) (trace : Trace) (c : Call) : Prop :=
  ∀ a others, touch l.res c.id trace = some (a, others) →
    slot l.res c - a < 65536 ∨ l.ncounts ≤ (slot l.res c - a) % 65536 ∨
      ∃ x ∈ others, a % 65536 + l.ncounts ≤ x % 65536

structure WellFormed (l : Limit) : Prop where
  res_pos : 0 < l.res
  ncounts_pos : 0 < l.ncounts
  ncounts_le : l.ncounts ≤ 512
  limit_le : l.limit ≤ 65535

theorem newLimit_wellFormed (seconds limit : ℕ) (h0 : 0 < seconds) (hs : seconds ≤ 65535)
    (hl : limit ≤ 65535) : WellFormed (newLimit seconds limit) where
  res_pos := newLimit_res_pos seconds limit h0 hs
  ncounts_pos := (newLimit_ncounts_bounds seconds limit h0 hs).1
  ncounts_le := (newLimit_ncounts_bounds seconds limit h0 hs).2
  limit_le := hl

def ring (e : Entry) : Ring := ⟨e.counts, e.countpos⟩

/-- The buffer of an entry is a ring of the right size and holds its total. -/
structure Sound (l : Limit) (e : Entry) : Prop where
  valid : (ring e).Valid
  size : (ring e).size = l.ncounts
  total : e.total = (ring e).upTo l.ncounts
  bound : e.total ≤ l.limit
  last : e.last < 65536

variable {l l₀ : Limit}

theorem newEntry_sound (hl : WellFormed l) (now : ℕ) (hnow : now < 65536) :
    Sound l (newEntry now l.ncounts) where
  valid := Ring.fresh_valid l.ncounts hl.ncounts_pos
  size := by simp [ring, newEntry, Ring.size]
  total := (Ring.fresh_upTo l.ncounts l.ncounts).symm
  bound := Nat.zero_le _
  last := hnow

theorem nextSlot_ring (hl : WellFormed l) (e : Entry) (he : Sound l e) :
    ring (nextSlot l.ncounts e) = (ring e).advance := by
  have hvalid : e.countpos < (ring e).size := he.valid
  have hsize : (ring e).size = l.ncounts := he.size
  have hn := hl.ncounts_le
  have hnext : u16 (e.countpos + 1) = e.countpos + 1 := Nat.mod_eq_of_lt (by omega)
  have hpos : (ring e).nextPos = if e.countpos + 1 = l.ncounts then 0 else e.countpos + 1 := by
    rw [Ring.nextPos, hsize]
    rfl
  have hset : (ring e).advance =
      ⟨e.counts.set (ring e).nextPos 0, (ring e).nextPos⟩ := rfl
  rw [hset, hpos]
  simp only [ring, nextSlot, hnext]

theorem nextSlot_sound (hl : WellFormed l) (e : Entry) (he : Sound l e) :
    Sound l (nextSlot l.ncounts e) := by
  have hring := nextSlot_ring hl e he
  have hsum := Ring.upTo_size_advance (ring e) he.valid
  have hlimit := hl.limit_le
  have hbound := he.bound
  have htotal := he.total
  have hcell : e.counts.getD (nextSlot l.ncounts e).countpos 0 =
      (ring e).age ((ring e).size - 1) := by
    rw [← Ring.oldest (ring e) he.valid]
    have hpos : (nextSlot l.ncounts e).countpos = (ring e).nextPos := congrArg Ring.pos hring
    rw [hpos]
    rfl
  have hnew : (nextSlot l.ncounts e).total = (ring e).advance.upTo l.ncounts := by
    change u16 (e.total + 65536 - e.counts.getD (nextSlot l.ncounts e).countpos 0) = _
    rw [hcell, u16]
    rw [he.size] at hsum ⊢
    omega
  refine ⟨?_, ?_, ?_, ?_, ?_⟩
  · rw [hring]
    exact (ring e).advance_valid he.valid
  · rw [hring, Ring.size_advance, he.size]
  · rw [hring, hnew]
  · rw [hnew]
    rw [he.size] at hsum
    omega
  · exact Nat.mod_lt _ (by decide)

theorem countOne_ring (e : Entry) (hl : WellFormed l) (he : Sound l e)
    (hroom : e.total < l.limit) : ring (countOne e) = (ring e).bump := by
  have hlimit := hl.limit_le
  have hcell : e.counts.getD e.countpos 0 = (ring e).age 0 := by
    have hpos : e.countpos < (ring e).size := he.valid
    unfold Ring.age
    rw [Ring.slot_index (ring e) he.valid 0 (by omega)]
    rfl
  have hage : (ring e).age 0 ≤ e.total := by
    have h1 : (ring e).upTo 1 ≤ (ring e).upTo l.ncounts := Ring.upTo_mono _ hl.ncounts_pos
    have h2 : (ring e).upTo 1 = (ring e).age 0 := by simp [Ring.upTo]
    rw [he.total, ← h2]
    exact h1
  have hone : u16 (e.counts.getD e.countpos 0 + 1) = e.counts.getD e.countpos 0 + 1 :=
    Nat.mod_eq_of_lt (by omega)
  simp only [ring, countOne, Ring.bump, hone]

theorem countOne_sound (hl : WellFormed l) (e : Entry) (he : Sound l e)
    (hroom : e.total < l.limit) : Sound l (countOne e) := by
  have hring := countOne_ring e hl he hroom
  have hlimit := hl.limit_le
  have htotal : (countOne e).total = e.total + 1 := Nat.mod_eq_of_lt (by omega)
  refine ⟨?_, ?_, ?_, ?_, he.last⟩
  · rw [hring]
    exact (ring e).bump_valid he.valid
  · rw [hring, Ring.size_bump, he.size]
  · rw [hring, htotal, he.total,
      Ring.upTo_bump (ring e) he.valid l.ncounts (Nat.le_of_eq he.size.symm) hl.ncounts_pos]
  · omega

/-- The loop makes as many rounds as the wrapped difference of the slots. -/
theorem catchUp_eq_iterate (n now g rounds : ℕ) (e : Entry) (hg : g < 65536)
    (hrounds : g ≤ rounds) (hlast : e.last < 65536) (hnow : (e.last + g) % 65536 = now) :
    catchUp n now rounds e = (nextSlot n)^[g] e := by
  induction g generalizing rounds e with
  | zero =>
    have heq : e.last = now := by omega
    cases rounds with
    | zero => rfl
    | succ rounds => simp [catchUp, heq]
  | succ g ih =>
    obtain ⟨rounds, rfl⟩ : ∃ r, rounds = r + 1 := ⟨rounds - 1, by omega⟩
    have hne : e.last ≠ now := by omega
    have hstep : (nextSlot n e).last = (e.last + 1) % 65536 := rfl
    rw [catchUp, if_neg hne, Function.iterate_succ_apply]
    exact ih rounds (nextSlot n e) (by omega) (by omega) (by omega) (by omega)

theorem iterate_nextSlot (hl : WellFormed l) (e : Entry) (he : Sound l e) (g : ℕ) :
    Sound l ((nextSlot l.ncounts)^[g] e) ∧
      ring ((nextSlot l.ncounts)^[g] e) = Ring.advance^[g] (ring e) ∧
      ((nextSlot l.ncounts)^[g] e).last = (e.last + g) % 65536 := by
  induction g with
  | zero => exact ⟨he, rfl, (Nat.mod_eq_of_lt he.last).symm⟩
  | succ g ih =>
    obtain ⟨hsound, hring, hlast⟩ := ih
    rw [Function.iterate_succ_apply', Function.iterate_succ_apply']
    refine ⟨nextSlot_sound hl _ hsound, ?_, ?_⟩
    · rw [nextSlot_ring hl _ hsound, hring]
    · change u16 (((nextSlot l.ncounts)^[g] e).last + 1) = _
      rw [hlast, u16]
      omega

/-- What the loop does to a sound entry: the newest slots are shifted by the
wrapped difference of the slot numbers. -/
theorem catchUp_spec (hl : WellFormed l) (e : Entry) (he : Sound l e) (a s : ℕ)
    (hlast : e.last = a % 65536) (has : a ≤ s) :
    Sound l (catchUp l.ncounts (u16 s) 65536 e) ∧
      (catchUp l.ncounts (u16 s) 65536 e).last = s % 65536 ∧
      ∀ k ≤ l.ncounts, (ring (catchUp l.ncounts (u16 s) 65536 e)).upTo k =
        (ring e).upTo (k - (s - a) % 65536) := by
  have hloop := catchUp_eq_iterate l.ncounts (u16 s) ((s - a) % 65536) 65536 e
    (by omega) (by omega) he.last (by rw [u16]; omega)
  obtain ⟨hsound, hring, hlast'⟩ := iterate_nextSlot hl e he ((s - a) % 65536)
  rw [hloop]
  refine ⟨hsound, by omega, ?_⟩
  intro k hk
  rw [hring]
  exact Ring.upTo_iterate_advance (ring e) he.valid _ k (by rw [he.size]; exact hk)

def Limit.table (l : Limit) : Table Str Entry := l.entries.getD ∅

/-- An entry as the loop leaves it when its id is checked in slot `s`. -/
def visited (l : Limit) (id : Str) (s : ℕ) : Entry :=
  catchUp l.ncounts (u16 s) 65536 (((Limit.table l).lookup id).getD (newEntry (u16 s) l.ncounts))

theorem lookup_sweep (l : Limit) (now : ℕ) (id key : Str) :
    (sweep l now id).lookup key =
      ((Limit.table l).lookup key).filter (fun e => !expired id now l.ncounts key e) := by
  unfold sweep Limit.table
  cases l.entries with
  | none => rfl
  | some entries => exact Table.lookup_deleteAll entries _ key

/-- The sweep spares the id that is being checked. -/
theorem lookup_sweep_self (l : Limit) (now : ℕ) (id : Str) :
    (sweep l now id).lookup id = (Limit.table l).lookup id := by
  rw [lookup_sweep]
  cases (Limit.table l).lookup id with
  | none => rfl
  | some e => simp [expired, Option.filter]

/-- The entry that a check stores. -/
def recorded (l : Limit) (e : Entry) : Entry := if e.total < l.limit then countOne e else e

/-- What a check does: it decides by the total of the visited entry, stores that
entry with the call counted if it accepts, and touches no parameter. -/
theorem checkLimit_spec (l : Limit) (ts : Timespec) (id : Str) :
    checkLimit l ts id =
      ({ l with entries := some ((sweep l (u16 (ts.tv_sec / l.res)) id).insert id
          (recorded l (visited l id (ts.tv_sec / l.res)))) },
        decide ((visited l id (ts.tv_sec / l.res)).total < l.limit)) := by
  unfold checkLimit recorded visited
  simp only [lookup_sweep_self]
  split
  · next hroom => simp [hroom]
  · next hroom => simp [hroom]

theorem checkLimit_lookup_self (l : Limit) (ts : Timespec) (id : Str) :
    (Limit.table (checkLimit l ts id).1).lookup id =
      some (recorded l (visited l id (ts.tv_sec / l.res))) := by
  simp [checkLimit_spec, Limit.table]

theorem checkLimit_lookup_other (l : Limit) (ts : Timespec) (id key : Str) (hkey : key ≠ id) :
    (Limit.table (checkLimit l ts id).1).lookup key =
      ((Limit.table l).lookup key).filter
        (fun e => !expired id (u16 (ts.tv_sec / l.res)) l.ncounts key e) := by
  rw [← lookup_sweep]
  simp [checkLimit_spec, Limit.table, AList.lookup_insert_ne hkey]

/-- An entry of an id last checked in slot `a` counts at least what the history
of the id has in the covered slots. -/
structure Holds (l : Limit) (history : List ℕ) (a : ℕ) (e : Entry) : Prop where
  sound : Sound l e
  last : e.last = a % 65536
  past : ∀ h ∈ history, h ≤ a
  covers : ∀ k ≤ l.ncounts, within history a k ≤ (ring e).upTo k

/-- The entry counts exactly what the history has. -/
def Exact (l : Limit) (history : List ℕ) (a : ℕ) (e : Entry) : Prop :=
  ∀ k ≤ l.ncounts, within history a k = (ring e).upTo k

theorem newEntry_holds (hl : WellFormed l) (history : List ℕ) (s : ℕ)
    (hgone : ∀ h ∈ history, h + l.ncounts ≤ s) :
    Holds l history s (newEntry (u16 s) l.ncounts) ∧
      Exact l history s (newEntry (u16 s) l.ncounts) := by
  have hzero : ∀ k ≤ l.ncounts, within history s k = 0 := by
    intro k hk
    apply within_eq_zero
    intro h hh
    have := hgone h hh
    omega
  have hring : ∀ k, (ring (newEntry (u16 s) l.ncounts)).upTo k = 0 :=
    Ring.fresh_upTo l.ncounts
  refine ⟨⟨newEntry_sound hl _ (Nat.mod_lt _ (by decide)), rfl, ?_, ?_⟩, ?_⟩
  · intro h hh
    have := hgone h hh
    omega
  · intro k hk
    rw [hzero k hk]
    exact Nat.zero_le _
  · intro k hk
    rw [hzero k hk, hring k]

/-- The wrapped difference is at most the real one, so the loop forgets no event
that still lies in the window. -/
theorem catchUp_holds (hl : WellFormed l) {history : List ℕ} {a : ℕ} {e : Entry}
    (he : Holds l history a e) (s : ℕ) (has : a ≤ s) :
    Holds l history s (catchUp l.ncounts (u16 s) 65536 e) := by
  obtain ⟨hsound, hlast, hring⟩ := catchUp_spec hl e he.sound a s he.last has
  refine ⟨hsound, hlast, fun h hh => (he.past h hh).trans has, ?_⟩
  intro k hk
  have hshift : within history s k = within history a (k - (s - a)) := by
    have := within_later history a (s - a) k he.past
    rwa [Nat.add_sub_cancel' has] at this
  calc
    within history s k = within history a (k - (s - a)) := hshift
    _ ≤ within history a (k - (s - a) % 65536) := within_mono _ _ (by omega)
    _ ≤ (ring e).upTo (k - (s - a) % 65536) := he.covers _ (by omega)
    _ = _ := (hring k hk).symm

/-- Without a wrap in between, or when the wrapped difference clears the buffer
anyway, the loop forgets exactly what left the window. -/
theorem catchUp_exact (hl : WellFormed l) {history : List ℕ} {a : ℕ} {e : Entry}
    (he : Holds l history a e) (hexact : Exact l history a e) (s : ℕ) (has : a ≤ s)
    (hgap : s - a < 65536 ∨ l.ncounts ≤ (s - a) % 65536) :
    Exact l history s (catchUp l.ncounts (u16 s) 65536 e) := by
  obtain ⟨_, _, hring⟩ := catchUp_spec hl e he.sound a s he.last has
  intro k hk
  have hshift : within history s k = within history a (k - (s - a)) := by
    have := within_later history a (s - a) k he.past
    rwa [Nat.add_sub_cancel' has] at this
  have hsame : k - (s - a) = k - (s - a) % 65536 := by omega
  rw [hshift, hring k hk, hsame]
  exact hexact _ (by omega)

/-- Counting an accepted call adds it to the history and to the entry. -/
theorem countOne_holds (hl : WellFormed l) {history : List ℕ} {s : ℕ} {e : Entry}
    (he : Holds l history s e) (hroom : e.total < l.limit) :
    Holds l (history ++ [s]) s (countOne e) ∧
      (Exact l history s e → Exact l (history ++ [s]) s (countOne e)) := by
  have hring := countOne_ring e hl he.sound hroom
  have hbump : ∀ k ≤ l.ncounts, 0 < k →
      (ring (countOne e)).upTo k = (ring e).upTo k + 1 := by
    intro k hk h0
    rw [hring]
    exact Ring.upTo_bump (ring e) he.sound.valid k (by rw [he.sound.size]; exact hk) h0
  have hnone : within (history ++ [s]) s 0 = 0 := by
    apply within_eq_zero
    intro h hh
    rcases List.mem_append.mp hh with hold | hnew
    · exact he.past h hold
    · simp only [List.mem_singleton] at hnew
      omega
  refine ⟨⟨countOne_sound hl e he.sound hroom, he.last, ?_, ?_⟩, ?_⟩
  · intro h hh
    rcases List.mem_append.mp hh with hold | hnew
    · exact he.past h hold
    · simp only [List.mem_singleton] at hnew
      omega
  · intro k hk
    rcases Nat.eq_zero_or_pos k with rfl | h0
    · rw [hnone]
      exact Nat.zero_le _
    · rw [within_snoc_now history s k h0, hbump k hk h0]
      exact Nat.succ_le_succ (he.covers k hk)
  · intro hexact k hk
    rcases Nat.eq_zero_or_pos k with rfl | h0
    · rw [hnone]
      rfl
    · rw [within_snoc_now history s k h0, hbump k hk h0, hexact k hk]

/-- The state of the limiter after a history of calls. -/
structure Tracks (l₀ : Limit) (trace : Trace) (l : Limit) : Prop where
  params : l = { l₀ with entries := l.entries }
  gone : ∀ id, (Limit.table l).lookup id = none →
    ∀ s, (∀ x ∈ trace, slot l₀.res x.1 ≤ s) →
      ∀ h ∈ accepted l₀.res id trace, h + l₀.ncounts ≤ s
  kept : ∀ id e, (Limit.table l).lookup id = some e →
    ∃ a others, touch l₀.res id trace = some (a, others) ∧
      (∃ x ∈ trace, slot l₀.res x.1 = a) ∧
      (∀ x ∈ others, x % 65536 < a % 65536 + l₀.ncounts) ∧
      Holds l₀ (accepted l₀.res id trace) a e ∧
      (Along (fun pre x => Unwrapped l₀ pre x.1) trace →
        Exact l₀ (accepted l₀.res id trace) a e)

theorem tracks_nil (l₀ : Limit) (hnone : l₀.entries = none) : Tracks l₀ [] l₀ where
  params := rfl
  gone := by
    intro id _ s _ h hh
    simp [accepted] at hh
  kept := by
    intro id e he
    simp [Limit.table, hnone] at he

theorem slot_mono (res : ℕ) {a b : Call} (h : a.ts.nanos ≤ b.ts.nanos) :
    slot res a ≤ slot res b := by
  apply Nat.div_le_div_right
  have ha := a.ts.nsec_lt
  have hb := b.ts.nsec_lt
  unfold Timespec.nanos at h
  omega

theorem slot_le_of_chronological (res : ℕ) {trace : Trace} {c : Call} {r : Bool}
    (h : Chronological (trace ++ [(c, r)])) (x : Call × Bool) (hx : x ∈ trace) :
    slot res x.1 ≤ slot res c := by
  have hpair := (List.pairwise_append.mp h).2.2 x hx (c, r) (List.mem_singleton_self _)
  exact slot_mono res hpair

theorem accepted_snoc (res : ℕ) (id : Str) (trace : Trace) (c : Call) (r : Bool) :
    accepted res id (trace ++ [(c, r)]) =
      accepted res id trace ++ (if c.id = id ∧ r = true then [slot res c] else []) := by
  unfold accepted
  rw [List.filter_append, List.map_append]
  congr 1
  by_cases hc : c.id = id <;> cases r <;> simp [hc]

theorem touch_snoc (res : ℕ) (id : Str) (trace : Trace) (c : Call) (r : Bool) :
    touch res id (trace ++ [(c, r)]) =
      if c.id = id then some (slot res c, [])
      else (touch res id trace).map (fun t => (t.1, t.2 ++ [slot res c])) := by
  simp [touch, List.foldl_append]

/-- The entry a check decides by, in terms of the history of its id. -/
theorem visited_holds (hl : WellFormed l₀) {trace : Trace} (ht : Tracks l₀ trace l)
    {c : Call} (hpast : ∀ x ∈ trace, slot l₀.res x.1 ≤ slot l₀.res c) :
    Holds l₀ (accepted l₀.res c.id trace) (slot l₀.res c) (visited l c.id (slot l₀.res c)) ∧
      (Along (fun pre x => Unwrapped l₀ pre x.1) trace → Unwrapped l₀ trace c →
        Exact l₀ (accepted l₀.res c.id trace) (slot l₀.res c)
          (visited l c.id (slot l₀.res c))) := by
  have hn : l.ncounts = l₀.ncounts := by rw [ht.params]
  unfold visited
  rw [hn]
  cases he : (Limit.table l).lookup c.id with
  | none =>
    have hgone := ht.gone c.id he (slot l₀.res c) hpast
    obtain ⟨hholds, hexact⟩ := newEntry_holds hl _ _ hgone
    have hsame : catchUp l₀.ncounts (u16 (slot l₀.res c)) 65536
        (newEntry (u16 (slot l₀.res c)) l₀.ncounts) =
        newEntry (u16 (slot l₀.res c)) l₀.ncounts := by
      have hlast : (newEntry (u16 (slot l₀.res c)) l₀.ncounts).last = u16 (slot l₀.res c) := rfl
      rw [catchUp, if_pos hlast]
    rw [Option.getD_none, hsame]
    exact ⟨hholds, fun _ _ => hexact⟩
  | some e =>
    obtain ⟨a, others, htouch, ⟨x, hx, hslot⟩, hlive, hholds, hexact⟩ := ht.kept c.id e he
    have has : a ≤ slot l₀.res c := hslot ▸ hpast x hx
    rw [Option.getD_some]
    refine ⟨catchUp_holds hl hholds _ has, ?_⟩
    intro halong hwrap
    apply catchUp_exact hl hholds (hexact halong) _ has
    rcases hwrap a others htouch with hshort | hclear | ⟨y, hy, hdel⟩
    · exact Or.inl hshort
    · exact Or.inr hclear
    · have := hlive y hy
      omega

/-- The decision on a visited entry is the one of the history model when the
entry is exact, and never more generous. -/
theorem decision_of_visited {history : List ℕ} {s : ℕ} {e : Entry}
    (he : Holds l history s e) :
    (e.total < l.limit → within history s l.ncounts < l.limit) ∧
      (Exact l history s e → (e.total < l.limit ↔ within history s l.ncounts < l.limit)) := by
  have htotal := he.sound.total
  constructor
  · intro hroom
    have := he.covers l.ncounts (Nat.le_refl _)
    omega
  · intro hexact
    have := hexact l.ncounts (Nat.le_refl _)
    omega

theorem recorded_holds (hl : WellFormed l) {history : List ℕ} {s : ℕ} {e : Entry}
    (he : Holds l history s e) :
    Holds l (history ++ (if e.total < l.limit then [s] else [])) s (recorded l e) ∧
      (Exact l history s e →
        Exact l (history ++ (if e.total < l.limit then [s] else [])) s (recorded l e)) := by
  unfold recorded
  by_cases hroom : e.total < l.limit
  · simpa only [if_pos hroom] using countOne_holds hl he hroom
  · simp only [if_neg hroom, List.append_nil]
    exact ⟨he, fun h => h⟩

theorem unexpired_iff (id key : Str) (now n : ℕ) (e : Entry) (hkey : key ≠ id) :
    expired id now n key e = false ↔ now < e.last + n := by
  simp only [expired, decide_eq_false_iff_not, not_and, not_le]
  constructor
  · intro h
    have := h hkey
    omega
  · intro h _
    omega

/-- What one call decides, and what it leaves in the table. -/
structure Checked (l₀ l : Limit) (c : Call) (r : Bool) (l' : Limit) : Prop where
  params : l' = { l₀ with entries := l'.entries }
  decision : r = true ↔ (visited l c.id (slot l₀.res c)).total < l₀.limit
  self : (Limit.table l').lookup c.id = some (recorded l₀ (visited l c.id (slot l₀.res c)))
  other : ∀ key, key ≠ c.id → (Limit.table l').lookup key =
    ((Limit.table l).lookup key).filter
      (fun e => !expired c.id (u16 (slot l₀.res c)) l₀.ncounts key e)

section calls

variable {trace : Trace} {c : Call} {r : Bool} {l' : Limit}

theorem checked_of_callStep (ht : Tracks l₀ trace l) (hstep : callStep l c = some (l', r)) :
    Checked l₀ l c r l' := by
  have hres : l.res = l₀.res := by rw [ht.params]
  have hn : l.ncounts = l₀.ncounts := by rw [ht.params]
  have hlim : l.limit = l₀.limit := by rw [ht.params]
  have hcall : checkLimit l c.ts c.id = (l', r) := Option.some.inj hstep
  have hl' : l' = (checkLimit l c.ts c.id).1 := by rw [hcall]
  have hr : r = (checkLimit l c.ts c.id).2 := by rw [hcall]
  refine ⟨?_, ?_, ?_, ?_⟩
  · rw [hl', checkLimit_spec, ht.params]
  · rw [hr, checkLimit_spec, hres, hlim, decide_eq_true_eq]
    rfl
  · rw [hl', checkLimit_lookup_self, hres, recorded, recorded, hlim]
    rfl
  · intro key hkey
    rw [hl', checkLimit_lookup_other l c.ts c.id key hkey, hres, hn]
    rfl

/-- The history of the id gets the slot of the call if it is accepted. -/
theorem accepted_self (res limit : ℕ) (e : Entry) (hr : r = true ↔ e.total < limit) :
    accepted res c.id (trace ++ [(c, r)]) =
      accepted res c.id trace ++ (if e.total < limit then [slot res c] else []) := by
  rw [accepted_snoc]
  by_cases hroom : e.total < limit
  · simp [hr.mpr hroom, hroom]
  · have hfalse : r = false := by
      rw [← Bool.not_eq_true]
      exact fun h => hroom (hr.mp h)
    simp [hfalse, hroom]

theorem accepted_other (res : ℕ) {key : Str} (hkey : key ≠ c.id) :
    accepted res key (trace ++ [(c, r)]) = accepted res key trace := by
  rw [accepted_snoc, if_neg (fun h => hkey h.1.symm), List.append_nil]

/-- An entry that is gone after the call is old, also if the call deleted it. -/
theorem gone_step (ht : Tracks l₀ trace l) (hchecked : Checked l₀ l c r l')
    (hpast : ∀ x ∈ trace, slot l₀.res x.1 ≤ slot l₀.res c) {id : Str}
    (hnone : (Limit.table l').lookup id = none) {s : ℕ}
    (hs : ∀ x ∈ trace ++ [(c, r)], slot l₀.res x.1 ≤ s) {h : ℕ}
    (hh : h ∈ accepted l₀.res id (trace ++ [(c, r)])) : h + l₀.ncounts ≤ s := by
  by_cases hid : id = c.id
  · rw [hid, hchecked.self] at hnone
    exact absurd hnone (by simp)
  rw [accepted_other l₀.res hid] at hh
  have htrace : ∀ x ∈ trace, slot l₀.res x.1 ≤ s :=
    fun x hx => hs x (List.mem_append_left _ hx)
  have hcs : slot l₀.res c ≤ s := hs (c, r) (by simp)
  rw [hchecked.other id hid, Option.filter_eq_none_iff] at hnone
  cases he : (Limit.table l).lookup id with
  | none => exact ht.gone id he s htrace h hh
  | some e =>
    -- the entry was deleted by this call, so its slot is old on the real clock too
    obtain ⟨a, others, _, ⟨x, hx, hslot⟩, _, hholds, _⟩ := ht.kept id e he
    have hexp : expired c.id (u16 (slot l₀.res c)) l₀.ncounts id e = true := by
      simpa using hnone e he
    have hdead : ¬ u16 (slot l₀.res c) < e.last + l₀.ncounts := by
      rw [← unexpired_iff c.id id _ _ e hid, hexp]
      simp
    have has : a ≤ slot l₀.res c := hslot ▸ hpast x hx
    have hlast := hholds.last
    have hha := hholds.past h hh
    unfold u16 at hdead
    omega

/-- What is tracked of an entry that is there after a call. -/
def Kept (l₀ : Limit) (trace : Trace) (id : Str) (e : Entry) : Prop :=
  ∃ a others, touch l₀.res id trace = some (a, others) ∧
    (∃ x ∈ trace, slot l₀.res x.1 = a) ∧
    (∀ x ∈ others, x % 65536 < a % 65536 + l₀.ncounts) ∧
    Holds l₀ (accepted l₀.res id trace) a e ∧
    (Along (fun pre x => Unwrapped l₀ pre x.1) trace →
      Exact l₀ (accepted l₀.res id trace) a e)

/-- The entry that the call was about. -/
theorem kept_self (hl : WellFormed l₀) (ht : Tracks l₀ trace l) (hchecked : Checked l₀ l c r l')
    (hpast : ∀ x ∈ trace, slot l₀.res x.1 ≤ slot l₀.res c) :
    Kept l₀ (trace ++ [(c, r)]) c.id (recorded l₀ (visited l c.id (slot l₀.res c))) := by
  obtain ⟨hvisited, hvexact⟩ := visited_holds hl ht hpast
  obtain ⟨hrec, hrecexact⟩ := recorded_holds hl hvisited
  have hhistory := @accepted_self trace c r l₀.res l₀.limit _ hchecked.decision
  refine ⟨slot l₀.res c, [], ?_, ⟨(c, r), by simp, rfl⟩, by simp, ?_, ?_⟩
  · rw [touch_snoc, if_pos rfl]
  · rw [hhistory]
    exact hrec
  · intro halong
    rw [along_snoc] at halong
    rw [hhistory]
    exact hrecexact (hvexact halong.1 halong.2)

/-- Another entry, which the call has not deleted. -/
theorem kept_other (ht : Tracks l₀ trace l) {id : Str} {e : Entry} (hid : id ≠ c.id)
    (he : (Limit.table l).lookup id = some e)
    (hlive : expired c.id (u16 (slot l₀.res c)) l₀.ncounts id e = false) :
    Kept l₀ (trace ++ [(c, r)]) id e := by
  obtain ⟨a, others, htouch, ⟨x, hx, hslot⟩, hothers, hholds, hexact⟩ := ht.kept id e he
  refine ⟨a, others ++ [slot l₀.res c], ?_, ⟨x, List.mem_append_left _ hx, hslot⟩, ?_, ?_, ?_⟩
  · rw [touch_snoc, if_neg (fun h => hid h.symm), htouch]
    rfl
  · intro y hy
    rcases List.mem_append.mp hy with hold | hnew
    · exact hothers y hold
    · rw [unexpired_iff c.id id _ _ e hid, hholds.last] at hlive
      rw [List.mem_singleton.mp hnew]
      exact hlive
  · rw [accepted_other l₀.res hid]
    exact hholds
  · intro halong
    rw [along_snoc] at halong
    rw [accepted_other l₀.res hid]
    exact hexact halong.1

/-- One call: the limiter keeps tracking the history, with the decision of the
call added to it. -/
theorem tracks_step (hl : WellFormed l₀) (ht : Tracks l₀ trace l)
    (hchron : Chronological (trace ++ [(c, r)])) (hstep : callStep l c = some (l', r)) :
    Tracks l₀ (trace ++ [(c, r)]) l' ∧ (r = true → historyAllows l₀ trace c) ∧
      (Along (fun pre x => Unwrapped l₀ pre x.1) trace → Unwrapped l₀ trace c →
        (r = true ↔ historyAllows l₀ trace c)) := by
  have hpast := slot_le_of_chronological l₀.res hchron
  have hchecked := checked_of_callStep ht hstep
  obtain ⟨hvisited, hvexact⟩ := visited_holds hl ht hpast
  refine ⟨⟨hchecked.params, ?_, ?_⟩, ?_, ?_⟩
  · intro id hnone s hs h hh
    exact gone_step ht hchecked hpast hnone hs hh
  · intro id e he
    by_cases hid : id = c.id
    · subst hid
      rw [hchecked.self] at he
      rw [← Option.some.inj he]
      exact kept_self hl ht hchecked hpast
    · rw [hchecked.other id hid, Option.filter_eq_some_iff] at he
      exact kept_other ht hid he.1 (by simpa using he.2)
  · intro htrue
    exact (decision_of_visited hvisited).1 (hchecked.decision.mp htrue)
  · intro halong hwrap
    rw [hchecked.decision]
    exact (decision_of_visited hvisited).2 (hvexact halong hwrap)

end calls

theorem chronological_init {trace : Trace} {x : Call × Bool}
    (h : Chronological (trace ++ [x])) : Chronological trace :=
  (List.pairwise_append.mp h).1

/-- After every run the limiter tracks the history of its calls. -/
theorem tracks_run (hl : WellFormed l₀) (hnone : l₀.entries = none) {trace : Trace}
    (hrun : Run (stepOf callStep) l₀ trace l) (hchron : Chronological trace) :
    Tracks l₀ trace l := by
  induction hrun with
  | nil => exact tracks_nil l₀ hnone
  | snoc _ hstep ih =>
    exact (tracks_step hl (ih (chronological_init hchron)) hchron hstep).1

/-- No call is accepted that the history model would reject. -/
theorem accepted_run (hl : WellFormed l₀) (hnone : l₀.entries = none) {trace : Trace}
    (hrun : Run (stepOf callStep) l₀ trace l) (hchron : Chronological trace) :
    Along (fun pre x => x.2 = true → historyAllows l₀ pre x.1) trace := by
  induction hrun with
  | nil => exact along_nil _
  | snoc hrun hstep ih =>
    have hinit := chronological_init hchron
    rw [along_snoc]
    exact ⟨ih hinit, (tracks_step hl (tracks_run hl hnone hrun hinit) hchron hstep).2.1⟩

/-- Where the slot number cannot mislead a call, the limiter is the history
model. -/
theorem refines_run (hl : WellFormed l₀) (hnone : l₀.entries = none) {trace : Trace}
    (hrun : Run (stepOf callStep) l₀ trace l) (hchron : Chronological trace)
    (hwrap : Along (fun pre x => Unwrapped l₀ pre x.1) trace) : Refines l₀ trace := by
  induction hrun with
  | nil => exact along_nil _
  | snoc hrun hstep ih =>
    have hinit := chronological_init hchron
    rw [along_snoc] at hwrap
    have htracks := tracks_run hl hnone hrun hinit
    refine (along_snoc _ _ _).mpr ⟨ih hinit hwrap.1, ?_⟩
    exact (tracks_step hl htracks hchron hstep).2.2 hwrap.1 hwrap.2

/-- For every limit and every run of calls at nondecreasing times, with any gaps
and any interleaving of ids, in which no wrapped slot number can bring a stale
counter back, each call returns what the history model says. -/
theorem checkLimit_refines_history (seconds limit : ℕ) (h0 : 0 < seconds)
    (hs : seconds ≤ 65535) (hlim : limit ≤ 65535) {trace : Trace} {l : Limit}
    (hrun : Run (stepOf callStep) (newLimit seconds limit) trace l)
    (hchron : Chronological trace)
    (hwrap : Along (fun pre x => Unwrapped (newLimit seconds limit) pre x.1) trace) :
    Refines (newLimit seconds limit) trace :=
  refines_run (newLimit_wellFormed seconds limit h0 hs hlim) rfl hrun hchron hwrap

/-- A call at a whole second. -/
def callAt (sec : ℕ) (id : Str) : Call := ⟨⟨sec, 0, Timespec.zero_lt_second⟩, id⟩

/-- One step of a run, made by evaluating the check. -/
theorem callStep_of_result (l : Limit) (c : Call) (r : Bool)
    (h : (checkLimit l c.ts c.id).2 = r) :
    stepOf callStep l (c, r) (checkLimit l c.ts c.id).1 := by
  subst h
  rfl

theorem run_of_two (l : Limit) (c d : Call) (r q : Bool)
    (hc : (checkLimit l c.ts c.id).2 = r)
    (hd : (checkLimit (checkLimit l c.ts c.id).1 d.ts d.id).2 = q) :
    Run (stepOf callStep) l [(c, r), (d, q)]
      (checkLimit (checkLimit l c.ts c.id).1 d.ts d.id).1 :=
  Run.snoc (Run.single (callStep_of_result l c r hc)) (callStep_of_result _ d q hd)

theorem checkLimit_refines_history_five_seconds :
    Refines (newLimit 5 1) [(callAt 7 (str "a"), true), (callAt 11 (str "a"), false)] := by
  refine checkLimit_refines_history 5 1 (by decide) (by decide) (by decide)
    (run_of_two (newLimit 5 1) (callAt 7 (str "a")) (callAt 11 (str "a")) true false
      (by decide +kernel) (by decide +kernel)) ?_ ?_
  · simp [Chronological, callAt, Timespec.nanos]
  · rw [show [(callAt 7 (str "a"), true), (callAt 11 (str "a"), false)] =
      ([] ++ [(callAt 7 (str "a"), true)]) ++ [(callAt 11 (str "a"), false)] from rfl,
      along_snoc, along_snoc]
    refine ⟨⟨along_nil _, ?_⟩, ?_⟩
    · intro a others htouch
      simp [touch] at htouch
    · intro a others htouch
      have hseen : touch (newLimit 5 1).res (str "a") [(callAt 7 (str "a"), true)] =
          some (7, []) := by decide
      obtain ⟨rfl, rfl⟩ : (7, []) = (a, others) := Option.some.inj (hseen.symm.trans htouch)
      exact Or.inl (by decide)

/-- One call a second is allowed and the second call comes 65536 seconds after
the first: the wrapped slot number is the same, and the call is rejected. -/
theorem checkLimit_not_history_after_wrap :
    ¬ ∀ trace l, Run (stepOf callStep) (newLimit 1 1) trace l → Chronological trace →
      Refines (newLimit 1 1) trace := by
  intro h
  have hrun := run_of_two (newLimit 1 1) (callAt 0 (str "a")) (callAt 65536 (str "a"))
    true false (by decide +kernel) (by decide +kernel)
  have hrefines := h _ _ hrun (by simp [Chronological, callAt, Timespec.nanos])
  have hlast := hrefines [(callAt 0 (str "a"), true)] (callAt 65536 (str "a"), false) [] rfl
  have hallowed : historyAllows (newLimit 1 1) [(callAt 0 (str "a"), true)]
      (callAt 65536 (str "a")) := by
    unfold historyAllows
    decide +kernel
  exact absurd (hlast.mpr hallowed) (by decide)

end Swad.RatelimitHistory
