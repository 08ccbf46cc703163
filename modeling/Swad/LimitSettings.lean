import Mathlib.Algebra.Order.Ring.Int
import Mathlib.Data.List.Induction
import Swad.Config
import Swad.PairedRuns
import Swad.Ratelimit

/-!
From the value of a limit in the configuration to the ring buffer that is made for it. The
readers put the numbers of each value into the next entries of two arrays, the accessors give
them to the loops of the startup, and two divisions turn the seconds into a number of slots.
Seconds that 16 bits cannot hold come out smaller, and 65536 of them as a divisor of zero.
-/
namespace Swad.LimitSettings

open Bytes Util Config PairedRuns Ratelimit

/-! ### Divisions -/

/-- There is no result of a division by zero. -/
def divide (a b : ℕ) : Option ℕ := if b = 0 then none else some (a / b)

def addLimit (self : RateLimitOpts) (seconds limit : ℕ) : Option RateLimitOpts := do
  let res ← divide (seconds + MAXCOUNTS - 1) MAXCOUNTS
  let ncounts ← divide (seconds + u16 res - 1) (u16 res)
  return ⟨self.limits ++ [⟨none, seconds, limit, u16 res, u16 ncounts⟩]⟩

/-- The slot number is the only division of the check. -/
def checkLimit (self : Limit) (ts : Timespec) (id : Str) : Option (Limit × Bool) :=
  (divide ts.tv_sec self.res).map fun _ => Ratelimit.checkLimit self ts id

theorem divide_eq {b : ℕ} (hb : b ≠ 0) (a : ℕ) : divide a b = some (a / b) := if_neg hb

theorem addLimit_eq (self : RateLimitOpts) {seconds limit : ℕ}
    (h : (newLimit seconds limit).res ≠ 0) :
    addLimit self seconds limit = some (self.addLimit seconds limit) := by
  unfold addLimit
  rw [divide_eq (show MAXCOUNTS ≠ 0 by decide)]
  show (divide _ (newLimit seconds limit).res).bind _ = _
  rw [divide_eq h]
  rfl

/-! ### Values -/

/-- The number of seconds in a value, if it is one that is accepted. -/
def secondsArg (value : Str) : Option ℤ :=
  if value.contains (chr ':') then intArg (value.takeWhile (· != chr ':')) 1 86400 10 else none

def limitArg (value : Str) : Option ℤ :=
  intArg ((value.dropWhile (· != chr ':')).drop 1) 1 1024 10

theorem intArg_bounds {op : Str} {min max n : ℤ} {base : ℕ}
    (h : intArg op min max base = some n) : min ≤ n ∧ n ≤ max := by
  unfold intArg at h
  dsimp only at h
  split at h
  · cases h
  · next hnot =>
    obtain rfl := Option.some.inj h
    simp only [not_or, not_lt] at hnot
    exact ⟨hnot.2.2.1, hnot.2.2.2⟩

theorem secondsArg_bounds {value : Str} {S : ℤ} (h : secondsArg value = some S) :
    1 ≤ S ∧ S ≤ 86400 := by
  unfold secondsArg at h
  split at h
  · exact intArg_bounds h
  · exact absurd h.symm (Option.some_ne_none S)

/-- What is written through the pointers, in the terms of the two numbers. -/
theorem limitsArg_eq (value : Str) : limitsArg value =
    ((secondsArg value).map fun S => S.toNat % 2 ^ 16,
      (secondsArg value).bind fun _ => (limitArg value).map Int.toNat) := by
  unfold limitsArg secondsArg limitArg
  cases hrest : value.dropWhile (· != chr ':') with
  | nil =>
    have hcolon : value.contains (chr ':') = false := by
      rw [List.contains_eq_mem, decide_eq_false_iff_not]
      intro hmem
      have hne := List.dropWhile_eq_nil_iff.mp hrest _ hmem
      simp at hne
    rw [hcolon]
    rfl
  | cons c limitstr =>
    have hcolon : value.contains (chr ':') = true := by
      obtain ⟨hsplit, hstop⟩ := split_of_dropWhile hrest
      obtain rfl : c = chr ':' := by simpa using hstop
      rw [List.contains_eq_mem, decide_eq_true_eq, hsplit]
      exact List.mem_append_right _ (List.mem_cons_self ..)
    rw [hcolon]
    cases intArg (value.takeWhile (· != chr ':')) 1 86400 10 <;> rfl

/-! ### The arrays -/

/-- What is done with a value: it counts if it is valid, or always for a realm. -/
def step (always : Bool) (self : Limits) (value : Str) : Except StringPrograms.Fault Limits :=
  if self.count = LIMITSSZ then .ok self
  else do
    let (limits, valid) ← self.read value
    return if valid || always then limits.raise else limits

theorem step_addLimit (self : Limits) (key value : Str) (tooMany : Warning) :
    (Config.addLimit self key value tooMany).map Prod.fst = step false self value := by
  unfold Config.addLimit step
  split
  · rfl
  · cases self.read value with
    | error e => rfl
    | ok r =>
      obtain ⟨limits, valid⟩ := r
      cases valid <;> rfl

theorem step_addRealmLimit (self : CfgRealm) (opt value : Str) :
    (self.addLimit opt value).map (fun r => r.1.limits) = step true self.limits value := by
  unfold CfgRealm.addLimit step
  split
  · rfl
  · cases self.limits.read value with
    | error e => rfl
    | ok r =>
      obtain ⟨limits, valid⟩ := r
      cases valid <;> rfl

/-- The values that have an entry each. -/
def counted (always : Bool) (values : List Str) : List Str :=
  (values.filter fun v => (limitsArg v).2.isSome || always).take LIMITSSZ

/-- The accessor of an entry: nothing behind those that count. -/
def limitAt (self : Limits) (num : ℕ) :
    Except StringPrograms.Fault (Option (Option ℕ × Option ℕ)) :=
  if self.count ≤ num then .ok none
  else if h : num < 8 then .ok (some (self.seconds ⟨num, h⟩, self.limits ⟨num, h⟩))
  else .error .outside

/-- Every entry holds the numbers of its value, as far as they were written. -/
structure Holds (limits : Limits) (entries : List Str) : Prop where
  count : limits.count = entries.length
  seconds : ∀ n value s, entries[n]? = some value → (limitsArg value).1 = some s →
    ∃ h : n < 8, limits.seconds ⟨n, h⟩ = some s
  limits : ∀ n value l, entries[n]? = some value → (limitsArg value).2 = some l →
    ∃ h : n < 8, limits.limits ⟨n, h⟩ = some l

theorem setEntry_inv {entries entries' : Fin 8 → Option ℕ} {i : ℕ} {v : Option ℕ}
    (h : setEntry entries i v = .ok entries') :
    (∀ (n : ℕ) (hn : n < 8), n ≠ i → entries' ⟨n, hn⟩ = entries ⟨n, hn⟩) ∧
      ∀ s, v = some s → ∃ hi : i < 8, entries' ⟨i, hi⟩ = some s := by
  unfold setEntry at h
  cases v with
  | none =>
    obtain rfl := Except.ok.inj h
    exact ⟨fun _ _ _ => rfl, fun s hs => absurd hs.symm (Option.some_ne_none s)⟩
  | some s =>
    dsimp only at h
    split at h
    · next hi =>
      obtain rfl := Except.ok.inj h
      refine ⟨fun n hn hne => Function.update_of_ne (fun heq => hne (congrArg Fin.val heq)) .., ?_⟩
      intro s' hs'
      obtain rfl := Option.some.inj hs'
      exact ⟨hi, Function.update_self ..⟩
    · cases h

/-- A read leaves the entries before the next one alone, which gets what is valid. -/
theorem read_inv {self self' : Limits} {value : Str} {valid : Bool}
    (h : self.read value = .ok (self', valid)) :
    self'.count = self.count ∧ valid = (limitsArg value).2.isSome ∧
      (∃ entries, setEntry self.seconds self.count (limitsArg value).1 = .ok entries ∧
        self'.seconds = entries) ∧
      ∃ entries, setEntry self.limits self.count (limitsArg value).2 = .ok entries ∧
        self'.limits = entries := by
  obtain ⟨seconds, hseconds, h⟩ := bind_inv h
  obtain ⟨limits, hlimits, h⟩ := bind_inv h
  obtain ⟨rfl, rfl⟩ := Prod.mk.inj (Except.ok.inj h)
  exact ⟨rfl, rfl, ⟨seconds, hseconds, rfl⟩, limits, hlimits, rfl⟩

theorem counted_append (always : Bool) (values : List Str) (value : Str) :
    counted always (values ++ [value]) =
      if (counted always values).length = LIMITSSZ then counted always values
      else if ((limitsArg value).2.isSome || always) = true then counted always values ++ [value]
      else counted always values := by
  unfold counted
  rw [List.filter_append, List.length_take, List.take_append]
  by_cases hfull : min LIMITSSZ (values.filter
      fun v => (limitsArg v).2.isSome || always).length = LIMITSSZ
  · rw [if_pos hfull, Nat.sub_eq_zero_of_le (by omega), List.take_zero, List.append_nil]
  · rw [if_neg hfull]
    cases hvalid : ((limitsArg value).2.isSome || always) with
    | true =>
      rw [List.filter_singleton, hvalid, if_pos rfl]
      have hroom : 1 ≤ LIMITSSZ - (values.filter
          fun v => (limitsArg v).2.isSome || always).length := by omega
      exact congrArg (_ ++ ·) (List.take_of_length_le hroom)
    | false =>
      rw [List.filter_singleton, hvalid, if_neg Bool.false_ne_true]
      exact (congrArg (_ ++ ·) List.take_nil).trans (List.append_nil _)

/-- The next entry of one array: the earlier ones are kept, and what is written is found. -/
theorem setEntry_snoc {entries entries' : Fin 8 → Option ℕ} {values : List Str} {value : Str}
    {f : Str → Option ℕ}
    (hset : setEntry entries values.length (f value) = .ok entries')
    (h : ∀ n v l, values[n]? = some v → f v = some l →
      ∃ h : n < 8, entries ⟨n, h⟩ = some l) :
    (∀ n v l, values[n]? = some v → f v = some l →
        ∃ h : n < 8, entries' ⟨n, h⟩ = some l) ∧
      ∀ n v l, (values ++ [value])[n]? = some v → f v = some l →
        ∃ h : n < 8, entries' ⟨n, h⟩ = some l := by
  obtain ⟨hold, hnew⟩ := setEntry_inv hset
  have hsame : ∀ n v l, values[n]? = some v → f v = some l →
      ∃ h : n < 8, entries' ⟨n, h⟩ = some l := by
    intro n v l hn hv
    obtain ⟨hlt, heq⟩ := h n v l hn hv
    obtain ⟨hlength, _⟩ := List.getElem?_eq_some_iff.mp hn
    exact ⟨hlt, by rw [hold n hlt (by omega), heq]⟩
  refine ⟨hsame, fun n v l hn hv => ?_⟩
  rcases Nat.lt_trichotomy n values.length with hlt | heq | hgt
  · rw [List.getElem?_append_left hlt] at hn
    exact hsame n v l hn hv
  · rw [heq, List.getElem?_concat_length] at hn
    obtain rfl := Option.some.inj hn
    subst heq
    exact hnew l hv
  · rw [List.getElem?_eq_none (by rw [List.length_append, List.length_singleton]; omega)] at hn
    exact absurd hn.symm (Option.some_ne_none v)

/-- One more entry. -/
theorem Holds.snoc {self self' : Limits} {entries : List Str} {value : Str} {valid : Bool}
    (h : Holds self entries) (hread : self.read value = .ok (self', valid)) :
    Holds self'.raise (entries ++ [value]) ∧ Holds self' entries := by
  obtain ⟨hcount, _, ⟨seconds, hseconds, rfl⟩, limits, hlimits, rfl⟩ := read_inv hread
  rw [h.count] at hseconds hlimits
  obtain ⟨hsold, hsnew⟩ := setEntry_snoc (f := fun v => (limitsArg v).1) hseconds h.seconds
  obtain ⟨hlold, hlnew⟩ := setEntry_snoc (f := fun v => (limitsArg v).2) hlimits h.limits
  have hlength : self'.raise.count = (entries ++ [value]).length := by
    rw [List.length_append, List.length_singleton, ← h.count, ← hcount]
    rfl
  exact ⟨⟨hlength, hsnew, hlnew⟩, hcount.trans h.count, hsold, hlold⟩

/-- One line of the file. -/
theorem Holds.step {always : Bool} {self self' : Limits} {values : List Str} {value : Str}
    (h : Holds self (counted always values)) (hstep : step always self value = .ok self') :
    Holds self' (counted always (values ++ [value])) := by
  unfold LimitSettings.step at hstep
  rw [counted_append, ← h.count]
  split at hstep
  · next hfull =>
    obtain rfl := Except.ok.inj hstep
    rw [if_pos hfull]
    exact h
  · next hroom =>
    rw [if_neg hroom]
    obtain ⟨⟨limits, valid⟩, hread, hstep⟩ := bind_inv hstep
    obtain ⟨_, hvalid, _⟩ := read_inv hread
    obtain ⟨hraised, hsame⟩ := h.snoc hread
    obtain rfl := Except.ok.inj hstep
    rw [← hvalid]
    cases hv : (valid || always) with
    | true => exact hraised
    | false => exact hsame

theorem Holds.run {always : Bool} {start limits : Limits} (hstart : start.count = 0)
    (values : List Str) (h : values.foldlM (LimitSettings.step always) start = .ok limits) :
    Holds limits (counted always values) := by
  induction values using List.reverseRecOn generalizing limits with
  | nil =>
    obtain rfl := Except.ok.inj h
    exact ⟨hstart, fun n v s hn => absurd hn.symm (Option.some_ne_none v),
      fun n v s hn => absurd hn.symm (Option.some_ne_none v)⟩
  | append_singleton values value ih =>
    rw [List.foldlM_append] at h
    obtain ⟨limits', hrest, h⟩ := bind_inv h
    obtain ⟨limits'', hstep, h⟩ := bind_inv h
    obtain rfl := Except.ok.inj h
    exact (ih hrest).step hstep

theorem Holds.limitAt {limits : Limits} {entries : List Str} (h : Holds limits entries) {n : ℕ}
    {value : Str} {s : ℕ} (hn : entries[n]? = some value) (hs : (limitsArg value).1 = some s) :
    ∃ limit, limitAt limits n = .ok (some (some s, limit)) ∧
      ∀ l, (limitsArg value).2 = some l → limit = some l := by
  obtain ⟨hlt, hseconds⟩ := h.seconds n value s hn hs
  obtain ⟨hlength, _⟩ := List.getElem?_eq_some_iff.mp hn
  refine ⟨limits.limits ⟨n, hlt⟩, ?_, ?_⟩
  · unfold LimitSettings.limitAt
    rw [if_neg (by rw [h.count]; omega), dif_pos hlt, hseconds]
  · intro l hl
    exact (h.limits n value l hn hl).2

/-! ### The limits that are made -/

/-- These seconds stand for the configured ones: they are the same, no division is by zero,
at startup or later, and the slots cover the configured time. -/
def Reaches (S : ℤ) (seconds : ℕ) : Prop :=
  (seconds : ℤ) = S ∧ ∀ opts limit, ∃ l : Limit,
    addLimit opts seconds limit = some ⟨opts.limits ++ [l]⟩ ∧ l.res ≠ 0 ∧
      1 ≤ l.ncounts ∧ l.ncounts ≤ MAXCOUNTS ∧ S ≤ l.res * l.ncounts ∧
      ∀ entries ts id, (checkLimit { l with entries } ts id).isSome

theorem reaches_of_lt {S : ℤ} {seconds : ℕ} (heq : (seconds : ℤ) = S) (hpos : 0 < seconds)
    (hlt : seconds ≤ 65535) : Reaches S seconds := by
  refine ⟨heq, fun opts limit => ⟨newLimit seconds limit, ?_, ?_, ?_, ?_, ?_, ?_⟩⟩
  · exact addLimit_eq opts (Nat.ne_of_gt (newLimit_res_pos seconds limit hpos hlt))
  · exact Nat.ne_of_gt (newLimit_res_pos seconds limit hpos hlt)
  · exact (newLimit_ncounts_bounds seconds limit hpos hlt).1
  · exact (newLimit_ncounts_bounds seconds limit hpos hlt).2
  · have hcover := (newLimit_covers seconds limit hpos hlt).1
    rw [← heq]
    exact_mod_cast hcover
  · intro entries ts id
    unfold checkLimit
    rw [divide_eq (Nat.ne_of_gt (newLimit_res_pos seconds limit hpos hlt))]
    rfl

/-- What an entry stands for if and only if 16 bits can hold the seconds of its value. -/
theorem limit_reaches_iff (always : Bool) {start limits : Limits} (hstart : start.count = 0)
    (values : List Str) (hrun : values.foldlM (step always) start = .ok limits) {n : ℕ}
    {value : Str} (hn : (counted always values)[n]? = some value) {S : ℤ}
    (hS : secondsArg value = some S) :
    ∃ seconds limit, limitAt limits n = .ok (some (some seconds, limit)) ∧
      (∀ L, limitArg value = some L → limit = some L.toNat) ∧
      (Reaches S seconds ↔ S ≤ 65535) := by
  have harg := limitsArg_eq value
  rw [hS] at harg
  obtain ⟨limit, hat, hlimit⟩ := (Holds.run hstart values hrun).limitAt hn (congrArg Prod.fst harg)
  obtain ⟨hmin, hmax⟩ := secondsArg_bounds hS
  refine ⟨S.toNat % 2 ^ 16, limit, hat, ?_, ?_⟩
  · intro L hL
    refine hlimit L.toNat ?_
    rw [harg, hL]
    rfl
  · constructor
    · rintro ⟨heq, _⟩
      omega
    · intro hle
      exact reaches_of_lt (by omega) (by omega) (by omega)

/-! ### Two values -/

/-- What is accepted as 65536 seconds comes out as none, and there is no result. -/
theorem seconds_lost : ∃ limits : Limits,
    [str "65536:5"].foldlM (step false) ⟨0, fun _ => some 0, fun _ => some 0⟩ = .ok limits ∧
      secondsArg (str "65536:5") = some 65536 ∧ limitArg (str "65536:5") = some 5 ∧
      limitAt limits 0 = .ok (some (some 0, some 5)) ∧
      addLimit RateLimitOpts.create 0 5 = none ∧ ¬ Reaches 65536 0 := by
  refine ⟨⟨1, Function.update (fun _ => some 0) 0 (some 0),
    Function.update (fun _ => some 0) 0 (some 5)⟩, rfl, by decide, by decide, rfl, rfl, ?_⟩
  rintro ⟨heq, _⟩
  exact absurd heq (by decide)

def hourLimits : Limits where
  count := 1
  seconds := Function.update (fun _ => some 0) 0 (some 3600)
  limits := Function.update (fun _ => some 0) 0 (some 25)

theorem hour_reaches : ∃ seconds, limitAt hourLimits 0 = .ok (some (some seconds, some 25)) ∧
    Reaches 3600 seconds := by
  have hrun : [str "3600:25"].foldlM (step false) ⟨0, fun _ => some 0, fun _ => some 0⟩ =
    .ok hourLimits := rfl
  have hentry : (counted false [str "3600:25"])[0]? = some (str "3600:25") := by decide
  have hS : secondsArg (str "3600:25") = some 3600 := by decide
  obtain ⟨seconds, limit, hat, hlimit, hiff⟩ := limit_reaches_iff false rfl _ hrun hentry hS
  rw [hlimit 25 (by decide)] at hat
  exact ⟨seconds, hat, hiff.mpr (by decide)⟩

end Swad.LimitSettings
