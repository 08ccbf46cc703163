import Swad.Tables
import Swad.Bytes
import Swad.RingCounter

/-!
The rate limiter. Every limit keeps, for each id, a circular buffer of counters
for the latest time slots together with their sum. The slot number is stored in
16 bits; a lookup first brings the buffer of the id up to the current slot.
Locking is left out: calls are taken one at a time.
-/
namespace Swad.Ratelimit

open Bytes Tables RingCounter

def MAXCOUNTS : ℕ := 512

/-- A value stored in an unsigned 16-bit field. -/
def u16 (n : ℕ) : ℕ := n % 65536

structure Timespec where
  tv_sec : ℕ
  tv_nsec : ℕ
  nsec_lt : tv_nsec < 1000000000
  deriving DecidableEq

theorem Timespec.zero_lt_second : 0 < 1000000000 := by decide

/-- The nanoseconds a time stamp denotes. -/
def Timespec.nanos (ts : Timespec) : ℕ := ts.tv_sec * 1000000000 + ts.tv_nsec

structure Entry where
  last : ℕ
  total : ℕ
  countpos : ℕ
  counts : List ℕ

structure Limit where
  entries : Option (Table Str Entry)
  seconds : ℕ
  limit : ℕ
  res : ℕ
  ncounts : ℕ

structure RateLimitOpts where
  limits : List Limit

structure RateLimit where
  limits : List Limit

def RateLimitOpts.create : RateLimitOpts := ⟨[]⟩

/-- The new limit of `RateLimitOpts_addLimit`: the slots are made just long
enough for MAXCOUNTS of them to cover the given number of seconds. -/
def newLimit (seconds limit : ℕ) : Limit :=
  let res := u16 ((seconds + MAXCOUNTS - 1) / MAXCOUNTS)
  { entries := none
    seconds := seconds
    limit := limit
    res := res
    ncounts := u16 ((seconds + res - 1) / res) }

def RateLimitOpts.addLimit (self : RateLimitOpts) (seconds limit : ℕ) : RateLimitOpts :=
  ⟨self.limits ++ [newLimit seconds limit]⟩

def RateLimit.create (opts : RateLimitOpts) : RateLimit := ⟨opts.limits⟩

/-- The difference of the two 16-bit slot numbers is computed as an int. -/
def expired (id : Str) (now ncounts : ℕ) (key : Str) (e : Entry) : Bool :=
  decide (key ≠ id ∧ (ncounts : ℤ) ≤ (now : ℤ) - (e.last : ℤ))

/-- The body of the loop that brings an entry up to the current slot. -/
def nextSlot (ncounts : ℕ) (e : Entry) : Entry :=
  let next := u16 (e.countpos + 1)
  let countpos := if next = ncounts then 0 else next
  { last := u16 (e.last + 1)
    total := u16 (e.total + 65536 - e.counts.getD countpos 0)
    countpos := countpos
    counts := e.counts.set countpos 0 }

/-- The loop itself, for at most as many rounds as there are slot numbers. -/
def catchUp (ncounts now : ℕ) : ℕ → Entry → Entry
  | 0, e => e
  | rounds + 1, e =>
      if e.last = now then e else catchUp ncounts now rounds (nextSlot ncounts e)

def countOne (e : Entry) : Entry :=
  { e with
    counts := e.counts.set e.countpos (u16 (e.counts.getD e.countpos 0 + 1))
    total := u16 (e.total + 1) }

def newEntry (now ncounts : ℕ) : Entry :=
  { last := now, total := 0, countpos := 0, counts := List.replicate ncounts 0 }

/-- The entries that remain when the expired ones of other ids are deleted. -/
def sweep (self : Limit) (now : ℕ) (id : Str) : Table Str Entry :=
  match self.entries with
  | none => ∅
  | some entries => Table.deleteAll entries (expired id now self.ncounts)

def checkLimit (self : Limit) (ts : Timespec) (id : Str) : Limit × Bool :=
  let now := u16 (ts.tv_sec / self.res)
  let entries := sweep self now id
  let e := catchUp self.ncounts now 65536
    ((entries.lookup id).getD (newEntry now self.ncounts))
  if e.total < self.limit then
    ({ self with entries := some (entries.insert id (countOne e)) }, true)
  else
    ({ self with entries := some (entries.insert id e) }, false)

/-- Every limit is visited, also when an earlier one has rejected the call. -/
def checkLimits (ts : Timespec) (id : Str) : List Limit → List Limit × Bool
  | [] => ([], true)
  | l :: rest =>
      let (l', ok) := checkLimit l ts id
      let (rest', oks) := checkLimits ts id rest
      (l' :: rest', ok && oks)

/-- The time is what `clock_gettime` delivers, if it does not fail. -/
def RateLimit.check (self : RateLimit) (clock : Option Timespec) (id : Str) :
    RateLimit × Bool :=
  match clock with
  | none => (self, false)
  | some ts =>
      let (limits, ok) := checkLimits ts id self.limits
      (⟨limits⟩, ok)

/-- What `newLimit` makes of the seconds that fit in 16 bits. -/
theorem newLimit_res (seconds limit : ℕ) (hs : seconds ≤ 65535) :
    (newLimit seconds limit).res = (seconds + 511) / 512 := by
  simp only [newLimit, u16, MAXCOUNTS]
  omega

theorem newLimit_res_pos (seconds limit : ℕ) (h0 : 0 < seconds) (hs : seconds ≤ 65535) :
    0 < (newLimit seconds limit).res := by
  rw [newLimit_res seconds limit hs]
  omega

theorem ceilDiv_bounds (seconds res : ℕ) (hres : 0 < res) :
    seconds ≤ res * ((seconds + res - 1) / res) ∧
      res * ((seconds + res - 1) / res) < seconds + res := by
  have hdm := Nat.div_add_mod (seconds + res - 1) res
  have hlt := Nat.mod_lt (seconds + res - 1) hres
  omega

theorem newLimit_ncounts (seconds limit : ℕ) (h0 : 0 < seconds) (hs : seconds ≤ 65535) :
    (newLimit seconds limit).ncounts =
      (seconds + (newLimit seconds limit).res - 1) / (newLimit seconds limit).res := by
  have hres := newLimit_res_pos seconds limit h0 hs
  have hle : (seconds + (newLimit seconds limit).res - 1) / (newLimit seconds limit).res ≤
      seconds := by
    have hmul := Nat.le_mul_of_pos_left seconds hres
    rw [Nat.div_le_iff_le_mul_add_pred hres]
    omega
  have hlt : (seconds + (newLimit seconds limit).res - 1) / (newLimit seconds limit).res <
      65536 := by omega
  exact Nat.mod_eq_of_lt hlt

/-- The slots of a new limit cover the configured seconds; with one slot fewer
they would not. -/
theorem newLimit_covers (seconds limit : ℕ) (h0 : 0 < seconds) (hs : seconds ≤ 65535) :
    seconds ≤ (newLimit seconds limit).res * (newLimit seconds limit).ncounts ∧
      (newLimit seconds limit).res * (newLimit seconds limit).ncounts <
        seconds + (newLimit seconds limit).res := by
  rw [newLimit_ncounts seconds limit h0 hs]
  exact ceilDiv_bounds seconds _ (newLimit_res_pos seconds limit h0 hs)

theorem newLimit_ncounts_bounds (seconds limit : ℕ) (h0 : 0 < seconds)
    (hs : seconds ≤ 65535) :
    0 < (newLimit seconds limit).ncounts ∧ (newLimit seconds limit).ncounts ≤ 512 := by
  have hres := newLimit_res seconds limit hs
  have hcover := newLimit_covers seconds limit h0 hs
  constructor
  · by_contra hzero
    have : (newLimit seconds limit).ncounts = 0 := by omega
    rw [this] at hcover
    omega
  · by_contra hbig
    have hmul : (newLimit seconds limit).res * 513 ≤
        (newLimit seconds limit).res * (newLimit seconds limit).ncounts :=
      Nat.mul_le_mul_left _ (by omega)
    omega

end Swad.Ratelimit
