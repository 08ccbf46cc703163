import Mathlib.Data.Vector.Basic
import Swad.Bytes

/-!
Random bytes. They come from the system, which may give fewer than asked for, has to be asked
again when it was interrupted, and may fail. What is missing is taken from a generator of its
own, whose state is guarded by a mutex. The generator seeds itself by calling itself, with the
mutex locked; so the first draw never ends, and the fallback is never of use.
-/
namespace Swad.RandomBytes

open Bytes

/-- A thread waits for a mutex that it holds, or for an answer that does not come. -/
inductive Halt
  | relocked
  | starved
  deriving DecidableEq

/-! ### The generator -/

structure Prng where
  locked : Bool
  seeded : Bool
  s0 : UInt64
  s1 : UInt64
  s2 : UInt64
  s3 : UInt64
  deriving DecidableEq

/-- The state of a new process. -/
def Prng.start : Prng := ⟨false, false, 0, 0, 0, 0⟩

/-- The mutex is not recursive. -/
def Prng.lock (self : Prng) : Except Halt Prng :=
  if self.locked then .error .relocked else .ok { self with locked := true }

def Prng.unlock (self : Prng) : Prng := { self with locked := false }

def Prng.seed (self : Prng) (time : UInt64) : Prng := { self with seeded := true, s0 := time }

def Prng.draw (self : Prng) : UInt64 × Prng :=
  let num := self.s0 + self.s3
  let tmp := self.s1 <<< 17
  let s2 := self.s2 ^^^ self.s0
  let s3 := self.s3 ^^^ self.s1
  let s1 := self.s1 ^^^ s2
  let s0 := self.s0 ^^^ s3
  let s2 := s2 ^^^ tmp
  let s3 := s3 <<< 45 ||| s3 >>> 19
  (num, { self with s0, s1, s2, s3 })

/-- A draw, with the calls of itself nested so deep. -/
def prng (time : UInt64) : ℕ → Prng → Except Halt (UInt64 × Prng)
  | depth + 1, self => do
    let self ← self.lock
    let self ←
      if self.seeded then pure self
      else
        (List.range 100).foldlM (fun self _ => (prng time depth self).map Prod.snd)
          (self.seed time)
    return (self.draw.1, self.draw.2.unlock)
  | 0, _ => .error .starved

/-! ### The system -/

inductive Errno
  | eagain
  | eintr
  | other (code : ℕ)
  deriving DecidableEq

/-- What one call of `getrandom` yields. -/
inductive SysResult
  | read (bytes : List Byte)
  | failed (errno : Errno)
  deriving DecidableEq

/-- Bytes at the addresses from a position on, in the order they are stored. -/
def place (pos : ℕ) (bytes : List Byte) : List (ℕ × Byte) :=
  (List.range' pos bytes.length).zip bytes

/-- The loop that asks the system, with what was stored before. -/
def fillLoop (num : ℕ) : List SysResult → ℕ → List (ℕ × Byte) → Except Halt (ℕ × List (ℕ × Byte))
  | [], pos, stores => if pos < num then .error .starved else .ok (pos, stores)
  | result :: results, pos, stores =>
    if pos < num then
      match result with
      | .read bytes => fillLoop num results (pos + bytes.length) (stores ++ place pos bytes)
      | .failed errno =>
        if errno = .eagain ∨ errno = .eintr then fillLoop num results pos stores
        else .ok (pos, stores)
    else .ok (pos, stores)

section model

variable (layout : UInt64 → List.Vector Byte 8) (time : UInt64)

/-- A state of the generator, a position, and what was stored before it. -/
abbrev Filling := Prng × ℕ × List (ℕ × Byte)

/-- The first bytes of a word of the generator are stored, as the word lies in memory. -/
def storeWord (len : ℕ) (f : Filling) : Except Halt Filling := do
  let (rn, self) ← prng time 2 f.1
  let bytes := (layout rn).toList.take len
  return (self, f.2.1 + bytes.length, f.2.2 ++ place f.2.1 bytes)

/-- The part of a word, if there is one. -/
def storeBytes (bytes : ℕ) (f : Filling) : Except Halt Filling :=
  if bytes ≠ 0 then storeWord layout time bytes f else .ok f

def storeChunks (chunks : ℕ) (f : Filling) : Except Halt Filling :=
  (List.range chunks).foldlM (fun f _ => storeWord layout time 8 f) f

def getRndBytes (self : Prng) (num : ℕ) (results : List SysResult) :
    Except Halt (List (ℕ × Byte) × Prng) := do
  let (pos, stores) ← fillLoop num results 0 []
  if pos < num then do
    let chunks := (num - pos) / 8
    let bytes := (num - pos) % 8
    let f ← storeBytes layout time bytes (self, pos, stores)
    let f ← storeChunks layout time chunks f
    return (f.2.2, f.1)
  else return (stores, self)

end model

/-! ### What the system answers -/

def Errno.Retried (errno : Errno) : Prop := errno = .eagain ∨ errno = .eintr

/-- The answers to a request of so many bytes: finitely many, until all bytes are there or the
system fails for good. -/
inductive Answers : ℕ → List SysResult → Prop
  | done : Answers 0 []
  | read {left : ℕ} {bytes : List Byte} {results : List SysResult} : 0 < left →
      bytes.length ≤ left → Answers (left - bytes.length) results →
        Answers left (.read bytes :: results)
  | again {left : ℕ} {errno : Errno} {results : List SysResult} : 0 < left → errno.Retried →
      Answers left results → Answers left (.failed errno :: results)
  | failed {left : ℕ} {errno : Errno} : 0 < left → ¬ errno.Retried →
      Answers left [.failed errno]

/-- The bytes that the system gave. -/
def supplied : List SysResult → List Byte
  | [] => []
  | .read bytes :: results => bytes ++ supplied results
  | .failed _ :: results => supplied results

/-- The system never fails but for being interrupted. -/
def NeverFails (results : List SysResult) : Prop :=
  ∀ errno, .failed errno ∈ results → errno.Retried

/-- Every byte of the buffer is stored once, and nothing else; the bytes of the system come
first. -/
structure Filled (num : ℕ) (results : List SysResult) (stores : List (ℕ × Byte)) : Prop where
  addresses : stores.map Prod.fst = List.range num
  bytes : supplied results <+: stores.map Prod.snd

theorem place_fst (pos : ℕ) (bytes : List Byte) :
    (place pos bytes).map Prod.fst = List.range' pos bytes.length := by
  rw [place, List.map_fst_zip]
  rw [List.length_range']

theorem place_snd (pos : ℕ) (bytes : List Byte) : (place pos bytes).map Prod.snd = bytes := by
  rw [place, List.map_snd_zip]
  rw [List.length_range']

theorem place_append (pos : ℕ) (a b : List Byte) :
    place pos (a ++ b) = place pos a ++ place (pos + a.length) b := by
  unfold place
  rw [List.length_append, ← List.range'_append_1, List.zip_append]
  rw [List.length_range']

theorem filled_place {num : ℕ} {results : List SysResult} {bytes : List Byte}
    (hlength : bytes.length = num) (h : supplied results <+: bytes) :
    Filled num results (place 0 bytes) :=
  ⟨by rw [place_fst, hlength, List.range_eq_range'], by rwa [place_snd]⟩

/-- The loop stores what the system gives, and that is all exactly if the system never fails. -/
theorem fillLoop_answers {left : ℕ} {results : List SysResult} (h : Answers left results)
    (pos : ℕ) (stores : List (ℕ × Byte)) :
    fillLoop (pos + left) results pos stores =
        .ok (pos + (supplied results).length, stores ++ place pos (supplied results)) ∧
      (supplied results).length ≤ left ∧
      (NeverFails results ↔ (supplied results).length = left) := by
  induction h generalizing pos stores with
  | done =>
    refine ⟨?_, le_rfl, iff_of_true (fun _ h => absurd h List.not_mem_nil) rfl⟩
    rw [fillLoop, if_neg (by omega)]
    simp [supplied, place]
  | @read left bytes results hleft hle _ ih =>
    obtain ⟨hloop, hlength, hiff⟩ := ih (pos + bytes.length) (stores ++ place pos bytes)
    have htotal : pos + bytes.length + (left - bytes.length) = pos + left := by omega
    rw [htotal] at hloop
    refine ⟨?_, ?_, ?_⟩
    · rw [fillLoop, if_pos (by omega), hloop, supplied, List.length_append, place_append,
        List.append_assoc, Nat.add_assoc]
    · rw [supplied, List.length_append]
      omega
    · have hcons : NeverFails (.read bytes :: results) ↔ NeverFails results := by
        simp [NeverFails]
      rw [hcons, hiff, supplied, List.length_append]
      omega
  | @again left errno results hleft hretried _ ih =>
    obtain ⟨hloop, hlength, hiff⟩ := ih pos stores
    refine ⟨?_, hlength, ?_⟩
    · have hagain : errno = .eagain ∨ errno = .eintr := hretried
      rw [fillLoop, if_pos (by omega), if_pos hagain, hloop, supplied]
    · have hcons : NeverFails (.failed errno :: results) ↔ NeverFails results := by
        constructor
        · exact fun h e he => h e (List.mem_cons_of_mem _ he)
        · intro h e he
          rcases List.mem_cons.mp he with heq | he
          · obtain rfl := SysResult.failed.inj heq
            exact hretried
          · exact h e he
      rw [hcons, hiff, supplied]
  | @failed left errno hleft hfinal =>
    refine ⟨?_, Nat.zero_le _, iff_of_false (fun h => ?_) (Nat.ne_of_lt hleft)⟩
    · have hbreak : ¬ (errno = .eagain ∨ errno = .eintr) := hfinal
      rw [fillLoop, if_pos (by omega), if_neg hbreak]
      simp [supplied, place]
    · exact hfinal (h errno (List.mem_cons_self ..))

/-! ### What the generator fills -/

theorem bind_ok {α β : Type} {x : Except Halt α} {a : α} (h : x = .ok a) (f : α → Except Halt β) :
    (x >>= f) = f a := by
  rw [h]
  rfl

theorem bind_error {α β : Type} {x : Except Halt α} {e : Halt} (h : x = .error e)
    (f : α → Except Halt β) : (x >>= f) = .error e := by
  rw [h]
  rfl

/-- A generator between two draws, once it is seeded. -/
def Prng.Ready (self : Prng) : Prop := self.locked = false ∧ self.seeded = true

section generator

variable {self : Prng} (time : UInt64)

theorem prng_ready (h : self.Ready) :
    ∃ rn after, prng time 2 self = .ok (rn, after) ∧ after.Ready := by
  obtain ⟨hlocked, hseeded⟩ := h
  have hlock : self.lock = .ok { self with locked := true } := by
    rw [Prng.lock, hlocked]
    rfl
  have hsame : ∀ held : Prng, held.draw.2.unlock.seeded = held.seeded := fun _ => rfl
  refine ⟨(Prng.draw { self with locked := true }).1,
    (Prng.draw { self with locked := true }).2.unlock, ?_, rfl, ?_⟩
  · rw [prng, bind_ok hlock, if_pos hseeded]
    rfl
  · rw [hsame]
    exact hseeded

/-- The first call that a draw makes to seed the generator waits for the mutex of the draw. -/
theorem prng_unseeded (hlocked : self.locked = false) (hseeded : self.seeded = false) :
    prng time 2 self = .error .relocked := by
  have hlock : self.lock = .ok { self with locked := true } := by
    rw [Prng.lock, hlocked]
    rfl
  have hnested : ∀ inner : Prng, inner.locked = true → prng time 1 inner = .error .relocked := by
    intro inner hinner
    have hwait : inner.lock = .error .relocked := by
      rw [Prng.lock, if_pos hinner]
    rw [prng, bind_error hwait]
  have hrange : List.range 100 = 0 :: List.range' 1 99 := rfl
  have hfirst := hnested (Prng.seed { self with locked := true } time) rfl
  have hcond : ¬ self.seeded = true := Bool.eq_false_iff.mp hseeded
  rw [prng, bind_ok hlock, if_neg hcond, hrange, List.foldlM_cons, hfirst]
  rfl

variable (layout : UInt64 → List.Vector Byte 8)

theorem storeWord_ready (h : self.Ready) {len : ℕ} (hlen : len ≤ 8) (pos : ℕ)
    (stores : List (ℕ × Byte)) :
    ∃ bytes after, storeWord layout time len (self, pos, stores) =
        .ok (after, pos + bytes.length, stores ++ place pos bytes) ∧
      bytes.length = len ∧ after.Ready := by
  obtain ⟨rn, after, hdraw, hafter⟩ := prng_ready time h
  refine ⟨(layout rn).toList.take len, after, ?_, ?_, hafter⟩
  · rw [storeWord, bind_ok hdraw]
    rfl
  · rw [List.length_take_of_le]
    rwa [List.Vector.toList_length]

theorem storeBytes_ready (h : self.Ready) {len : ℕ} (hlen : len ≤ 8) (pos : ℕ)
    (stores : List (ℕ × Byte)) :
    ∃ bytes after, storeBytes layout time len (self, pos, stores) =
        .ok (after, pos + bytes.length, stores ++ place pos bytes) ∧
      bytes.length = len ∧ after.Ready := by
  by_cases hzero : len ≠ 0
  · rw [storeBytes, if_pos hzero]
    exact storeWord_ready time layout h hlen pos stores
  · refine ⟨[], self, ?_, (not_not.mp hzero).symm, h⟩
    rw [storeBytes, if_neg hzero]
    simp [place]

theorem storeChunks_ready (h : self.Ready) (chunks pos : ℕ) (stores : List (ℕ × Byte)) :
    ∃ bytes after, storeChunks layout time chunks (self, pos, stores) =
        .ok (after, pos + bytes.length, stores ++ place pos bytes) ∧
      bytes.length = 8 * chunks ∧ after.Ready := by
  induction chunks with
  | zero => exact ⟨[], self, by simp [storeChunks, place]; rfl, rfl, h⟩
  | succ chunks ih =>
    obtain ⟨bytes, mid, hrun, hlength, hmid⟩ := ih
    obtain ⟨word, after, hword, hwordLength, hafter⟩ :=
      storeWord_ready time layout hmid le_rfl (pos + bytes.length) (stores ++ place pos bytes)
    refine ⟨bytes ++ word, after, ?_, ?_, hafter⟩
    · rw [storeChunks] at hrun ⊢
      rw [List.range_succ, List.foldlM_append, bind_ok hrun, List.foldlM_cons, bind_ok hword,
        List.foldlM_nil, place_append, List.append_assoc, List.length_append, Nat.add_assoc]
      rfl
    · rw [List.length_append, hlength, hwordLength]
      omega

/-- What the system did not give, a generator that is seeded fills. -/
theorem getRndBytes_ready (h : self.Ready) {num : ℕ} {results : List SysResult}
    (hanswers : Answers num results) :
    ∃ stores after, getRndBytes layout time self num results = .ok (stores, after) ∧
      Filled num results stores := by
  obtain ⟨hloop, hle, -⟩ := fillLoop_answers hanswers 0 []
  rw [Nat.zero_add, Nat.zero_add, List.nil_append] at hloop
  rw [getRndBytes, bind_ok hloop]
  dsimp only
  generalize hgot : supplied results = got at *
  by_cases hshort : got.length < num
  · rw [if_pos hshort]
    have hbytes : (num - got.length) % 8 ≤ 8 := by omega
    obtain ⟨bytes, mid, hrun, hlength, hmid⟩ :=
      storeBytes_ready time layout h hbytes got.length (place 0 got)
    obtain ⟨words, after, hwords, hwordsLength, -⟩ := storeChunks_ready time layout hmid
      ((num - got.length) / 8) (got.length + bytes.length) (place 0 got ++ place got.length bytes)
    refine ⟨place 0 (got ++ bytes ++ words), after, ?_, filled_place ?_ ?_⟩
    · rw [bind_ok hrun, bind_ok hwords, place_append _ (got ++ bytes), place_append _ got,
        List.length_append, Nat.zero_add, Nat.zero_add]
      rfl
    · rw [List.length_append, List.length_append, hlength, hwordsLength]
      omega
    · rw [hgot, List.append_assoc]
      exact List.prefix_append _ _
  · rw [if_neg hshort]
    exact ⟨_, _, rfl, filled_place (by omega) (hgot ▸ List.prefix_rfl)⟩

/-- If the system never fails, the generator is not asked. -/
theorem getRndBytes_supplied (self : Prng) {num : ℕ} {results : List SysResult}
    (hanswers : Answers num results) (h : NeverFails results) :
    getRndBytes layout time self num results = .ok (place 0 (supplied results), self) ∧
      Filled num results (place 0 (supplied results)) := by
  obtain ⟨hloop, -, hiff⟩ := fillLoop_answers hanswers 0 []
  have hlength := hiff.mp h
  rw [Nat.zero_add, Nat.zero_add, List.nil_append] at hloop
  refine ⟨?_, filled_place hlength List.prefix_rfl⟩
  rw [getRndBytes, bind_ok hloop]
  dsimp only
  rw [if_neg (by omega)]
  rfl

/-- If it fails, the thread waits for itself, as the generator was never seeded. -/
theorem getRndBytes_unseeded (hlocked : self.locked = false) (hseeded : self.seeded = false)
    {num : ℕ} {results : List SysResult} (hanswers : Answers num results)
    (h : ¬ NeverFails results) :
    getRndBytes layout time self num results = .error .relocked := by
  obtain ⟨hloop, hle, hiff⟩ := fillLoop_answers hanswers 0 []
  have hshort : (supplied results).length < num := by
    have hne : (supplied results).length ≠ num := fun heq => h (hiff.mpr heq)
    omega
  have hword : ∀ len f, f.1 = self → storeWord layout time len f = .error .relocked := by
    rintro len f rfl
    rw [storeWord, bind_error (prng_unseeded time hlocked hseeded)]
  rw [Nat.zero_add, Nat.zero_add, List.nil_append] at hloop
  rw [getRndBytes, bind_ok hloop]
  dsimp only
  rw [if_pos hshort]
  by_cases hzero : (num - (supplied results).length) % 8 ≠ 0
  · have hbytes : storeBytes layout time ((num - (supplied results).length) % 8)
        (self, (supplied results).length, place 0 (supplied results)) = .error .relocked := by
      rw [storeBytes, if_pos hzero, hword _ _ rfl]
    rw [bind_error hbytes]
  · have hbytes : storeBytes layout time ((num - (supplied results).length) % 8)
        (self, (supplied results).length, place 0 (supplied results)) =
          .ok (self, (supplied results).length, place 0 (supplied results)) := by
      rw [storeBytes, if_neg hzero]
    obtain ⟨chunks, hchunks⟩ : ∃ chunks, (num - (supplied results).length) / 8 = chunks + 1 :=
      Nat.exists_eq_succ_of_ne_zero (by omega)
    have hfirst : storeChunks layout time (chunks + 1)
        (self, (supplied results).length, place 0 (supplied results)) = .error .relocked := by
      rw [storeChunks, List.range_succ_eq_map, List.foldlM_cons, bind_error (hword _ _ rfl)]
    rw [bind_ok hbytes, hchunks, bind_error hfirst]

/-- One call in a state in which no call is running. -/
theorem getRndBytes_filled_iff (hlocked : self.locked = false) {num : ℕ} {results : List SysResult}
    (hanswers : Answers num results) :
    (∃ stores after, getRndBytes layout time self num results = .ok (stores, after) ∧
      Filled num results stores) ↔ NeverFails results ∨ self.seeded = true := by
  constructor
  · rintro ⟨stores, after, hrun, -⟩
    by_contra hneither
    obtain ⟨hfails, hseeded⟩ := not_or.mp hneither
    rw [getRndBytes_unseeded time layout hlocked (Bool.eq_false_iff.mpr hseeded) hanswers hfails]
      at hrun
    cases hrun
  · rintro (hnever | hseeded)
    · obtain ⟨hrun, hfilled⟩ := getRndBytes_supplied time layout self hanswers hnever
      exact ⟨_, _, hrun, hfilled⟩
    · exact getRndBytes_ready time layout ⟨hlocked, hseeded⟩ hanswers

end generator

/-! ### The calls of a process -/

structure Call where
  num : ℕ
  results : List SysResult
  time : UInt64

/-- The calls of a process, one after the other, with what each of them stores. -/
def runCalls (layout : UInt64 → List.Vector Byte 8) (self : Prng) :
    List Call → Except Halt (List (List (ℕ × Byte)) × Prng)
  | [] => .ok ([], self)
  | call :: calls => do
    let (stores, self) ← getRndBytes layout call.time self call.num call.results
    let (rest, self) ← runCalls layout self calls
    return (stores :: rest, self)

/-- In every run of a process all calls return with their buffers filled exactly if the system
never fails in any of them. -/
theorem runCalls_filled_iff (layout : UInt64 → List.Vector Byte 8) (calls : List Call)
    (hanswers : ∀ call ∈ calls, Answers call.num call.results) :
    (∃ all after, runCalls layout Prng.start calls = .ok (all, after) ∧
      List.Forall₂ (fun call stores => Filled call.num call.results stores) calls all) ↔
      ∀ call ∈ calls, NeverFails call.results := by
  induction calls with
  | nil => exact iff_of_true ⟨[], _, rfl, .nil⟩ (List.forall_mem_nil _)
  | cons call calls ih =>
    obtain ⟨hcall, hcalls⟩ := List.forall_mem_cons.mp hanswers
    rw [List.forall_mem_cons, ← ih hcalls]
    by_cases hnever : NeverFails call.results
    · obtain ⟨hrun, hfilled⟩ := getRndBytes_supplied call.time layout Prng.start hcall hnever
      constructor
      · rintro ⟨all, after, hall, hforall⟩
        rw [runCalls, bind_ok hrun] at hall
        dsimp only at hall
        cases hrest : runCalls layout Prng.start calls with
        | error e =>
          rw [bind_error hrest] at hall
          cases hall
        | ok rest =>
          rw [bind_ok hrest] at hall
          obtain ⟨rfl, -⟩ := Prod.mk.inj (Except.ok.inj hall)
          exact ⟨hnever, rest.1, rest.2, rfl, (List.forall₂_cons.mp hforall).2⟩
      · rintro ⟨-, rest, after, hrest, hforall⟩
        refine ⟨place 0 (supplied call.results) :: rest, after, ?_, .cons hfilled hforall⟩
        rw [runCalls, bind_ok hrun]
        dsimp only
        rw [bind_ok hrest]
        rfl
    · refine iff_of_false ?_ fun h => hnever h.1
      rintro ⟨all, after, hall, -⟩
      rw [runCalls, bind_error (getRndBytes_unseeded call.time layout rfl rfl hcall hnever)] at hall
      cases hall

def sampleLayout (word : UInt64) : List.Vector Byte 8 := List.Vector.replicate 8 word.toUInt8

/-- A short read, an interruption, and the rest. -/
theorem runCalls_filled_retried :
    ∃ all after, runCalls sampleLayout Prng.start
        [⟨3, [.read [1, 2], .failed .eintr, .read [3]], 0⟩] = .ok (all, after) ∧
      List.Forall₂ (fun (call : Call) stores => Filled call.num call.results stores)
        [⟨3, [.read [1, 2], .failed .eintr, .read [3]], 0⟩] all := by
  have hanswers : Answers 3 [.read [1, 2], .failed .eintr, .read [3]] :=
    .read (by decide) (by decide) (.again (by decide) (Or.inr rfl)
      (.read (by decide) (by decide) .done))
  have hnever : NeverFails [.read [1, 2], .failed .eintr, .read [3]] := by
    intro errno h
    simp only [List.mem_cons, reduceCtorEq, List.not_mem_nil, or_false, false_or,
      SysResult.failed.injEq] at h
    exact Or.inr h
  exact (runCalls_filled_iff sampleLayout _ (List.forall_mem_singleton.mpr hanswers)).mpr
    (List.forall_mem_singleton.mpr hnever)

/-- The system call is not there: the process waits for its own mutex. -/
theorem fallback_waits :
    Answers 32 [.failed (.other 38)] ∧
      getRndBytes sampleLayout 0 Prng.start 32 [.failed (.other 38)] = .error .relocked := by
  refine ⟨.failed (by decide) ?_, rfl⟩
  rintro (h | h) <;> cases h

end Swad.RandomBytes
