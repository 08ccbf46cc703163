import Swad.Bytes

/-!
Programs on a memory of bytes: reading and writing one byte, the loops of the C library
over strings, and what they do where a string ends with a NUL. Whatever leaves the memory
faults. What follows the NUL of a string is not specified, so the lemmas hold for
any bytes behind it, and for none.
-/
namespace Swad.StringPrograms

open Bytes

inductive Fault
  | outside
  | overflow
  | null
  deriving DecidableEq

abbrev Prog := StateT (List Byte) (Except Fault)

section basics

variable {α β : Type}

def fail (e : Fault) : Prog α := fun _ => .error e

/-- A result that does not need the memory. -/
def lift (r : Except Fault α) : Prog α := fun m => r.map fun a => (a, m)

theorem bind_ok {f : Prog α} {m m' : List Byte} {a : α} (h : f m = .ok (a, m'))
    (g : α → Prog β) : (f >>= g) m = g a m' := by
  show Except.bind (f m) (fun r => g r.1 r.2) = _
  rw [h]
  rfl

theorem bind_error {f : Prog α} {m : List Byte} {e : Fault} (h : f m = .error e)
    (g : α → Prog β) : (f >>= g) m = .error e := by
  show Except.bind (f m) (fun r => g r.1 r.2) = _
  rw [h]
  rfl

end basics

def load (i : ℕ) : Prog Byte := fun m =>
  match m[i]? with
  | some c => .ok (c, m)
  | none => .error .outside

def store (i : ℕ) (c : Byte) : Prog Unit := fun m =>
  if i < m.length then .ok ((), m.set i c) else .error .outside

/-- `while (p(*i)) ++i` -/
def scan (p : Byte → Bool) (i : ℕ) : Prog ℕ := fun m =>
  let j := i + ((m.drop i).takeWhile p).length
  if j < m.length then .ok (j, m) else .error .outside

/-- `while (p(*(i-1))) --i` -/
def scanBack (p : Byte → Bool) (i : ℕ) : Prog ℕ := fun m =>
  let j := i - ((m.take i).reverse.takeWhile p).length
  if 0 < j then .ok (j, m) else .error .outside

/-- The string at a place. -/
def readStr (i : ℕ) : Prog Str := fun m =>
  let s := cstr (m.drop i)
  if i + s.length < m.length then .ok (s, m) else .error .outside

/-- `strchr` for a character that is not NUL. -/
def strchr (i : ℕ) (c : Byte) : Prog (Option ℕ) := do
  let j ← scan (fun b => b != 0 && b != c) i
  let b ← load j
  return if b = c then some j else none

/-- `strtok` for one delimiter: the next token, and where the search goes on. -/
def strtok (c : Byte) (i : ℕ) : Prog (Option ℕ × ℕ) := do
  let start ← scan (fun b => b == c) i
  let b ← load start
  if b = 0 then return (none, start)
  else do
    let stop ← scan (fun b => b != 0 && b != c) start
    let b ← load stop
    if b = 0 then return (some start, stop)
    else do
      store stop 0
      return (some start, stop + 1)

section faults

theorem scan_cases (p : Byte → Bool) (i : ℕ) (m : List Byte) :
    scan p i m = .error .outside ∨ ∃ j, scan p i m = .ok (j, m) := by
  unfold scan
  dsimp only
  split
  · exact Or.inr ⟨_, rfl⟩
  · exact Or.inl rfl

theorem load_cases (i : ℕ) (m : List Byte) :
    load i m = .error .outside ∨ ∃ c, load i m = .ok (c, m) := by
  unfold load
  split
  · exact Or.inr ⟨_, rfl⟩
  · exact Or.inl rfl

theorem store_cases (i : ℕ) (c : Byte) (m : List Byte) :
    store i c m = .error .outside ∨ store i c m = .ok ((), m.set i c) := by
  unfold store
  split
  · exact Or.inr rfl
  · exact Or.inl rfl

theorem readStr_cases (i : ℕ) (m : List Byte) :
    readStr i m = .error .outside ∨ ∃ s, readStr i m = .ok (s, m) := by
  unfold readStr
  dsimp only
  split
  · exact Or.inr ⟨_, rfl⟩
  · exact Or.inl rfl

end faults

section runs

variable {m s t : List Byte} {i : ℕ} {b c : Byte} {p : Byte → Bool}

theorem drop_add (h : m.drop i = s ++ t) : m.drop (i + s.length) = t := by
  rw [← List.drop_drop, h]
  exact List.drop_left' rfl

theorem lt_of_drop (h : m.drop i = s ++ c :: t) : i + s.length < m.length := by
  have hlength := congrArg List.length h
  simp only [List.length_drop, List.length_append, List.length_cons] at hlength
  omega

theorem load_run (h : m.drop i = c :: t) : load i m = .ok (c, m) := by
  have hget : m[i]? = some c := by
    have hzero := congrArg (fun l => l[0]?) h
    simpa using hzero
  rw [load, hget]

theorem store_run (h : m.drop i = b :: t) (c : Byte) : store i c m = .ok ((), m.set i c) := by
  have hlt := lt_of_drop (s := []) h
  rw [store, if_pos (by simpa using hlt)]

theorem drop_set (h : m.drop i = s ++ b :: t) (c : Byte) :
    (m.set (i + s.length) c).drop i = s ++ c :: t := by
  rw [List.drop_set, if_neg (by omega), h, Nat.add_sub_cancel_left,
    List.set_append_right _ _ (Nat.le_refl _), Nat.sub_self]
  rfl

theorem drop_set_of_lt {j : ℕ} (h : i < j) (c : Byte) : (m.set i c).drop j = m.drop j := by
  rw [List.drop_set, if_pos h]

/-- A loop ends at the first byte that does not continue it. -/
theorem scan_run (h : m.drop i = s ++ c :: t) (hs : ∀ b ∈ s, p b = true) (hc : p c = false) :
    scan p i m = .ok (i + s.length, m) := by
  rw [scan, h, takeWhile_stop hs hc, if_pos (lt_of_drop h)]

/-- A loop that nothing ends leaves the memory. -/
theorem scan_outside (hs : ∀ b ∈ m.drop i, p b = true) (hi : i ≤ m.length) :
    scan p i m = .error .outside := by
  rw [scan, List.takeWhile_eq_self_iff.mpr hs, List.length_drop, if_neg (by omega)]

/-- A loop over a string that the NUL ends, if nothing before does. -/
theorem scan_text (h : m.drop i = s ++ 0 :: t) (hp : p 0 = false ∨ s.dropWhile p ≠ []) :
    scan p i m = .ok (i + (s.takeWhile p).length, m) ∧
      m.drop (i + (s.takeWhile p).length) = s.dropWhile p ++ 0 :: t := by
  have hsplit : s = s.takeWhile p ++ s.dropWhile p := List.takeWhile_append_dropWhile.symm
  have hall : ∀ b ∈ s.takeWhile p, p b = true := fun b hb => List.mem_takeWhile_imp hb
  have hdrop : m.drop i = s.takeWhile p ++ (s.dropWhile p ++ 0 :: t) := by
    rw [← List.append_assoc, ← hsplit]
    exact h
  refine ⟨?_, drop_add hdrop⟩
  cases hrest : s.dropWhile p with
  | nil =>
    rw [hrest] at hdrop
    exact scan_run hdrop hall (hp.resolve_right fun hne => hne hrest)
  | cons x rest =>
    rw [hrest] at hdrop
    exact scan_run hdrop hall (split_of_dropWhile hrest).2

theorem scanBack_run {l : List Byte} (h : m.drop i = l ++ c :: s ++ t)
    (hs : ∀ b ∈ s, p b = true) (hc : p c = false) :
    scanBack p (i + (l ++ c :: s).length) m = .ok (i + (l ++ [c]).length, m) := by
  have hi : i ≤ m.length := by
    have hlt := lt_of_drop (s := l) (c := c) (t := s ++ t) (by simpa using h)
    omega
  have htake : m.take (i + (l ++ c :: s).length) = m.take i ++ l ++ c :: s := by
    rw [List.take_add, h, List.take_left' rfl, List.append_assoc]
  have hback : (m.take (i + (l ++ c :: s).length)).reverse.takeWhile p = s.reverse := by
    rw [htake, List.reverse_append, List.reverse_cons, List.append_assoc]
    exact takeWhile_stop (by simpa using hs) hc _
  have hlength : i + (l ++ c :: s).length - s.length = i + (l ++ [c]).length := by
    simp only [List.length_append, List.length_cons, List.length_nil]
    omega
  rw [scanBack, hback, List.length_reverse, hlength, if_pos (by simp only [List.length_append, List.length_cons]; omega)]

/-- A string and the NUL behind it. -/
def HasStr (m : List Byte) (i : ℕ) (s : Str) : Prop := (0 : Byte) ∉ s ∧ ∃ t, m.drop i = s ++ 0 :: t

theorem HasStr.readStr (h : HasStr m i s) : readStr i m = .ok (s, m) := by
  obtain ⟨hs, t, ht⟩ := h
  rw [StringPrograms.readStr, ht, cstr, takeWhile_stop (bne_of_notMem hs) (by simp),
    if_pos (lt_of_drop ht)]

/-- What is written behind the NUL leaves a string alone. -/
theorem HasStr.set {j : ℕ} (h : HasStr m i s) (hj : i + s.length < j) (c : Byte) :
    HasStr (m.set j c) i s := by
  obtain ⟨hs, t, ht⟩ := h
  refine ⟨hs, t.set (j - (i + s.length + 1)) c, ?_⟩
  rw [List.drop_set, if_neg (by omega), ht, List.set_append_right _ _ (by omega)]
  congr 1
  rw [show j - i - s.length = (j - (i + s.length + 1)) + 1 by omega]
  rfl

theorem HasStr.mapM_readStr {ps : List ℕ} {us : List Str} (h : List.Forall₂ (HasStr m) ps us) :
    ps.mapM StringPrograms.readStr m = .ok (us, m) := by
  induction h with
  | nil => rfl
  | cons hp _ ih =>
    rw [List.mapM_cons, bind_ok hp.readStr, bind_ok ih]
    rfl

theorem strchr_found (h : m.drop i = s ++ c :: t) (hs : (0 : Byte) ∉ s) (hc : c ∉ s) :
    strchr i c m = .ok (some (i + s.length), m) := by
  have hall : ∀ b ∈ s, (b != 0 && b != c) = true := by
    intro b hb
    rw [bne_of_notMem hs b hb, bne_of_notMem hc b hb]
    rfl
  rw [strchr, bind_ok (scan_run h hall (by simp)), bind_ok (load_run (drop_add h)), if_pos rfl]
  rfl

theorem strchr_none (h : m.drop i = s ++ 0 :: t) (hs : (0 : Byte) ∉ s) (hc : c ∉ s)
    (hne : c ≠ 0) : strchr i c m = .ok (none, m) := by
  have hall : ∀ b ∈ s, (b != 0 && b != c) = true := by
    intro b hb
    rw [bne_of_notMem hs b hb, bne_of_notMem hc b hb]
    rfl
  rw [strchr, bind_ok (scan_run h hall (by simp)), bind_ok (load_run (drop_add h)),
    if_neg hne.symm]
  rfl

end runs

/-! ### Tokens -/

/-- The next token of a text, and what is left for the one after it. -/
def nextToken (c : Byte) (s : Str) : Option (Str × Str) :=
  match s.dropWhile (· == c) with
  | [] => none
  | b :: t => some ((b :: t).takeWhile (· != c), ((b :: t).dropWhile (· != c)).drop 1)

section tokens

variable {m t : List Byte} {s : Str} {i : ℕ} {c : Byte}

theorem strtok_none (h : m.drop i = s ++ 0 :: t) (hc : c ≠ 0) (hnext : nextToken c s = none) :
    strtok c i m = .ok ((none, i + s.length), m) := by
  have hall : ∀ b ∈ s, (b == c) = true := by
    unfold nextToken at hnext
    split at hnext
    · next hnil => exact List.dropWhile_eq_nil_iff.mp hnil
    · cases hnext
  have hzero : ((0 : Byte) == c) = false := beq_eq_false_iff_ne.mpr hc.symm
  rw [strtok, bind_ok (scan_run h hall hzero), bind_ok (load_run (drop_add h)), if_pos rfl]
  rfl

/-- A token stands behind delimiters, and another one ends it unless the text does. -/
theorem nextToken_split {tok rest : Str} (h : nextToken c s = some (tok, rest)) :
    ∃ delims b body tail, tok = b :: body ∧ s = delims ++ (tok ++ tail) ∧
      (∀ x ∈ delims, (x == c) = true) ∧ (∀ x ∈ tok, (x != c) = true) ∧
        ((tail = [] ∧ rest = []) ∨ tail = c :: rest) := by
  unfold nextToken at h
  split at h
  · cases h
  next b body hdrop =>
  obtain ⟨rfl, rfl⟩ := Prod.mk.inj (Option.some.inj h)
  obtain ⟨hsplit, hb⟩ := split_of_dropWhile hdrop
  refine ⟨s.takeWhile (· == c), b, body.takeWhile (· != c), (b :: body).dropWhile (· != c), ?_, ?_,
    fun x hx => List.mem_takeWhile_imp (p := (· == c)) hx,
    fun x hx => List.mem_takeWhile_imp (p := (· != c)) hx, ?_⟩
  · exact List.takeWhile_cons_of_pos (by rw [bne, hb]; rfl)
  · rw [List.takeWhile_append_dropWhile]
    exact hsplit
  · cases htail : (b :: body).dropWhile (· != c) with
    | nil => exact Or.inl ⟨rfl, rfl⟩
    | cons c' rest =>
      obtain rfl : c' = c := by simpa using (split_of_dropWhile htail).2
      exact Or.inr rfl

/-- A token is cut off by a NUL, and what is left follows it. -/
theorem strtok_some {tok rest : Str} (h : m.drop i = s ++ 0 :: t) (hs : (0 : Byte) ∉ s)
    (hc : c ≠ 0) (hnext : nextToken c s = some (tok, rest)) :
    ∃ a j m', strtok c i m = .ok ((some a, j), m') ∧ HasStr m' a tok ∧
      m'.drop j = rest ++ 0 :: t ∧ (0 : Byte) ∉ rest ∧ i ≤ j ∧
      (a + tok.length < j ∨ rest = []) ∧
      ∀ k u, HasStr m k u → k + u.length < i → HasStr m' k u := by
  obtain ⟨delims, b, body, tail, hfirst, rfl, hdelims, htok, htail⟩ := nextToken_split hnext
  have htok0 : (0 : Byte) ∉ tok :=
    fun hmem => hs (List.mem_append_right _ (List.mem_append_left _ hmem))
  have hbtok : b ∈ tok := hfirst ▸ List.mem_cons_self
  have hb : (b == c) = false := by simpa using htok b hbtok
  have hb0 : b ≠ 0 := fun heq => htok0 (heq ▸ hbtok)
  have hall : ∀ x ∈ tok, (x != 0 && x != c) = true := by
    intro x hx
    rw [bne_of_notMem htok0 x hx, htok x hx]
    rfl
  have hdropTok : m.drop (i + delims.length) = tok ++ (tail ++ 0 :: t) :=
    drop_add (s := delims) (by rw [h]; simp)
  have hdropStart : m.drop (i + delims.length) = b :: (body ++ (tail ++ 0 :: t)) := by
    rw [hdropTok, hfirst]
    rfl
  have hstart : scan (fun b => b == c) i m = .ok (i + delims.length, m) :=
    scan_run (c := b) (t := body ++ (tail ++ 0 :: t)) (by rw [h, hfirst]; simp) hdelims hb
  rw [strtok, bind_ok hstart, bind_ok (load_run hdropStart), if_neg hb0]
  rcases htail with ⟨rfl, rfl⟩ | rfl
  · have hend : m.drop (i + delims.length) = tok ++ 0 :: t := hdropTok
    rw [bind_ok (scan_run hend hall (by simp)), bind_ok (load_run (drop_add hend)), if_pos rfl]
    exact ⟨i + delims.length, i + delims.length + tok.length, m, rfl, ⟨htok0, t, hend⟩,
      drop_add hend, List.not_mem_nil, by omega, Or.inr rfl, fun _ _ hu _ => hu⟩
  · have hend : m.drop (i + delims.length) = tok ++ c :: (rest ++ 0 :: t) := hdropTok
    have hrest0 : (0 : Byte) ∉ rest := fun hmem =>
      hs (List.mem_append_right _ (List.mem_append_right _ (List.mem_cons_of_mem _ hmem)))
    have hdropEnd := drop_add hend
    rw [bind_ok (scan_run hend hall (by simp)), bind_ok (load_run hdropEnd), if_neg hc,
      bind_ok (store_run hdropEnd 0)]
    refine ⟨i + delims.length, i + delims.length + tok.length + 1,
      m.set (i + delims.length + tok.length) 0, rfl, ⟨htok0, _, drop_set hend 0⟩, ?_, hrest0,
      by omega, Or.inl (by omega), fun k u hu hlt => hu.set (by omega) 0⟩
    rw [drop_set_of_lt (by omega)]
    exact drop_add (s := [c]) hdropEnd

end tokens

/-- The tokens of a text: what stands between the delimiters, if anything does. -/
def tokensOf (c : Byte) (s : Str) : List Str := (s.splitOn c).filter (· ≠ [])

section tokens

variable {s tok rest : Str} {c : Byte}

theorem tokensOf_delims {delims : Str} (h : ∀ x ∈ delims, (x == c) = true) (s : Str) :
    tokensOf c (delims ++ s) = tokensOf c s := by
  induction delims with
  | nil => rfl
  | cons x delims ih =>
    obtain rfl : x = c := by simpa using h x List.mem_cons_self
    have hsplit : (x :: (delims ++ s)).splitOn x = [] :: (delims ++ s).splitOn x :=
      List.splitOn_append_cons_self_of_not_mem (List.not_mem_nil : x ∉ ([] : Str)) _
    rw [List.cons_append, tokensOf, hsplit]
    exact ih fun y hy => h y (List.mem_cons_of_mem _ hy)

theorem tokensOf_none (h : nextToken c s = none) : tokensOf c s = [] := by
  unfold nextToken at h
  split at h
  · next hnil =>
    have hall := tokensOf_delims (List.dropWhile_eq_nil_iff.mp hnil) []
    rw [List.append_nil] at hall
    exact hall
  · cases h

theorem tokensOf_some (h : nextToken c s = some (tok, rest)) :
    tokensOf c s = tok :: tokensOf c rest := by
  obtain ⟨delims, b, body, tail, htok, hs, hdelims, hplain, htail⟩ := nextToken_split h
  have hnot : c ∉ tok := by
    intro hmem
    have hne := hplain c hmem
    simp at hne
  have hkeep : ∀ l : List Str, (tok :: l).filter (fun t => decide (t ≠ [])) =
      tok :: l.filter (fun t => decide (t ≠ [])) := by
    rw [htok]
    exact fun _ => rfl
  rw [hs, tokensOf_delims hdelims]
  rcases htail with ⟨rfl, rfl⟩ | rfl
  · rw [List.append_nil, tokensOf, List.splitOn_eq_singleton hnot, hkeep]
    rfl
  · rw [tokensOf, List.splitOn_append_cons_self_of_not_mem hnot, hkeep]
    rfl

end tokens

end Swad.StringPrograms
