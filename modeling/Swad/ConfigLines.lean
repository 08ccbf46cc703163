import Mathlib.Data.List.DropRight
import Swad.Config
import Swad.PairedRuns

/-!
What a line does to the configuration, as a function of its text. The readers find the
same keys, values and lists in the buffer, whatever is behind the line, as long as the
name of a section is followed by a blank or a bracket. So what earlier lines left in the
buffer does not matter, and no reader looks behind the NUL that ends the line; a name that
is not followed by either makes the reader leave the line.
-/
namespace Swad.ConfigLines

open Bytes Util StringPrograms Config PairedRuns

/-- The key and the value of a line. -/
def keyValue (line : Str) : Option (Str × Str) :=
  match line.dropWhile (· != chr '=') with
  | [] => none
  | _ :: rest =>
    if line.head? = some (chr '=') then none
    else
      match rest.dropWhile isspace with
      | [] => none
      | c :: v =>
        if isComment c then none
        else some ((line.takeWhile (· != chr '=')).rdropWhile isspace,
          ((c :: v).takeWhile (fun b => !isComment b)).rdropWhile isspace)

/-- The tokens of a text, which have room in an array of eight. -/
def tokens : ℕ → Str → List Str → Except Fault (Option (List Str))
  | 0, _, _ => .error .overflow
  | fuel + 1, s, args =>
    match nextToken (chr ':') s with
    | none => .ok (some args)
    | some (arg, s) =>
      if args.length = ARGSSZ then .ok none
      else if args.length < 8 then tokens fuel s (args ++ [arg])
      else .error .overflow

def checkerLine (self : Settings) (key value : Str) : Result :=
  match nextToken (chr ':') value with
  | none => .error .null
  | some (classname, rest) =>
    (tokens 10 rest []).map fun
      | none => (self, [.tooManyArguments key])
      | some args => (addChecker self key classname args, [])

def realmLine (self : Settings) (key value : Str) : Result :=
  match limitKey key with
  | some n => (addRealmLimit (key.drop (n + 1)) (key.take n) value self.realms).map fun r =>
      ({ self with realms := r.1 }, r.2)
  | none =>
    (tokens 10 value []).map fun
      | none => (self, [.tooManyCheckers key])
      | some checkers => (addRealm self key checkers, [])

def serverLine (self : Settings) (key value : Str) : Settings × List Warning :=
  ({ self with servers := (setServerOption key value self.server self.servers).1 },
    (setServerOption key value self.server self.servers).2)

def isNameEnd (c : Byte) : Bool := isspace c || c == chr ']'

/-- What follows the bracket that opens a section. -/
def sectionName (lp : Str) : Str := (lp.drop 1).dropWhile isspace

def sectionLine (self : Settings) (lp : Str) : Result :=
  let name := sectionName lp
  match name with
  | [] => .ok (self, [.malformedSection])
  | c :: _ =>
    if c = chr ']' then .ok (self, [.malformedSection])
    else
      match (name.dropWhile (fun b => !isNameEnd b)).dropWhile isspace with
      | [] => .ok (self, [.malformedSection])
      | c :: rest =>
        if c = chr ']' ∧ (rest.dropWhile isspace).head?.all isComment then
          openSection self (name.takeWhile (fun b => !isNameEnd b))
        else .ok (self, [.malformedSection])

/-- The effect of a line. -/
def lineEffect (accounts : Accounts) (self : Settings) (line : Str) : Result :=
  let lp := line.dropWhile isspace
  match lp with
  | [] => .ok (self, [])
  | c :: _ =>
    if isComment c then .ok (self, [])
    else if c = chr '[' then sectionLine self lp
    else if self.currentSection = .invalid then .ok (self, [])
    else
      match keyValue lp with
      | none => .ok (self, [.malformedLine])
      | some (key, value) =>
        match self.currentSection with
        | .invalid => .ok (self, [])
        | .global => setOption accounts self key value
        | .checkers => checkerLine self key value
        | .realms => realmLine self key value
        | .server => .ok (serverLine self key value)

/-- The name of a section ends before the line does. -/
def Terminated (line : Str) : Prop :=
  (line.dropWhile isspace).head? = some (chr '[') →
    sectionName (line.dropWhile isspace) = [] ∨
      (sectionName (line.dropWhile isspace)).any isNameEnd

instance (line : Str) : Decidable (Terminated line) := by
  unfold Terminated
  infer_instance

section keyValues

variable {m t : List Byte} {i : ℕ} {line key value : Str}

/-- A text without its last blanks. -/
theorem rdropWhile_split {p : Byte → Bool} {l : Str} {x : Byte} (hx : x ∈ l) (hp : p x = false) :
    ∃ init c s, l = init ++ c :: s ∧ l.rdropWhile p = init ++ [c] ∧ p c = false ∧
      ∀ b ∈ s, p b = true := by
  have hne : l.rdropWhile p ≠ [] := by
    intro hnil
    have hall := List.rdropWhile_eq_nil_iff.mp hnil x hx
    rw [hp] at hall
    cases hall
  have hlast := List.rdropWhile_last_not p l hne
  have hsplit : (l.rdropWhile p).dropLast ++ [(l.rdropWhile p).getLast hne] = l.rdropWhile p :=
    List.dropLast_append_getLast hne
  refine ⟨(l.rdropWhile p).dropLast, (l.rdropWhile p).getLast hne, l.rtakeWhile p, ?_, hsplit.symm,
    by simpa using hlast, fun b hb => List.mem_rtakeWhile_imp hb⟩
  calc l = l.rdropWhile p ++ l.rtakeWhile p := List.rdropWhile_append_rtakeWhile.symm
    _ = ((l.rdropWhile p).dropLast ++ [(l.rdropWhile p).getLast hne]) ++ l.rtakeWhile p := by
      rw [hsplit]
    _ = _ := by rw [List.append_assoc, List.singleton_append]

/-- The part of a line before the equals sign, which begins and ends without blanks. -/
theorem key_split {c x : Byte} {l rest : Str} (hline : line = c :: l) (hspace : isspace c = false)
    (hc : c ≠ chr '=') (h : line.dropWhile (· != chr '=') = x :: rest) :
    ∃ k₁ k₂ s₁, line = (k₁ ++ k₂ :: s₁) ++ chr '=' :: rest ∧
      (line.takeWhile (· != chr '=')).rdropWhile isspace = k₁ ++ [k₂] ∧
        chr '=' ∉ k₁ ++ k₂ :: s₁ ∧ isspace k₂ = false ∧ ∀ b ∈ s₁, isspace b = true := by
  obtain ⟨hsplit, hx⟩ := split_of_dropWhile h
  obtain rfl : x = chr '=' := by simpa using hx
  have hcmem : c ∈ line.takeWhile (· != chr '=') := by
    rw [hline, List.takeWhile_cons, if_pos (by simpa using hc)]
    exact List.mem_cons_self
  obtain ⟨k₁, k₂, s₁, hk, hkey, hk₂, hs₁⟩ := rdropWhile_split hcmem hspace
  rw [hk] at hsplit
  refine ⟨k₁, k₂, s₁, hsplit, hkey, ?_, hk₂, hs₁⟩
  intro hmem
  rw [← hk] at hmem
  have hne := List.mem_takeWhile_imp (p := (· != chr '=')) hmem
  simp at hne

/-- The parts of a line with a key and a value, with the blanks around them. -/
theorem keyValue_split {c : Byte} {l : Str} (hline : line = c :: l) (hspace : isspace c = false)
    (h : keyValue line = some (key, value)) :
    ∃ k₁ k₂ s₁ s₂ v₁ v₂ s₃ rest, line = (k₁ ++ k₂ :: s₁) ++ chr '=' ::
        (s₂ ++ ((v₁ ++ v₂ :: s₃) ++ rest)) ∧
      key = k₁ ++ [k₂] ∧ value = v₁ ++ [v₂] ∧ chr '=' ∉ k₁ ++ k₂ :: s₁ ∧
      isspace k₂ = false ∧ isspace v₂ = false ∧ (∀ b ∈ s₁, isspace b = true) ∧
      (∀ b ∈ s₂, isspace b = true) ∧ (∀ b ∈ s₃, isspace b = true) ∧
      (∃ y v, v₁ ++ v₂ :: s₃ = y :: v ∧ isspace y = false) ∧
      (∀ b ∈ v₁ ++ v₂ :: s₃, isComment b = false) ∧ (rest.head?.all isComment) = true := by
  unfold keyValue at h
  split at h
  · cases h
  next x rest heq =>
  split at h
  · cases h
  next hfirst =>
  have hc : c ≠ chr '=' := by
    intro hceq
    rw [hline, hceq] at hfirst
    exact hfirst rfl
  split at h
  · cases h
  next y v hv =>
  obtain ⟨hrest, hy⟩ := split_of_dropWhile hv
  split at h
  · cases h
  next hcomment =>
  obtain ⟨rfl, rfl⟩ := Prod.mk.inj (Option.some.inj h)
  obtain ⟨k₁, k₂, s₁, hsplit, hkey, hequal, hk₂, hs₁⟩ := key_split hline hspace hc heq
  have hymem : y ∈ (y :: v).takeWhile (fun b => !isComment b) := by
    rw [List.takeWhile_cons, if_pos (by simpa using hcomment)]
    exact List.mem_cons_self
  obtain ⟨v₁, v₂, s₃, hv', hvalue, hv₂, hs₃⟩ := rdropWhile_split hymem hy
  refine ⟨k₁, k₂, s₁, rest.takeWhile isspace, v₁, v₂, s₃,
    (y :: v).dropWhile (fun b => !isComment b), ?_, hkey, hvalue, hequal, hk₂, hv₂, hs₁,
    fun b hb => List.mem_takeWhile_imp hb, hs₃, ?_, ?_, ?_⟩
  · rw [← hv', List.takeWhile_append_dropWhile, ← hrest]
    exact hsplit
  · refine ⟨y, v.takeWhile (fun b => !isComment b), ?_, hy⟩
    rw [← hv', List.takeWhile_cons, if_pos (by simpa using hcomment)]
  · intro b hb
    rw [← hv'] at hb
    have hnot := List.mem_takeWhile_imp (p := fun b => !isComment b) hb
    simpa using hnot
  · cases hcase : (y :: v).dropWhile fun b => !isComment b with
    | nil => rfl
    | cons z rest => simpa using (split_of_dropWhile hcase).2

/-- The first steps of the reader find the end of the key. -/
theorem readKeyValue_key {k₁ s₁ rest : Str} {k₂ : Byte}
    (h : m.drop i = (k₁ ++ k₂ :: s₁) ++ chr '=' :: rest) (h0 : (0 : Byte) ∉ k₁ ++ k₂ :: s₁)
    (heq : chr '=' ∉ k₁ ++ k₂ :: s₁) (hk₂ : isspace k₂ = false)
    (hs₁ : ∀ b ∈ s₁, isspace b = true) :
    readKeyValue i m = (do
      let v ← scan isspace (i + (k₁ ++ k₂ :: s₁).length + 1)
      let c ← load v
      if c = 0 ∨ isComment c then return none
      else do
        let vend ← scan (fun b => b != 0 && !isComment b) v
        let vend ← scanBack isspace vend
        store (i + (k₁ ++ [k₂]).length) 0
        store vend 0
        return some (i, v) : Prog (Option (ℕ × ℕ))) m := by
  obtain ⟨c, l, hc⟩ : ∃ c l, k₁ ++ k₂ :: s₁ = c :: l := by
    cases k₁ with
    | nil => exact ⟨k₂, s₁, rfl⟩
    | cons c k₁ => exact ⟨c, k₁ ++ k₂ :: s₁, rfl⟩
  have hload : load i m = .ok (c, m) := load_run (t := l ++ chr '=' :: rest) (by rw [h, hc]; rfl)
  have hne : c ≠ chr '=' := by
    rintro rfl
    rw [hc] at heq
    exact heq List.mem_cons_self
  rw [readKeyValue, bind_ok hload, if_neg hne, bind_ok (strchr_found h h0 heq)]
  dsimp only
  rw [bind_ok (scanBack_run h hs₁ hk₂)]

theorem readKeyValue_none {c : Byte} {l : Str} (h : m.drop i = line ++ 0 :: t)
    (h0 : (0 : Byte) ∉ line) (hline : line = c :: l) (hspace : isspace c = false)
    (hkv : keyValue line = none) : readKeyValue i m = .ok (none, m) := by
  unfold keyValue at hkv
  have hload : load i m = .ok (c, m) := load_run (t := l ++ 0 :: t) (by rw [h, hline]; rfl)
  by_cases hceq : c = chr '='
  · rw [readKeyValue, bind_ok hload, if_pos hceq]
    rfl
  split at hkv
  · next hnil =>
    have hnot : chr '=' ∉ line := by
      intro hmem
      have hall := List.dropWhile_eq_nil_iff.mp hnil _ hmem
      simp at hall
    rw [readKeyValue, bind_ok hload, if_neg hceq, bind_ok (strchr_none h h0 hnot (by decide))]
    rfl
  next x rest heq =>
  obtain ⟨k₁, k₂, s₁, hsplit, _, heq', hk₂, hs₁⟩ := key_split hline hspace hceq heq
  have hdrop : m.drop i = (k₁ ++ k₂ :: s₁) ++ chr '=' :: (rest ++ 0 :: t) := by
    rw [h, hsplit, List.append_assoc, List.cons_append]
  have hrest : m.drop (i + (k₁ ++ k₂ :: s₁).length + 1) = rest ++ 0 :: t :=
    drop_add (s := [chr '=']) (drop_add hdrop)
  rw [readKeyValue_key hdrop (fun hmem => h0 (by rw [hsplit]; exact List.mem_append_left _ hmem))
    heq' hk₂ hs₁]
  have hfirst : ¬ line.head? = some (chr '=') := by
    rw [hline]
    simpa using hceq
  rw [if_neg hfirst] at hkv
  have hrestSplit : rest = rest.takeWhile isspace ++ rest.dropWhile isspace :=
    List.takeWhile_append_dropWhile.symm
  have hspaces : ∀ b ∈ rest.takeWhile isspace, isspace b = true :=
    fun b hb => List.mem_takeWhile_imp hb
  generalize rest.takeWhile isspace = spaces at hrestSplit hspaces
  split at hkv
  · next hnil =>
    have hvalue : m.drop (i + (k₁ ++ k₂ :: s₁).length + 1) = spaces ++ 0 :: t := by
      rw [hrest, hrestSplit, hnil, List.append_nil]
    rw [bind_ok (scan_run hvalue hspaces (by decide)), bind_ok (load_run (drop_add hvalue)),
      if_pos (Or.inl rfl)]
    rfl
  · next y v hv =>
    have hy : isspace y = false := (split_of_dropWhile hv).2
    have hcomment : isComment y = true := by
      by_contra hnot
      rw [if_neg hnot] at hkv
      cases hkv
    have hvalue : m.drop (i + (k₁ ++ k₂ :: s₁).length + 1) = spaces ++ y :: (v ++ 0 :: t) := by
      rw [hrest, hrestSplit, hv, List.append_assoc, List.cons_append]
    rw [bind_ok (scan_run hvalue hspaces hy), bind_ok (load_run (drop_add hvalue)),
      if_pos (Or.inr hcomment)]
    rfl

theorem notMem_front {b c : Byte} {init s : Str} (h : b ∉ init ++ c :: s) : b ∉ init ++ [c] := by
  rw [List.append_cons] at h
  exact fun hmem => h (List.mem_append_left s hmem)

/-- The two NULs make strings of the key and the value. -/
theorem cut_run {b₁ b₂ : Byte} {l₁ l₂ : List Byte} {v : ℕ} (hkey : m.drop i = key ++ b₁ :: l₁)
    (hvalue : m.drop v = value ++ b₂ :: l₂) (hkey0 : (0 : Byte) ∉ key)
    (hbefore : i + key.length < v) :
    ∃ m', (do
        store (i + key.length) 0
        store (v + value.length) 0
        return some (i, v) : Prog (Option (ℕ × ℕ))) m = .ok (some (i, v), m') ∧
      HasStr m' i key ∧ m'.drop v = value ++ 0 :: l₂ := by
  have hvalue' : (m.set (i + key.length) 0).drop v = value ++ b₂ :: l₂ := by
    rw [drop_set_of_lt hbefore, hvalue]
  have hstr : HasStr (m.set (i + key.length) 0) i key := ⟨hkey0, l₁, drop_set hkey 0⟩
  rw [bind_ok (store_run (drop_add hkey) 0), bind_ok (store_run (drop_add hvalue') 0)]
  exact ⟨_, rfl, hstr.set (by omega) 0, drop_set hvalue' 0⟩

/-- The key and the value are strings in the buffer, and the key ends before the value. -/
theorem readKeyValue_some {c : Byte} {l : Str} (h : m.drop i = line ++ 0 :: t)
    (h0 : (0 : Byte) ∉ line) (hline : line = c :: l) (hspace : isspace c = false)
    (hkv : keyValue line = some (key, value)) :
    ∃ v m' t', readKeyValue i m = .ok (some (i, v), m') ∧ HasStr m' i key ∧
      m'.drop v = value ++ 0 :: t' ∧ (0 : Byte) ∉ value ∧ i + key.length < v := by
  obtain ⟨k₁, k₂, s₁, s₂, v₁, v₂, s₃, rest, hsplit, hkey, hvalue, heq, hk₂, hv₂, hs₁, hs₂, hs₃,
    ⟨y, v, hy, hyspace⟩, hplain, hrest⟩ := keyValue_split hline hspace hkv
  have hkey0 : (0 : Byte) ∉ k₁ ++ k₂ :: s₁ :=
    fun hmem => h0 (by rw [hsplit]; exact List.mem_append_left _ hmem)
  have hvalue0 : (0 : Byte) ∉ v₁ ++ v₂ :: s₃ := by
    intro hmem
    apply h0
    rw [hsplit]
    exact List.mem_append_right _ (List.mem_cons_of_mem _
      (List.mem_append_right _ (List.mem_append_left _ hmem)))
  have hdrop : m.drop i = (k₁ ++ k₂ :: s₁) ++ chr '=' ::
      (s₂ ++ ((v₁ ++ v₂ :: s₃) ++ (rest ++ 0 :: t))) := by
    rw [h, hsplit]
    simp only [List.append_assoc, List.cons_append]
  have hbehind : m.drop (i + (k₁ ++ k₂ :: s₁).length + 1) =
      s₂ ++ ((v₁ ++ v₂ :: s₃) ++ (rest ++ 0 :: t)) :=
    drop_add (s := [chr '=']) (drop_add hdrop)
  have hspaces : m.drop (i + (k₁ ++ k₂ :: s₁).length + 1) = s₂ ++ y :: (v ++ (rest ++ 0 :: t)) := by
    rw [hbehind, hy]
    rfl
  have hymem : y ∈ v₁ ++ v₂ :: s₃ := by
    rw [hy]
    exact List.mem_cons_self
  have hy0 : y ≠ 0 := fun heq => hvalue0 (heq ▸ hymem)
  rw [readKeyValue_key hdrop hkey0 heq hk₂ hs₁, bind_ok (scan_run hspaces hs₂ hyspace),
    bind_ok (load_run (drop_add hspaces)), if_neg (by simp [hy0, hplain y hymem])]
  -- the value ends at a comment, or with the line
  obtain ⟨e, tail, he, hend⟩ : ∃ e tail, rest ++ 0 :: t = e :: tail ∧
      (e != 0 && !isComment e) = false := by
    cases rest with
    | nil => exact ⟨0, t, rfl, by simp⟩
    | cons e rest =>
      have hcomment : isComment e = true := by simpa using hrest
      exact ⟨e, rest ++ 0 :: t, rfl, by simp [hcomment]⟩
  have hvdrop : m.drop (i + (k₁ ++ k₂ :: s₁).length + 1 + s₂.length) =
      (v₁ ++ v₂ :: s₃) ++ e :: tail := by
    rw [← he]
    exact drop_add hbehind
  have hall : ∀ b ∈ v₁ ++ v₂ :: s₃, (b != 0 && !isComment b) = true := by
    intro b hb
    rw [bne_of_notMem hvalue0 b hb, hplain b hb]
    rfl
  rw [bind_ok (scan_run hvdrop hall hend), bind_ok (scanBack_run hvdrop hs₃ hv₂)]
  have hvpos : i + (k₁ ++ [k₂]).length < i + (k₁ ++ k₂ :: s₁).length + 1 + s₂.length := by
    simp only [List.length_append, List.length_cons, List.length_nil]
    omega
  generalize i + (k₁ ++ k₂ :: s₁).length + 1 + s₂.length = vpos at hvdrop hvpos ⊢
  -- the two NULs
  obtain ⟨b₁, l₁, hl₁⟩ : ∃ b l, s₁ ++ chr '=' ::
      (s₂ ++ ((v₁ ++ v₂ :: s₃) ++ (rest ++ 0 :: t))) = b :: l := by
    cases s₁ with
    | nil => exact ⟨_, _, rfl⟩
    | cons b s₁ => exact ⟨b, _, rfl⟩
  have hkdrop : m.drop i = (k₁ ++ [k₂]) ++ b₁ :: l₁ := by
    rw [hdrop, ← hl₁]
    simp
  obtain ⟨b₂, l₂, hl₂⟩ : ∃ b l, s₃ ++ e :: tail = b :: l := by
    cases s₃ with
    | nil => exact ⟨_, _, rfl⟩
    | cons b s₃ => exact ⟨b, _, rfl⟩
  have hvdrop' : m.drop vpos = (v₁ ++ [v₂]) ++ b₂ :: l₂ := by
    rw [hvdrop, ← hl₂]
    simp
  obtain ⟨m', hrun, hkeyStr, hvalueAt⟩ := cut_run hkdrop hvdrop' (notMem_front hkey0) hvpos
  rw [← hkey] at hkeyStr hvpos
  rw [← hvalue] at hvalueAt
  exact ⟨vpos, m', l₂, hrun, hkeyStr, hvalueAt, hvalue ▸ notMem_front hvalue0, hvpos⟩

end keyValues

section lists

variable {m t : List Byte} {i : ℕ}

/-- Pointers to the tokens, with the other strings still there. -/
def Listed (K : List (ℕ × Str)) (tokens : Except Fault (Option (List Str)))
    (result : Except Fault (Option (List ℕ) × List Byte)) : Prop :=
  match tokens with
  | .error e => result = .error e
  | .ok none => ∃ m, result = .ok (none, m) ∧ ∀ x ∈ K, HasStr m x.1 x.2
  | .ok (some us) => ∃ ps m, result = .ok (some ps, m) ∧ (∀ x ∈ K, HasStr m x.1 x.2) ∧
      List.Forall₂ (HasStr m) ps us

/-- Nothing is written before the place of the search, nor at the end of the text. -/
def Safe (m : List Byte) (i : ℕ) (s : Str) (k : ℕ) (u : Str) : Prop :=
  HasStr m k u ∧ (k + u.length < i ∨ s = [])

theorem readList_run (fuel : ℕ) {K : List (ℕ × Str)} {s : Str} {ps : List ℕ} {us : List Str}
    (h : m.drop i = s ++ 0 :: t) (hs : (0 : Byte) ∉ s) (hK : ∀ x ∈ K, Safe m i s x.1 x.2)
    (hargs : List.Forall₂ (Safe m i s) ps us) :
    Listed K (tokens fuel s us) (readList fuel i ps m) := by
  have hcolon : chr ':' ≠ 0 := by decide
  induction fuel generalizing m i s ps us with
  | zero => rfl
  | succ fuel ih =>
    have hlength := hargs.length_eq
    rw [tokens, readList]
    cases hnext : nextToken (chr ':') s with
    | none =>
      rw [bind_ok (strtok_none h hcolon hnext)]
      exact ⟨ps, m, rfl, fun x hx => (hK x hx).1, hargs.imp fun _ _ hpu => hpu.1⟩
    | some tok =>
      obtain ⟨tok, rest⟩ := tok
      obtain ⟨a, j, m', hrun, htok, hrest, hrest0, hij, hpast, hframe⟩ :=
        strtok_some h hs hcolon hnext
      have hne : s ≠ [] := by
        rintro rfl
        cases hnext
      have hkeep : ∀ k u, Safe m i s k u → Safe m' j rest k u := by
        intro k u hku
        have hlt := hku.2.resolve_right hne
        exact ⟨hframe k u hku.1 hlt, Or.inl (by omega)⟩
      rw [bind_ok hrun]
      dsimp only
      rw [hlength]
      by_cases hfull : us.length = ARGSSZ
      · rw [if_pos hfull, if_pos hfull]
        exact ⟨m', rfl, fun x hx => (hkeep _ _ (hK x hx)).1⟩
      rw [if_neg hfull, if_neg hfull]
      by_cases hroom : us.length < 8
      · rw [if_pos hroom, if_pos hroom]
        exact ih hrest hrest0 (fun x hx => hkeep _ _ (hK x hx))
          (List.rel_append (hargs.imp fun p u hpu => hkeep p u hpu)
            (List.Forall₂.cons ⟨htok, hpast⟩ List.Forall₂.nil))
      · rw [if_neg hroom, if_neg hroom]
        rfl

end lists

section readers

variable {m t : List Byte} {i : ℕ} {self : Settings} {accounts : Accounts}

/-- The result of a program, whatever it leaves in the memory. -/
def Yields {α : Type} (f : Prog α) (m : List Byte) (r : Except Fault α) : Prop :=
  (f m).map Prod.fst = r

theorem yields_bind {α β : Type} {f : Prog α} {g : α → Prog β} {m m' : List Byte} {a : α}
    {r : Except Fault β} (h : f m = .ok (a, m')) (hg : Yields (g a) m' r) :
    Yields (f >>= g) m r := by
  rw [Yields, bind_ok h]
  exact hg

theorem yields_lift {α : Type} (r : Except Fault α) (m : List Byte) : Yields (lift r) m r := by
  cases r <;> rfl

theorem yields_lift_bind {α β : Type} (r : Except Fault α) (g : α → β) (m : List Byte) :
    Yields (lift r >>= fun a => pure (g a)) m (r.map g) := by
  cases r <;> rfl

theorem yields_list {β : Type} (K : List (ℕ × Str)) {s : Str}
    {body : Option (List ℕ) → Prog β} {g : Option (List Str) → β}
    (h : m.drop i = s ++ 0 :: t) (hs : (0 : Byte) ∉ s) (hK : ∀ x ∈ K, Safe m i s x.1 x.2)
    (hnone : ∀ m, (∀ x ∈ K, HasStr m x.1 x.2) → Yields (body none) m (.ok (g none)))
    (hsome : ∀ m ps us, (∀ x ∈ K, HasStr m x.1 x.2) → List.Forall₂ (HasStr m) ps us →
      Yields (body (some ps)) m (.ok (g (some us)))) :
    Yields (readList 10 i [] >>= body) m ((tokens 10 s []).map g) := by
  have hlist := readList_run 10 h hs hK List.Forall₂.nil
  generalize tokens 10 s [] = found at hlist ⊢
  unfold Listed at hlist
  split at hlist
  · rw [Yields, bind_error hlist]
    rfl
  · obtain ⟨m', hrun, hkept⟩ := hlist
    exact yields_bind hrun (hnone m' hkept)
  · obtain ⟨ps, m', hrun, hkept, hstrs⟩ := hlist
    exact yields_bind hrun (hsome m' ps _ hkept hstrs)

/-- A line with a key and a value in the buffer. -/
structure Found (m : List Byte) (k v : ℕ) (key value : Str) (t : List Byte) : Prop where
  keyStr : HasStr m k key
  valueAt : m.drop v = value ++ 0 :: t
  noZero : (0 : Byte) ∉ value
  before : k + key.length < v

theorem Found.valueStr {k v : ℕ} {key value : Str} (h : Found m k v key value t) :
    HasStr m v value := ⟨h.noZero, t, h.valueAt⟩

/-- Every reader reports a line without key and value, and goes on with them otherwise. -/
theorem keyValue_run {body : Option (ℕ × ℕ) → Prog (Settings × List Warning)}
    {effect : Str → Str → Result} {line : Str} {c : Byte} {l : Str}
    (hnone : body none = pure (self, [.malformedLine]))
    (hsome : ∀ k v m key value t, Found m k v key value t →
      Yields (body (some (k, v))) m (effect key value))
    (h : m.drop i = line ++ 0 :: t) (h0 : (0 : Byte) ∉ line) (hline : line = c :: l)
    (hspace : isspace c = false) :
    Yields (readKeyValue i >>= body) m (match keyValue line with
      | none => .ok (self, [.malformedLine])
      | some (key, value) => effect key value) := by
  cases hkv : keyValue line with
  | none =>
    apply yields_bind (readKeyValue_none h h0 hline hspace hkv)
    rw [hnone]
    rfl
  | some kv =>
    obtain ⟨key, value⟩ := kv
    obtain ⟨v, m', t', hrun, hkey, hvalue, hzero, hlt⟩ := readKeyValue_some h h0 hline hspace hkv
    exact yields_bind hrun (hsome _ _ _ _ _ _ ⟨hkey, hvalue, hzero, hlt⟩)

section

variable {line : Str} {c : Byte} {l : Str}

theorem readServer_run (h : m.drop i = line ++ 0 :: t) (h0 : (0 : Byte) ∉ line)
    (hline : line = c :: l) (hspace : isspace c = false) :
    Yields (readServer self i) m (match keyValue line with
      | none => .ok (self, [.malformedLine])
      | some (key, value) => .ok (serverLine self key value)) := by
  refine keyValue_run rfl (fun k v m key value t hfound => ?_) h h0 hline hspace
  apply yields_bind hfound.keyStr.readStr
  apply yields_bind hfound.valueStr.readStr
  rfl

theorem readOption_run (h : m.drop i = line ++ 0 :: t) (h0 : (0 : Byte) ∉ line)
    (hline : line = c :: l) (hspace : isspace c = false) :
    Yields (readOption accounts self i) m (match keyValue line with
      | none => .ok (self, [.malformedLine])
      | some (key, value) => setOption accounts self key value) := by
  refine keyValue_run rfl (fun k v m key value t hfound => ?_) h h0 hline hspace
  apply yields_bind hfound.keyStr.readStr
  apply yields_bind hfound.valueStr.readStr
  exact yields_lift _ _

theorem readChecker_run (h : m.drop i = line ++ 0 :: t) (h0 : (0 : Byte) ∉ line)
    (hline : line = c :: l) (hspace : isspace c = false) :
    Yields (readChecker self i) m (match keyValue line with
      | none => .ok (self, [.malformedLine])
      | some (key, value) => checkerLine self key value) := by
  refine keyValue_run rfl (fun k v m key value t hfound => ?_) h h0 hline hspace
  unfold checkerLine
  have hsafe : Safe m v value k key := ⟨hfound.keyStr, Or.inl hfound.before⟩
  cases hnext : nextToken (chr ':') value with
  | none =>
    apply yields_bind (strtok_none hfound.valueAt (by decide) hnext)
    have hend : m.drop (v + value.length) = [] ++ 0 :: t := drop_add hfound.valueAt
    obtain ⟨ps, m', hrun, hkept, _⟩ := readList_run 10 (K := [(k, key)]) hend List.not_mem_nil
      (by simpa [Safe] using hfound.keyStr) List.Forall₂.nil
    apply yields_bind hrun
    apply yields_bind (hkept (k, key) List.mem_cons_self).readStr
    rfl
  | some tok =>
    obtain ⟨classname, rest⟩ := tok
    obtain ⟨a, j, m', hrun, htok, hrest, hrest0, hij, hpast, hframe⟩ :=
      strtok_some hfound.valueAt hfound.noZero (by decide) hnext
    have hbefore := hfound.before
    have hkey : Safe m' j rest k key :=
      ⟨hframe k key hfound.keyStr hbefore, Or.inl (by omega)⟩
    apply yields_bind hrun
    refine yields_list [(k, key), (a, classname)] hrest hrest0 ?_ (fun m hkept => ?_)
      (fun m ps us hkept hstrs => ?_)
    · intro x hx
      obtain rfl | rfl : x = (k, key) ∨ x = (a, classname) := by simpa using hx
      · exact hkey
      · exact ⟨htok, hpast⟩
    · apply yields_bind (hkept (k, key) (by simp)).readStr
      rfl
    · apply yields_bind (hkept (k, key) (by simp)).readStr
      apply yields_bind (hkept (a, classname) (by simp)).readStr
      apply yields_bind (HasStr.mapM_readStr hstrs)
      rfl

theorem limitKey_lt {key : Str} {n : ℕ} (h : limitKey key = some n) : n < key.length := by
  unfold limitKey at h
  split at h
  · next n' _ =>
    split at h
    · next heq =>
      obtain rfl := Option.some.inj h
      have hlength := congrArg List.length heq
      rw [List.length_drop] at hlength
      have hpos : loginFailLimit.length = 17 := rfl
      omega
    · cases h
  · cases h

theorem readRealm_run (h : m.drop i = line ++ 0 :: t) (h0 : (0 : Byte) ∉ line)
    (hline : line = c :: l) (hspace : isspace c = false) :
    Yields (readRealm self i) m (match keyValue line with
      | none => .ok (self, [.malformedLine])
      | some (key, value) => realmLine self key value) := by
  refine keyValue_run rfl (fun k v m key value t hfound => ?_) h h0 hline hspace
  apply yields_bind hfound.keyStr.readStr
  unfold realmLine
  cases hlimit : limitKey key with
  | some n =>
    have hlt := limitKey_lt hlimit
    have hbefore := hfound.before
    obtain ⟨_, t', hkey⟩ := hfound.keyStr
    obtain ⟨b, u, hb⟩ : ∃ b u, key.drop n ++ 0 :: t' = b :: u := by
      cases key.drop n with
      | nil => exact ⟨_, _, rfl⟩
      | cons b u => exact ⟨_, _, rfl⟩
    have hn : m.drop (k + n) = b :: u := by
      rw [← hb, ← List.drop_drop, hkey, List.drop_append_of_le_length (by omega)]
    have hvalue : HasStr (m.set (k + n) 0) v value :=
      ⟨hfound.noZero, t, by rw [drop_set_of_lt (by omega), hfound.valueAt]⟩
    dsimp only
    apply yields_bind (store_run hn 0)
    apply yields_bind hvalue.readStr
    exact yields_lift_bind _ _ _
  | none =>
    dsimp only
    refine yields_list [] hfound.valueAt hfound.noZero (fun _ hx => nomatch hx) (fun m _ => rfl)
      (fun m ps us _ hstrs => ?_)
    apply yields_bind (HasStr.mapM_readStr hstrs)
    rfl

/-- The name of a section is cut off and looked up. -/
theorem openName_run {a : Str} {x : Byte} {u : List Byte} {start : ℕ}
    (h : m.drop start = a ++ x :: u) (ha : (0 : Byte) ∉ a) :
    Yields (do
      store (start + a.length) 0
      let name ← readStr start
      if (str "server:").isPrefixOf name then do
        store (start + 6) 0
        lift (openSection self name)
      else lift (openSection self name)) m (openSection self a) := by
  have hdrop := drop_set h 0
  have hstr : HasStr (m.set (start + a.length) 0) start a := ⟨ha, u, hdrop⟩
  apply yields_bind (store_run (drop_add h) 0)
  apply yields_bind hstr.readStr
  split
  · next hlead =>
    obtain ⟨b, hb⟩ := List.isPrefixOf_iff_prefix.mp hlead
    have hsix : (m.set (start + a.length) 0).drop (start + 6) = chr ':' :: (b ++ 0 :: u) := by
      rw [← List.drop_drop, hdrop, ← hb]
      rfl
    apply yields_bind (store_run hsix 0)
    exact yields_lift _ _
  · exact yields_lift _ _

/-- Behind the name there are a bracket and a comment, or nothing. -/
theorem closing_run {e : Str} {stop : ℕ} {body : Prog (Settings × List Warning)} {r : Result}
    (h : m.drop stop = e ++ 0 :: t) (h0 : (0 : Byte) ∉ e) (hbody : Yields body m r) :
    Yields (do
      let lp ← scan isspace stop
      let c ← load lp
      if c ≠ chr ']' then return (self, [.malformedSection])
      else do
        let lp ← scan isspace (lp + 1)
        let c ← load lp
        if c ≠ 0 ∧ ¬ isComment c then return (self, [.malformedSection])
        else body) m
      (match e.dropWhile isspace with
      | [] => .ok (self, [.malformedSection])
      | c :: rest =>
        if c = chr ']' ∧ (rest.dropWhile isspace).head?.all isComment then r
        else .ok (self, [.malformedSection])) := by
  obtain ⟨hscan, hdrop⟩ := scan_text (p := isspace) h (Or.inl (by decide))
  apply yields_bind hscan
  have he0 : (0 : Byte) ∉ e.dropWhile isspace :=
    fun hmem => h0 ((List.dropWhile_suffix isspace).subset hmem)
  generalize stop + (e.takeWhile isspace).length = lp at hdrop
  cases hbehind : e.dropWhile isspace with
  | nil =>
    rw [hbehind] at hdrop
    apply yields_bind (load_run hdrop)
    rfl
  | cons y rest =>
    rw [hbehind] at hdrop he0
    apply yields_bind (load_run hdrop)
    dsimp only
    by_cases hy : y = chr ']'
    · rw [if_neg (by simpa using hy)]
      obtain ⟨hscan', hdrop'⟩ := scan_text (p := isspace)
        (drop_add (s := [y]) hdrop) (Or.inl (by decide))
      apply yields_bind hscan'
      have hrest0 : (0 : Byte) ∉ rest.dropWhile isspace := fun hmem =>
        he0 (List.mem_cons_of_mem _ ((List.dropWhile_suffix _).subset hmem))
      cases hlast : rest.dropWhile isspace with
      | nil =>
        rw [hlast] at hdrop'
        apply yields_bind (load_run hdrop')
        rw [if_neg (by simp), if_pos ⟨hy, rfl⟩]
        exact hbody
      | cons z v =>
        rw [hlast] at hdrop' hrest0
        have hz0 : z ≠ 0 := fun heq => hrest0 (heq ▸ List.mem_cons_self)
        apply yields_bind (load_run hdrop')
        by_cases hcomment : isComment z = true
        · rw [if_neg (fun hand => hand.2 hcomment), if_pos ⟨hy, hcomment⟩]
          exact hbody
        · rw [if_pos ⟨hz0, hcomment⟩, if_neg (fun hand => hcomment hand.2)]
          rfl
    · rw [if_pos hy, if_neg (fun hand => hy hand.1)]
      rfl

/-- The loop over the name stops within the line if the name is terminated. -/
theorem readSection_run {body : Str} (h : m.drop i = chr '[' :: body ++ 0 :: t)
    (h0 : (0 : Byte) ∉ body)
    (hterm : sectionName (chr '[' :: body) = [] ∨
      (sectionName (chr '[' :: body)).any isNameEnd) :
    Yields (readSection self i) m (sectionLine self (chr '[' :: body)) := by
  have hbody : m.drop (i + 1) = body ++ 0 :: t := drop_add (s := [chr '[']) h
  have hname : sectionName (chr '[' :: body) = body.dropWhile isspace := rfl
  have hend : (fun b => !isspace b && b != chr ']') = fun b => !isNameEnd b := by
    funext b
    rw [isNameEnd, Bool.not_or]
    rfl
  obtain ⟨hscan, hdrop⟩ := scan_text (p := isspace) hbody (Or.inl (by decide))
  have hname0 : (0 : Byte) ∉ body.dropWhile isspace :=
    fun hmem => h0 ((List.dropWhile_suffix isspace).subset hmem)
  unfold sectionLine readSection
  rw [hname] at hterm ⊢
  apply yields_bind hscan
  generalize i + 1 + (body.takeWhile isspace).length = start at hdrop
  generalize body.dropWhile isspace = name at hterm hdrop hname0
  cases name with
  | nil =>
    apply yields_bind (load_run hdrop)
    rfl
  | cons c rest =>
    apply yields_bind (load_run hdrop)
    dsimp only
    have hc0 : c ≠ 0 := fun heq => hname0 (heq ▸ List.mem_cons_self)
    by_cases hbracket : c = chr ']'
    · rw [if_pos (Or.inr hbracket), if_pos hbracket]
      rfl
    rw [if_neg (by simp [hc0, hbracket]), if_neg hbracket, hend]
    have hstop : (c :: rest).dropWhile (fun b => !isNameEnd b) ≠ [] := by
      have hany := hterm.resolve_left (List.cons_ne_nil c rest)
      obtain ⟨x, hx, hxend⟩ := List.any_eq_true.mp hany
      intro hnil
      have hall := List.dropWhile_eq_nil_iff.mp hnil x hx
      simp [hxend] at hall
    obtain ⟨hscan', hdrop'⟩ := scan_text (p := fun b => !isNameEnd b) hdrop (Or.inr hstop)
    apply yields_bind hscan'
    have ha0 : (0 : Byte) ∉ (c :: rest).takeWhile (fun b => !isNameEnd b) :=
      fun hmem => hname0 ((List.takeWhile_prefix _).subset hmem)
    have he0 : (0 : Byte) ∉ (c :: rest).dropWhile (fun b => !isNameEnd b) :=
      fun hmem => hname0 ((List.dropWhile_suffix _).subset hmem)
    have hsplit : c :: rest = (c :: rest).takeWhile (fun b => !isNameEnd b) ++
        (c :: rest).dropWhile (fun b => !isNameEnd b) := List.takeWhile_append_dropWhile.symm
    generalize (c :: rest).takeWhile (fun b => !isNameEnd b) = a at *
    generalize (c :: rest).dropWhile (fun b => !isNameEnd b) = e at *
    obtain ⟨x, u, hx⟩ : ∃ x u, e ++ 0 :: t = x :: u := by
      cases e with
      | nil => exact ⟨_, _, rfl⟩
      | cons x e => exact ⟨_, _, rfl⟩
    have hopen := @openName_run m self a x u start
      (by rw [← hx, ← List.append_assoc, ← hsplit]; exact hdrop) ha0
    exact closing_run hdrop' he0 hopen

/-- Otherwise it leaves the line, and the memory if that ends there. -/
theorem readSection_outside {body : Str} (h : m.drop i = chr '[' :: body ++ [0])
    (h0 : (0 : Byte) ∉ body)
    (hne : sectionName (chr '[' :: body) ≠ [])
    (hnot : ¬ (sectionName (chr '[' :: body)).any isNameEnd) :
    readSection self i m = .error .outside := by
  have hbody : m.drop (i + 1) = body ++ [0] := drop_add (s := [chr '[']) h
  have hname : sectionName (chr '[' :: body) = body.dropWhile isspace := rfl
  have hend : (fun b => !isspace b && b != chr ']') = fun b => !isNameEnd b := by
    funext b
    rw [isNameEnd, Bool.not_or]
    rfl
  obtain ⟨hscan, hdrop⟩ := scan_text (p := isspace) hbody (Or.inl (by decide))
  rw [hname] at hne hnot
  rw [readSection, bind_ok hscan, hend]
  generalize i + 1 + (body.takeWhile isspace).length = start at hdrop
  cases hcase : body.dropWhile isspace with
  | nil => exact absurd hcase hne
  | cons c rest =>
    have hall : ∀ b ∈ m.drop start, (!isNameEnd b) = true := by
      intro b hb
      rw [hdrop] at hb
      obtain hb | hb := List.mem_append.mp hb
      · rw [List.any_eq_true] at hnot
        by_contra hnotEnd
        exact hnot ⟨b, hb, by simpa using hnotEnd⟩
      · obtain rfl := List.mem_singleton.mp hb
        decide
    have hstart : start ≤ m.length := by
      have hlt := lt_of_drop (s := body.dropWhile isspace) (t := []) hdrop
      omega
    rw [hcase] at hdrop
    have hc := hall c (by rw [hdrop]; exact List.mem_cons_self)
    have hbracket : c ≠ chr ']' := by
      rintro rfl
      exact absurd hc (by decide)
    have hc0 : c ≠ 0 := by
      rintro rfl
      apply h0
      apply (List.dropWhile_suffix isspace).subset
      rw [hcase]
      exact List.mem_cons_self
    rw [bind_ok (load_run hdrop), if_neg (by simp [hc0, hbracket]),
      bind_error (scan_outside hall hstart)]

variable {line : Str}

/-- A line whose name is terminated has its effect whatever is behind it. -/
theorem readLine_run (h : m.drop i = line ++ 0 :: t) (h0 : (0 : Byte) ∉ line)
    (hterm : Terminated line) :
    Yields (readLine accounts self i) m (lineEffect accounts self line) := by
  obtain ⟨hscan, hdrop⟩ := scan_text (p := isspace) h (Or.inl (by decide))
  have hlp0 : (0 : Byte) ∉ line.dropWhile isspace :=
    fun hmem => h0 ((List.dropWhile_suffix _).subset hmem)
  have hhead := List.head?_dropWhile_not isspace line
  unfold Terminated at hterm
  unfold lineEffect readLine
  apply yields_bind hscan
  generalize i + (line.takeWhile isspace).length = lp at hdrop
  generalize line.dropWhile isspace = text at *
  cases text with
  | nil =>
    apply yields_bind (load_run hdrop)
    rfl
  | cons c l =>
    have hspace : isspace c = false := by simpa using hhead
    have hc0 : c ≠ 0 := fun heq => hlp0 (heq ▸ List.mem_cons_self)
    apply yields_bind (load_run hdrop)
    dsimp only
    by_cases hcomment : isComment c = true
    · rw [if_pos (Or.inr hcomment), if_pos hcomment]
      rfl
    rw [if_neg (by simp [hc0, hcomment]), if_neg hcomment]
    by_cases hbracket : c = chr '['
    · subst hbracket
      rw [if_pos rfl, if_pos rfl]
      exact readSection_run hdrop (fun hmem => hlp0 (List.mem_cons_of_mem _ hmem)) (hterm rfl)
    rw [if_neg hbracket, if_neg hbracket]
    cases hsection : self.currentSection with
    | invalid => rfl
    | «global» => exact readOption_run hdrop hlp0 rfl hspace
    | checkers => exact readChecker_run hdrop hlp0 rfl hspace
    | realms => exact readRealm_run hdrop hlp0 rfl hspace
    | server => exact readServer_run hdrop hlp0 rfl hspace

/-- In a memory that ends with the line, the other lines leave it. -/
theorem readLine_outside (h : m.drop i = line ++ [0]) (h0 : (0 : Byte) ∉ line)
    (hterm : ¬ Terminated line) : readLine accounts self i m = .error .outside := by
  obtain ⟨hscan, hdrop⟩ := scan_text (p := isspace) h (Or.inl (by decide))
  unfold Terminated at hterm
  rw [readLine, bind_ok hscan]
  generalize i + (line.takeWhile isspace).length = lp at hdrop
  have hlp0 : (0 : Byte) ∉ line.dropWhile isspace :=
    fun hmem => h0 ((List.dropWhile_suffix _).subset hmem)
  generalize line.dropWhile isspace = text at *
  rw [Classical.not_imp, not_or] at hterm
  obtain ⟨hhead, hne, hnot⟩ := hterm
  cases text with
  | nil => cases hhead
  | cons c l =>
    obtain rfl : c = chr '[' := by simpa using hhead
    rw [bind_ok (load_run hdrop), if_neg (by decide), if_pos rfl]
    exact readSection_outside hdrop (fun hmem => hlp0 (List.mem_cons_of_mem _ hmem)) hne hnot

end

end readers

/-! ### Sections, whatever is behind them -/

section sections

variable {self next : Settings} {ws : List Warning} {e : Fault}

/-- The comparison with the name of a server that has none is the only fault. -/
theorem findServer_error {name : Option Str} {servers : List CfgServer} {i : ℕ}
    (h : findServer name servers i = .error e) : e = .null := by
  induction servers generalizing i with
  | nil => cases h
  | cons s rest ih =>
    unfold findServer at h
    split at h
    · cases h
    · exact (Except.error.inj h).symm
    · split at h
      · cases h
      · exact ih h
    · exact ih h

theorem getServer_error {name : Option Str} (h : getServer self name = .error e) : e = .null := by
  unfold getServer at h
  dsimp only at h
  generalize (if name = some [] then none else name) = name' at h
  cases hfind : findServer name' self.servers 0 with
  | error e' =>
    rw [hfind] at h
    exact Except.error.inj h ▸ findServer_error hfind
  | ok found =>
    rw [hfind] at h
    cases found <;> cases h

theorem openSection_error {start : Str} (h : openSection self start = .error e) : e = .null := by
  unfold openSection at h
  repeat' split at h
  all_goals first
    | exact getServer_error h
    | cases h

theorem getServer_inv {name : Option Str} (h : getServer self name = .ok (next, ws)) :
    ∃ servers server, next = { self with servers, server } := by
  obtain ⟨found, _, h⟩ := bind_inv h
  cases found with
  | none => exact ⟨_, _, (Prod.mk.inj (Except.ok.inj h)).1.symm⟩
  | some i => exact ⟨_, _, (Prod.mk.inj (Except.ok.inj h)).1.symm⟩

/-- Opening a section changes the section and the servers. -/
theorem openSection_inv {start : Str} (h : openSection self start = .ok (next, ws)) :
    ∃ currentSection servers server,
      next = { self with currentSection, servers, server } := by
  have hserver : ∀ {name}, getServer { self with currentSection := .server } name =
      .ok (next, ws) → ∃ currentSection servers server,
        next = { self with currentSection, servers, server } := by
    intro name hget
    obtain ⟨servers, server, hnext⟩ := getServer_inv hget
    exact ⟨.server, servers, server, hnext⟩
  unfold openSection at h
  repeat' split at h
  all_goals first
    | exact hserver h
    | exact ⟨_, _, _, (Prod.mk.inj (Except.ok.inj h)).1.symm⟩

/-- What follows the bracket that opens a section is malformed or a name, unless the reader
leaves the memory. -/
theorem readSection_cases (self : Settings) (lp : ℕ) (m : List Byte) :
    readSection self lp m = .error .outside ∨
      (∃ m', readSection self lp m = .ok ((self, [.malformedSection]), m')) ∨
      ∃ start m', readSection self lp m = lift (openSection self start) m' := by
  unfold readSection
  rcases scan_cases isspace (lp + 1) m with h | ⟨start, h⟩
  · exact Or.inl (bind_error h _)
  rw [bind_ok h]
  rcases load_cases start m with h | ⟨c, h⟩
  · exact Or.inl (bind_error h _)
  rw [bind_ok h]
  split
  · exact Or.inr (Or.inl ⟨m, rfl⟩)
  rcases scan_cases (fun b => !isspace b && b != chr ']') start m with h | ⟨stop, h⟩
  · exact Or.inl (bind_error h _)
  rw [bind_ok h]
  rcases scan_cases isspace stop m with h | ⟨lp, h⟩
  · exact Or.inl (bind_error h _)
  rw [bind_ok h]
  rcases load_cases lp m with h | ⟨c, h⟩
  · exact Or.inl (bind_error h _)
  rw [bind_ok h]
  split
  · exact Or.inr (Or.inl ⟨m, rfl⟩)
  rcases scan_cases isspace (lp + 1) m with h | ⟨lp, h⟩
  · exact Or.inl (bind_error h _)
  rw [bind_ok h]
  rcases load_cases lp m with h | ⟨c, h⟩
  · exact Or.inl (bind_error h _)
  rw [bind_ok h]
  split
  · exact Or.inr (Or.inl ⟨m, rfl⟩)
  -- the name is cut off, and a second NUL takes the place of a colon in it
  rcases store_cases stop 0 m with h | h
  · exact Or.inl (bind_error h _)
  rw [bind_ok h]
  rcases readStr_cases start (m.set stop 0) with h | ⟨name, h⟩
  · exact Or.inl (bind_error h _)
  rw [bind_ok h]
  split
  · rcases store_cases (start + 6) 0 (m.set stop 0) with h | h
    · exact Or.inl (bind_error h _)
    rw [bind_ok h]
    exact Or.inr (Or.inr ⟨name, _, rfl⟩)
  · exact Or.inr (Or.inr ⟨name, _, rfl⟩)

theorem readSection_inv {lp : ℕ} {r : Settings × List Warning} {m m' : List Byte}
    (h : readSection self lp m = .ok (r, m')) :
    r = (self, [.malformedSection]) ∨ ∃ start, openSection self start = .ok r := by
  rcases readSection_cases self lp m with hcase | ⟨_, hcase⟩ | ⟨start, m₁, hcase⟩
  · rw [hcase] at h
    cases h
  · rw [hcase] at h
    exact Or.inl (Prod.mk.inj (Except.ok.inj h)).1.symm
  · rw [hcase] at h
    obtain ⟨r', hopen, heq⟩ := map_inv h
    obtain ⟨rfl, _⟩ := Prod.mk.inj heq
    exact Or.inr ⟨start, hopen⟩

theorem readSection_error {lp : ℕ} {m : List Byte} (h : readSection self lp m = .error e) :
    e = .outside ∨ e = .null := by
  rcases readSection_cases self lp m with hcase | ⟨_, hcase⟩ | ⟨start, m', hcase⟩
  · rw [hcase] at h
    exact Or.inl (Except.error.inj h).symm
  · rw [hcase] at h
    cases h
  · rw [hcase] at h
    exact Or.inr (openSection_error (map_error_inv h))

/-- A line that begins with a bracket is left to the reader of sections. -/
theorem readLine_header {accounts : Accounts} {m t : List Byte} {i : ℕ} {line : Str}
    (h : m.drop i = line ++ 0 :: t)
    (hheader : (line.dropWhile isspace).head? = some (chr '[')) :
    readLine accounts self i m = readSection self (i + (line.takeWhile isspace).length) m := by
  obtain ⟨hscan, hdrop⟩ := scan_text (p := isspace) h (Or.inl (by decide))
  cases hlp : line.dropWhile isspace with
  | nil =>
    rw [hlp] at hheader
    cases hheader
  | cons c body =>
    rw [hlp] at hheader hdrop
    obtain rfl := Option.some.inj hheader
    rw [readLine, bind_ok hscan, bind_ok (load_run hdrop), if_neg (by decide), if_pos rfl]

end sections

end Swad.ConfigLines
