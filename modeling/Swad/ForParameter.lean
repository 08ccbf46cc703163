import Swad.ProxyTrust

/-!
The search for the for parameter of an element. A semicolon and a backslash that count make
the next byte not count, so a byte counts if it stands behind an even number of them; the
search cuts the text at the semicolons that count, quoted or not. What it selects is compared
with the value of the parameter as a place of the text.
-/
namespace Swad.ForParameter

open Bytes Util Proxylist ProxyTrust

/-- The new start and length of the entry, as an offset and a length; none if it is empty. -/
def stripFrom (entry : Str) (quote esc : Bool) (comp i : ℕ) : Str → Option (ℕ × ℕ)
  | [] =>
    if comp < entry.length ∧ startsWithFor (entry.drop comp) = true then
      some (comp + 4, entry.length - (comp + 4))
    else none
  | c :: rest =>
    if esc then stripFrom entry quote false comp (i + 1) rest
    else if c = chr '"' then stripFrom entry (!quote) false comp (i + 1) rest
    else if c = chr '\\' then stripFrom entry quote true comp (i + 1) rest
    else if c = chr ';' then
      if quote = false ∧ startsWithFor ((entry.take i).drop comp) = true then
        some (comp + 4, i - (comp + 4))
      else
        match rest with
        | [] => none
        | _ :: rest => stripFrom entry quote false (i + 1) (i + 2) rest
    else stripFrom entry quote false comp (i + 1) rest

def stripAt (entry : Str) : Option (ℕ × ℕ) := stripFrom entry false false 0 0 entry

/-! ### Bytes that count -/

def skipping (c : Byte) : Bool := c == chr ';' || c == chr '\\'

/-- Whether a byte behind the text does not count. -/
def skips (s : Str) : Bool := (s.reverse.takeWhile skipping).length % 2 == 1

def markAt (s : Str) (i : ℕ) : Bool := s[i]? == some (chr '"') && !skips (s.take i)

/-- Whether an odd number of quotes that count stands in the text. -/
def inQuotes (s : Str) : Bool := ((List.range s.length).filter (markAt s)).length % 2 == 1

/-- A semicolon that counts. -/
def Cut (text : Str) (m : ℕ) : Prop :=
  text[m]? = some (chr ';') ∧ skips (text.take m) = false

/-- A part between two cuts that is taken for the parameter: it begins like it, and it is the
last part or ends outside of what the quotes enclose. -/
structure Taken (text : Str) (p q : ℕ) : Prop where
  start : p = 0 ∨ ∃ m, p = m + 1 ∧ Cut text m
  le : p ≤ q
  inside : ∀ m, p ≤ m → m < q → ¬ Cut text m
  begins : startsWithFor ((text.take q).drop p) = true
  stop : q = text.length ∨ (Cut text q ∧ inQuotes (text.take q) = false)

section bytes

variable {text s : Str} {c : Byte} {i p q : ℕ}

theorem skips_append (s : Str) (c : Byte) :
    skips (s ++ [c]) = (skipping c && !skips s) := by
  unfold skips
  rw [List.reverse_append, List.reverse_singleton, List.singleton_append]
  by_cases h : skipping c = true
  · rw [List.takeWhile_cons_of_pos h, List.length_cons, odd_succ, h, Bool.true_and]
  · rw [List.takeWhile_cons_of_neg h, Bool.eq_false_iff.mpr h]
    rfl

theorem inQuotes_append (s : Str) (c : Byte) :
    inQuotes (s ++ [c]) = (inQuotes s ^^ (c == chr '"' && !skips s)) := by
  have hbefore : (List.range s.length).filter (markAt (s ++ [c])) =
      (List.range s.length).filter (markAt s) := by
    apply List.filter_congr
    intro i hi
    have hlt := List.mem_range.mp hi
    unfold markAt
    rw [List.getElem?_append_left hlt, List.take_append_of_le_length (Nat.le_of_lt hlt)]
  have hlast : markAt (s ++ [c]) s.length = (c == chr '"' && !skips s) := by
    unfold markAt
    rw [List.getElem?_concat_length, List.take_left]
    rfl
  unfold inQuotes
  rw [List.length_append, List.length_singleton, List.range_succ, List.filter_append, hbefore,
    List.filter_singleton, hlast, List.length_append]
  cases (c == chr '"' && !skips s) with
  | false => rw [Bool.xor_false, cond_false, List.length_nil, Nat.add_zero]
  | true => rw [Bool.xor_true, cond_true, List.length_singleton, odd_succ]

theorem take_succ_of (h : text[i]? = some c) : text.take (i + 1) = text.take i ++ [c] := by
  rw [List.take_add_one, h]
  rfl

end bytes

section search

variable {text : Str} {comp i : ℕ} {quote esc : Bool}

/-- Where the search stands: in the part from `comp` on, with what the bytes before `i` say
about the next one. -/
structure Standing (text : Str) (quote esc : Bool) (comp i : ℕ) : Prop where
  start : comp = 0 ∨ ∃ m, comp = m + 1 ∧ Cut text m
  le : comp ≤ i
  inside : ∀ m, comp ≤ m → m < i → ¬ Cut text m
  esc : esc = skips (text.take i)
  quote : quote = inQuotes (text.take i)

/-- The first part from a place on that is taken. -/
def Selects (text : Str) (comp : ℕ) : Option (ℕ × ℕ) → Prop
  | none => ∀ p q, comp ≤ p → ¬ Taken text p q
  | some r => ∃ p q, Taken text p q ∧ comp ≤ p ∧ r = (p + 4, q - (p + 4)) ∧
      ∀ p' q', comp ≤ p' → Taken text p' q' → p ≤ p'

theorem startsWithFor_length {s : Str} (h : startsWithFor s = true) : 4 ≤ s.length := by
  unfold startsWithFor at h
  have hlength := congrArg List.length (beq_iff_eq.mp h)
  rw [lowerstr, List.length_map, List.length_take] at hlength
  have hfour : (str "for=").length = 4 := rfl
  omega

theorem Taken.length {p q : ℕ} (h : Taken text p q) : p + 4 ≤ q ∧ q ≤ text.length := by
  have hlength := startsWithFor_length h.begins
  rw [List.length_drop, List.length_take] at hlength
  rcases h.stop with hstop | hstop
  · omega
  · obtain ⟨hlt, _⟩ := List.getElem?_eq_some_iff.mp hstop.1.1
    omega

/-- Nothing that starts within a part is taken but the part itself. -/
theorem Standing.part (h : Standing text quote esc comp i)
    (hend : i = text.length ∨ Cut text i) {p q : ℕ} (hp : comp ≤ p) (hpi : p ≤ i)
    (htaken : Taken text p q) : p = comp ∧ q = i := by
  have hfour := htaken.length
  have hstart : p = comp := by
    rcases htaken.start with hzero | ⟨m, hm, hcut⟩
    · omega
    · by_contra hne
      exact h.inside m (by omega) (by omega) hcut
  have hle : q ≤ i := by
    rcases hend with hend | hend
    · omega
    · by_contra hlt
      exact htaken.inside i (by omega) (by omega) hend
  have hge : i ≤ q := by
    rcases htaken.stop with hstop | hstop
    · have := htaken.le
      rcases hend with hend | hend
      · omega
      · obtain ⟨hlt, _⟩ := List.getElem?_eq_some_iff.mp hend.1
        omega
    · by_contra hlt
      exact h.inside q (by omega) (by omega) hstop.1
  exact ⟨hstart, by omega⟩

/-- One more byte that is no cut. -/
theorem Standing.next (h : Standing text quote esc comp i) {c : Byte} (hc : text[i]? = some c)
    (hcut : ¬ Cut text i) {quote' esc' : Bool} (hquote : quote' = (quote ^^ (c == chr '"' && !esc)))
    (hesc : esc' = (skipping c && !esc)) : Standing text quote' esc' comp (i + 1) := by
  refine ⟨h.start, Nat.le_succ_of_le h.le, ?_, ?_, ?_⟩
  · intro m hm hlt
    by_cases heq : m = i
    · rw [heq]
      exact hcut
    · exact h.inside m hm (by omega)
  · rw [take_succ_of hc, skips_append, ← h.esc, hesc]
  · rw [take_succ_of hc, inQuotes_append, ← h.esc, ← h.quote, hquote]

theorem not_cut_of_ne {c : Byte} (hc : text[i]? = some c) (hne : c ≠ chr ';') : ¬ Cut text i := by
  intro hcut
  rw [Cut, hc] at hcut
  exact hne (Option.some.inj hcut.1)

theorem Standing.not_cut (h : Standing text quote true comp i) : ¬ Cut text i := by
  intro hcut
  rw [Cut, ← h.esc] at hcut
  exact absurd hcut.2 (by decide)

/-- A byte that does not count. -/
theorem Standing.skip (h : Standing text quote true comp i) {c : Byte} (hc : text[i]? = some c) :
    Standing text quote false comp (i + 1) :=
  h.next hc h.not_cut (by rw [Bool.not_true, Bool.and_false, Bool.xor_false])
    (by rw [Bool.not_true, Bool.and_false])

theorem Standing.cut (h : Standing text quote esc comp i) (hcut : Cut text i) :
    Standing text quote true (i + 1) (i + 1) := by
  refine ⟨Or.inr ⟨i, rfl, hcut⟩, Nat.le_refl _, fun m hm hlt => by omega, ?_, ?_⟩
  · rw [take_succ_of hcut.1, skips_append, hcut.2]
    rfl
  · rw [take_succ_of hcut.1, inQuotes_append, h.quote, show (chr ';' == chr '"') = false from rfl,
      Bool.false_and, Bool.xor_false]

theorem Standing.not_taken (h : Standing text quote esc comp i) (hcut : Cut text i)
    (hfor : ¬ (quote = false ∧ startsWithFor ((text.take i).drop comp) = true)) :
    ¬ Taken text comp i := by
  intro htaken
  rcases htaken.stop with hstop | hstop
  · obtain ⟨hlt, _⟩ := List.getElem?_eq_some_iff.mp hcut.1
    omega
  · exact hfor ⟨h.quote.trans hstop.2, htaken.begins⟩

/-- A part that is not taken is left behind. -/
theorem Selects.skip {r : Option (ℕ × ℕ)} (h : Standing text quote esc comp i)
    (hcut : Cut text i) (hnot : ¬ Taken text comp i) (hrest : Selects text (i + 1) r) :
    Selects text comp r := by
  have hlater {p q : ℕ} (hp : comp ≤ p) (htaken : Taken text p q) : i + 1 ≤ p := by
    by_contra hlt
    obtain ⟨rfl, rfl⟩ := h.part (Or.inr hcut) hp (by omega) htaken
    exact hnot htaken
  cases r with
  | none => exact fun p q hp htaken => hrest p q (hlater hp htaken) htaken
  | some r =>
    obtain ⟨p, q, htaken, hp, hr, hfirst⟩ := hrest
    have hle := h.le
    exact ⟨p, q, htaken, by omega, hr, fun p' q' hp' ht => hfirst p' q' (hlater hp' ht) ht⟩

theorem drop_cons {c : Byte} {rest : Str} (h : c :: rest = text.drop i) :
    text[i]? = some c ∧ rest = text.drop (i + 1) := by
  constructor
  · have hget : (text.drop i)[0]? = some c := by rw [← h]; rfl
    rwa [List.getElem?_drop, Nat.add_zero] at hget
  · rw [← List.tail_drop, ← h, List.tail_cons]

/-- The last part is taken if it begins like the parameter. -/
theorem Standing.last (h : Standing text quote esc comp text.length)
    (hfor : startsWithFor (text.drop comp) = true) : Taken text comp text.length :=
  ⟨h.start, h.le, h.inside, by rw [List.take_length]; exact hfor, Or.inl rfl⟩

theorem Standing.selects_last (h : Standing text quote esc comp text.length)
    (hnot : ¬ Taken text comp text.length) : Selects text comp none := by
  intro p q hp htaken
  have hlength := htaken.length
  obtain ⟨rfl, rfl⟩ := h.part (Or.inl rfl) hp (by omega) htaken
  exact hnot htaken

theorem stripFrom_selects (rest : Str) (hrest : rest = text.drop i) (hi : i ≤ text.length)
    (h : Standing text quote esc comp i) :
    Selects text comp (stripFrom text quote esc comp i rest) := by
  fun_induction stripFrom text quote esc comp i rest with
  | case1 quote esc comp i hfor =>
    obtain rfl : i = text.length := Nat.le_antisymm hi (List.drop_eq_nil_iff.mp hrest.symm)
    exact ⟨comp, text.length, h.last hfor.2, Nat.le_refl _, rfl, fun p q hp _ => hp⟩
  | case2 quote esc comp i hfor =>
    obtain rfl : i = text.length := Nat.le_antisymm hi (List.drop_eq_nil_iff.mp hrest.symm)
    apply h.selects_last
    intro htaken
    have hlength := htaken.length
    have hbegins := htaken.begins
    rw [List.take_length] at hbegins
    exact hfor ⟨by omega, hbegins⟩
  | case3 quote comp i c rest ih =>
    obtain ⟨hc, hrest'⟩ := drop_cons hrest
    obtain ⟨hlt, _⟩ := List.getElem?_eq_some_iff.mp hc
    exact ih hrest' hlt (h.skip hc)
  | case4 quote esc comp i rest hesc ih =>
    obtain ⟨hc, hrest'⟩ := drop_cons hrest
    obtain ⟨hlt, _⟩ := List.getElem?_eq_some_iff.mp hc
    rw [Bool.eq_false_iff.mpr hesc] at h
    refine ih hrest' hlt (h.next hc (not_cut_of_ne hc (by decide)) ?_ rfl)
    exact (Bool.xor_true quote).symm
  | case5 quote esc comp i rest hesc hquote ih =>
    obtain ⟨hc, hrest'⟩ := drop_cons hrest
    obtain ⟨hlt, _⟩ := List.getElem?_eq_some_iff.mp hc
    rw [Bool.eq_false_iff.mpr hesc] at h
    refine ih hrest' hlt (h.next hc (not_cut_of_ne hc (by decide)) ?_ rfl)
    exact (Bool.xor_false quote).symm
  | case6 quote esc comp i rest hesc hfor hquote hback =>
    obtain ⟨hc, hrest'⟩ := drop_cons hrest
    have hcut : Cut text i := ⟨hc, by rw [← h.esc]; exact Bool.eq_false_iff.mpr hesc⟩
    have htaken : Taken text comp i :=
      ⟨h.start, h.le, h.inside, hfor.2, Or.inr ⟨hcut, by rw [← h.quote]; exact hfor.1⟩⟩
    exact ⟨comp, i, htaken, Nat.le_refl _, rfl, fun p q hp _ => hp⟩
  | case7 quote esc comp i hesc hfor hquote hback =>
    obtain ⟨hc, hrest'⟩ := drop_cons hrest
    have hcut : Cut text i := ⟨hc, by rw [← h.esc]; exact Bool.eq_false_iff.mpr hesc⟩
    refine Selects.skip h hcut (h.not_taken hcut hfor) ?_
    intro p q hp htaken
    have hlength := htaken.length
    have hend : text.length ≤ i + 1 := List.drop_eq_nil_iff.mp hrest'.symm
    omega
  | case8 quote esc comp i hesc hfor head rest hquote hback ih =>
    obtain ⟨hc, hrest'⟩ := drop_cons hrest
    obtain ⟨hd, hrest''⟩ := drop_cons hrest'
    obtain ⟨hlt, _⟩ := List.getElem?_eq_some_iff.mp hd
    have hcut : Cut text i := ⟨hc, by rw [← h.esc]; exact Bool.eq_false_iff.mpr hesc⟩
    refine Selects.skip h hcut (h.not_taken hcut hfor) ?_
    exact ih hrest'' hlt ((h.cut hcut).skip hd)
  | case9 quote esc comp i c rest hesc hquote hback hsemi ih =>
    obtain ⟨hc, hrest'⟩ := drop_cons hrest
    obtain ⟨hlt, _⟩ := List.getElem?_eq_some_iff.mp hc
    rw [Bool.eq_false_iff.mpr hesc] at h
    refine ih hrest' hlt (h.next hc (not_cut_of_ne hc hsemi) ?_ ?_)
    · rw [beq_false_of_ne hquote, Bool.false_and, Bool.xor_false]
    · rw [skipping, beq_false_of_ne hsemi, beq_false_of_ne hback]
      rfl

/-- The search selects the first part that is taken. -/
theorem stripAt_selects (text : Str) : Selects text 0 (stripAt text) :=
  stripFrom_selects text List.drop_zero.symm (Nat.zero_le _)
    ⟨Or.inl rfl, Nat.le_refl _, fun m _ hm => absurd hm (Nat.not_lt_zero m), rfl, rfl⟩

/-- The text at the place that is selected. -/
def textAt (text : Str) (r : ℕ × ℕ) : Str := (text.drop r.1).take r.2

theorem part_succ {c : Byte} (hc : text[i]? = some c) (hle : comp ≤ i) :
    (text.take i).drop comp ++ [c] = (text.take (i + 1)).drop comp := by
  obtain ⟨hlt, _⟩ := List.getElem?_eq_some_iff.mp hc
  rw [take_succ_of hc, List.drop_append_of_le_length]
  rw [List.length_take]
  omega

theorem stripLoop_cut (quote : Bool) (comp rest : Str) :
    stripLoop false quote comp (chr ';' :: rest) =
      if (!quote && startsWithFor comp) = true then some (comp.drop 4)
      else
        match rest with
        | [] => none
        | d :: rest => stripLoop false quote [d] rest := by
  rw [stripLoop.eq_def]
  rfl

theorem not_stops (h : ¬ (quote = false ∧ startsWithFor ((text.take i).drop comp) = true)) :
    ¬ (!quote && startsWithFor ((text.take i).drop comp)) = true := by
  rw [Bool.and_eq_true, Bool.not_eq_true']
  exact h

theorem stripLoop_eq (rest : Str) (hrest : rest = text.drop i) (hi : i ≤ text.length)
    (hle : comp ≤ i) :
    stripLoop esc quote ((text.take i).drop comp) rest =
      (stripFrom text quote esc comp i rest).map (textAt text) := by
  fun_induction stripFrom text quote esc comp i rest with
  | case1 quote esc comp i hfor =>
    obtain rfl : i = text.length := Nat.le_antisymm hi (List.drop_eq_nil_iff.mp hrest.symm)
    rw [stripLoop, List.take_length, if_pos hfor.2, Option.map_some, textAt, List.drop_drop,
      List.take_of_length_le (by rw [List.length_drop])]
  | case2 quote esc comp i hfor =>
    obtain rfl : i = text.length := Nat.le_antisymm hi (List.drop_eq_nil_iff.mp hrest.symm)
    rw [stripLoop, List.take_length, if_neg]
    · rfl
    · intro hstart
      have hlength := startsWithFor_length hstart
      rw [List.length_drop] at hlength
      exact hfor ⟨by omega, hstart⟩
  | case3 quote comp i c rest ih =>
    obtain ⟨hc, hrest'⟩ := drop_cons hrest
    obtain ⟨hlt, _⟩ := List.getElem?_eq_some_iff.mp hc
    rw [stripLoop_esc, part_succ hc hle]
    exact ih hrest' hlt (by omega)
  | case4 quote esc comp i rest hesc ih =>
    obtain ⟨hc, hrest'⟩ := drop_cons hrest
    obtain ⟨hlt, _⟩ := List.getElem?_eq_some_iff.mp hc
    rw [Bool.eq_false_iff.mpr hesc, stripLoop_quote, part_succ hc hle]
    exact ih hrest' hlt (by omega)
  | case5 quote esc comp i rest hesc hquote ih =>
    obtain ⟨hc, hrest'⟩ := drop_cons hrest
    obtain ⟨hlt, _⟩ := List.getElem?_eq_some_iff.mp hc
    rw [Bool.eq_false_iff.mpr hesc, stripLoop_backslash, part_succ hc hle]
    exact ih hrest' hlt (by omega)
  | case6 quote esc comp i rest hesc hfor hquote hback =>
    obtain ⟨hc, hrest'⟩ := drop_cons hrest
    have hstop : (!quote && startsWithFor ((text.take i).drop comp)) = true := by
      rw [hfor.1, hfor.2]
      rfl
    rw [Bool.eq_false_iff.mpr hesc, stripLoop_cut, if_pos hstop, List.drop_drop,
      List.drop_take]
    rfl
  | case7 quote esc comp i hesc hfor hquote hback =>
    rw [Bool.eq_false_iff.mpr hesc, stripLoop_cut, if_neg (not_stops hfor)]
    rfl
  | case8 quote esc comp i hesc hfor head rest hquote hback ih =>
    obtain ⟨hc, hrest'⟩ := drop_cons hrest
    obtain ⟨hd, hrest''⟩ := drop_cons hrest'
    obtain ⟨hlt, _⟩ := List.getElem?_eq_some_iff.mp hd
    have hone : [head] = (text.take (i + 2)).drop (i + 1) := by
      rw [← part_succ hd (Nat.le_refl _), List.drop_eq_nil_iff.mpr (List.length_take_le _ _)]
      rfl
    rw [Bool.eq_false_iff.mpr hesc, stripLoop_cut, if_neg (not_stops hfor)]
    dsimp only
    rw [hone]
    exact ih hrest'' hlt (by omega)
  | case9 quote esc comp i c rest hesc hquote hback hsemi ih =>
    obtain ⟨hc, hrest'⟩ := drop_cons hrest
    obtain ⟨hlt, _⟩ := List.getElem?_eq_some_iff.mp hc
    rw [Bool.eq_false_iff.mpr hesc, stripLoop_byte quote _ hquote hback hsemi, part_succ hc hle]
    exact ih hrest' hlt (by omega)

/-- The place that is selected holds the text that is read. -/
theorem stripRfc7239_eq (entry : Str) : stripRfc7239 entry = (stripAt entry).map (textAt entry) :=
  @stripLoop_eq entry 0 0 false false entry List.drop_zero.symm (Nat.zero_le _) (Nat.le_refl 0)

end search

/-! ### Elements -/

/-- The text of pairs with semicolons between them; some pairs are empty. -/
def renderPairs : List (Option Pair) → Str
  | [] => []
  | pair :: pairs => renderOpt pair ++ pairs.flatMap (fun p => chr ';' :: renderOpt p)

def isForPair (pair : Option Pair) : Bool := pair.any fun q => isFor q.name

structure WellFormed (pairs : List (Option Pair)) : Prop where
  valid : ∀ pair ∈ pairs, ∀ q ∈ pair, q.Valid
  once : pairs.countP isForPair ≤ 1

/-- The place of the value of the for parameter. -/
def forAt (offset : ℕ) : List (Option Pair) → Option (ℕ × ℕ)
  | [] => none
  | none :: pairs => forAt (offset + 1) pairs
  | some q :: pairs =>
    if isFor q.name then some (offset + 4, q.value.render.length)
    else forAt (offset + q.render.length + 1) pairs

/-- The text in front of the pair that follows. -/
def front (before : List (Option Pair)) : Str :=
  before.flatMap fun pair => renderOpt pair ++ [chr ';']

def behind (after : List (Option Pair)) : Str :=
  after.flatMap fun pair => chr ';' :: renderOpt pair

/-- The part from the start of the for parameter to its end is the first one that is taken:
the semicolon in front of it counts, its value has no semicolon without a backslash, quotes
are balanced when another pair follows, and no part before it is taken. -/
structure Found (before : List (Option Pair)) (q : Pair) (after : List (Option Pair)) : Prop where
  aligned : before = [] ∨ skips (front before) = true
  value : ∀ chars, q.value = .quoted chars → ∀ c ∈ chars, c.byte = chr ';' → c.esc = true
  balanced : after = [] ∨ inQuotes (front before) = false
  first : ∀ p e, p < (front before).length →
    ¬ Taken (renderPairs (before ++ some q :: after)) p e

def Clear (pairs : List (Option Pair)) : Prop :=
  (∀ before q after, pairs = before ++ some q :: after → isFor q.name = true →
    Found before q after) ∧
  ((∀ pair ∈ pairs, isForPair pair = false) → ∀ p e, ¬ Taken (renderPairs pairs) p e)

section elements

variable {pairs before after : List (Option Pair)} {q : Pair} {s w u v : Str}

theorem renderPairs_cons (pair : Option Pair) (pairs : List (Option Pair)) :
    renderPairs (pair :: pairs) = renderOpt pair ++ behind pairs := rfl

theorem behind_eq (pair : Option Pair) (pairs : List (Option Pair)) :
    behind (pair :: pairs) = chr ';' :: renderPairs (pair :: pairs) := rfl

theorem renderPairs_split (before : List (Option Pair)) (q : Pair) (after : List (Option Pair)) :
    renderPairs (before ++ some q :: after) = front before ++ q.render ++ behind after := by
  induction before with
  | nil => rfl
  | cons pair before ih =>
    have hcons : front (pair :: before) = renderOpt pair ++ (chr ';' :: front before) := by
      unfold front
      rw [List.flatMap_cons, List.append_assoc]
      rfl
    have hmore : behind (before ++ some q :: after) =
        chr ';' :: renderPairs (before ++ some q :: after) := by
      cases before with
      | nil => rfl
      | cons pair' before => rfl
    rw [List.cons_append, renderPairs_cons, hmore, ih, hcons]
    simp only [List.append_assoc, List.cons_append]

theorem forAt_none (offset : ℕ) (h : ∀ pair ∈ pairs, isForPair pair = false) :
    forAt offset pairs = none := by
  induction pairs generalizing offset with
  | nil => rfl
  | cons pair pairs ih =>
    obtain ⟨hpair, hpairs⟩ := List.forall_mem_cons.mp h
    cases pair with
    | none => exact ih (offset + 1) hpairs
    | some q =>
      have hq : ¬ isFor q.name = true := Bool.eq_false_iff.mp hpair
      rw [forAt, if_neg hq]
      exact ih _ hpairs

theorem forAt_split (h : ∀ pair ∈ before, isForPair pair = false) (hq : isFor q.name = true)
    (offset : ℕ) (after : List (Option Pair)) :
    forAt offset (before ++ some q :: after) =
      some (offset + (front before).length + 4, q.value.render.length) := by
  induction before generalizing offset with
  | nil =>
    rw [List.nil_append, forAt, if_pos hq]
    rfl
  | cons pair before ih =>
    obtain ⟨hpair, hbefore⟩ := List.forall_mem_cons.mp h
    have hlength : (front (pair :: before)).length =
        (renderOpt pair).length + 1 + (front before).length := by
      unfold front
      rw [List.flatMap_cons, List.length_append, List.length_append]
      rfl
    cases pair with
    | none =>
      rw [List.cons_append, forAt, ih hbefore, hlength]
      congr 2
      show offset + 1 + (front before).length + 4 = offset + (0 + 1 + (front before).length) + 4
      omega
    | some r =>
      have hr : ¬ isFor r.name = true := Bool.eq_false_iff.mp hpair
      rw [List.cons_append, forAt, if_neg hr, ih hbefore, hlength]
      congr 2
      show offset + r.render.length + 1 + (front before).length + 4 =
        offset + (r.render.length + 1 + (front before).length) + 4
      omega

/-- The bytes in front of a text and how the text changes what they say: it has no cut, the
byte behind it counts, and it toggles the quotes or not. -/
structure Steady (s w : Str) (toggles : Bool) : Prop where
  noCut : ∀ u v, w = u ++ chr ';' :: v → skips (s ++ u) = true
  counts : skips (s ++ w) = false
  quotes : inQuotes (s ++ w) = (inQuotes s ^^ toggles)

theorem Steady.append {a b : Bool} (h : Steady s w a) {w' : Str} (h' : Steady (s ++ w) w' b) :
    Steady s (w ++ w') (a ^^ b) := by
  refine ⟨?_, ?_, ?_⟩
  · intro u v huv
    rcases List.append_eq_append_iff.mp huv with ⟨u', hu, hv⟩ | ⟨v', hw, hv⟩
    · rw [hu, ← List.append_assoc]
      exact h'.noCut u' v hv
    · cases v' with
      | nil =>
        rw [List.append_nil] at hw
        have hskips := h'.noCut [] v hv.symm
        rw [List.append_nil, hw] at hskips
        exact hskips
      | cons c v' =>
        obtain ⟨rfl, rfl⟩ := List.cons.inj hv
        exact h.noCut u v' hw
  · rw [← List.append_assoc]
    exact h'.counts
  · rw [← List.append_assoc, h'.quotes, h.quotes, Bool.xor_assoc]

theorem Steady.inside {a : Bool} (h : Steady s w a) (t : Str) {m : ℕ} (hm : s.length ≤ m)
    (hlt : m < s.length + w.length) : ¬ Cut (s ++ w ++ t) m := by
  intro hcut
  obtain ⟨hget, hskips⟩ := hcut
  have hw : w[m - s.length]? = some (chr ';') := by
    rw [List.append_assoc, List.getElem?_append_right hm, List.getElem?_append_left (by omega)]
      at hget
    exact hget
  obtain ⟨hi, hi'⟩ := List.getElem?_eq_some_iff.mp hw
  have hsplit : w = w.take (m - s.length) ++ chr ';' :: w.drop (m - s.length + 1) := by
    rw [← hi', ← List.drop_eq_getElem_cons, List.take_append_drop]
  have htake : (s ++ w ++ t).take m = s ++ w.take (m - s.length) := by
    rw [List.append_assoc, List.take_append, List.take_of_length_le hm,
      List.take_append_of_le_length (Nat.le_of_lt hi)]
  rw [htake, h.noCut _ _ hsplit] at hskips
  cases hskips

theorem steady_byte (s : Str) {c : Byte} (hquote : c ≠ chr '"') (hback : c ≠ chr '\\')
    (hsemi : c ≠ chr ';') : Steady s [c] false := by
  refine ⟨?_, ?_, ?_⟩
  · intro u v huv
    cases u with
    | nil => exact absurd (List.cons.inj huv).1 hsemi
    | cons d u => exact absurd (List.cons.inj huv).2 (by simp)
  · rw [skips_append, skipping, beq_false_of_ne hsemi, beq_false_of_ne hback]
    rfl
  · rw [inQuotes_append, beq_false_of_ne hquote]
    rfl

theorem steady_quote (h : skips s = false) : Steady s [chr '"'] true := by
  refine ⟨?_, ?_, ?_⟩
  · intro u v huv
    cases u with
    | nil => exact absurd (List.cons.inj huv).1 (by decide)
    | cons d u => exact absurd (List.cons.inj huv).2 (by simp)
  · rw [skips_append]
    rfl
  · rw [inQuotes_append, h]
    rfl

theorem steady_escaped (h : skips s = false) (c : Byte) : Steady s [chr '\\', c] false := by
  have hskips : skips (s ++ [chr '\\']) = true := by
    rw [skips_append, h]
    rfl
  have hsplit : s ++ [chr '\\', c] = s ++ [chr '\\'] ++ [c] := by
    rw [List.append_assoc]
    rfl
  refine ⟨?_, ?_, ?_⟩
  · intro u v huv
    cases u with
    | nil => exact absurd (List.cons.inj huv).1 (by decide)
    | cons d u =>
      obtain ⟨rfl, hrest⟩ := List.cons.inj huv
      cases u with
      | nil => exact hskips
      | cons e u => exact absurd (List.cons.inj hrest).2 (by simp)
  · rw [hsplit, skips_append, hskips, Bool.not_true, Bool.and_false]
  · rw [hsplit, inQuotes_append, inQuotes_append, hskips, Bool.not_true, Bool.and_false,
      show (chr '\\' == chr '"') = false from rfl, Bool.false_and, Bool.xor_false]

/-- Bytes of which none is special. -/
theorem steady_plain (s : Str) (hne : w ≠ [])
    (h : ∀ c ∈ w, c ≠ chr '"' ∧ c ≠ chr '\\' ∧ c ≠ chr ';') : Steady s w false := by
  induction w generalizing s with
  | nil => exact absurd rfl hne
  | cons c w ih =>
    obtain ⟨hc, hrest⟩ := List.forall_mem_cons.mp h
    have hone := steady_byte s hc.1 hc.2.1 hc.2.2
    by_cases hw : w = []
    · rw [hw]
      exact hone
    · exact hone.append (ih (s ++ [c]) hw hrest)

theorem IsToken.steady (h : IsToken w) (s : Str) : Steady s w false := by
  apply steady_plain s h.1
  intro c hc
  exact ⟨isTchar_ne (h.2 c hc) (by decide), isTchar_ne (h.2 c hc) (by decide),
    isTchar_ne (h.2 c hc) (by decide)⟩

theorem steady_nil (h : skips s = false) : Steady s [] false := by
  refine ⟨fun u v huv => ?_, ?_, ?_⟩
  · exact absurd huv.symm (List.append_ne_nil_of_right_ne_nil u (List.cons_ne_nil _ v))
  · rw [List.append_nil]
    exact h
  · rw [List.append_nil, Bool.xor_false]

/-- The inside of a quoted string, up to a semicolon without a backslash. -/
theorem steady_chars (chars : List QChar) (h : skips s = false) (hvalid : ∀ c ∈ chars, c.Valid)
    (hsemi : ∀ c ∈ chars, c.byte = chr ';' → c.esc = true) :
    Steady s (chars.flatMap QChar.render) false := by
  induction chars generalizing s with
  | nil => exact steady_nil h
  | cons c chars ih =>
    obtain ⟨hc, hchars⟩ := List.forall_mem_cons.mp hvalid
    obtain ⟨hcs, hcharss⟩ := List.forall_mem_cons.mp hsemi
    have hone : Steady s c.render false := by
      unfold QChar.render
      by_cases hesc : c.esc = true
      · rw [if_pos hesc]
        exact steady_escaped h c.byte
      · obtain ⟨hquote, hback⟩ := hc.resolve_left hesc
        rw [if_neg hesc]
        exact steady_byte s hquote hback fun heq => hesc (hcs heq)
    rw [List.flatMap_cons]
    exact hone.append (ih hone.counts hchars hcharss)

/-- A name and the sign behind it. -/
theorem steady_name {name : Str} (h : IsToken name) (s : Str) :
    Steady s (name ++ [chr '=']) false :=
  (IsToken.steady h s).append (steady_byte _ (by decide) (by decide) (by decide))

theorem Pair.steady (hq : q.Valid)
    (hvalue : ∀ chars, q.value = .quoted chars → ∀ c ∈ chars, c.byte = chr ';' → c.esc = true)
    (s : Str) : Steady s q.render false := by
  have hname := steady_name hq.1 s
  have hrender : q.render = (q.name ++ [chr '=']) ++ q.value.render := by
    rw [Pair.render, List.append_assoc]
    rfl
  rw [hrender]
  have hvalid := hq.2
  cases hcase : q.value with
  | token t =>
    rw [hcase] at hvalid
    exact hname.append (IsToken.steady hvalid _)
  | quoted chars =>
    rw [hcase] at hvalid
    have hopen := steady_quote hname.counts
    have hbody := steady_chars chars hopen.counts hvalid (hvalue chars hcase)
    exact hname.append (hopen.append (hbody.append (steady_quote hbody.counts)))

def unescaped (c : QChar) : Bool := c.byte == chr ';' && !c.esc

/-- The first semicolon without a backslash is a cut within the value. -/
theorem Pair.cut (hq : q.Valid) {chars : List QChar} (hvalue : q.value = .quoted chars)
    {c : QChar} (hc : c ∈ chars) (hbyte : c.byte = chr ';') (hesc : c.esc = false) (s : Str) :
    ∃ u v, q.render = u ++ chr ';' :: v ∧ skips (s ++ u) = false := by
  have hvalid := hq.2
  rw [hvalue] at hvalid
  obtain ⟨pre, d, post, hchars, hd, hpre⟩ : ∃ pre d post, chars = pre ++ d :: post ∧
      (d.byte = chr ';' ∧ d.esc = false) ∧ ∀ x ∈ pre, x.byte = chr ';' → x.esc = true := by
    have hsome : (chars.find? unescaped).isSome = true := by
      rw [List.find?_isSome]
      exact ⟨c, hc, by rw [unescaped, hbyte, hesc]; rfl⟩
    obtain ⟨d, hfind⟩ := Option.isSome_iff_exists.mp hsome
    obtain ⟨hd, pre, post, hchars, hpre⟩ := List.find?_eq_some_iff_append.mp hfind
    refine ⟨pre, d, post, hchars, by simpa [unescaped] using hd, ?_⟩
    intro x hx hsemi
    have hnot := hpre x hx
    rw [unescaped, hsemi] at hnot
    simpa using hnot
  have hlead : ∀ x ∈ pre, x.Valid := by
    intro x hx
    apply hvalid
    rw [hchars]
    exact List.mem_append_left _ hx
  have hname := steady_name hq.1 s
  have hopen := steady_quote hname.counts
  have hbody := steady_chars pre hopen.counts hlead hpre
  refine ⟨q.name ++ [chr '='] ++ ([chr '"'] ++ pre.flatMap QChar.render),
    post.flatMap QChar.render ++ [chr '"'], ?_, ?_⟩
  · have hdrender : d.render = [chr ';'] := by
      rw [QChar.render, hd.2, hd.1]
      rfl
    rw [Pair.render, hvalue, Value.render, hchars, List.flatMap_append, List.flatMap_cons, hdrender]
    simp only [List.append_assoc, List.cons_append, List.nil_append]
  · exact (hname.append (hopen.append hbody)).counts

theorem cut_append (s w : Str) : Cut (s ++ chr ';' :: w) s.length ↔ skips s = false := by
  unfold Cut
  rw [List.getElem?_append_right (Nat.le_refl _), Nat.sub_self, List.take_left]
  exact and_iff_right rfl

theorem front_nil (h : before = []) : front before = [] := by
  rw [h]
  rfl

/-- A text in front of a pair ends with a semicolon. -/
theorem front_append (h : before ≠ []) : ∃ s, front before = s ++ [chr ';'] := by
  rw [← List.dropLast_append_getLast h]
  unfold front
  rw [List.flatMap_append, List.flatMap_singleton, ← List.append_assoc]
  exact ⟨_, rfl⟩

/-- What stands in front of a pair is the start of a part exactly if its semicolon counts. -/
theorem start_iff (before : List (Option Pair)) (w : Str) :
    ((front before).length = 0 ∨ ∃ m, (front before).length = m + 1 ∧ Cut (front before ++ w) m) ↔
      (before = [] ∨ skips (front before) = true) := by
  by_cases hnil : before = []
  · rw [front_nil hnil]
    exact ⟨fun _ => Or.inl hnil, fun _ => Or.inl rfl⟩
  · obtain ⟨s, hs⟩ := front_append hnil
    have hcut : Cut (front before ++ w) s.length ↔ skips s = false := by
      rw [hs, List.append_assoc]
      exact cut_append s w
    have hskips : skips (front before) = !skips s := by
      rw [hs, skips_append]
      rfl
    have hlength : (front before).length = s.length + 1 := by
      rw [hs, List.length_append]
      rfl
    rw [hskips, Bool.not_eq_true', ← hcut, hlength]
    constructor
    · intro h
      rcases h with h | ⟨m, hm, hcutm⟩
      · cases h
      · rw [Nat.succ.inj hm]
        exact Or.inr hcutm
    · intro h
      exact Or.inr ⟨s.length, rfl, h.resolve_left hnil⟩

theorem Taken.unique {text : Str} {p e e' : ℕ} (h : Taken text p e) (h' : Taken text p e') :
    e = e' := by
  have key {e e' : ℕ} (h : Taken text p e) (h' : Taken text p e') : e ≤ e' := by
    have hlength := h.length
    rcases h'.stop with hstop | hstop
    · omega
    · by_contra hlt
      exact h.inside e' h'.le (by omega) hstop.1
  exact Nat.le_antisymm (key h h') (key h' h)

theorem render_length (hfor : isFor q.name = true) :
    q.render.length = 4 + q.value.render.length := by
  have hname : (lowerstr q.name).length = 3 := congrArg List.length (beq_iff_eq.mp hfor)
  rw [lowerstr, List.length_map] at hname
  rw [Pair.render, List.length_append, List.length_cons, hname]
  omega

theorem part_eq (s r w : Str) : ((s ++ r ++ w).take (s.length + r.length)).drop s.length = r := by
  rw [← List.length_append, List.take_left, List.drop_left]

/-- The pair itself is taken in exactly one case. -/
theorem taken_pair (hq : q.Valid) (hfor : isFor q.name = true)
    (before after : List (Option Pair)) :
    Taken (front before ++ q.render ++ behind after) (front before).length
        ((front before).length + q.render.length) ↔
      (before = [] ∨ skips (front before) = true) ∧
        (∀ chars, q.value = .quoted chars → ∀ c ∈ chars, c.byte = chr ';' → c.esc = true) ∧
        (after = [] ∨ inQuotes (front before) = false) := by
  have hstart := start_iff before (q.render ++ behind after)
  rw [← List.append_assoc] at hstart
  have hbegins : startsWithFor q.render = true := by
    rw [Pair.render, startsWithFor_pair hq.1]
    exact hfor
  have hend : (front before).length + q.render.length = (front before ++ q.render).length :=
    List.length_append.symm
  have htext {w : Str} : (front before ++ q.render ++ w).take
      ((front before).length + q.render.length) = front before ++ q.render := by
    rw [hend, List.take_left]
  constructor
  · intro h
    have hvalue : ∀ chars, q.value = .quoted chars → ∀ c ∈ chars, c.byte = chr ';' →
        c.esc = true := by
      intro chars hchars c hc hbyte
      by_contra hesc
      obtain ⟨u, v, huv, hskips⟩ :=
        Pair.cut hq hchars hc hbyte (Bool.eq_false_iff.mpr hesc) (front before)
      apply h.inside (front before ++ u).length
      · rw [List.length_append]
        omega
      · rw [huv, List.length_append, List.length_append, List.length_cons]
        omega
      · rw [huv, ← List.append_assoc, List.append_assoc]
        exact (cut_append _ _).mpr hskips
    refine ⟨hstart.mp h.start, hvalue, ?_⟩
    rcases h.stop with hstop | hstop
    · left
      cases after with
      | nil => rfl
      | cons pair after =>
        rw [hend, List.length_append] at hstop
        rw [behind_eq, List.length_append, List.length_cons] at hstop
        omega
    · right
      have hquotes := hstop.2
      rw [htext, (Pair.steady hq hvalue _).quotes, Bool.xor_false] at hquotes
      exact hquotes
  · rintro ⟨haligned, hvalue, hbalanced⟩
    have hsteady := Pair.steady hq hvalue (front before)
    refine ⟨hstart.mpr haligned, Nat.le_add_right _ _, ?_, ?_, ?_⟩
    · exact fun m => hsteady.inside (behind after)
    · rw [part_eq]
      exact hbegins
    · cases after with
      | nil =>
        left
        rw [behind, List.flatMap_nil, List.append_nil, List.length_append]
      | cons pair after =>
        right
        have hcut : Cut (front before ++ q.render ++ behind (pair :: after))
            (front before ++ q.render).length := by
          rw [behind_eq]
          exact (cut_append _ _).mpr hsteady.counts
        rw [htext, hsteady.quotes, Bool.xor_false, hend]
        exact ⟨hcut, hbalanced.resolve_left (List.cons_ne_nil _ _)⟩

/-- The place of a pair's value is selected exactly if the pair is the first part taken. -/
theorem selects_pair_iff {text : Str} {p n : ℕ} :
    stripAt text = some (p + 4, n) ↔
      Taken text p (p + 4 + n) ∧ ∀ p' e, p' < p → ¬ Taken text p' e := by
  have hselects := stripAt_selects text
  constructor
  · intro h
    rw [h] at hselects
    obtain ⟨p', e, htaken, -, hr, hfirst⟩ := hselects
    have hlength := htaken.length
    obtain ⟨hp, hn⟩ := Prod.mk.inj hr
    have hpe : p' = p := by omega
    have he : e = p + 4 + n := by omega
    rw [hpe, he] at htaken
    rw [hpe] at hfirst
    exact ⟨htaken, fun p' e hlt ht => absurd (hfirst p' e (Nat.zero_le _) ht) (by omega)⟩
  · intro ⟨htaken, hnone⟩
    cases hr : stripAt text with
    | none =>
      rw [hr] at hselects
      exact absurd htaken (hselects p _ (Nat.zero_le p))
    | some r =>
      rw [hr] at hselects
      obtain ⟨p', e, htaken', -, hr', hfirst⟩ := hselects
      have hle := hfirst p _ (Nat.zero_le p) htaken
      have hge : ¬ p' < p := fun hlt => hnone p' e hlt htaken'
      have hp : p' = p := by omega
      rw [hp] at htaken'
      rw [hr', hp, htaken'.unique htaken]
      congr 2
      omega

theorem selects_none_iff {text : Str} : stripAt text = none ↔ ∀ p e, ¬ Taken text p e := by
  have hselects := stripAt_selects text
  constructor
  · intro h
    rw [h] at hselects
    exact fun p e => hselects p e (Nat.zero_le p)
  · intro hnone
    cases hr : stripAt text with
    | none => rfl
    | some r =>
      rw [hr] at hselects
      obtain ⟨p, e, htaken, -⟩ := hselects
      exact absurd htaken (hnone p e)

/-- An element has no for parameter, or one that splits it. -/
theorem for_cases (pairs : List (Option Pair)) :
    (∀ pair ∈ pairs, isForPair pair = false) ∨
      ∃ before q after, pairs = before ++ some q :: after ∧ isFor q.name = true ∧
        ∀ pair ∈ before, isForPair pair = false := by
  by_cases hany : pairs.find? isForPair = none
  · left
    intro pair hpair
    exact Bool.eq_false_iff.mpr (List.find?_eq_none.mp hany pair hpair)
  · right
    obtain ⟨pair, hfind⟩ := Option.ne_none_iff_exists'.mp hany
    obtain ⟨hpair, before, after, hsplit, hbefore⟩ := List.find?_eq_some_iff_append.mp hfind
    obtain ⟨q, rfl, hq⟩ := (Option.any_eq_true _ _).mp hpair
    exact ⟨before, q, after, hsplit, hq, fun p hp => by simpa using hbefore p hp⟩

theorem found_iff (h : WellFormed (before ++ some q :: after)) (hfor : isFor q.name = true) :
    stripAt (renderPairs (before ++ some q :: after)) =
        some ((front before).length + 4, q.value.render.length) ↔
      Found before q after := by
  have hq : q.Valid := h.valid (some q) (List.mem_append_right _ List.mem_cons_self) q rfl
  have hpair := taken_pair hq hfor before after
  rw [render_length hfor, ← Nat.add_assoc, ← renderPairs_split] at hpair
  rw [selects_pair_iff, hpair]
  constructor
  · intro ⟨⟨haligned, hvalue, hbalanced⟩, hfirst⟩
    exact ⟨haligned, hvalue, hbalanced, hfirst⟩
  · intro hfound
    exact ⟨⟨hfound.aligned, hfound.value, hfound.balanced⟩, hfound.first⟩

theorem WellFormed.not_two {mid : List (Option Pair)} {q' : Pair}
    (h : WellFormed (before ++ some q :: (mid ++ some q' :: after))) (hq : isFor q.name = true)
    (hq' : isFor q'.name = true) : False := by
  have hpair : isForPair (some q) = true := hq
  have hpair' : isForPair (some q') = true := hq'
  have honce := h.once
  rw [List.countP_append, List.countP_cons_of_pos hpair, List.countP_append,
    List.countP_cons_of_pos hpair'] at honce
  omega

/-- The split at the for parameter is the only one. -/
theorem WellFormed.split_unique {q' : Pair} {before' after' : List (Option Pair)}
    (h : WellFormed (before ++ some q :: after))
    (hsplit : before ++ some q :: after = before' ++ some q' :: after')
    (hq : isFor q.name = true) (hq' : isFor q'.name = true) :
    before = before' ∧ q = q' ∧ after = after' := by
  rcases List.append_eq_append_iff.mp hsplit with ⟨mid, hbefore, hcons⟩ | ⟨mid, hbefore, hcons⟩
  · cases mid with
    | nil =>
      obtain ⟨hqq, hafter⟩ := List.cons.inj hcons
      exact ⟨by rw [hbefore, List.append_nil], Option.some.inj hqq, hafter⟩
    | cons pair mid =>
      rw [(List.cons.inj hcons).2] at h
      exact absurd (h.not_two hq hq') id
  · cases mid with
    | nil =>
      obtain ⟨hqq, hafter⟩ := List.cons.inj hcons
      exact ⟨by rw [hbefore, List.append_nil], (Option.some.inj hqq).symm, hafter.symm⟩
    | cons pair mid =>
      obtain ⟨hpair, hafter'⟩ := List.cons.inj hcons
      rw [hsplit, hafter'] at h
      exact absurd (h.not_two hq' hq) id

/-- The search selects the value of the for parameter, and nothing if there is none, in
exactly one case. -/
theorem selects_for_iff (h : WellFormed pairs) :
    stripAt (renderPairs pairs) = forAt 0 pairs ↔ Clear pairs := by
  rcases for_cases pairs with hnone | ⟨before, q, after, rfl, hq, hbefore⟩
  · rw [forAt_none 0 hnone, selects_none_iff]
    refine ⟨fun hempty => ⟨?_, fun _ => hempty⟩, fun hclear => hclear.2 hnone⟩
    rintro before q after rfl hq
    have hnot := hnone (some q) (List.mem_append_right _ List.mem_cons_self)
    rw [isForPair, Option.any_some, hq] at hnot
    cases hnot
  · rw [forAt_split hbefore hq, Nat.zero_add, found_iff h hq]
    refine ⟨fun hfound => ⟨?_, ?_⟩, fun hclear => hclear.1 before q after rfl hq⟩
    · intro before' q' after' hsplit hq'
      obtain ⟨rfl, rfl, rfl⟩ := h.split_unique hsplit hq hq'
      exact hfound
    · intro hnone
      have hnot := hnone (some q) (List.mem_append_right _ List.mem_cons_self)
      rw [isForPair, Option.any_some, hq] at hnot
      cases hnot

end elements

section samples

/-- A quoted value with a semicolon in front of the parameter. -/
def quotedPairs : List (Option Pair) :=
  [some ⟨str "proto", .quoted ((str "a;for=6.6.6.6").map (QChar.mk false))⟩,
    some ⟨str "for", .token (str "1.2.3.4")⟩]

/-- The parameter with another pair on each side. -/
def plainPairs : List (Option Pair) :=
  [some ⟨str "by", .token (str "proxy")⟩,
    some ⟨str "For", .quoted ((str "[::1]:80").map (QChar.mk false))⟩,
    some ⟨str "proto", .token (str "http")⟩]

instance (c : QChar) : Decidable c.Valid := inferInstanceAs (Decidable (_ ∨ _))

instance (s : Str) : Decidable (IsToken s) := inferInstanceAs (Decidable (_ ∧ _))

/-- The text in the quotes is taken for the parameter. -/
theorem quoted_text_taken :
    WellFormed quotedPairs ∧ stripAt (renderPairs quotedPairs) ≠ forAt 0 quotedPairs ∧
      stripRfc7239 (renderPairs quotedPairs) = some (str "6.6.6.6\"") := by
  refine ⟨⟨?_, by decide +kernel⟩, by decide +kernel, by decide +kernel⟩
  simp only [quotedPairs, List.forall_mem_cons, List.not_mem_nil, false_imp_iff, implies_true,
    and_true, Option.mem_some_iff, forall_eq', Pair.Valid, Value.Valid]
  decide +kernel

theorem clear_plain :
    stripAt (renderPairs plainPairs) = forAt 0 plainPairs ∧ Clear plainPairs := by
  have hwell : WellFormed plainPairs := by
    refine ⟨?_, by decide +kernel⟩
    simp only [plainPairs, List.forall_mem_cons, List.not_mem_nil, false_imp_iff, implies_true,
      and_true, Option.mem_some_iff, forall_eq', Pair.Valid, Value.Valid]
    decide +kernel
  have hselected : stripAt (renderPairs plainPairs) = forAt 0 plainPairs := by decide +kernel
  exact ⟨hselected, (selects_for_iff hwell).mp hselected⟩

end samples

end Swad.ForParameter
