import Swad.AddressNotation

/-!
Printed addresses. The scan for a gap finds a run of groups that are zero, whichever it is, and
the loop prints the groups around it, so the text is in the notation of addresses and denotes
the address that was printed.
-/
namespace Swad.PrintedAddresses

open Bytes Util Ipaddr Numerals AddressMatching AddressGrammar AddressNotation

section gaps

variable {word : List ℕ} {gap : Gap} {n i : ℕ}

/-- A run of groups that are zero, within the groups before the given one. -/
structure Zeros (word : List ℕ) (gap : Gap) (i : ℕ) : Prop where
  within : gap.start + gap.len ≤ i
  zero : ∀ k, gap.start ≤ k → k < gap.start + gap.len → word.getD k 0 = 0

/-- What the scan does with one group. -/
def scanStep (word : List ℕ) (gap : Gap) (i : ℕ) : Gap :=
  if word.getD i 0 = 0 then
    if gap.start + gap.len < i then ⟨i, 1⟩ else { gap with len := gap.len + 1 }
  else gap

theorem Zeros.step (h : Zeros word gap i) : Zeros word (scanStep word gap i) (i + 1) := by
  have hwithin := h.within
  unfold scanStep
  by_cases hzero : word.getD i 0 = 0
  · rw [if_pos hzero]
    by_cases hnew : gap.start + gap.len < i
    · rw [if_pos hnew]
      refine ⟨Nat.le_refl _, fun k hk hlt => ?_⟩
      dsimp only at hk hlt
      rw [show k = i by omega]
      exact hzero
    · rw [if_neg hnew]
      refine ⟨by dsimp only; omega, fun k hk hlt => ?_⟩
      dsimp only at hk hlt
      by_cases hlast : k = i
      · rw [hlast]
        exact hzero
      · exact h.zero k hk (by omega)
  · rw [if_neg hzero]
    exact ⟨Nat.le_succ_of_le hwithin, h.zero⟩

theorem zeros_fold (word : List ℕ) (n : ℕ) :
    Zeros word ((List.range n).foldl (scanStep word) ⟨0, 0⟩) n := by
  induction n with
  | zero => exact ⟨Nat.le_refl 0, fun k _ hlt => absurd hlt (Nat.not_lt_zero k)⟩
  | succ n ih =>
    rw [List.range_succ, List.foldl_append]
    exact ih.step

theorem zeros_scanGap (word : List ℕ) : Zeros word (scanGap word) 8 := zeros_fold word 8

end gaps

/-! ### Printed groups -/

section printing

variable {word : List ℕ} {gap : Gap} {n i : ℕ}

def group (w : ℕ) : Numeral := printed 16 w

def colonIf (needcolon : Bool) (ws : List ℕ) : Str :=
  if needcolon ∧ ws ≠ [] then [chr ':'] else []

theorem colonIf_nil (needcolon : Bool) : colonIf needcolon [] = [] := if_neg fun h => h.2 rfl

theorem colonIf_false (ws : List ℕ) : colonIf false ws = [] := if_neg fun h => by cases h.1

theorem colonIf_cons (needcolon : Bool) (w : ℕ) (ws : List ℕ) :
    colonIf needcolon (w :: ws) = if needcolon = true then str ":" else [] := by
  unfold colonIf
  by_cases h : needcolon = true
  · rw [if_pos h, if_pos ⟨h, List.cons_ne_nil _ _⟩]
    rfl
  · rw [if_neg h, if_neg fun hc => h hc.1]

theorem joined_groups (w : ℕ) (ws : List ℕ) :
    joined ':' ((w :: ws).map group) =
      hexadecimal w ++ (colonIf true ws ++ joined ':' (ws.map group)) := by
  cases ws with
  | nil =>
    show hexadecimal w = hexadecimal w ++ ([] ++ [])
    rw [List.append_nil, List.append_nil]
  | cons v ws => rfl

/-- The groups that are printed with no gap to come. -/
theorem printLoop_groups (hlength : word.length = 8) (n i : ℕ) (hn : 8 ≤ i + n)
    (hgap : ∀ j, i ≤ j → ¬ (j = gap.start ∧ 0 < gap.len)) (needcolon : Bool) :
    printLoop word gap n i needcolon =
      colonIf needcolon (word.drop i) ++ joined ':' ((word.drop i).map group) := by
  induction n generalizing i needcolon with
  | zero =>
    rw [List.drop_eq_nil_of_le (by omega), colonIf_nil]
    rfl
  | succ n ih =>
    unfold printLoop
    by_cases hend : 8 ≤ i
    · rw [if_pos hend, List.drop_eq_nil_of_le (by omega), colonIf_nil]
      rfl
    · have hlt : i < word.length := by omega
      have hget : word.getD i 0 = word[i] := by
        rw [List.getD_eq_getElem?_getD, List.getElem?_eq_getElem hlt]
        rfl
      rw [if_neg hend, if_neg (hgap i (Nat.le_refl i)), ih (i + 1) (by omega)
        (fun j hj => hgap j (by omega)) true, List.drop_eq_getElem_cons hlt, joined_groups, hget,
        colonIf_cons, List.append_assoc]

/-- The groups that are printed before the gap, and the gap. -/
theorem printLoop_gap (hlength : word.length = 8) (hlen : 0 < gap.len)
    (hwithin : gap.start + gap.len ≤ 8) (n i : ℕ) (hn : 8 ≤ i + n) (hi : i ≤ gap.start)
    (needcolon : Bool) :
    printLoop word gap n i needcolon =
      colonIf needcolon ((word.take gap.start).drop i) ++
        (joined ':' (((word.take gap.start).drop i).map group) ++
          (str "::" ++ joined ':' ((word.drop (gap.start + gap.len)).map group))) := by
  induction n generalizing i needcolon with
  | zero => omega
  | succ n ih =>
    have htake : (word.take gap.start).length = gap.start := by
      rw [List.length_take]
      omega
    unfold printLoop
    rw [if_neg (by omega)]
    by_cases hstart : i = gap.start
    · have hnone : (word.take gap.start).drop i = [] := List.drop_eq_nil_of_le (by omega)
      have hrest := @printLoop_groups word gap hlength n (i + gap.len) (by omega)
        (fun j hj hgap => by omega) false
      rw [if_pos ⟨hstart, hlen⟩, hrest, hnone, hstart, colonIf_false, colonIf_nil]
      rfl
    · have hlt : i < (word.take gap.start).length := by omega
      have hget : word.getD i 0 = (word.take gap.start)[i] := by
        rw [List.getElem_take, List.getD_eq_getElem?_getD, List.getElem?_eq_getElem (by omega)]
        rfl
      rw [if_neg fun h => hstart h.1, ih (i + 1) (by omega) (by omega) true,
        List.drop_eq_getElem_cons hlt, joined_groups, hget, colonIf_cons]
      simp only [List.append_assoc]

end printing

/-! ### Bytes of printed groups -/

section bytes

variable {data : List Byte} {word ws : List ℕ} {gap : Gap} {w : ℕ} {a : IpAddr}

def wordBytes (w : ℕ) : List Byte := [toByte ((w : ℤ) / 256), toByte ((w : ℤ) % 256)]

theorem groupBytes_group (w : ℕ) : groupBytes (group w) = wordBytes w := by
  have hvalue : (group w).value 16 = w := (printed_valid (by decide) (by decide) w).2
  unfold groupBytes wordBytes
  rw [hvalue]

theorem groups_bytes (ws : List ℕ) : (ws.map group).flatMap groupBytes = ws.flatMap wordBytes := by
  rw [List.flatMap_map]
  exact List.flatMap_congr fun w _ => groupBytes_group w

theorem wordBytes_pair (x y : Byte) : wordBytes (x.toNat * 256 + y.toNat) = [x, y] := by
  have hy : y.toNat < 256 := y.toNat_lt
  have hhigh : (((x.toNat * 256 + y.toNat : ℕ) : ℤ) / 256).toNat = x.toNat := by omega
  have hlow : (((x.toNat * 256 + y.toNat : ℕ) : ℤ) % 256).toNat = y.toNat := by omega
  unfold wordBytes toByte
  rw [hhigh, hlow, UInt8.ofNat_toNat, UInt8.ofNat_toNat]

def wordAt (data : List Byte) (i : ℕ) : ℕ :=
  (data.getD (2 * i) 0).toNat * 256 + (data.getD (2 * i + 1) 0).toNat

theorem words_take (n : ℕ) (h : 2 * n ≤ data.length) :
    (List.range n).flatMap (fun i => wordBytes (wordAt data i)) = data.take (2 * n) := by
  induction n with
  | zero => rfl
  | succ n ih =>
    have hfirst : data[2 * n]? = some (data.getD (2 * n) 0) := by
      rw [List.getD_eq_getElem?_getD, List.getElem?_eq_getElem (by omega)]
      rfl
    have hsecond : data[2 * n + 1]? = some (data.getD (2 * n + 1) 0) := by
      rw [List.getD_eq_getElem?_getD, List.getElem?_eq_getElem (by omega)]
      rfl
    rw [List.range_succ, List.flatMap_append, ih (by omega), List.flatMap_singleton,
      show 2 * (n + 1) = 2 * n + 1 + 1 by omega, List.take_add_one, List.take_add_one, hfirst,
      hsecond, List.append_assoc]
    unfold wordAt
    rw [wordBytes_pair]
    rfl

/-- The groups of sixteen bytes are the bytes. -/
theorem words_bytes (h : data.length = 16) : (words data).flatMap wordBytes = data := by
  have htake := @words_take data 8 (by omega)
  rw [List.take_of_length_le (by omega)] at htake
  unfold words
  rw [List.flatMap_map]
  exact htake

theorem words_length (data : List Byte) : (words data).length = 8 := by
  unfold words
  rw [List.length_map, List.length_range]

theorem words_le (h : w ∈ words data) : w ≤ 0xffff := by
  obtain ⟨i, -, rfl⟩ := List.mem_map.mp h
  have hx := (data.getD (2 * i) 0).toNat_lt
  have hy := (data.getD (2 * i + 1) 0).toNat_lt
  omega

theorem wordBytes_length (ws : List ℕ) : (ws.flatMap wordBytes).length = 2 * ws.length := by
  induction ws with
  | nil => rfl
  | cons w ws ih =>
    rw [List.flatMap_cons, List.length_append, ih, List.length_cons]
    show 2 + 2 * ws.length = 2 * (ws.length + 1)
    omega

theorem wordBytes_zero (n : ℕ) : (List.replicate n 0).flatMap wordBytes = List.replicate (2 * n) 0 := by
  induction n with
  | zero => rfl
  | succ n ih =>
    rw [List.replicate_succ, List.flatMap_cons, ih]
    rfl

/-- The zeros between the printed groups are the run that was left out. -/
theorem fill_gap (hdata : data.length = 16) (h : Zeros (words data) gap 8) :
    fill (((words data).take gap.start).flatMap wordBytes)
      (((words data).drop (gap.start + gap.len)).flatMap wordBytes) = data := by
  have hwithin := h.within
  have hlength := words_length data
  have hzero : ((words data).drop gap.start).take gap.len = List.replicate gap.len 0 := by
    apply List.ext_getElem
    · rw [List.length_take, List.length_drop, List.length_replicate]
      omega
    · intro k hk _
      rw [List.length_take, List.length_drop] at hk
      rw [List.getElem_take, List.getElem_drop, List.getElem_replicate]
      have hword := h.zero (gap.start + k) (by omega) (by omega)
      rwa [List.getD_eq_getElem?_getD, List.getElem?_eq_getElem (by omega)] at hword
  have hsplit : words data = (words data).take gap.start ++ (List.replicate gap.len 0 ++
      (words data).drop (gap.start + gap.len)) := by
    rw [← hzero, ← List.drop_drop, List.take_append_drop, List.take_append_drop]
  have hmiddle : 16 - (((words data).take gap.start).flatMap wordBytes).length -
      (((words data).drop (gap.start + gap.len)).flatMap wordBytes).length = 2 * gap.len := by
    rw [wordBytes_length, wordBytes_length, List.length_take, List.length_drop]
    omega
  unfold fill
  rw [hmiddle, ← wordBytes_zero, List.append_assoc, ← List.flatMap_append, ← List.flatMap_append,
    ← hsplit, words_bytes hdata]

end bytes

/-! ### Printed addresses -/

section addresses

variable {data : List Byte} {word ws : List ℕ} {a : IpAddr} {n : ℕ}

def printedGroups (word : List ℕ) : Groups :=
  if 0 < (scanGap word).len then
    ⟨(word.take (scanGap word).start).map group,
      some ((word.drop ((scanGap word).start + (scanGap word).len)).map group), false⟩
  else ⟨word.map group, none, false⟩

def printedLength (bits prefixlen : ℕ) : Option Numeral :=
  if prefixlen < bits then some (printed 10 prefixlen) else none

def printedText (a : IpAddr) : NetworkText :=
  if a.proto = .ipv4 then
    ⟨.v4 ((a.data.drop 12).map fun c => printed 10 c.toNat), printedLength 32 a.prefixlen⟩
  else ⟨.v6 (printedGroups (words a.data)), printedLength 128 a.prefixlen⟩

theorem text_printedGroups (h : word.length = 8) :
    (printedGroups word).text = printLoop word (scanGap word) 8 0 false := by
  unfold printedGroups Groups.text
  by_cases hlen : 0 < (scanGap word).len
  · have hloop := @printLoop_gap word (scanGap word) h hlen (zeros_scanGap word).within 8 0
      (by omega) (Nat.zero_le _) false
    rw [if_pos hlen, hloop, colonIf_false, List.drop_zero]
    show joined ':' _ ++ (chr ':' :: chr ':' :: joined ':' _ ++ []) = _
    rw [List.append_nil]
    rfl
  · have hloop := @printLoop_groups word (scanGap word) h 8 0 (by omega)
      (fun j _ hgap => hlen hgap.2) false
    rw [if_neg hlen, hloop, colonIf_false, List.drop_zero]
    show joined ':' _ ++ ([] ++ []) = _
    rw [List.append_nil, List.append_nil]
    rfl

theorem mem_printedGroups {m : Numeral} (h : m ∈ (printedGroups word).all) :
    ∃ w ∈ word, m = group w := by
  unfold printedGroups Groups.all at h
  split at h
  · rcases List.mem_append.mp h with h | h
    · obtain ⟨w, hw, rfl⟩ := List.mem_map.mp h
      exact ⟨w, List.mem_of_mem_take hw, rfl⟩
    · obtain ⟨w, hw, rfl⟩ := List.mem_map.mp h
      exact ⟨w, List.mem_of_mem_drop hw, rfl⟩
  · rw [Option.getD_none, List.append_nil] at h
    obtain ⟨w, hw, rfl⟩ := List.mem_map.mp h
    exact ⟨w, hw, rfl⟩

theorem group_word {w : ℕ} (h : w ≤ 0xffff) :
    Word (group w) ∧ (group w).Plain ∧ (group w).digits.length ≤ 4 := by
  obtain ⟨hvalid, hvalue⟩ := printed_valid (show 2 ≤ 16 by decide) (Nat.le_refl 16) w
  have hlength := printed_length (show 2 ≤ 16 by decide) (show 0 < 4 by decide)
    (show w < 16 ^ 4 by omega)
  exact ⟨⟨hvalid, by rw [group, hvalue]; exact h⟩, printed_plain 16 w, hlength⟩

theorem written_groups (hlength : word.length = 8) (hword : ∀ w ∈ word, w ≤ 0xffff) :
    (AddressText.v6 (printedGroups word)).Valid ∧ Written (.v6 (printedGroups word)) := by
  have hgroups : ∀ m ∈ (printedGroups word).all,
      Word m ∧ m.Plain ∧ m.digits.length ≤ 4 := by
    intro m hm
    obtain ⟨w, hw, rfl⟩ := mem_printedGroups hm
    exact group_word (hword w hw)
  have hwithin := (zeros_scanGap word).within
  have htrailing : (printedGroups word).trailing = false := by
    unfold printedGroups
    split
    · rfl
    · rfl
  have hcount : if (printedGroups word).tail = none then (printedGroups word).all.length = 8
      else (printedGroups word).all.length ≤ 7 := by
    unfold printedGroups Groups.all
    by_cases hlen : 0 < (scanGap word).len
    · rw [if_pos hlen, if_neg (Option.some_ne_none _), Option.getD_some, List.length_append,
        List.length_map, List.length_map, List.length_take, List.length_drop]
      omega
    · rw [if_neg hlen, if_pos rfl, Option.getD_none, List.append_nil, List.length_map, hlength]
  refine ⟨⟨⟨fun m hm => (hgroups m hm).1, fun h => ?_⟩, ?_⟩,
    ⟨fun m hm => (hgroups m hm).2, htrailing, hcount⟩⟩
  · rw [htrailing] at h
    cases h
  · split at hcount
    · omega
    · omega

theorem data_printedGroups (hdata : data.length = 16) :
    (AddressText.v6 (printedGroups (words data))).data = data := by
  have hwithin := (zeros_scanGap (words data)).within
  show fill ((printedGroups (words data)).head.flatMap groupBytes)
    (((printedGroups (words data)).tail.getD []).flatMap groupBytes) = data
  unfold printedGroups
  by_cases hlen : 0 < (scanGap (words data)).len
  · rw [if_pos hlen, Option.getD_some, groups_bytes, groups_bytes,
      fill_gap hdata (zeros_scanGap (words data))]
  · rw [if_neg hlen, Option.getD_none, groups_bytes, words_bytes hdata]
    unfold fill
    rw [hdata]
    show data ++ [] ++ [] = data
    rw [List.append_nil, List.append_nil]

theorem printedLength_spec (bits prefixlen : ℕ) (h : prefixlen ≤ bits) :
    (∀ m ∈ printedLength bits prefixlen, m.Valid 10 ∧ m.value 10 ≤ bits ∧ m.Plain) ∧
      ((printedLength bits prefixlen).map fun m => m.value 10).getD bits = prefixlen := by
  obtain ⟨hvalid, hvalue⟩ := printed_valid (show 2 ≤ 10 by decide) (by decide) prefixlen
  unfold printedLength
  by_cases hlt : prefixlen < bits
  · rw [if_pos hlt]
    refine ⟨?_, hvalue⟩
    intro m hm
    obtain rfl := Option.some.inj hm
    exact ⟨hvalid, by rw [hvalue]; exact h, printed_plain 10 prefixlen⟩
  · rw [if_neg hlt]
    exact ⟨fun m hm => (by cases hm), (by show bits = prefixlen; omega)⟩

theorem text_printedLength (bits prefixlen : ℕ) :
    (printedLength bits prefixlen).elim [] (fun m => chr '/' :: m.text) =
      if prefixlen < bits then chr '/' :: decimal prefixlen else [] := by
  unfold printedLength
  split
  · rfl
  · rfl

/-- The last four bytes of an IPv4 address. -/
theorem drop_twelve (h : data.length = 16) :
    data.drop 12 = [data.getD 12 0, data.getD 13 0, data.getD 14 0, data.getD 15 0] := by
  apply List.ext_getElem
  · rw [List.length_drop, h]
    rfl
  · intro i hi hi'
    rw [List.length_drop] at hi
    have hget (k : ℕ) (hk : k < data.length) : data[k] = data.getD k 0 := by
      rw [List.getD_eq_getElem?_getD, List.getElem?_eq_getElem hk]
      rfl
    rw [List.getElem_drop]
    match i, hi with
    | 0, _ => exact hget 12 (by omega)
    | 1, _ => exact hget 13 (by omega)
    | 2, _ => exact hget 14 (by omega)
    | 3, _ => exact hget 15 (by omega)
    | i + 4, hi => omega

theorem printed_byte (c : Byte) :
    Small (printed 10 c.toNat) ∧ byteOf (printed 10 c.toNat) = c := by
  obtain ⟨hvalid, hvalue⟩ := printed_valid (show 2 ≤ 10 by decide) (by decide) c.toNat
  have hc : c.toNat < 256 := c.toNat_lt
  refine ⟨⟨hvalid, by rw [hvalue]; omega⟩, ?_⟩
  unfold byteOf toByte
  rw [hvalue, Int.toNat_natCast, UInt8.ofNat_toNat]

theorem strict_v4 (h : Sound a) (hproto : a.proto = .ipv4) :
    Strict (printedText a) ∧ (printedText a).text = a.string ∧ (printedText a).addr = a := by
  obtain ⟨hle, hzero⟩ := h.ipv4 hproto
  obtain ⟨hlead, hvalue⟩ := printedLength_spec 32 a.prefixlen hle
  have hdrop := drop_twelve h.length
  unfold printedText
  rw [if_pos hproto]
  refine ⟨⟨⟨⟨?_, ?_⟩, fun m hm => ⟨(hlead m hm).1, (hlead m hm).2.1⟩⟩, ?_,
    fun m hm => (hlead m hm).2.2⟩, ?_, ?_⟩
  · rw [List.length_map, List.length_drop, h.length]
  · intro m hm
    obtain ⟨c, -, rfl⟩ := List.mem_map.mp hm
    exact (printed_byte c).1
  · intro m hm
    obtain ⟨c, -, rfl⟩ := List.mem_map.mp hm
    exact printed_plain 10 c.toNat
  · unfold NetworkText.text IpAddr.string
    rw [hproto]
    dsimp only
    rw [text_printedLength, hdrop]
    show joined '.' _ ++ _ = _
    simp only [List.map_cons, List.map_nil, joined, List.append_assoc, List.cons_append]
    rfl
  · have hbytes : ((a.data.drop 12).map fun c => printed 10 c.toNat).map byteOf = a.data.drop 12 := by
      rw [List.map_map]
      exact List.map_id'' (fun c => (printed_byte c).2) _
    have hdata : List.replicate 12 0 ++
        ((a.data.drop 12).map fun c => printed 10 c.toNat).map byteOf = a.data := by
      rw [hbytes, ← hzero, List.take_append_drop]
    show IpAddr.mk _ _ _ = a
    obtain ⟨data, prefixlen, proto⟩ := a
    exact congr (congr (congrArg IpAddr.mk hdata) hvalue) hproto.symm

theorem strict_v6 (h : Sound a) (hproto : a.proto = .ipv6) :
    Strict (printedText a) ∧ (printedText a).text = a.string ∧ (printedText a).addr = a := by
  obtain ⟨hlead, hvalue⟩ := printedLength_spec 128 a.prefixlen (h.ipv6 hproto)
  have hlength := words_length a.data
  obtain ⟨hvalid, hwritten⟩ := written_groups hlength fun w hw => words_le hw
  have hne : a.proto ≠ .ipv4 := by
    rw [hproto]
    decide
  unfold printedText
  rw [if_neg hne]
  refine ⟨⟨⟨hvalid, fun m hm => ⟨(hlead m hm).1, (hlead m hm).2.1⟩⟩, hwritten,
    fun m hm => (hlead m hm).2.2⟩, ?_, ?_⟩
  · unfold NetworkText.text IpAddr.string
    rw [hproto]
    dsimp only
    rw [text_printedLength]
    show (printedGroups (words a.data)).text ++ _ = _
    rw [text_printedGroups hlength]
  · have hdata := data_printedGroups h.length
    obtain ⟨data, prefixlen, proto⟩ := a
    exact congr (congr (congrArg IpAddr.mk hdata) hvalue) hproto.symm

/-- The text of an address is in the notation and denotes the address. -/
theorem strict_printed (h : Sound a) :
    Strict (printedText a) ∧ (printedText a).text = a.string ∧ (printedText a).addr = a := by
  rcases h.proto with hproto | hproto
  · exact strict_v4 h hproto
  · exact strict_v6 h hproto

/-- A limit for the numbers limits the text. -/
theorem joined_length_le {sep : Char} {ns : List Numeral} {k : ℕ} (hne : ns ≠ [])
    (h : ∀ m ∈ ns, m.text.length ≤ k) : (joined sep ns).length + 1 ≤ (k + 1) * ns.length := by
  induction ns with
  | nil => exact absurd rfl hne
  | cons m ns ih =>
    obtain ⟨hm, hns⟩ := List.forall_mem_cons.mp h
    by_cases hnil : ns = []
    · rw [hnil]
      show m.text.length + 1 ≤ (k + 1) * 1
      omega
    · have hrest := ih hnil hns
      rw [joined_cons hnil, List.length_append, List.length_cons, List.length_cons, Nat.mul_succ]
      omega

theorem written_length {g : Groups} (h : Written (.v6 g)) : g.text.length ≤ 39 := by
  obtain ⟨hgroups, htrailing, hcount⟩ := h
  have hshort : ∀ m ∈ g.all, m.text.length ≤ 4 := by
    intro m hm
    rw [plain_text (hgroups m hm).1]
    exact (hgroups m hm).2
  have hjoined (ms : List Numeral) (hms : ∀ m ∈ ms, m ∈ g.all) :
      (joined ':' ms).length ≤ 5 * ms.length := by
    by_cases hnil : ms = []
    · rw [hnil]
      exact Nat.zero_le _
    · have hle := @joined_length_le ':' ms 4 hnil fun m hm => hshort m (hms m hm)
      omega
  have hhead := hjoined g.head fun m hm => List.mem_append_left _ hm
  unfold Groups.text
  rw [htrailing, List.length_append, List.length_append]
  cases htail : g.tail with
  | none =>
    unfold Groups.all at hcount hshort
    rw [htail, if_pos rfl, Option.getD_none, List.append_nil] at hcount
    rw [htail, Option.getD_none, List.append_nil] at hshort
    have hne : g.head ≠ [] := fun hnil => by rw [hnil] at hcount; cases hcount
    have hle := @joined_length_le ':' g.head 4 hne hshort
    show (joined ':' g.head).length + 0 ≤ 39
    omega
  | some ms =>
    have htailLength := hjoined ms fun m hm => by
      refine List.mem_append_right _ ?_
      rw [htail]
      exact hm
    unfold Groups.all at hcount
    rw [htail, if_neg (Option.some_ne_none ms), Option.getD_some, List.length_append] at hcount
    show (joined ':' g.head).length + ((joined ':' ms).length + 1 + 1 + 0) ≤ 39
    omega

theorem printedLength_length (bits prefixlen : ℕ) (h : bits ≤ 128) :
    ((printedLength bits prefixlen).elim [] (fun m => chr '/' :: m.text)).length ≤ 4 := by
  unfold printedLength
  by_cases hlt : prefixlen < bits
  · have hdigits := printed_length (show 2 ≤ 10 by decide) (show 0 < 3 by decide)
      (show prefixlen < 10 ^ 3 by omega)
    rw [if_pos hlt]
    show (printed 10 prefixlen).text.length + 1 ≤ 4
    omega
  · rw [if_neg hlt]
    exact Nat.zero_le 4

/-- The text and the NUL behind it fit the buffer. -/
theorem string_length (h : Sound a) : a.string.length ≤ 43 := by
  obtain ⟨hstrict, htext, -⟩ := strict_printed h
  have haddress := hstrict.address
  rw [← htext]
  unfold NetworkText.text
  unfold printedText at haddress ⊢
  by_cases hproto : a.proto = .ipv4
  · have hlen := printedLength_length 32 a.prefixlen (by decide)
    have hne : ((a.data.drop 12).map fun c => printed 10 c.toNat) ≠ [] := by
      intro hnil
      have hlength := congrArg List.length hnil
      rw [List.length_map, List.length_drop, h.length] at hlength
      cases hlength
    have hjoined := @joined_length_le '.' _ 3 hne (by
      intro m hm
      obtain ⟨c, -, rfl⟩ := List.mem_map.mp hm
      have hc : c.toNat < 256 := c.toNat_lt
      exact printed_length (by decide) (by decide) (by omega))
    rw [List.length_map, List.length_drop, h.length] at hjoined
    rw [if_pos hproto, List.length_append]
    exact Nat.le_trans (Nat.add_le_add (Nat.le_of_lt_succ hjoined) hlen) (by decide)
  · have hlen := printedLength_length 128 a.prefixlen (Nat.le_refl 128)
    rw [if_neg hproto] at haddress
    have hgroups := written_length haddress
    rw [if_neg hproto, List.length_append]
    exact Nat.add_le_add hgroups hlen

end addresses

/-- The addresses that the program can have. -/
inductive Obtained : IpAddr → Prop
  | created (s : Str) (a : IpAddr) (h : IpAddr.create s = some a) : Obtained a
  | mapped (self : IpAddr) (prefixes : List IpAddr) (a : IpAddr) (hself : Obtained self)
      (hprefixes : ∀ p ∈ prefixes, Obtained p) (h : self.nat64 prefixes = some a) : Obtained a

/-- Every address of the program is sound. -/
theorem Obtained.sound {a : IpAddr} (h : Obtained a) : Sound a := by
  induction h with
  | created s a h => exact sound_create h
  | mapped address prefixes a hself hprefixes h ih =>
    unfold IpAddr.nat64 at h
    split at h
    · cases h
    split at h
    · obtain rfl := Option.some.inj h
      refine ⟨Or.inl rfl, ?_, fun _ => ⟨Nat.le_refl 32, rfl⟩, fun hproto => by cases hproto⟩
      show (List.replicate 12 0 ++ address.data.drop 12).length = 16
      rw [List.length_append, List.length_drop, ih.length]
      rfl
    · cases h

/-- A printed address is read back as the same address, and its text fits the buffer. -/
theorem printed_read {a : IpAddr} (h : Obtained a) :
    (∃ b, IpAddr.create a.string = some b ∧ b.equals a = true) ∧ a.string.length + 1 ≤ 44 := by
  obtain ⟨hstrict, htext, haddr⟩ := strict_printed h.sound
  have hlength := string_length h.sound
  rw [← htext] at hlength
  have hcreate := create_of_strict hstrict hlength
  rw [htext] at hcreate hlength
  refine ⟨⟨_, hcreate, ?_⟩, Nat.succ_le_succ hlength⟩
  unfold IpAddr.equals
  rw [haddr, beq_self_eq_true, beq_self_eq_true, beq_self_eq_true]
  rfl

section samples

/-- An address with two gaps, of which the last one is left out. -/
theorem gaps_read :
    ∃ a, IpAddr.create (str "0:0:1:0:0:0:0:2/64") = some a ∧ a.string = str "0:0:1::2/64" ∧
      ((∃ b, IpAddr.create a.string = some b ∧ b.equals a = true) ∧ a.string.length + 1 ≤ 44) := by
  have hcreate : IpAddr.create (str "0:0:1:0:0:0:0:2/64") =
      some ⟨[0, 0, 0, 0, 0, 1, 0, 0, 0, 0, 0, 0, 0, 0, 0, 2], 64, .ipv6⟩ := by decide +kernel
  exact ⟨_, hcreate, by decide +kernel, printed_read (.created _ _ hcreate)⟩

end samples

end Swad.PrintedAddresses
