import Swad.AddressMatching
import Swad.Numerals

/-!
The texts that are read as addresses, and which address each of them is read as. The loop over
the groups of an IPv6 address reads one group after the other and passes a colon behind it, so
a text is followed group by group.
-/
namespace Swad.AddressGrammar

open Bytes Util Ipaddr Numerals

/-! ### Texts -/

/-- Numbers with a separator between them. -/
def joined (sep : Char) : List Numeral → Str
  | [] => []
  | [n] => n.text
  | n :: m :: ns => n.text ++ chr sep :: joined sep (m :: ns)

/-- The groups of an IPv6 address, those behind the gap if there is one, and whether a colon
stands at the end. -/
structure Groups where
  head : List Numeral
  tail : Option (List Numeral)
  trailing : Bool

def gapText (tail : Option (List Numeral)) : Str :=
  tail.elim [] fun ns => chr ':' :: chr ':' :: joined ':' ns

def colonText (trailing : Bool) : Str := if trailing then [chr ':'] else []

def Groups.text (self : Groups) : Str :=
  joined ':' self.head ++ (gapText self.tail ++ colonText self.trailing)

def Groups.all (self : Groups) : List Numeral := self.head ++ self.tail.getD []

/-- Numbers of two bytes; a colon at the end follows a number. -/
structure Fine (g : Groups) : Prop where
  numbers : ∀ n ∈ g.all, n.Valid 16 ∧ n.value 16 ≤ 0xffff
  trailing : g.trailing = true → g.tail.getD g.head ≠ []

def groupBytes (n : Numeral) : List Byte :=
  [toByte ((n.value 16 : ℤ) / 256), toByte ((n.value 16 : ℤ) % 256)]

inductive AddressText
  | v4 (numbers : List Numeral)
  | v6 (groups : Groups)

def AddressText.text : AddressText → Str
  | v4 ns => joined '.' ns
  | v6 g => g.text

def AddressText.Valid : AddressText → Prop
  | v4 ns => ns.length = 4 ∧ ∀ n ∈ ns, n.Valid 10 ∧ n.value 10 ≤ 255
  | v6 g => Fine g ∧ g.all.length ≤ 8

def AddressText.data : AddressText → List Byte
  | v4 ns => List.replicate 12 0 ++ ns.map fun n => toByte (n.value 10 : ℤ)
  | v6 g => fill (g.head.flatMap groupBytes) ((g.tail.getD []).flatMap groupBytes)

def AddressText.bits : AddressText → ℕ
  | v4 _ => 32
  | v6 _ => 128

def AddressText.proto : AddressText → Proto
  | v4 _ => .ipv4
  | v6 _ => .ipv6

/-- An address with a prefix length or without. -/
structure NetworkText where
  address : AddressText
  prefixlen : Option Numeral

def NetworkText.text (self : NetworkText) : Str :=
  self.address.text ++ self.prefixlen.elim [] fun n => chr '/' :: n.text

structure NetworkText.Valid (t : NetworkText) : Prop where
  address : t.address.Valid
  prefixlen : ∀ n ∈ t.prefixlen, n.Valid 10 ∧ n.value 10 ≤ t.address.bits

def NetworkText.addr (self : NetworkText) : IpAddr where
  data := self.address.data
  prefixlen := (self.prefixlen.map fun n => n.value 10).getD self.address.bits
  proto := self.address.proto

section numbers

variable {sep : Char} {base : ℕ} {n : Numeral} {ns : List Numeral} {s rest : Str} {c : Byte}

theorem joined_cons (h : ns ≠ []) : joined sep (n :: ns) = n.text ++ chr sep :: joined sep ns := by
  cases ns with
  | nil => exact absurd rfl h
  | cons m ns => rfl

/-- A character of a number. -/
theorem mem_text (hbase : base ≤ 16) (hn : n.Valid base) (hc : c ∈ n.text) :
    isspace c = true ∨ c = chr '+' ∨ c = chr '-' ∨ digitVal c < 16 ∨ tolower c = chr 'x' := by
  unfold Numeral.text at hc
  simp only [List.mem_append] at hc
  rcases hc with hc | hc | hc | hc
  · exact Or.inl (hn.blanks c hc)
  · rcases hn.sign with h | h | h
    · rw [h] at hc
      cases hc
    · rw [h] at hc
      exact Or.inr (Or.inl (List.mem_singleton.mp hc))
    · rw [h.1] at hc
      exact Or.inr (Or.inr (Or.inl (List.mem_singleton.mp hc)))
  · rcases hn.mark with h | ⟨-, x, h, hx⟩
    · rw [h] at hc
      cases hc
    · rw [h] at hc
      rcases List.mem_pair.mp hc with rfl | rfl
      · exact Or.inr (Or.inr (Or.inr (Or.inl (by decide))))
      · exact Or.inr (Or.inr (Or.inr (Or.inr hx)))
  · have := hn.digits c hc
    exact Or.inr (Or.inr (Or.inr (Or.inl (by omega))))

theorem text_plain (hbase : base ≤ 16) (hn : n.Valid base) (hc : c ∈ n.text) :
    c ≠ chr '/' ∧ c ≠ chr ':' ∧ c ≠ chr '.' := by
  rcases mem_text hbase hn hc with h | rfl | rfl | h | h
  · exact blank_plain c h
  · decide
  · decide
  · exact (digit_plain c h).2.2.2.2
  · exact (mark_plain c h).2

theorem text_ne_nil (hn : n.Valid base) : n.text ≠ [] := by
  unfold Numeral.text
  intro h
  have := (List.append_eq_nil_iff.mp (List.append_eq_nil_iff.mp (List.append_eq_nil_iff.mp h).2).2).2
  exact hn.some this

theorem exists_first (hbase : base ≤ 16) (hn : n.Valid base) :
    ∃ c s, n.text = c :: s ∧ c ≠ chr ':' := by
  cases htext : n.text with
  | nil => exact absurd htext (text_ne_nil hn)
  | cons c s =>
    have hc : c ∈ n.text := by
      rw [htext]
      exact List.mem_cons_self
    exact ⟨c, s, rfl, (text_plain hbase hn hc).2.1⟩

theorem ends_nil : Ends [] := fun c hc => by cases hc

theorem ends_cons (hc : c = chr ':' ∨ c = chr '.') (s : Str) : Ends (c :: s) := by
  intro d hd
  obtain rfl := Option.some.inj hd
  rcases hc with rfl | rfl
  · decide
  · decide

/-- Whether a number within the limit is read, and what it is. -/
theorem reads_numeral (hbase : base ≤ 16) (hn : n.Valid base) (hrest : Ends rest) {limit : ℤ}
    (hlimit : limit ≤ LLONG_MAX) (hvalue : (n.value base : ℤ) ≤ limit) :
    strtol base (n.text ++ rest) = ⟨n.value base, rest, false⟩ ∧ rest ≠ n.text ++ rest := by
  refine ⟨strtol_numeral hbase hn hrest (by omega), fun h => ?_⟩
  have hlength := congrArg List.length h
  rw [List.length_append] at hlength
  exact text_ne_nil hn (List.length_eq_zero_iff.mp (by omega))

end numbers

/-! ### Four numbers with dots -/

section dots

variable {n : Numeral} {ns : List Numeral} {buf : Str} {bytes : List Byte}

def byteOf (n : Numeral) : Byte := toByte (n.value 10 : ℤ)

def Small (n : Numeral) : Prop := n.Valid 10 ∧ n.value 10 ≤ 255

theorem parsev4Loop_last (hn : Small n) : parsev4Loop 1 n.text = some [byteOf n] := by
  have hle : (n.value 10 : ℤ) ≤ 255 := Int.ofNat_le.mpr hn.2
  obtain ⟨hread, hne⟩ := reads_numeral (by decide) hn.1 ends_nil (by decide) hle
  rw [List.append_nil] at hread hne
  unfold parsev4Loop
  rw [hread]
  dsimp only
  rw [if_neg, if_pos rfl, if_pos rfl]
  · rfl
  · rintro (h | h | h | h)
    · exact hne h
    · exact Bool.false_ne_true h
    · omega
    · omega

theorem parsev4Loop_more (hn : Small n) (k : ℕ) (rest : Str) :
    parsev4Loop (k + 2) (n.text ++ chr '.' :: rest) =
      (parsev4Loop (k + 1) rest).map (byteOf n :: ·) := by
  have hle : (n.value 10 : ℤ) ≤ 255 := Int.ofNat_le.mpr hn.2
  obtain ⟨hread, hne⟩ := reads_numeral (by decide) hn.1 (ends_cons (Or.inr rfl) rest) (by decide) hle
  conv_lhs => unfold parsev4Loop
  rw [hread]
  dsimp only
  rw [if_neg, if_neg (Nat.succ_ne_zero k), if_pos rfl]
  · rfl
  · rintro (h | h | h | h)
    · exact hne h
    · exact Bool.false_ne_true h
    · omega
    · omega

/-- What one round reads. -/
theorem parsev4Loop_some {k : ℕ} (h : parsev4Loop (k + 1) buf = some bytes) :
    ∃ n rest, Small n ∧ buf = n.text ++ rest ∧
      ((k = 0 ∧ rest = [] ∧ bytes = [byteOf n]) ∨
        ∃ rest' bytes', k ≠ 0 ∧ rest = chr '.' :: rest' ∧ parsev4Loop k rest' = some bytes' ∧
          bytes = byteOf n :: bytes') := by
  unfold parsev4Loop at h
  dsimp only at h
  split at h
  · cases h
  · next hok =>
    simp only [not_or] at hok
    obtain ⟨hread, herange, hlow, hhigh⟩ := hok
    obtain ⟨n, hn, htext, hvalue⟩ := numeral_of_strtol hread (Bool.eq_false_iff.mpr herange)
      (Int.not_lt.mp hlow)
    have hsmall : Small n := ⟨hn, by rw [hvalue] at hhigh; omega⟩
    rw [hvalue] at h
    refine ⟨n, (strtol 10 buf).rest, hsmall, htext, ?_⟩
    split at h
    · next hk =>
      split at h
      · next hrest => exact Or.inl ⟨hk, hrest, (Option.some.inj h).symm⟩
      · cases h
    · next hk =>
      split at h
      · next c rest hrest =>
        split at h
        · next hdot =>
          obtain ⟨bytes', hbytes, rfl⟩ := Option.map_eq_some_iff.mp h
          exact Or.inr ⟨rest, bytes', hk, by rw [hrest, hdot], hbytes, rfl⟩
        · cases h
      · cases h

theorem parsev4Loop_iff (k : ℕ) (buf : Str) (bytes : List Byte) :
    parsev4Loop (k + 1) buf = some bytes ↔
      ∃ ns, ns.length = k + 1 ∧ (∀ n ∈ ns, Small n) ∧ buf = joined '.' ns ∧
        bytes = ns.map byteOf := by
  constructor
  · intro h
    induction k generalizing buf bytes with
    | zero =>
      obtain ⟨n, rest, hn, rfl, ⟨-, rfl, rfl⟩ | ⟨_, _, hne, _⟩⟩ := parsev4Loop_some h
      · exact ⟨[n], rfl, List.forall_mem_singleton.mpr hn, List.append_nil _, rfl⟩
      · exact absurd rfl hne
    | succ k ih =>
      obtain ⟨n, rest, hn, rfl, ⟨hk, _⟩ | ⟨rest', bytes', -, rfl, hloop, rfl⟩⟩ :=
        parsev4Loop_some h
      · cases hk
      · obtain ⟨ns, hlength, hall, rfl, rfl⟩ := ih rest' bytes' hloop
        have hne : ns ≠ [] := fun hnil => by rw [hnil] at hlength; cases hlength
        exact ⟨n :: ns, congrArg (· + 1) hlength, List.forall_mem_cons.mpr ⟨hn, hall⟩,
          (joined_cons hne).symm, rfl⟩
  · rintro ⟨ns, hlength, hall, rfl, rfl⟩
    induction k generalizing ns with
    | zero =>
      obtain ⟨n, rfl⟩ := List.length_eq_one_iff.mp hlength
      exact parsev4Loop_last (List.forall_mem_singleton.mp hall)
    | succ k ih =>
      cases ns with
      | nil => cases hlength
      | cons n ns =>
        obtain ⟨hn, hns⟩ := List.forall_mem_cons.mp hall
        have hlength' := Nat.succ.inj hlength
        have hne : ns ≠ [] := fun hnil => by rw [hnil] at hlength'; cases hlength'
        rw [joined_cons hne, parsev4Loop_more hn, ih ns hlength' hns]
        rfl

theorem parsev4_iff (buf : Str) (data : List Byte) :
    parsev4 buf = some data ↔
      ∃ ns, (AddressText.v4 ns).Valid ∧ buf = joined '.' ns ∧ data = (AddressText.v4 ns).data := by
  unfold parsev4
  rw [Option.map_eq_some_iff]
  constructor
  · rintro ⟨bytes, hbytes, rfl⟩
    obtain ⟨ns, hlength, hall, hbuf, rfl⟩ := (parsev4Loop_iff 3 buf bytes).mp hbytes
    exact ⟨ns, ⟨hlength, hall⟩, hbuf, rfl⟩
  · rintro ⟨ns, ⟨hlength, hall⟩, hbuf, rfl⟩
    exact ⟨ns.map byteOf, (parsev4Loop_iff 3 buf _).mpr ⟨ns, hlength, hall, hbuf, rfl⟩, rfl⟩

end dots

/-! ### Groups with colons -/

section groups

variable {n : Numeral} {ns : List Numeral} {buf rest : Str} {head data : List Byte}
  {tail : Option (List Byte)} {k : ℕ} {g g' : Groups}

def Word (n : Numeral) : Prop := n.Valid 16 ∧ n.value 16 ≤ 0xffff

/-- Nothing or a colon stands behind a group. -/
def Stops (rest : Str) : Prop := rest = [] ∨ ∃ r, rest = chr ':' :: r

def pushHead (head : List Byte) (tail : Option (List Byte)) (n : Numeral) : List Byte :=
  if tail = none then head ++ groupBytes n else head

def pushTail (tail : Option (List Byte)) (n : Numeral) : Option (List Byte) :=
  tail.map (· ++ groupBytes n)

def used (head : List Byte) (tail : Option (List Byte)) : ℕ := head.length + (tail.getD []).length

theorem used_push (head : List Byte) (tail : Option (List Byte)) (n : Numeral) :
    used (pushHead head tail n) (pushTail tail n) = used head tail + 2 := by
  unfold used pushHead pushTail
  cases tail with
  | none =>
    rw [if_pos rfl, List.length_append]
    rfl
  | some tail =>
    rw [if_neg (Option.some_ne_none tail), Option.map_some, Option.getD_some, Option.getD_some,
      List.length_append]
    rfl

theorem skipColon_gap (r : Str) :
    skipColon (chr ':' :: chr ':' :: r) = chr ':' :: chr ':' :: r := by
  rw [skipColon, if_neg]
  exact fun h => h.2 rfl

theorem skipColon_colon {r : Str} (h : r.head? ≠ some (chr ':')) : skipColon (chr ':' :: r) = r := by
  rw [skipColon, if_pos ⟨rfl, h⟩]

theorem Stops.ends (h : Stops rest) : Ends rest := by
  rcases h with rfl | ⟨r, rfl⟩
  · exact ends_nil
  · exact ends_cons (Or.inl rfl) r

theorem loop_end (k : ℕ) (head : List Byte) (tail : Option (List Byte)) :
    parsev6Loop (k + 1) head tail [] = some (fill head (tail.getD [])) := by
  rw [parsev6Loop, if_pos rfl]

theorem loop_gap (k : ℕ) (head : List Byte) (r : Str) :
    parsev6Loop (k + 1) head none (chr ':' :: chr ':' :: r) = parsev6Loop k head (some []) r := by
  rw [parsev6Loop, if_neg (List.cons_ne_nil _ _), if_pos]
  · rfl
  · exact ⟨rfl, by simp [str, List.isPrefixOf]⟩

theorem loop_number (hn : Word n) (hrest : Stops rest) (hroom : used head tail < 16) :
    parsev6Loop (k + 1) head tail (n.text ++ rest) =
      parsev6Loop k (pushHead head tail n) (pushTail tail n) (skipColon rest) := by
  have hle : (n.value 16 : ℤ) ≤ 0xffff := Int.ofNat_le.mpr hn.2
  obtain ⟨hread, hne⟩ := reads_numeral (by decide) hn.1 hrest.ends (by decide) hle
  obtain ⟨c, s, hfirst, hc⟩ := exists_first (by decide) hn.1
  have hnil : n.text ++ rest ≠ [] := by
    rw [hfirst]
    exact List.cons_ne_nil _ _
  have hgap : ¬ (tail = none ∧ (str "::").isPrefixOf (n.text ++ rest) = true) := by
    rw [hfirst]
    intro h
    have hlead := List.isPrefixOf_iff_prefix.mp h.2
    exact hc (List.cons_prefix_cons.mp hlead).1.symm
  have hfull : ¬ 16 ≤ head.length + (tail.getD []).length := Nat.not_le.mpr hroom
  rw [parsev6Loop, if_neg hnil, if_neg hgap, hread]
  dsimp only
  rw [if_neg, if_neg hfull]
  · cases tail with
    | none => rfl
    | some tail => rfl
  · rintro (h | h | h | h | h)
    · exact hne h
    · rcases hrest with rfl | ⟨r, rfl⟩
      · exact h.1 rfl
      · exact h.2 rfl
    · exact Bool.false_ne_true h
    · omega
    · omega

/-- What one round reads. -/
theorem loop_cases (h : parsev6Loop (k + 1) head tail buf = some data) :
    (buf = [] ∧ data = fill head (tail.getD [])) ∨
      (tail = none ∧ ∃ r, buf = chr ':' :: chr ':' :: r ∧
        parsev6Loop k head (some []) r = some data) ∨
      ∃ n rest, Word n ∧ Stops rest ∧ used head tail < 16 ∧ buf = n.text ++ rest ∧
        parsev6Loop k (pushHead head tail n) (pushTail tail n) (skipColon rest) = some data := by
  by_cases hnil : buf = []
  · rw [hnil, loop_end] at h
    exact Or.inl ⟨hnil, (Option.some.inj h).symm⟩
  by_cases hgap : tail = none ∧ (str "::").isPrefixOf buf = true
  · obtain ⟨rfl, hlead⟩ := hgap
    obtain ⟨r, rfl⟩ := List.isPrefixOf_iff_prefix.mp hlead
    have hbuf : str "::" ++ r = chr ':' :: chr ':' :: r := rfl
    rw [hbuf, loop_gap] at h
    exact Or.inr (Or.inl ⟨rfl, r, rfl, h⟩)
  · rw [parsev6Loop, if_neg hnil, if_neg hgap] at h
    dsimp only at h
    split at h
    · cases h
    next hok =>
    split at h
    · cases h
    next hroom =>
    simp only [not_or] at hok
    obtain ⟨hread, hstop, herange, hlow, hhigh⟩ := hok
    obtain ⟨n, hn, htext, hvalue⟩ := numeral_of_strtol hread (Bool.eq_false_iff.mpr herange)
      (Int.not_lt.mp hlow)
    rw [hvalue] at hhigh h
    have hword : Word n := ⟨hn, by omega⟩
    have hstops : Stops (strtol 16 buf).rest := by
      cases hrest : (strtol 16 buf).rest with
      | nil => exact Or.inl rfl
      | cons c r =>
        rw [hrest] at hstop
        by_contra hnot
        refine hstop ⟨List.cons_ne_nil c r, fun hc => hnot (Or.inr ⟨r, ?_⟩)⟩
        rw [Option.some.inj hc]
    refine Or.inr (Or.inr ⟨n, (strtol 16 buf).rest, hword, hstops, Nat.not_le.mp hroom, htext, ?_⟩)
    cases tail with
    | none => exact h
    | some tail => exact h

/-! The texts, group by group -/

theorem joined_head (h : ∀ n ∈ ns, Word n) (hne : ns ≠ []) :
    ∃ c s, joined ':' ns = c :: s ∧ c ≠ chr ':' := by
  cases ns with
  | nil => exact absurd rfl hne
  | cons n ns =>
    obtain ⟨c, s, htext, hc⟩ := exists_first (by decide) (List.forall_mem_cons.mp h).1.1
    by_cases hnil : ns = []
    · rw [hnil]
      exact ⟨c, s, htext, hc⟩
    · rw [joined_cons hnil, htext]
      exact ⟨c, _, rfl, hc⟩

theorem Fine.words (h : Fine g) : ∀ n ∈ g.head, Word n :=
  fun n hn => h.numbers n (List.mem_append_left _ hn)

/-- Without groups before a gap the text is empty or begins with the gap. -/
theorem Fine.text_of_nil (h : Fine g) (hnil : g.head = []) :
    (g.tail = none ∧ g.trailing = false ∧ g.text = []) ∨
      ∃ ns, g.tail = some ns ∧
        g.text = chr ':' :: chr ':' :: (joined ':' ns ++ colonText g.trailing) := by
  unfold Groups.text
  cases htail : g.tail with
  | none =>
    have htrailing : g.trailing = false := by
      apply Bool.eq_false_iff.mpr
      intro htrue
      have hsome := h.trailing htrue
      rw [htail] at hsome
      exact hsome hnil
    rw [hnil, htrailing]
    exact Or.inl ⟨rfl, rfl, rfl⟩
  | some ns =>
    rw [hnil]
    exact Or.inr ⟨ns, rfl, rfl⟩

theorem Fine.text_of_ne (h : Fine g) (hne : g.head ≠ []) :
    ∃ c s, g.text = c :: s ∧ c ≠ chr ':' := by
  obtain ⟨c, s, hjoined, hc⟩ := joined_head h.words hne
  unfold Groups.text
  rw [hjoined]
  exact ⟨c, _, rfl, hc⟩

/-- What stands where a number stops, and what is read after the colon is skipped. -/
theorem Stops.cases (h : Stops rest) :
    (rest = [] ∧ skipColon rest = []) ∨
      (rest = chr ':' :: skipColon rest ∧ (skipColon rest).head? ≠ some (chr ':')) ∨
        ((skipColon rest).head? = some (chr ':') ∧ skipColon rest = rest) := by
  rcases h with rfl | ⟨r, rfl⟩
  · exact Or.inl ⟨rfl, rfl⟩
  · by_cases hcolon : r.head? = some (chr ':')
    · obtain ⟨r, rfl⟩ := List.head?_eq_some_iff.mp hcolon
      rw [skipColon_gap]
      exact Or.inr (Or.inr ⟨rfl, rfl⟩)
    · rw [skipColon_colon hcolon]
      exact Or.inr (Or.inl ⟨rfl, hcolon⟩)

/-- A group in front of a text that is read. -/
theorem Fine.cons (h : Fine g) (hn : Word n) (hrest : Stops rest) (htext : g.text = skipColon rest) :
    ∃ g', Fine g' ∧ g'.text = n.text ++ rest ∧ g'.head = n :: g.head ∧ g'.tail = g.tail := by
  have hmore (tail : Option (List Numeral)) (htail : tail = g.tail) (trailing : Bool)
      (htrailing : trailing = true → tail.getD (n :: g.head) ≠ []) :
      Fine ⟨n :: g.head, tail, trailing⟩ := by
    refine ⟨?_, htrailing⟩
    unfold Groups.all
    rw [htail]
    exact List.forall_mem_cons.mpr ⟨hn, h.numbers⟩
  have hcases := hrest.cases
  rw [← htext] at hcases
  by_cases hnil : g.head = []
  · rcases h.text_of_nil hnil with ⟨htail, -, hempty⟩ | ⟨ns, htail, hgap⟩
    · rw [hempty] at hcases
      rcases hcases with ⟨rfl, -⟩ | ⟨rfl, -⟩ | ⟨hcolon, -⟩
      · refine ⟨⟨n :: g.head, none, false⟩, hmore none htail.symm false (fun h => by cases h), ?_,
          rfl, htail.symm⟩
        rw [hnil]
        rfl
      · refine ⟨⟨n :: g.head, none, true⟩, hmore none htail.symm true
          (fun _ => List.cons_ne_nil _ _), ?_, rfl, htail.symm⟩
        rw [hnil]
        rfl
      · cases hcolon
    · rw [hgap] at hcases
      rcases hcases with ⟨-, hempty⟩ | ⟨-, hcolon⟩ | ⟨-, hrest'⟩
      · cases hempty
      · exact absurd rfl hcolon
      · refine ⟨⟨n :: g.head, some ns, g.trailing⟩, hmore _ htail.symm _ ?_, ?_, rfl, htail.symm⟩
        · intro htrailing
          have hsome := h.trailing htrailing
          rw [htail] at hsome
          exact hsome
        · rw [hnil, ← hrest']
          rfl
  · obtain ⟨c, s, hfirst, hc⟩ := h.text_of_ne hnil
    have hrest' : rest = chr ':' :: g.text := by
      rw [hfirst] at hcases ⊢
      rcases hcases with ⟨-, hempty⟩ | ⟨hrest', -⟩ | ⟨hcolon, -⟩
      · cases hempty
      · exact hrest'
      · exact absurd (Option.some.inj hcolon) hc
    refine ⟨⟨n :: g.head, g.tail, g.trailing⟩, hmore _ rfl _ ?_, ?_, rfl, rfl⟩
    · intro htrailing
      have hsome := h.trailing htrailing
      cases htail : g.tail with
      | none => exact List.cons_ne_nil _ _
      | some ns =>
        rw [htail] at hsome
        exact hsome
    · unfold Groups.text at hrest' ⊢
      rw [joined_cons hnil, hrest', List.append_assoc, List.cons_append]

/-- A text that begins with a group. -/
theorem Fine.uncons (h : Fine g) (hhead : g.head = n :: ns) :
    ∃ rest g', Stops rest ∧ g.text = n.text ++ rest ∧ Fine g' ∧ g'.text = skipColon rest ∧
      g'.head = ns ∧ g'.tail = g.tail := by
  have hnumbers : ∀ m ∈ ns ++ g.tail.getD [], Word m := by
    intro m hm
    refine h.numbers m ?_
    unfold Groups.all
    rw [hhead]
    exact List.mem_cons_of_mem n hm
  by_cases hnil : ns = []
  · cases htail : g.tail with
    | none =>
      refine ⟨colonText g.trailing, ⟨[], none, false⟩, ?_, ?_, ⟨?_, fun h => by cases h⟩, ?_,
        hnil.symm, rfl⟩
      · unfold colonText
        split
        · exact Or.inr ⟨[], rfl⟩
        · exact Or.inl rfl
      · unfold Groups.text
        rw [hhead, hnil, htail]
        rfl
      · exact fun m hm => by cases hm
      · unfold colonText
        split
        · rfl
        · rfl
    | some ms =>
      refine ⟨gapText g.tail ++ colonText g.trailing, ⟨[], some ms, g.trailing⟩, ?_, ?_,
        ⟨?_, ?_⟩, ?_, hnil.symm, rfl⟩
      · rw [htail]
        exact Or.inr ⟨_, rfl⟩
      · unfold Groups.text
        rw [hhead, hnil]
        rfl
      · rw [hnil, htail] at hnumbers
        exact hnumbers
      · intro htrailing
        have hsome := h.trailing htrailing
        rw [htail] at hsome
        exact hsome
      · rw [htail]
        exact (skipColon_gap _).symm
  · obtain ⟨c, s, hfirst, hc⟩ := joined_head (fun m hm => hnumbers m (List.mem_append_left _ hm)) hnil
    refine ⟨chr ':' :: (joined ':' ns ++ (gapText g.tail ++ colonText g.trailing)),
      ⟨ns, g.tail, g.trailing⟩, Or.inr ⟨_, rfl⟩, ?_, ⟨hnumbers, ?_⟩, ?_, rfl, rfl⟩
    · unfold Groups.text
      rw [hhead, joined_cons hnil, List.append_assoc, List.cons_append]
    · intro htrailing
      have hsome := h.trailing htrailing
      cases htail : g.tail with
      | none => exact hnil
      | some ms =>
        rw [htail] at hsome
        exact hsome
    · rw [skipColon_colon]
      · rfl
      · rw [hfirst]
        exact fun heq => hc (Option.some.inj heq)

/-- The bytes of an address when the groups of a text are still to be read. -/
def filled (head : List Byte) (tail : Option (List Byte)) (g : Groups) : List Byte :=
  match tail with
  | none => fill (head ++ g.head.flatMap groupBytes) ((g.tail.getD []).flatMap groupBytes)
  | some tail => fill head (tail ++ g.head.flatMap groupBytes)

theorem filled_push (head : List Byte) (tail : Option (List Byte)) (hhead : g.head = n :: g'.head)
    (htail : g.tail = g'.tail) :
    filled (pushHead head tail n) (pushTail tail n) g' = filled head tail g := by
  unfold filled pushHead pushTail
  rw [hhead, htail, List.flatMap_cons]
  cases tail with
  | none =>
    rw [if_pos rfl]
    show fill (head ++ groupBytes n ++ _) _ = fill (head ++ (groupBytes n ++ _)) _
    rw [List.append_assoc]
  | some tail =>
    rw [if_neg (Option.some_ne_none tail)]
    show fill head (tail ++ groupBytes n ++ _) = fill head (tail ++ (groupBytes n ++ _))
    rw [List.append_assoc]

theorem all_cons (hhead : g.head = n :: g'.head) (htail : g.tail = g'.tail) :
    g.all.length = g'.all.length + 1 := by
  unfold Groups.all
  rw [hhead, htail]
  rfl

theorem pushTail_ne (n : Numeral) (h : tail ≠ none) : pushTail tail n ≠ none := by
  intro hnone
  exact h (Option.map_eq_none_iff.mp hnone)

theorem ne_of_pushTail (n : Numeral) (h : pushTail tail n ≠ none) : tail ≠ none := by
  rintro rfl
  exact h rfl

/-- What the loop accepts is the text of some groups, and it gives their bytes. -/
theorem loop_sound (k : ℕ) (heven : used head tail % 2 = 0) (hroom : used head tail ≤ 16)
    (h : parsev6Loop k head tail buf = some data) :
    ∃ g, Fine g ∧ g.text = buf ∧ (tail ≠ none → g.tail = none) ∧
      used head tail + 2 * g.all.length ≤ 16 ∧ data = filled head tail g := by
  induction k generalizing head tail buf with
  | zero => cases h
  | succ k ih =>
    rcases loop_cases h with ⟨rfl, rfl⟩ | ⟨rfl, r, rfl, hloop⟩ |
        ⟨n, rest, hn, hrest, hfull, rfl, hloop⟩
    · refine ⟨⟨[], none, false⟩, ⟨fun n hn => (by cases hn), fun h => (by cases h)⟩, rfl,
        fun _ => rfl, hroom, ?_⟩
      cases tail with
      | none =>
        show fill head [] = fill (head ++ []) []
        rw [List.append_nil]
      | some tail =>
        show fill head tail = fill head (tail ++ [])
        rw [List.append_nil]
    · obtain ⟨g, hfine, rfl, htail, hcount, rfl⟩ := @ih _ head (some []) heven hroom hloop
      have hnone := htail (Option.some_ne_none [])
      have hall : g.all = g.head := by
        unfold Groups.all
        rw [hnone]
        exact List.append_nil _
      refine ⟨⟨[], some g.head, g.trailing⟩, ⟨?_, ?_⟩, ?_, fun hne => absurd rfl hne, ?_, ?_⟩
      · have hnumbers := hfine.numbers
        rw [hall] at hnumbers
        exact hnumbers
      · intro htrailing
        have hsome := hfine.trailing htrailing
        rw [hnone] at hsome
        exact hsome
      · unfold Groups.text
        rw [hnone]
        rfl
      · rw [hall] at hcount
        exact hcount
      · show fill head ([] ++ _) = fill (head ++ []) _
        rw [List.append_nil, List.nil_append]
        rfl
    · have hpush := used_push head tail n
      obtain ⟨g', hfine, htext, htail, hcount, rfl⟩ :=
        ih (by omega) (by omega) hloop
      obtain ⟨g, hg, hgtext, hghead, hgtail⟩ := hfine.cons hn hrest htext
      have hlength := all_cons hghead hgtail
      refine ⟨g, hg, hgtext, ?_, by omega, filled_push head tail hghead hgtail⟩
      intro hne
      rw [hgtail]
      exact htail (pushTail_ne n hne)

theorem skipColon_length (rest : Str) : (skipColon rest).length ≤ rest.length := by
  cases rest with
  | nil => exact Nat.le_refl 0
  | cons c rest =>
    rw [skipColon]
    split
    · exact Nat.le_succ _
    · exact Nat.le_refl _

/-- The loop accepts the text of every eight groups, or less. -/
theorem loop_complete (k : ℕ) (hg : Fine g) (htail : tail ≠ none → g.tail = none)
    (hroom : used head tail + 2 * g.all.length ≤ 16) (hfuel : g.text.length < k) :
    parsev6Loop k head tail g.text = some (filled head tail g) := by
  induction k generalizing head tail g with
  | zero => exact absurd hfuel (Nat.not_lt_zero _)
  | succ k ih =>
    cases hhead : g.head with
    | nil =>
      rcases hg.text_of_nil hhead with ⟨hnone, -, htext⟩ | ⟨ns, hsome, htext⟩
      · rw [htext, loop_end]
        unfold filled
        rw [hhead, hnone]
        cases tail with
        | none =>
          show some (fill head []) = some (fill (head ++ []) [])
          rw [List.append_nil]
        | some tail =>
          show some (fill head tail) = some (fill head (tail ++ []))
          rw [List.append_nil]
      · have htailnone : tail = none := by
          by_contra hne
          rw [htail hne] at hsome
          cases hsome
        subst htailnone
        have hnumbers := hg.numbers
        have hcount := hroom
        unfold Groups.all at hnumbers hcount
        rw [hhead, hsome] at hnumbers hcount
        have hrest : Fine ⟨ns, none, g.trailing⟩ := by
          refine ⟨?_, ?_⟩
          · unfold Groups.all
            rw [Option.getD_none, List.append_nil]
            exact hnumbers
          · intro htrailing
            have hne := hg.trailing htrailing
            rw [hsome] at hne
            exact hne
        have hcount' : used head (some []) + 2 * (Groups.all ⟨ns, none, g.trailing⟩).length ≤ 16 := by
          unfold Groups.all
          rw [Option.getD_none, List.append_nil]
          exact hcount
        have hresttext : Groups.text ⟨ns, none, g.trailing⟩ =
            joined ':' ns ++ colonText g.trailing := rfl
        have hlength : (Groups.text ⟨ns, none, g.trailing⟩).length < k := by
          rw [htext, List.length_cons, List.length_cons] at hfuel
          rw [hresttext]
          omega
        rw [htext, loop_gap, ← hresttext, ih hrest (fun _ => rfl) hcount' hlength]
        unfold filled
        rw [hhead, hsome]
        show some (fill head ([] ++ _)) = some (fill (head ++ []) _)
        rw [List.append_nil, List.nil_append]
        rfl
    | cons n ns =>
      obtain ⟨rest, g', hrest, htext, hg', htext', hhead', htail'⟩ := hg.uncons hhead
      rw [← hhead'] at hhead
      have hlength := all_cons hhead htail'.symm
      have hpush := used_push head tail n
      have hn : Word n := hg.words n (by rw [hhead]; exact List.mem_cons_self)
      have hshort := skipColon_length rest
      have hpos := List.length_pos_iff.mpr (text_ne_nil hn.1)
      have hfuel' : g'.text.length < k := by
        rw [htext, List.length_append] at hfuel
        rw [htext']
        omega
      rw [htext, loop_number hn hrest (by omega), ← htext', ih hg' ?_ (by omega) hfuel',
        filled_push head tail hhead htail'.symm]
      intro hne
      rw [htail']
      exact htail (ne_of_pushTail n hne)

theorem parsev6_iff (buf : Str) (data : List Byte) :
    parsev6 buf = some data ↔
      ∃ g, (AddressText.v6 g).Valid ∧ buf = g.text ∧ data = (AddressText.v6 g).data := by
  unfold parsev6
  constructor
  · intro h
    obtain ⟨g, hg, htext, -, hcount, hdata⟩ := @loop_sound buf [] data none _ rfl (Nat.zero_le _) h
    have hzero : used [] none = 0 := rfl
    exact ⟨g, ⟨hg, by omega⟩, htext.symm, hdata⟩
  · rintro ⟨g, ⟨hg, hcount⟩, rfl, rfl⟩
    have hzero : used [] none = 0 := rfl
    exact loop_complete _ hg (fun hne => absurd rfl hne) (by omega) (Nat.lt_succ_self _)

end groups

end Swad.AddressGrammar
