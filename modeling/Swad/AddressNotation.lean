import Swad.AddressGrammar

/-!
The notation of addresses: four decimal numbers with dots, or groups of up to four hexadecimal
digits with colons, all eight of them or at most seven with one gap, and a decimal prefix
length behind a slash. Every text in this notation is read as the address that it denotes, but
many other texts are read as well.
-/
namespace Swad.AddressNotation

open Bytes Util Ipaddr Numerals AddressGrammar

/-! ### The whole text -/

section whole

variable {s buf : Str} {prefixlen : Option ℕ} {c : Byte} {sep : Char} {ns : List Numeral}
  {a : IpAddr} {t : NetworkText}

theorem mem_joined (h : c ∈ joined sep ns) : c = chr sep ∨ ∃ n ∈ ns, c ∈ n.text := by
  induction ns with
  | nil => cases h
  | cons n ns ih =>
    by_cases hnil : ns = []
    · rw [hnil] at h
      exact Or.inr ⟨n, List.mem_cons_self, h⟩
    · rw [joined_cons hnil] at h
      rcases List.mem_append.mp h with h | h
      · exact Or.inr ⟨n, List.mem_cons_self, h⟩
      · rcases List.mem_cons.mp h with h | h
        · exact Or.inl h
        · rcases ih h with hsep | ⟨m, hm, hc⟩
          · exact Or.inl hsep
          · exact Or.inr ⟨m, List.mem_cons_of_mem n hm, hc⟩

/-- The characters of the groups are colons and characters of numbers. -/
theorem mem_groups {g : Groups} (hc : c ∈ g.text) :
    c = chr ':' ∨ ∃ n ∈ g.all, c ∈ n.text := by
  have hjoined (ms : List Numeral) (hms : ∀ m ∈ ms, m ∈ g.all) (hmem : c ∈ joined ':' ms) :
      c = chr ':' ∨ ∃ n ∈ g.all, c ∈ n.text := by
    rcases mem_joined hmem with hcolon | ⟨m, hm, hcm⟩
    · exact Or.inl hcolon
    · exact Or.inr ⟨m, hms m hm, hcm⟩
  unfold Groups.text at hc
  rcases List.mem_append.mp hc with hc | hc
  · exact hjoined g.head (fun m hm => List.mem_append_left _ hm) hc
  rcases List.mem_append.mp hc with hc | hc
  · unfold gapText at hc
    cases htail : g.tail with
    | none =>
      rw [htail] at hc
      cases hc
    | some ms =>
      rw [htail] at hc
      have hms : ∀ m ∈ ms, m ∈ g.all := by
        intro m hm
        refine List.mem_append_right _ ?_
        rw [htail]
        exact hm
      rcases List.mem_cons.mp hc with hc | hc
      · exact Or.inl hc
      rcases List.mem_cons.mp hc with hc | hc
      · exact Or.inl hc
      · exact hjoined ms hms hc
  · unfold colonText at hc
    split at hc
    · exact Or.inl (List.mem_singleton.mp hc)
    · cases hc

theorem groups_plain {g : Groups} (h : Fine g) (hc : c ∈ g.text) : c ≠ chr '/' ∧ c ≠ chr '.' := by
  rcases mem_groups hc with rfl | ⟨n, hn, hcn⟩
  · decide
  · have hplain := text_plain (by decide) (h.numbers n hn).1 hcn
    exact ⟨hplain.1, hplain.2.2⟩

theorem slash_notMem {x : AddressText} (h : x.Valid) : chr '/' ∉ x.text := by
  intro hmem
  cases x with
  | v4 ns =>
    rcases mem_joined hmem with hsep | ⟨n, hn, hc⟩
    · exact absurd hsep (by decide)
    · exact (text_plain (by decide) (h.2 n hn).1 hc).1 rfl
  | v6 g => exact (groups_plain h.1 hmem).1 rfl

/-- The text of an IPv6 address is none of an IPv4 address. -/
theorem parsev4_groups {g : Groups} (h : Fine g) : parsev4 g.text = none := by
  by_contra hne
  obtain ⟨data, hdata⟩ := Option.ne_none_iff_exists'.mp hne
  obtain ⟨ns, ⟨hlength, -⟩, htext, -⟩ := (parsev4_iff _ _).mp hdata
  have hdot : chr '.' ∈ joined '.' ns := by
    match ns, hlength with
    | n :: m :: ns, _ =>
      rw [joined]
      exact List.mem_append_right _ List.mem_cons_self
  rw [← htext] at hdot
  exact (groups_plain h hdot).2 rfl

theorem parsePrefix_none (h : chr '/' ∉ buf) : parsePrefix buf = some (buf, none) := by
  have hdrop : buf.dropWhile (· != chr '/') = [] := List.dropWhile_eq_nil_iff.mpr (bne_of_notMem h)
  unfold parsePrefix
  rw [hdrop]

theorem parsePrefix_some {n : Numeral} (h : chr '/' ∉ buf) (hn : n.Valid 10)
    (hvalue : n.value 10 ≤ 128) :
    parsePrefix (buf ++ chr '/' :: n.text) = some (buf, some (n.value 10)) := by
  have hle : (n.value 10 : ℤ) ≤ 128 := Int.ofNat_le.mpr hvalue
  obtain ⟨hread, hne⟩ := reads_numeral (by decide) hn ends_nil (by decide) hle
  rw [List.append_nil] at hread hne
  unfold parsePrefix
  rw [dropWhile_until h, takeWhile_until h]
  dsimp only
  rw [hread]
  dsimp only
  rw [if_neg]
  · rfl
  · rintro (h | h | h | h | h)
    · exact hne h
    · exact h rfl
    · exact Bool.false_ne_true h
    · omega
    · omega

theorem parsePrefix_cases (h : parsePrefix s = some (buf, prefixlen)) :
    (prefixlen = none ∧ s = buf) ∨ ∃ n : Numeral, n.Valid 10 ∧ n.value 10 ≤ 128 ∧
      prefixlen = some (n.value 10) ∧ s = buf ++ chr '/' :: n.text := by
  unfold parsePrefix at h
  split at h
  · obtain ⟨rfl, rfl⟩ := Prod.mk.inj (Option.some.inj h)
    exact Or.inl ⟨rfl, rfl⟩
  · next c prstr hdrop =>
    dsimp only at h
    split at h
    · cases h
    · next hok =>
      simp only [not_or, not_not] at hok
      obtain ⟨hread, hrest, herange, hlow, hhigh⟩ := hok
      obtain ⟨n, hn, htext, hvalue⟩ := numeral_of_strtol hread (Bool.eq_false_iff.mpr herange)
        (Int.not_lt.mp hlow)
      obtain ⟨rfl, rfl⟩ := Prod.mk.inj (Option.some.inj h)
      obtain ⟨hsplit, hslash⟩ := split_of_dropWhile hdrop
      have hc : c = chr '/' := by simpa using hslash
      rw [hvalue] at hhigh ⊢
      refine Or.inr ⟨n, hn, by omega, rfl, ?_⟩
      rw [hrest, List.append_nil] at htext
      rw [hc] at hsplit
      rw [← htext]
      exact hsplit

/-- What an address is created of is the text of one, with a prefix length or without. -/
theorem exists_text {a : IpAddr} (hlength : ¬ (s.length < 2 ∨ 43 < s.length))
    (h : IpAddr.create s = some a) : ∃ t : NetworkText, t.Valid ∧ t.text = s ∧ t.addr = a := by
  rw [IpAddr.create, if_neg hlength] at h
  cases hlead : parsePrefix s with
  | none =>
    rw [hlead] at h
    cases h
  | some r =>
    obtain ⟨buf, prefixlen⟩ := r
    have hcases := parsePrefix_cases hlead
    rw [hlead] at h
    dsimp only at h
    cases hv4 : parsev4 buf with
    | some data =>
      rw [hv4] at h
      dsimp only at h
      obtain ⟨ns, hvalid, rfl, rfl⟩ := (parsev4_iff buf data).mp hv4
      rcases hcases with ⟨rfl, rfl⟩ | ⟨n, hn, -, rfl, rfl⟩
      · obtain rfl := Option.some.inj h
        exact ⟨⟨.v4 ns, none⟩, ⟨hvalid, fun n hn => by cases hn⟩, List.append_nil _, rfl⟩
      · dsimp only at h
        split at h
        · cases h
        · next hle =>
          obtain rfl := Option.some.inj h
          refine ⟨⟨.v4 ns, some n⟩, ⟨hvalid, ?_⟩, rfl, rfl⟩
          intro m hm
          obtain rfl := Option.some.inj hm
          exact ⟨hn, Nat.le_of_not_lt hle⟩
    | none =>
      rw [hv4] at h
      obtain ⟨data, hdata, rfl⟩ := Option.map_eq_some_iff.mp h
      obtain ⟨g, hvalid, rfl, rfl⟩ := (parsev6_iff buf data).mp hdata
      rcases hcases with ⟨rfl, rfl⟩ | ⟨n, hn, hle, rfl, rfl⟩
      · exact ⟨⟨.v6 g, none⟩, ⟨hvalid, fun n hn => by cases hn⟩, List.append_nil _, rfl⟩
      · refine ⟨⟨.v6 g, some n⟩, ⟨hvalid, ?_⟩, rfl, rfl⟩
        intro m hm
        obtain rfl := Option.some.inj hm
        exact ⟨hn, hle⟩

theorem parsePrefix_text {t : NetworkText} (h : t.Valid) :
    parsePrefix t.text = some (t.address.text, t.prefixlen.map fun n => n.value 10) := by
  obtain ⟨x, prefixlen⟩ := t
  have hslash := slash_notMem h.address
  cases prefixlen with
  | none =>
    show parsePrefix (x.text ++ []) = _
    rw [List.append_nil]
    exact parsePrefix_none hslash
  | some n =>
    obtain ⟨hn, hle⟩ := h.prefixlen n rfl
    have hbits : x.bits ≤ 128 := by
      cases x with
      | v4 ns => exact Nat.le_of_ble_eq_true rfl
      | v6 g => exact Nat.le_of_ble_eq_true rfl
    exact parsePrefix_some hslash hn (Nat.le_trans hle hbits)

theorem create_text {t : NetworkText} (h : t.Valid)
    (hlength : ¬ (t.text.length < 2 ∨ 43 < t.text.length)) :
    IpAddr.create t.text = some t.addr := by
  rw [IpAddr.create, if_neg hlength, parsePrefix_text h]
  obtain ⟨x, prefixlen⟩ := t
  dsimp only
  cases x with
  | v4 ns =>
    have hv4 := (parsev4_iff (joined '.' ns) _).mpr ⟨ns, h.address, rfl, rfl⟩
    have htext : (AddressText.v4 ns).text = joined '.' ns := rfl
    rw [htext, hv4]
    cases prefixlen with
    | none => rfl
    | some n =>
      have hle : ¬ 32 < n.value 10 := Nat.not_lt.mpr (h.prefixlen n rfl).2
      show (if 32 < n.value 10 then none else _) = _
      rw [if_neg hle]
      rfl
  | v6 g =>
    have hv6 := (parsev6_iff g.text _).mpr ⟨g, h.address, rfl, rfl⟩
    have htext : (AddressText.v6 g).text = g.text := rfl
    rw [htext, parsev4_groups h.address.1, hv6]
    rfl

/-- The texts of which an address is created, and the address. -/
theorem create_iff (s : Str) (a : IpAddr) :
    IpAddr.create s = some a ↔
      2 ≤ s.length ∧ s.length ≤ 43 ∧ ∃ t : NetworkText, t.Valid ∧ t.text = s ∧ t.addr = a := by
  by_cases hlength : s.length < 2 ∨ 43 < s.length
  · rw [IpAddr.create, if_pos hlength]
    refine ⟨fun h => (by cases h), fun h => ?_⟩
    omega
  · constructor
    · intro h
      exact ⟨by omega, by omega, exists_text hlength h⟩
    · rintro ⟨-, -, t, hvalid, rfl, rfl⟩
      exact create_text hvalid hlength

end whole

/-! ### Meaning -/

/-- Two bytes of the sixteen, the first of them the higher one. -/
def pairAt (data : List Byte) (i : ℕ) : ℕ :=
  (data.getD (2 * i) 0).toNat * 256 + (data.getD (2 * i + 1) 0).toNat

/-- The bytes that the numbers stand for, place by place. The groups before the gap are the first
pairs, those behind it the last ones, and all pairs between are zero. -/
def Stored : AddressText → List Byte → Prop
  | .v4 ns, data =>
    (∀ i < 12, data.getD i 0 = 0) ∧
      ∀ i n, ns[i]? = some n → (data.getD (12 + i) 0).toNat = n.value 10
  | .v6 g, data =>
    (∀ i n, g.head[i]? = some n → pairAt data i = n.value 16) ∧
      (∀ i, g.head.length ≤ i → i + (g.tail.getD []).length < 8 → pairAt data i = 0) ∧
        ∀ i n, (g.tail.getD [])[i]? = some n →
          pairAt data (8 - (g.tail.getD []).length + i) = n.value 16

/-- Without a prefix length all bits count. -/
structure Means (t : NetworkText) (a : IpAddr) : Prop where
  length : a.data.length = 16
  data : Stored t.address a.data
  prefixlen : ∀ n, t.prefixlen = some n → a.prefixlen = n.value 10
  whole : t.prefixlen = none → a.prefixlen = t.address.bits
  proto : a.proto = t.address.proto

section meaning

variable {n : Numeral} {ns : List Numeral} {data other rest : List Byte} {x : AddressText}
  {t : NetworkText} {a : IpAddr} {i k : ℕ}

theorem toByte_toNat {v : ℕ} (h : v < 256) : (toByte (v : ℤ)).toNat = v := by
  unfold toByte
  rw [Int.toNat_natCast, UInt8.toNat_ofNat_of_lt' h]

theorem pairAt_first (b c : Byte) (data : List Byte) :
    pairAt (b :: c :: data) 0 = b.toNat * 256 + c.toNat := rfl

theorem pairAt_cons (b c : Byte) (data : List Byte) (i : ℕ) :
    pairAt (b :: c :: data) (i + 1) = pairAt data i := rfl

theorem pairAt_group (hn : Word n) (data : List Byte) :
    pairAt (groupBytes n ++ data) 0 = n.value 16 := by
  have hlimit := hn.2
  have hhigh : (toByte ((n.value 16 : ℤ) / 256)).toNat = n.value 16 / 256 :=
    @toByte_toNat (n.value 16 / 256) (by omega)
  have hlow : (toByte ((n.value 16 : ℤ) % 256)).toNat = n.value 16 % 256 :=
    @toByte_toNat (n.value 16 % 256) (by omega)
  show pairAt (_ :: _ :: data) 0 = _
  rw [pairAt_first, hhigh, hlow]
  omega

theorem pairAt_groups (hns : ∀ n ∈ ns, Word n) (rest : List Byte) (hi : ns[i]? = some n) :
    pairAt (ns.flatMap groupBytes ++ rest) i = n.value 16 := by
  induction ns generalizing i with
  | nil => cases hi
  | cons m ns ih =>
    obtain ⟨hm, hns⟩ := List.forall_mem_cons.mp hns
    rw [List.flatMap_cons, List.append_assoc]
    cases i with
    | zero =>
      obtain rfl := Option.some.inj hi
      exact pairAt_group hm _
    | succ i => exact ih hns hi

theorem pairAt_behind (ns : List Numeral) (rest : List Byte) (i : ℕ) :
    pairAt (ns.flatMap groupBytes ++ rest) (ns.length + i) = pairAt rest i := by
  induction ns with
  | nil => rw [List.length_nil, Nat.zero_add, List.flatMap_nil, List.nil_append]
  | cons n ns ih =>
    rw [List.flatMap_cons, List.append_assoc, List.length_cons, Nat.add_right_comm]
    exact ih

theorem zeros_succ (k : ℕ) (rest : List Byte) :
    List.replicate (2 * (k + 1)) 0 ++ rest = 0 :: 0 :: (List.replicate (2 * k) 0 ++ rest) := rfl

theorem pairAt_zeros (rest : List Byte) (hi : i < k) :
    pairAt (List.replicate (2 * k) 0 ++ rest) i = 0 := by
  induction i generalizing k with
  | zero =>
    obtain ⟨k, rfl⟩ := Nat.exists_eq_add_one_of_ne_zero (Nat.ne_of_gt hi)
    rw [zeros_succ, pairAt_first, UInt8.toNat_zero]
  | succ i ih =>
    obtain ⟨k, rfl⟩ := Nat.exists_eq_add_one_of_ne_zero (Nat.ne_of_gt (Nat.zero_lt_of_lt hi))
    rw [zeros_succ, pairAt_cons]
    exact ih (Nat.succ_lt_succ_iff.mp hi)

theorem pairAt_behind_zeros (rest : List Byte) (k i : ℕ) :
    pairAt (List.replicate (2 * k) 0 ++ rest) (k + i) = pairAt rest i := by
  induction k with
  | zero => rw [Nat.zero_add, Nat.mul_zero, List.replicate_zero, List.nil_append]
  | succ k ih =>
    rw [Nat.add_right_comm, zeros_succ, pairAt_cons]
    exact ih

theorem groups_length (ns : List Numeral) : (ns.flatMap groupBytes).length = 2 * ns.length := by
  induction ns with
  | nil => rfl
  | cons n ns ih =>
    rw [List.flatMap_cons, List.length_append, List.length_cons, ih, Nat.mul_succ, Nat.add_comm]
    rfl

/-- What is stored for a text of groups, with the zeros in pairs. -/
theorem data_groups {g : Groups} : (AddressText.v6 g).data =
    g.head.flatMap groupBytes ++
      (List.replicate (2 * (8 - g.head.length - (g.tail.getD []).length)) 0 ++
        (g.tail.getD []).flatMap groupBytes) := by
  have hzeros : 16 - 2 * g.head.length - 2 * (g.tail.getD []).length =
      2 * (8 - g.head.length - (g.tail.getD []).length) := by omega
  show fill _ _ = _
  rw [fill, groups_length, groups_length, hzeros, List.append_assoc]

theorem stored_groups {g : Groups} (h : (AddressText.v6 g).Valid) :
    Stored (.v6 g) (AddressText.v6 g).data := by
  obtain ⟨hfine, hcount⟩ := h
  have htail : ∀ n ∈ g.tail.getD [], Word n :=
    fun n hn => hfine.numbers n (List.mem_append_right _ hn)
  rw [Groups.all, List.length_append] at hcount
  rw [data_groups]
  refine ⟨fun i n hi => pairAt_groups hfine.words _ hi, fun i hhead hgap => ?_, fun i n hi => ?_⟩
  · obtain ⟨j, rfl⟩ := Nat.exists_eq_add_of_le hhead
    rw [pairAt_behind]
    exact pairAt_zeros _ (by omega)
  · have hplace : 8 - (g.tail.getD []).length + i =
        g.head.length + (8 - g.head.length - (g.tail.getD []).length + i) := by omega
    have hread := pairAt_groups htail [] hi
    rw [List.append_nil] at hread
    rw [hplace, pairAt_behind, pairAt_behind_zeros]
    exact hread

theorem stored_numbers (h : (AddressText.v4 ns).Valid) :
    Stored (.v4 ns) (AddressText.v4 ns).data := by
  show (∀ i < 12, (List.replicate 12 0 ++ ns.map byteOf).getD i 0 = 0) ∧
    ∀ i n, ns[i]? = some n →
      ((List.replicate 12 0 ++ ns.map byteOf).getD (12 + i) 0).toNat = n.value 10
  refine ⟨fun i hi => ?_, fun i n hi => ?_⟩
  · have hzero : i < (List.replicate 12 (0 : Byte)).length := hi
    rw [List.getD_append _ _ _ _ hzero]
    exact List.getD_replicate _ hi
  · have hbound := (h.2 n (List.mem_of_getElem? hi)).2
    have hzero : (List.replicate 12 (0 : Byte)).length ≤ 12 + i := Nat.le_add_right 12 i
    rw [List.getD_append_right _ _ _ _ hzero, List.length_replicate, Nat.add_sub_cancel_left,
      List.getD_eq_getElem?_getD, List.getElem?_map, hi]
    exact toByte_toNat (Nat.lt_succ_of_le hbound)

theorem data_length (h : x.Valid) : x.data.length = 16 := by
  cases x with
  | v4 ns =>
    show (List.replicate 12 (0 : Byte) ++ ns.map byteOf).length = 16
    rw [List.length_append, List.length_replicate, List.length_map, h.1]
  | v6 g =>
    have hcount := h.2
    rw [Groups.all, List.length_append] at hcount
    rw [data_groups, List.length_append, List.length_append, groups_length, groups_length,
      List.length_replicate]
    omega

theorem stored_data (h : x.Valid) : Stored x x.data := by
  cases x with
  | v4 ns => exact stored_numbers h
  | v6 g => exact stored_groups h

theorem eq_of_bytes (hdata : data.length = 16) (hother : other.length = 16)
    (h : ∀ j < 16, data.getD j 0 = other.getD j 0) : data = other := by
  apply List.ext_getElem (hdata.trans hother.symm)
  intro j hj hj'
  have hbyte := h j (by omega)
  rwa [List.getD_eq_getElem _ _ hj, List.getD_eq_getElem _ _ hj'] at hbyte

/-- Sixteen bytes are given by their pairs. -/
theorem eq_of_pairs (hdata : data.length = 16) (hother : other.length = 16)
    (h : ∀ i < 8, pairAt data i = pairAt other i) : data = other := by
  apply eq_of_bytes hdata hother
  intro j hj
  have hpair := h (j / 2) (by omega)
  unfold pairAt at hpair
  have hbounds (l : List Byte) (k : ℕ) : (l.getD k 0).toNat < 256 := UInt8.toNat_lt _
  have hhigh := hbounds data (2 * (j / 2) + 1)
  have hlow := hbounds other (2 * (j / 2) + 1)
  apply UInt8.toNat_inj.mp
  rcases Nat.mod_two_eq_zero_or_one j with hmod | hmod
  · have hplace : j = 2 * (j / 2) := by omega
    rw [hplace]
    omega
  · have hplace : j = 2 * (j / 2) + 1 := by omega
    rw [hplace]
    omega

theorem stored_unique (h : x.Valid) (hdata : data.length = 16) (hother : other.length = 16)
    (hstored : Stored x data) (hstored' : Stored x other) : data = other := by
  cases x with
  | v4 ns =>
    obtain ⟨hzero, hnumber⟩ := hstored
    obtain ⟨hzero', hnumber'⟩ := hstored'
    apply eq_of_bytes hdata hother
    intro j hj
    by_cases hlow : j < 12
    · rw [hzero j hlow, hzero' j hlow]
    · obtain ⟨i, rfl⟩ := Nat.exists_eq_add_of_le (Nat.le_of_not_lt hlow)
      have hfour := h.1
      have hlt : i < ns.length := by omega
      have hi : ns[i]? = some ns[i] := List.getElem?_eq_getElem hlt
      exact UInt8.toNat_inj.mp ((hnumber i _ hi).trans (hnumber' i _ hi).symm)
  | v6 g =>
    obtain ⟨hhead, hgap, htail⟩ := hstored
    obtain ⟨hhead', hgap', htail'⟩ := hstored'
    apply eq_of_pairs hdata hother
    intro i hi
    by_cases hfirst : i < g.head.length
    · have hget : g.head[i]? = some g.head[i] := List.getElem?_eq_getElem hfirst
      exact (hhead i _ hget).trans (hhead' i _ hget).symm
    by_cases hmiddle : i + (g.tail.getD []).length < 8
    · exact (hgap i (Nat.le_of_not_lt hfirst) hmiddle).trans
        (hgap' i (Nat.le_of_not_lt hfirst) hmiddle).symm
    · have hcount := h.2
      rw [Groups.all, List.length_append] at hcount
      obtain ⟨j, rfl⟩ : ∃ j, i = 8 - (g.tail.getD []).length + j :=
        Nat.exists_eq_add_of_le (by omega)
      have hlast : j < (g.tail.getD []).length := by omega
      have hget : (g.tail.getD [])[j]? = some (g.tail.getD [])[j] :=
        List.getElem?_eq_getElem hlast
      exact (htail j _ hget).trans (htail' j _ hget).symm

/-- What is stored is what the text means, and nothing else is. -/
theorem means_iff (h : t.Valid) : Means t a ↔ t.addr = a := by
  have hstored : Means t t.addr := by
    refine ⟨data_length h.address, stored_data h.address, fun n hn => ?_, fun hnone => ?_, rfl⟩
    · unfold NetworkText.addr
      rw [hn]
      rfl
    · unfold NetworkText.addr
      rw [hnone]
      rfl
  constructor
  · intro hmeans
    have hdata := stored_unique h.address hstored.length hmeans.length hstored.data hmeans.data
    have hprefixlen : t.addr.prefixlen = a.prefixlen := by
      cases hlead : t.prefixlen with
      | none => exact (hstored.whole hlead).trans (hmeans.whole hlead).symm
      | some n => exact (hstored.prefixlen n hlead).trans (hmeans.prefixlen n hlead).symm
    have hproto := hstored.proto.trans hmeans.proto.symm
    obtain ⟨data, prefixlen, proto⟩ := a
    exact congr (congr (congrArg IpAddr.mk hdata) hprefixlen) hproto
  · rintro rfl
    exact hstored

end meaning

/-! ### Notation -/

/-- Nothing but digits, groups of at most four of them, no colon at the end, no missing group. -/
def Written : AddressText → Prop
  | .v4 ns => ∀ n ∈ ns, n.Plain
  | .v6 g => (∀ n ∈ g.all, n.Plain ∧ n.digits.length ≤ 4) ∧ g.trailing = false ∧
      if g.tail = none then g.all.length = 8 else g.all.length ≤ 7

structure Strict (t : NetworkText) : Prop where
  valid : t.Valid
  address : Written t.address
  prefixlen : ∀ n ∈ t.prefixlen, n.Plain

/-- The text is the notation of the address. -/
def Denotes (s : Str) (a : IpAddr) : Prop := ∃ t, Strict t ∧ t.text = s ∧ Means t a

/-- The text is in the notation of an address. -/
def Notation (s : Str) : Prop := ∃ t, Strict t ∧ t.text = s

/-- A text that is made of numbers as the C library reads them, with blanks, a sign or 0x before
the digits and any number of digits, with any number of groups up to eight, gap or not, and
possibly a colon behind the last one. -/
def Loose (s : Str) : Prop := 2 ≤ s.length ∧ ∃ t : NetworkText, t.Valid ∧ t.text = s

section denoting

variable {t : NetworkText} {s : Str} {sep : Char} {ns : List Numeral} {c : Byte} {a : IpAddr}

theorem joined_length (h : ∀ n ∈ ns, n.text ≠ []) : 2 * ns.length ≤ (joined sep ns).length + 1 := by
  induction ns with
  | nil => exact Nat.zero_le _
  | cons n ns ih =>
    obtain ⟨hn, hns⟩ := List.forall_mem_cons.mp h
    have hpos := List.length_pos_iff.mpr hn
    by_cases hnil : ns = []
    · rw [hnil]
      show 2 * 1 ≤ n.text.length + 1
      omega
    · have hrest := ih hns
      rw [joined_cons hnil, List.length_append, List.length_cons, List.length_cons]
      omega

/-- The shortest texts are those with a gap and no group. -/
theorem Strict.length (h : Strict t) : 2 ≤ t.text.length := by
  have haddress : 2 ≤ t.address.text.length := by
    have hvalid := h.valid.address
    have hwritten := h.address
    cases hcase : t.address with
    | v4 ns =>
      rw [hcase] at hvalid
      have hle := @joined_length '.' ns fun n hn => text_ne_nil (hvalid.2 n hn).1
      have hfour := hvalid.1
      show 2 ≤ (joined '.' ns).length
      omega
    | v6 g =>
      rw [hcase] at hvalid hwritten
      obtain ⟨-, -, hcount⟩ := hwritten
      have hnumbers := hvalid.1.numbers
      show 2 ≤ (joined ':' g.head ++ (gapText g.tail ++ colonText g.trailing)).length
      unfold Groups.all at hcount hnumbers
      rw [List.length_append, List.length_append]
      cases htail : g.tail with
      | none =>
        rw [htail, if_pos rfl, Option.getD_none, List.append_nil] at hcount
        rw [htail, Option.getD_none, List.append_nil] at hnumbers
        have hle := @joined_length ':' g.head fun n hn => text_ne_nil (hnumbers n hn).1
        omega
      | some ms =>
        have hgap : 2 ≤ (gapText (some ms)).length := by
          show 2 ≤ (joined ':' ms).length + 1 + 1
          omega
        omega
  unfold NetworkText.text
  rw [List.length_append]
  omega

/-- A text in the notation is read as the address that it denotes. -/
theorem create_of_strict (h : Strict t) (hlength : t.text.length ≤ 43) :
    IpAddr.create t.text = some t.addr :=
  (create_iff t.text t.addr).mpr ⟨h.length, hlength, t, h.valid, rfl, rfl⟩

/-- The texts of at most 43 characters that are read are those in the notation, with what they
denote, except for the loosely written ones that are not in the notation. -/
theorem reads_notation_iff (h : s.length ≤ 43) :
    (∀ a, IpAddr.create s = some a ↔ Denotes s a) ↔ (Loose s → Notation s) := by
  constructor
  · rintro hreads ⟨hlength, t, hvalid, htext⟩
    have hcreate := (create_iff s t.addr).mpr ⟨hlength, h, t, hvalid, htext, rfl⟩
    obtain ⟨t', hstrict, htext', -⟩ := (hreads t.addr).mp hcreate
    exact ⟨t', hstrict, htext'⟩
  · intro hloose a
    constructor
    · intro hcreate
      obtain ⟨hlength, -, t, hvalid, htext, -⟩ := (create_iff s a).mp hcreate
      obtain ⟨t', hstrict, rfl⟩ := hloose ⟨hlength, t, hvalid, htext⟩
      rw [create_of_strict hstrict h] at hcreate
      exact ⟨t', hstrict, rfl, (means_iff hstrict.valid).mpr (Option.some.inj hcreate)⟩
    · rintro ⟨t, hstrict, rfl, hmeans⟩
      obtain rfl := (means_iff hstrict.valid).mp hmeans
      exact create_of_strict hstrict h

theorem plain_text {n : Numeral} (h : n.Plain) : n.text = n.digits := by
  unfold Numeral.text
  rw [h.1, h.2.1, h.2.2]
  rfl

theorem plain_digit {n : Numeral} {base : ℕ} (hbase : base ≤ 16) (hn : n.Valid base) (h : n.Plain)
    (hc : c ∈ n.text) : digitVal c < 16 := by
  rw [plain_text h] at hc
  have := hn.digits c hc
  omega

/-- The characters of the notation. -/
theorem Strict.chars (h : Strict t) (hc : c ∈ t.text) :
    digitVal c < 16 ∨ c = chr ':' ∨ c = chr '.' ∨ c = chr '/' := by
  have haddress (hmem : c ∈ t.address.text) : digitVal c < 16 ∨ c = chr ':' ∨ c = chr '.' := by
    have hvalid := h.valid.address
    have hwritten := h.address
    cases hcase : t.address with
    | v4 ns =>
      rw [hcase] at hvalid hwritten hmem
      rcases mem_joined hmem with hdot | ⟨n, hn, hcn⟩
      · exact Or.inr (Or.inr hdot)
      · exact Or.inl (plain_digit (by decide) (hvalid.2 n hn).1 (hwritten n hn) hcn)
    | v6 g =>
      rw [hcase] at hvalid hwritten hmem
      rcases mem_groups hmem with hcolon | ⟨n, hn, hcn⟩
      · exact Or.inr (Or.inl hcolon)
      · exact Or.inl (plain_digit (by decide) (hvalid.1.numbers n hn).1 (hwritten.1 n hn).1 hcn)
  unfold NetworkText.text at hc
  rcases List.mem_append.mp hc with hc | hc
  · rcases haddress hc with hdigit | hcolon | hdot
    · exact Or.inl hdigit
    · exact Or.inr (Or.inl hcolon)
    · exact Or.inr (Or.inr (Or.inl hdot))
  · cases hlead : t.prefixlen with
    | none =>
      rw [hlead] at hc
      cases hc
    | some n =>
      rw [hlead] at hc
      rcases List.mem_cons.mp hc with hslash | hcn
      · exact Or.inr (Or.inr (Or.inr hslash))
      · exact Or.inl (plain_digit (by decide) (h.valid.prefixlen n hlead).1 (h.prefixlen n hlead) hcn)

end denoting

section samples

def blankAddress : IpAddr := ⟨List.replicate 12 0 ++ [1, 2, 3, 4], 32, .ipv4⟩

/-- A blank is read although the notation has none. -/
theorem blank_read :
    IpAddr.create (str " 1.2.3.4") = some blankAddress ∧ ¬ Denotes (str " 1.2.3.4") blankAddress := by
  refine ⟨by decide +kernel, ?_⟩
  rintro ⟨t, hstrict, htext, -⟩
  have hblank : chr ' ' ∈ t.text := by
    rw [htext]
    decide
  exact absurd (hstrict.chars hblank) (by decide)

def number (digits : String) : Numeral := ⟨[], [], [], str digits⟩

theorem number_valid {base : ℕ} {digits : String} (hsome : str digits ≠ [])
    (hdigits : ∀ c ∈ str digits, digitVal c < base) : (number digits).Valid base :=
  ⟨fun c hc => (by cases hc), Or.inl rfl, Or.inl rfl, hsome, hdigits⟩

def gapNumbers : List Numeral × List Numeral :=
  ([number "2001", number "db8"], [number "1", number "2"])

def gapNetwork : NetworkText :=
  ⟨.v6 ⟨gapNumbers.1, some gapNumbers.2, false⟩, some (number "64")⟩

theorem strict_gapNetwork : Strict gapNetwork := by
  have hplain (digits : String) : (number digits).Plain := ⟨rfl, rfl, rfl⟩
  have hlength : (number "64").Valid 10 := number_valid (by decide) (by decide +kernel)
  have hgroup (digits : String) (hsome : str digits ≠ []) (hfour : (str digits).length ≤ 4)
      (hdigits : ∀ c ∈ str digits, digitVal c < 16) (hvalue : (number digits).value 16 ≤ 0xffff) :
      Word (number digits) ∧ (number digits).Plain ∧ (number digits).digits.length ≤ 4 :=
    ⟨⟨number_valid hsome hdigits, hvalue⟩, hplain digits, hfour⟩
  have hnumbers : ∀ n ∈ gapNumbers.1 ++ gapNumbers.2,
      Word n ∧ n.Plain ∧ n.digits.length ≤ 4 := by
    intro n hn
    rcases List.mem_cons.mp hn with rfl | hn
    · exact hgroup "2001" (by decide) (by decide) (by decide +kernel) (by decide +kernel)
    rcases List.mem_cons.mp hn with rfl | hn
    · exact hgroup "db8" (by decide) (by decide) (by decide +kernel) (by decide +kernel)
    rcases List.mem_pair.mp hn with rfl | rfl
    · exact hgroup "1" (by decide) (by decide) (by decide +kernel) (by decide +kernel)
    · exact hgroup "2" (by decide) (by decide) (by decide +kernel) (by decide +kernel)
  refine ⟨⟨⟨⟨fun n hn => (hnumbers n hn).1, fun h => by cases h⟩, by decide⟩, ?_⟩,
    ⟨fun n hn => (hnumbers n hn).2, rfl, by decide⟩, ?_⟩
  · intro n hn
    obtain rfl := Option.some.inj hn
    exact ⟨hlength, by decide⟩
  · intro n hn
    obtain rfl := Option.some.inj hn
    exact hplain "64"

/-- The groups of `2001:db8::1:2` are in the first and in the last places. -/
theorem gapNetwork_read :
    IpAddr.create (str "2001:db8::1:2/64") =
        some ⟨[0x20, 0x01, 0x0d, 0xb8, 0, 0, 0, 0, 0, 0, 0, 0, 0, 1, 0, 2], 64, .ipv6⟩ ↔
      Denotes (str "2001:db8::1:2/64")
        ⟨[0x20, 0x01, 0x0d, 0xb8, 0, 0, 0, 0, 0, 0, 0, 0, 0, 1, 0, 2], 64, .ipv6⟩ :=
  (reads_notation_iff (by decide)).mpr (fun _ => ⟨gapNetwork, strict_gapNetwork, rfl⟩) _

end samples

end Swad.AddressNotation
