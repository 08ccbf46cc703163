import Mathlib.Data.List.DropRight
import Swad.LastRing
import Swad.ProxyTrust

/-!
The list of remote addresses, as it is put together from any number of X-Forwarded-For
lines. The values of the lines are kept in a ring of sixteen, which is walked back from the
last one, and every value gives its addresses from the right; the list is complete with
sixteen of them. Since every line has an address, no line that the ring has lost is missed.
-/
namespace Swad.ForwardedLines

open Bytes Util Headerset Proxylist ProxyTrust LastRing

/-! ### Values of a header -/

/-- The loop over the values, from the slot that was written last. -/
def walk (rfc7239 : Bool) (hdrVal : Fin 16 → Option Str) : ℕ → Fin 16 → List Str →
    Option (List Str)
  | 0, _, addr => some addr
  | hdrValCount + 1, lastHdrVal, addr =>
    match hdrVal lastHdrVal with
    | none => none
    | some val =>
      match parseHdrVal (16 - addr.length) val rfc7239 with
      | none => none
      | some p =>
        let addr := addr ++ p.addrs
        if !p.ok || p.addrs = [] then some addr
        else if addr.length = 16 then some addr
        else walk rfc7239 hdrVal hdrValCount (before lastHdrVal) addr

def proxyAddr (i : HeaderIterator) (rfc7239 : Bool) : Option (List RemoteEntry) :=
  let hdrVal : Kept Str 16 := (i.visited.map Header.value).foldl Kept.put Kept.empty
  (walk rfc7239 hdrVal.slots (min hdrVal.count 16) hdrVal.last []).map
    (fun addr => addr.reverse.map (fun a => ⟨a, none⟩))

def forwarded (hdrs : HeaderSet) (header : ProxyHeader) (rfc7239 : Bool) :
    Option (List RemoteEntry) :=
  if header.trusts rfc7239 then proxyAddr (hdrs.iterator (headernm rfc7239)) rfc7239
  else some []

/-- The list with the peer at its end. -/
def get (hdrs : HeaderSet) (trusted : TrustConfig) (peer : RemoteEntry) :
    Option (List RemoteEntry) := do
  let preferred ← forwarded hdrs trusted.header trusted.header.prefrfc
  let list ←
    if preferred = [] then forwarded hdrs trusted.header (!trusted.header.prefrfc)
    else some preferred
  return list ++ [peer]

section ring

variable {rfc7239 : Bool}

/-- The walk meets the values up to a place from the right, as many as it counts. -/
theorem walk_eq (values : List Str) (c : ℕ) {j : ℕ} (hj : j < values.length)
    (hcount : c ≤ j + 1) (hlast : values.length + c ≤ j + 17) (addr : List Str) :
    walk rfc7239 (values.foldl Kept.put (Kept.empty : Kept Str 16)).slots c (Fin.ofNat 16 j) addr =
      proxyLoop rfc7239 addr ((values.take (j + 1)).reverse.take c) := by
  induction c generalizing j addr with
  | zero => rfl
  | succ c ih =>
    have hslot := @foldl_slots Str 16 _ values j hj (by omega)
    have hat : values[j]? = some values[j] := List.getElem?_eq_getElem hj
    have htake : (values.take (j + 1)).reverse.take (c + 1) =
        values[j] :: (values.take j).reverse.take c := by
      rw [List.take_succ_eq_append_getElem hj, List.reverse_append, List.reverse_singleton,
        List.singleton_append, List.take_succ_cons]
    rw [htake, walk, proxyLoop, hslot, hat]
    dsimp only
    cases hparse : parseHdrVal (16 - addr.length) values[j] rfc7239 with
    | none => rfl
    | some p =>
      dsimp only
      by_cases hstop : (!p.ok || p.addrs = []) = true
      · rw [if_pos hstop, if_pos (by simp [hstop])]
      rw [if_neg hstop]
      by_cases hfull : (addr ++ p.addrs).length = 16
      · rw [if_pos hfull, if_pos (by simp [hfull])]
      have hgo : ¬ (!p.ok || p.addrs = [] || (addr ++ p.addrs).length = 16) = true := by
        rw [Bool.or_eq_true, decide_eq_true_eq]
        exact not_or.mpr ⟨hstop, hfull⟩
      rw [if_neg hfull, if_neg hgo]
      cases c with
      | zero => rfl
      | succ c =>
        obtain ⟨i, rfl⟩ : ∃ i, j = i + 1 := ⟨j - 1, by omega⟩
        rw [before_ofNat]
        exact ih (by omega) (by omega) (by omega) _

/-- The ring and the index that runs back around it give the last values, newest first. -/
theorem proxyAddr_eq (hdrs : HeaderSet) (name : Str) :
    proxyAddr (hdrs.iterator name) rfc7239 =
      Proxylist.proxyAddr ((hdrs.any name).map Header.value) rfc7239 := by
  unfold proxyAddr Proxylist.proxyAddr
  rw [HeaderSet.visited_iterator]
  generalize (hdrs.any name).map Header.value = values
  dsimp only
  congr 1
  rw [foldl_count]
  induction values using List.reverseRecOn with
  | nil => rfl
  | append_singleton values value _ =>
    have hlength : values.length + 1 = (values ++ [value]).length := by simp
    have htake : (values ++ [value]).reverse.take (min (values ++ [value]).length 16) =
        (values ++ [value]).reverse.take 16 := by
      rw [← List.length_reverse, List.take_eq_take_iff, List.length_reverse]
      omega
    rw [foldl_last, walk_eq (values ++ [value]) _ (by omega) (by omega) (by omega) [], hlength,
      List.take_length, htake]

theorem get_eq (hdrs : HeaderSet) (trusted : TrustConfig) (peer : RemoteEntry) :
    get hdrs trusted peer = Proxylist.get hdrs trusted peer := by
  have hforwarded : forwarded = Proxylist.forwarded := by
    funext hdrs header rfc7239
    unfold forwarded Proxylist.forwarded
    rw [proxyAddr_eq]
  unfold get Proxylist.get
  rw [hforwarded]

end ring

/-! ### Lines -/

/-- A header line: its first address, and the others, each with the number of blanks that
stand between the comma before it and itself. -/
structure Line where
  first : Str
  more : List (ℕ × Str)

def Line.addrs (self : Line) : List Str := self.first :: self.more.map Prod.snd

def appendedText (x : ℕ × Str) : Str := chr ',' :: (List.replicate x.1 (chr ' ') ++ x.2)

def Line.text (self : Line) : Str := self.first ++ self.more.flatMap appendedText

/-- An address as it is given without quotes, brackets and port. -/
structure IsAddress (a : Str) : Prop where
  nonempty : a ≠ []
  length : a.length ≤ 511
  bytes : ∀ c ∈ a, c ≠ chr ',' ∧ c ≠ chr ' ' ∧ c ≠ chr '"' ∧ c ≠ chr '\\' ∧ c ≠ chr '[' ∧
    c ≠ chr ']'
  colons : a.count (chr ':') ≠ 1

section lines

variable {a : Str}

theorem IsAddress.no_comma (h : IsAddress a) : chr ',' ∉ a := fun hm => (h.bytes _ hm).1 rfl

/-- The last address of a line, however many blanks stand before it. -/
theorem IsAddress.hdrEntry_appended (h : IsAddress a) (w : Str) (n : ℕ) :
    hdrEntry (w ++ appendedText (n, a)) false = some (a, w) := by
  have hcomma : chr ',' ∉ List.replicate n (chr ' ') ++ a := by
    rw [List.mem_append, not_or]
    exact ⟨fun hm => absurd (List.eq_of_mem_replicate hm) (by decide), h.no_comma⟩
  have hblanks : (List.replicate n (chr ' ') ++ a).dropWhile (· == chr ' ') = a := by
    rw [List.dropWhile_append_of_pos (by simp)]
    refine dropWhile_space fun hhead => ?_
    exact (h.bytes _ (List.mem_of_mem_head? hhead)).2.1 rfl
  unfold hdrEntry appendedText
  rw [List.reverse_append, List.reverse_cons, List.append_assoc, List.singleton_append,
    loop_unquoted _ hcomma, List.append_nil, hdrEntryLoop]
  simp only [show chr ',' ≠ chr '"' by decide, if_false, Bool.not_false, Bool.and_true,
    decide_true, if_true, hblanks, List.reverse_reverse]

theorem IsAddress.hdrEntry_first (h : IsAddress a) : hdrEntry a false = some (a, []) := by
  have hloop := loop_unquoted a h.no_comma [] []
  rw [List.append_nil, List.append_nil] at hloop
  unfold hdrEntry
  rw [hloop]
  rfl

theorem IsAddress.parseEntry (h : IsAddress a) : parseEntry a false = some (some a) := by
  obtain ⟨lastcolon, hcollect, _⟩ := collect_plain a (fun c hc => ⟨(h.bytes c hc).2.2.2.1,
    (h.bytes c hc).2.2.1, (h.bytes c hc).2.2.2.2.1, (h.bytes c hc).2.2.2.2.2⟩) fresh rfl []
  rw [List.append_nil] at hcollect
  refine parseEntry_of_value h.length rfl ?_ h.nonempty
  rw [hcollect]
  unfold collect Collect.address
  have hcolons : 0 + a.count (chr ':') ≠ 1 := by
    have hne := h.colons
    omega
  exact if_neg hcolons

/-- A line gives its addresses from the right, as many as are asked for. -/
theorem parseLoop_line (line : Line) (h : ∀ a ∈ line.addrs, IsAddress a) (n : ℕ) :
    parseLoop false n line.text = some ⟨line.addrs.reverse.take n, true⟩ := by
  obtain ⟨first, more⟩ := line
  have hfirst : IsAddress first := h first List.mem_cons_self
  induction more using List.reverseRecOn generalizing n with
  | nil =>
    have htext : (Line.text ⟨first, []⟩) = first := List.append_nil first
    rw [htext]
    cases n with
    | zero => rfl
    | succ n =>
      rw [parseLoop, if_neg hfirst.nonempty, hfirst.hdrEntry_first]
      dsimp only
      rw [hfirst.parseEntry]
      cases n <;> rfl
  | append_singleton more x ih =>
    obtain ⟨blanks, a⟩ := x
    have ha : IsAddress a := h a (by simp [Line.addrs])
    have hrest : ∀ b ∈ Line.addrs ⟨first, more⟩, IsAddress b := by
      intro b hb
      apply h b
      unfold Line.addrs at hb ⊢
      rw [List.map_append, ← List.cons_append]
      exact List.mem_append_left _ hb
    have htext : Line.text ⟨first, more ++ [(blanks, a)]⟩ =
        Line.text ⟨first, more⟩ ++ appendedText (blanks, a) := by
      unfold Line.text
      rw [List.flatMap_append, List.flatMap_singleton, List.append_assoc]
    have haddrs : (Line.addrs ⟨first, more ++ [(blanks, a)]⟩).reverse =
        a :: (Line.addrs ⟨first, more⟩).reverse := by
      unfold Line.addrs
      rw [List.map_append, ← List.cons_append, List.reverse_append]
      rfl
    cases n with
    | zero => rfl
    | succ n =>
      have hne : Line.text ⟨first, more ++ [(blanks, a)]⟩ ≠ [] := by
        rw [htext]
        exact List.append_ne_nil_of_right_ne_nil _ (List.cons_ne_nil _ _)
      rw [parseLoop, if_neg hne, htext, ha.hdrEntry_appended]
      dsimp only
      rw [ha.parseEntry, haddrs, List.take_succ_cons]
      dsimp only
      rw [ih n hrest]
      rfl

theorem parseHdrVal_line (line : Line) (h : ∀ a ∈ line.addrs, IsAddress a)
    (hlength : line.text.length ≤ 8191) (n : ℕ) :
    parseHdrVal n line.text false = some ⟨line.addrs.reverse.take n, true⟩ := by
  rw [parseHdrVal, Nat.sub_eq_zero_of_le hlength, List.drop_zero, parseLoop_line line h]

end lines

section lists

/-- If each part has something, the first parts have as much as is taken. -/
theorem take_flatMap_take {α β : Type} {f : α → List β} {l : List α} (h : ∀ a ∈ l, f a ≠ [])
    (n : ℕ) : ((l.take n).flatMap f).take n = (l.flatMap f).take n := by
  induction l generalizing n with
  | nil => rw [List.take_nil]
  | cons a l ih =>
    cases n with
    | zero => rfl
    | succ n =>
      have hpos : 0 < (f a).length := List.length_pos_iff.mpr (h a List.mem_cons_self)
      have hrest := ih (fun b hb => h b (List.mem_cons_of_mem a hb)) n
      rw [List.take_succ_cons, List.flatMap_cons, List.flatMap_cons, List.take_append,
        List.take_append]
      congr 1
      have hle : n + 1 - (f a).length ≤ n := by omega
      have hcut := congrArg (List.take (n + 1 - (f a).length)) hrest
      rw [List.take_take, List.take_take, Nat.min_eq_left hle] at hcut
      exact hcut

/-- All lines together give the addresses from the right, up to sixteen. -/
theorem proxyLoop_lines (lines : List Line)
    (h : ∀ line ∈ lines, (∀ a ∈ line.addrs, IsAddress a) ∧ line.text.length ≤ 8191)
    {addr : List Str} (haddr : addr.length < 16) :
    proxyLoop false addr (lines.map Line.text) =
      some ((addr ++ lines.flatMap fun line => line.addrs.reverse).take 16) := by
  induction lines generalizing addr with
  | nil =>
    rw [List.flatMap_nil, List.append_nil, List.take_of_length_le (Nat.le_of_lt haddr)]
    rfl
  | cons line lines ih =>
    obtain ⟨haddrs, hlength⟩ := h line List.mem_cons_self
    have hrest : ∀ l ∈ lines, (∀ a ∈ l.addrs, IsAddress a) ∧ l.text.length ≤ 8191 :=
      fun l hl => h l (List.mem_cons_of_mem line hl)
    have hfull : addr ++ line.addrs.reverse.take (16 - addr.length) =
        (addr ++ line.addrs.reverse).take 16 := by
      rw [List.take_append, List.take_of_length_le (Nat.le_of_lt haddr)]
    have hne : line.addrs.reverse.take (16 - addr.length) ≠ [] := by
      rw [Ne, List.take_eq_nil_iff, not_or]
      exact ⟨by omega, by simp [Line.addrs]⟩
    rw [List.map_cons, proxyLoop, parseHdrVal_line line haddrs hlength, List.flatMap_cons,
      ← List.append_assoc]
    dsimp only
    rw [hfull]
    generalize hall : addr ++ line.addrs.reverse = all
    by_cases hstop : (all.take 16).length = 16
    · rw [if_pos (by simp only [hstop, decide_true, Bool.or_true])]
      rw [List.length_take] at hstop
      rw [List.take_append_of_le_length (by omega)]
    · have hgo : ¬ ((!true || (line.addrs.reverse.take (16 - addr.length) = [])) ||
          (all.take 16).length = 16) = true := by
        simp only [hne, hstop, decide_false, Bool.not_true, Bool.or_false]
        exact Bool.false_ne_true
      rw [List.length_take] at hstop
      rw [if_neg hgo, List.take_of_length_le (by omega), ih hrest (by omega)]

end lists

/-- The addresses of all lines, in their order, however they are grouped and spaced: the list
has the last sixteen of them, and the peer at its end. -/
theorem get_of_lines (headers : List Header) (lines : List Line) (trusted : TrustConfig)
    (peer : RemoteEntry)
    (hheaders : (headers.filter fun h => h.key == lowerstr (str "X-Forwarded-For")).map
      Header.value = lines.map Line.text)
    (haddrs : ∀ line ∈ lines, ∀ a ∈ line.addrs, IsAddress a)
    (hlength : ∀ line ∈ lines, line.text.length ≤ 8191)
    (hxfwd : trusted.header.xfwd = true) (hrfc : trusted.header.rfc = false) :
    get (headers.foldl HeaderSet.add HeaderSet.create) trusted peer =
      some (((lines.flatMap Line.addrs).rtake 16).map (fun a => ⟨a, none⟩) ++ [peer]) := by
  have hvalues : ((headers.foldl HeaderSet.add HeaderSet.create).any (headernm false)).map
      Header.value = lines.map Line.text := by
    rw [HeaderSet.any_foldl]
    exact hheaders
  have hreverse : lines.reverse.flatMap (fun line => line.addrs.reverse) =
      (lines.flatMap Line.addrs).reverse := by
    rw [List.reverse_flatMap]
    rfl
  have hloop : proxyLoop false [] ((lines.map Line.text).reverse.take 16) =
      some ((lines.flatMap Line.addrs).reverse.take 16) := by
    have hsome : ∀ line ∈ lines.reverse, line.addrs.reverse ≠ [] := by
      intro line _
      simp [Line.addrs]
    rw [← List.map_reverse, ← List.map_take, proxyLoop_lines _ _ (by decide), List.nil_append,
      take_flatMap_take hsome, hreverse]
    intro line hline
    have hmem : line ∈ lines := List.mem_reverse.mp (List.mem_of_mem_take hline)
    exact ⟨haddrs line hmem, hlength line hmem⟩
  have hlist : Proxylist.forwarded (headers.foldl HeaderSet.add HeaderSet.create) trusted.header
      false = some (((lines.flatMap Line.addrs).rtake 16).map (fun a => ⟨a, none⟩)) := by
    have htrusts : trusted.header.trusts false = true := hxfwd
    rw [Proxylist.forwarded, if_pos htrusts, hvalues, Proxylist.proxyAddr, hloop, Option.map_some,
      List.rtake_eq_reverse_take_reverse]
  have hother : Proxylist.forwarded (headers.foldl HeaderSet.add HeaderSet.create) trusted.header
      true = some [] := by
    rw [Proxylist.forwarded, if_neg]
    simp [ProxyHeader.trusts, hrfc]
  rw [get_eq]
  unfold Proxylist.get
  cases hpref : trusted.header.prefrfc with
  | false =>
    rw [hlist, Bool.not_false, hother]
    simp only [Option.bind_eq_bind, Option.bind_some, Option.pure_def]
    split
    · next hempty => rw [hempty]
    · rfl
  | true =>
    rw [hother, Bool.not_true, hlist]
    rfl

instance (a : Str) : Decidable (IsAddress a) :=
  decidable_of_iff (a ≠ [] ∧ a.length ≤ 511 ∧ (∀ c ∈ a, c ≠ chr ',' ∧ c ≠ chr ' ' ∧
      c ≠ chr '"' ∧ c ≠ chr '\\' ∧ c ≠ chr '[' ∧ c ≠ chr ']') ∧ a.count (chr ':') ≠ 1)
    ⟨fun h => ⟨h.1, h.2.1, h.2.2.1, h.2.2.2⟩, fun h => ⟨h.nonempty, h.length, h.bytes, h.colons⟩⟩

/-- Three addresses in two lines, with another header between them. -/
def sampleLines : List Line :=
  [⟨str "192.0.2.1", [(1, str "2001:db8::1")]⟩, ⟨str "198.51.100.7", []⟩]

def sampleHeaders : List Header :=
  [⟨str "X-Forwarded-For", str "192.0.2.1, 2001:db8::1", by decide⟩,
    ⟨str "Host", str "localhost", by decide⟩,
    ⟨str "x-forwarded-for", str "198.51.100.7", by decide⟩]

theorem get_of_lines_sample :
    get (sampleHeaders.foldl HeaderSet.add HeaderSet.create) ⟨1, ⟨true, false, false⟩⟩
        ⟨str "10.0.0.1", none⟩ =
      some (((sampleLines.flatMap Line.addrs).rtake 16).map (fun a => ⟨a, none⟩) ++
        [⟨str "10.0.0.1", none⟩]) :=
  get_of_lines sampleHeaders sampleLines ⟨1, ⟨true, false, false⟩⟩ ⟨str "10.0.0.1", none⟩
    (by decide +kernel) (by decide +kernel) (by decide +kernel) rfl rfl

end Swad.ForwardedLines
