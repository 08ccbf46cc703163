import Mathlib.Data.List.Forall2
import Swad.Proxylist

/-!
The address that identifies the client behind trusted proxies. The elements that
the proxies append are split off intact whatever text stands before them, so the
position of the trusted entry never depends on that text; whether the entry holds
the client's address depends on how the proxies' own elements are read.
-/
namespace Swad.ProxyTrust

open Bytes Util Headerset Proxylist

/-! ### Elements that a proxy appends -/

def isTchar (c : Byte) : Bool :=
  isupper c || (chr 'a' ≤ c && c ≤ chr 'z') || isdigit c || c ∈ str "!#$%&'*+-.^_`|~"

def IsToken (s : Str) : Prop := s ≠ [] ∧ ∀ c ∈ s, isTchar c = true

/-- An address written with colons, of which it has at least two. -/
def IsV6 (a : Str) : Prop :=
  2 ≤ a.count (chr ':') ∧ ∀ c ∈ a, isTchar c = true ∨ c = chr ':'

/-- The text of a node with the given address: an IPv6 address stands in brackets,
a port may follow. -/
inductive Node (a : Str) : Str → Prop
  | host (h : IsToken a) : Node a a
  | hostPort (h : IsToken a) (port : Str) (hport : IsToken port) : Node a (a ++ chr ':' :: port)
  | v6 (h : IsV6 a) : Node a (chr '[' :: (a ++ [chr ']']))
  | v6Port (h : IsV6 a) (port : Str) (hport : IsToken port) :
      Node a (chr '[' :: (a ++ chr ']' :: chr ':' :: port))

/-- A byte of a quoted string, possibly written with a backslash. -/
structure QChar where
  esc : Bool
  byte : Byte

def QChar.Valid (self : QChar) : Prop :=
  self.esc = true ∨ (self.byte ≠ chr '"' ∧ self.byte ≠ chr '\\')

def QChar.render (self : QChar) : Str :=
  if self.esc then [chr '\\', self.byte] else [self.byte]

inductive Value
  | token (s : Str)
  | quoted (chars : List QChar)

def Value.Valid : Value → Prop
  | token s => IsToken s
  | quoted chars => ∀ c ∈ chars, c.Valid

def Value.render : Value → Str
  | token s => s
  | quoted chars => chr '"' :: (chars.flatMap QChar.render ++ [chr '"'])

def Value.text : Value → Str
  | token s => s
  | quoted chars => chars.map QChar.byte

structure Pair where
  name : Str
  value : Value

def Pair.Valid (self : Pair) : Prop := IsToken self.name ∧ self.value.Valid

def Pair.render (self : Pair) : Str := self.name ++ chr '=' :: self.value.render

def isFor (name : Str) : Bool := lowerstr name == str "for"

/-- An element of the Forwarded header: pairs separated by semicolons, some of them
empty, and exactly one for parameter. -/
structure Element where
  before : List (Option Pair)
  name : Str
  value : Value
  after : List (Option Pair)

def renderOpt (pair : Option Pair) : Str := pair.elim [] Pair.render

def Element.render (self : Element) : Str :=
  self.before.flatMap (fun pair => renderOpt pair ++ [chr ';']) ++
    (self.name ++ chr '=' :: self.value.render) ++
    self.after.flatMap (fun pair => chr ';' :: renderOpt pair)

structure Element.Valid (element : Element) (a : Str) : Prop where
  before : ∀ pair ∈ element.before, ∀ q ∈ pair, q.Valid ∧ isFor q.name = false
  after : ∀ pair ∈ element.after, ∀ q ∈ pair, q.Valid ∧ isFor q.name = false
  name : IsToken element.name ∧ isFor element.name = true
  value : element.value.Valid
  node : Node a element.value.text

/-- What a proxy appends for an address, to either header. -/
def AppendedFor (rfc7239 : Bool) (a e : Str) : Prop :=
  if rfc7239 then ∃ element : Element, element.Valid a ∧ e = element.render
  else Node a e ∨ (IsV6 a ∧ e = a)

/-- The value that the client's text and the proxies' elements make up. -/
def appended (p : Option Str) (es : List Str) : Option Str :=
  es.foldl (fun val e => some (val.elim e (fun val => val ++ str ", " ++ e))) p

/-! ### Splitting -/

theorem isTchar_ne {c d : Byte} (h : isTchar c = true) (hd : isTchar d = false) : c ≠ d := by
  rintro rfl
  simp [h] at hd

theorem loop_plain (rfc quote : Bool) (w : Str) (h : ∀ c ∈ w, c ≠ chr '"' ∧ c ≠ chr ',')
    (before seen : Str) :
    hdrEntryLoop rfc quote (w.reverse ++ before) seen =
      hdrEntryLoop rfc quote before (w ++ seen) := by
  induction w using List.reverseRecOn generalizing seen with
  | nil => rfl
  | append_singleton w c ih =>
    obtain ⟨hquote, hcomma⟩ := h c (by simp)
    have hrest := ih (fun d hd => h d (List.mem_append_left _ hd)) (c :: seen)
    rw [List.reverse_append, List.reverse_singleton, List.singleton_append, List.cons_append]
    simp only [hdrEntryLoop, if_neg hquote, hcomma, decide_false, Bool.false_and,
      Bool.false_eq_true, if_false, hrest, List.append_assoc, List.singleton_append]

/-- A comma is only looked for outside of quotes when quotes count. -/
theorem loop_unquoted (w : Str) (h : chr ',' ∉ w) (before seen : Str) :
    hdrEntryLoop false false (w.reverse ++ before) seen =
      hdrEntryLoop false false before (w ++ seen) := by
  induction w using List.reverseRecOn generalizing seen with
  | nil => rfl
  | append_singleton w c ih =>
    rw [List.mem_append, List.mem_singleton, not_or] at h
    have hcomma : c ≠ chr ',' := fun heq => h.2 heq.symm
    have hrest := ih h.1 (c :: seen)
    rw [List.reverse_append, List.reverse_singleton, List.singleton_append, List.cons_append]
    by_cases hquote : c = chr '"'
    · simp only [hdrEntryLoop, if_pos hquote, Bool.false_and, Bool.false_eq_true, if_false,
        hrest, List.append_assoc, List.singleton_append]
    · simp only [hdrEntryLoop, if_neg hquote, hcomma, decide_false, Bool.false_and,
        Bool.false_eq_true, if_false, hrest, List.append_assoc, List.singleton_append]

theorem escaped_cons_of_ne {c : Byte} (h : c ≠ chr '\\') (before : Str) :
    escaped (c :: before) = false := by
  simp [escaped, h]

theorem escaped_backslash (before : Str) :
    escaped (chr '\\' :: before) = !escaped before := by
  simp only [escaped, List.takeWhile_cons, beq_self_eq_true, if_true, List.length_cons]
  exact odd_succ _

/-- Behind whole bytes of a quoted string the next byte is not escaped. -/
theorem not_escaped_quoted (chars : List QChar) (h : ∀ c ∈ chars, c.Valid) (before : Str) :
    escaped ((chars.flatMap QChar.render).reverse ++ chr '"' :: before) = false := by
  induction chars using List.reverseRecOn with
  | nil => exact escaped_cons_of_ne (by decide) before
  | append_singleton chars c ih =>
    have hrest := ih (fun d hd => h d (List.mem_append_left _ hd))
    have hc := h c (by simp)
    rw [List.flatMap_append, List.flatMap_singleton, List.reverse_append, List.append_assoc]
    obtain ⟨esc, byte⟩ := c
    cases esc with
    | true =>
      by_cases hbyte : byte = chr '\\'
      · subst hbyte
        simp [QChar.render, escaped_backslash, hrest]
      · simp [QChar.render, escaped_cons_of_ne hbyte]
    | false =>
      have hbyte : byte ≠ chr '\\' := (hc.resolve_left (by simp)).2
      simp [QChar.render, escaped_cons_of_ne hbyte]

theorem loop_quotedBody (chars : List QChar) (h : ∀ c ∈ chars, c.Valid) (before seen : Str) :
    hdrEntryLoop true true ((chars.flatMap QChar.render).reverse ++ chr '"' :: before) seen =
      hdrEntryLoop true true (chr '"' :: before) (chars.flatMap QChar.render ++ seen) := by
  induction chars using List.reverseRecOn generalizing seen with
  | nil => rfl
  | append_singleton chars c ih =>
    have hvalid : ∀ d ∈ chars, d.Valid := fun d hd => h d (List.mem_append_left _ hd)
    have hparity := not_escaped_quoted chars hvalid before
    have hc := h c (by simp)
    have hback : ¬ (chr '\\' = chr '"') := by decide
    rw [List.flatMap_append, List.flatMap_singleton, List.reverse_append, List.append_assoc]
    obtain ⟨esc, byte⟩ := c
    cases esc with
    | true =>
      simp only [QChar.render, if_true, List.reverse_cons, List.reverse_nil, List.nil_append,
        List.cons_append, hdrEntryLoop, escaped_backslash, hparity, Bool.not_false, Bool.not_true,
        Bool.and_false, Bool.false_eq_true, if_false, ite_self, if_neg hback,
        ih hvalid, List.append_assoc]
    | false =>
      have hbyte : byte ≠ chr '"' := (hc.resolve_left (by simp)).1
      simp only [QChar.render, Bool.false_eq_true, if_false, List.reverse_cons, List.reverse_nil,
        List.nil_append, List.cons_append, hdrEntryLoop, if_neg hbyte, Bool.not_true,
        Bool.and_false, ih hvalid, List.append_assoc]

/-- A quoted string that does not follow a backslash is passed as a whole. -/
theorem loop_quoted (chars : List QChar) (h : ∀ c ∈ chars, c.Valid) {before : Str}
    (hbefore : escaped before = false) (seen : Str) :
    hdrEntryLoop true false ((Value.quoted chars).render.reverse ++ before) seen =
      hdrEntryLoop true false before ((Value.quoted chars).render ++ seen) := by
  have hbody := loop_quotedBody chars h before (chr '"' :: seen)
  simp only [Value.render, List.reverse_cons, List.reverse_append, List.reverse_nil,
    List.nil_append, List.cons_append, List.append_assoc]
  rw [hdrEntryLoop]
  simp only [if_true, not_escaped_quoted chars h before, Bool.not_false, Bool.and_self, hbody]
  rw [hdrEntryLoop]
  simp only [if_true, hbefore, Bool.not_false, Bool.and_self, Bool.not_true]

theorem IsToken.plain {s : Str} (h : IsToken s) : ∀ c ∈ s, c ≠ chr '"' ∧ c ≠ chr ',' := by
  intro c hc
  exact ⟨isTchar_ne (h.2 c hc) (by decide), isTchar_ne (h.2 c hc) (by decide)⟩

theorem loop_value {value : Value} (h : value.Valid) (before seen : Str) :
    hdrEntryLoop true false (value.render.reverse ++ chr '=' :: before) seen =
      hdrEntryLoop true false (chr '=' :: before) (value.render ++ seen) := by
  cases value with
  | token s => exact loop_plain true false s h.plain _ seen
  | quoted chars => exact loop_quoted chars h (escaped_cons_of_ne (by decide) before) seen

/-- The loop passes the text as a whole and looks for the comma before it. -/
def Passes (rfc7239 : Bool) (w : Str) : Prop :=
  ∀ before seen, hdrEntryLoop rfc7239 false (w.reverse ++ before) seen =
    hdrEntryLoop rfc7239 false before (w ++ seen)

theorem Passes.append {rfc7239 : Bool} {u v : Str} (hu : Passes rfc7239 u)
    (hv : Passes rfc7239 v) : Passes rfc7239 (u ++ v) := by
  intro before seen
  rw [List.reverse_append, List.append_assoc, hv, hu, List.append_assoc]

theorem passes_nil (rfc7239 : Bool) : Passes rfc7239 [] := fun _ _ => rfl

theorem passes_byte (rfc7239 : Bool) {c : Byte} (h : c ≠ chr '"' ∧ c ≠ chr ',') :
    Passes rfc7239 [c] := by
  apply loop_plain
  intro d hd
  rw [List.mem_singleton.mp hd]
  exact h

theorem Pair.Valid.passes {pair : Pair} (h : pair.Valid) : Passes true pair.render := by
  have hvalue : Passes true (chr '=' :: pair.value.render) := by
    intro before seen
    rw [List.reverse_cons, List.append_assoc, List.singleton_append, loop_value h.2]
    exact passes_byte true ⟨by decide, by decide⟩ before (pair.value.render ++ seen)
  exact Passes.append (loop_plain true false pair.name h.1.plain) hvalue

theorem passes_flatMap {α : Type*} (f : α → Str) (xs : List α)
    (h : ∀ x ∈ xs, Passes true (f x)) : Passes true (xs.flatMap f) := by
  induction xs with
  | nil => exact passes_nil true
  | cons x xs ih =>
    rw [List.flatMap_cons]
    exact (h x (by simp)).append (ih (fun y hy => h y (List.mem_cons_of_mem x hy)))

theorem renderOpt_passes {pair : Option Pair}
    (h : ∀ q ∈ pair, q.Valid ∧ isFor q.name = false) : Passes true (renderOpt pair) := by
  cases pair with
  | none => exact passes_nil true
  | some q => exact (h q rfl).1.passes

theorem Element.Valid.passes {element : Element} {a : Str} (h : element.Valid a) :
    Passes true element.render := by
  have hsemicolon : Passes true [chr ';'] := passes_byte true ⟨by decide, by decide⟩
  have hfor : Pair.Valid ⟨element.name, element.value⟩ := ⟨h.name.1, h.value⟩
  refine ((passes_flatMap _ _ ?_).append hfor.passes).append (passes_flatMap _ _ ?_)
  · intro pair hpair
    exact (renderOpt_passes (h.before pair hpair)).append hsemicolon
  · intro pair hpair
    exact hsemicolon.append (renderOpt_passes (h.after pair hpair))

/-- The bytes of a node: none of them is a comma, a space or a semicolon. -/
theorem Node.bytes {a text : Str} (h : Node a text) :
    ∀ c ∈ text, isTchar c = true ∨ c = chr ':' ∨ c = chr '[' ∨ c = chr ']' := by
  intro c hc
  cases h with
  | host ha => exact Or.inl (ha.2 c hc)
  | hostPort ha port hport =>
    rw [List.mem_append, List.mem_cons] at hc
    rcases hc with hc | rfl | hc
    · exact Or.inl (ha.2 c hc)
    · exact Or.inr (Or.inl rfl)
    · exact Or.inl (hport.2 c hc)
  | v6 ha =>
    simp only [List.mem_cons, List.mem_append, List.not_mem_nil, or_false] at hc
    rcases hc with rfl | hc | rfl
    · simp
    · rcases ha.2 c hc with hc | rfl <;> simp [*]
    · simp
  | v6Port ha port hport =>
    simp only [List.mem_cons, List.mem_append] at hc
    rcases hc with rfl | hc | rfl | rfl | hc
    · simp
    · rcases ha.2 c hc with hc | rfl <;> simp [*]
    · simp
    · simp
    · exact Or.inl (hport.2 c hc)

theorem Node.ne_nil {a text : Str} (h : Node a text) : text ≠ [] := by
  cases h with
  | host ha => exact ha.1
  | hostPort => simp
  | v6 => simp
  | v6Port => simp

theorem isV6_ne_nil {a : Str} (h : IsV6 a) : a ≠ [] := by
  rintro rfl
  have := h.1
  simp at this

/-- What a proxy appends is passed as a whole and starts with no space. -/
structure Splittable (rfc7239 : Bool) (e : Str) : Prop where
  passes : Passes rfc7239 e
  ne_nil : e ≠ []
  head : e.head? ≠ some (chr ' ')

theorem head_ne_of_mem {e : Str} {d : Byte} (h : ∀ c ∈ e, c ≠ d) : e.head? ≠ some d := by
  cases e with
  | nil => simp
  | cons c e =>
    intro heq
    exact h c (by simp) (Option.some.inj heq)

theorem node_ne {c d : Byte} (h : isTchar c = true ∨ c = chr ':' ∨ c = chr '[' ∨ c = chr ']')
    (hd : isTchar d = false) (hcolon : chr ':' ≠ d) (hopen : chr '[' ≠ d)
    (hclose : chr ']' ≠ d) : c ≠ d := by
  rcases h with h | rfl | rfl | rfl
  · exact isTchar_ne h hd
  · exact hcolon
  · exact hopen
  · exact hclose

theorem splittable_of_bytes {e : Str} (hne : e ≠ [])
    (h : ∀ c ∈ e, isTchar c = true ∨ c = chr ':' ∨ c = chr '[' ∨ c = chr ']') :
    Splittable false e := by
  refine ⟨?_, hne, ?_⟩
  · apply loop_unquoted
    intro hmem
    exact node_ne (h _ hmem) (by decide) (by decide) (by decide) (by decide) rfl
  · apply head_ne_of_mem
    intro c hc
    exact node_ne (h c hc) (by decide) (by decide) (by decide) (by decide)

theorem IsToken.head_ne {s : Str} (h : IsToken s) : s.head? ≠ some (chr ' ') :=
  head_ne_of_mem (fun c hc => isTchar_ne (h.2 c hc) (by decide))

theorem head?_append_token {s : Str} (h : s ≠ []) (t : Str) : (s ++ t).head? = s.head? := by
  cases s with
  | nil => exact absurd rfl h
  | cons c s => rfl

theorem Element.Valid.head_ne {element : Element} {a : Str} (h : element.Valid a) :
    element.render ≠ [] ∧ element.render.head? ≠ some (chr ' ') := by
  have hne : element.name ≠ [] := h.name.1.1
  cases hbefore : element.before with
  | nil =>
    simp only [Element.render, hbefore, List.flatMap_nil, List.nil_append, List.append_assoc]
    rw [head?_append_token hne]
    exact ⟨by simp [hne], h.name.1.head_ne⟩
  | cons pair rest =>
    simp only [Element.render, hbefore, List.flatMap_cons, List.append_assoc]
    cases pair with
    | none => exact ⟨by simp [renderOpt], by simp [renderOpt]; decide⟩
    | some q =>
      have hq := (h.before (some q) (by simp [hbefore]) q rfl).1.1
      simp only [renderOpt, Option.elim_some, Pair.render, List.append_assoc]
      rw [head?_append_token hq.1]
      exact ⟨by simp [hq.1], hq.head_ne⟩

theorem splittable_of_appended {rfc7239 : Bool} {a e : Str} (h : AppendedFor rfc7239 a e) :
    Splittable rfc7239 e := by
  cases rfc7239 with
  | false =>
    rcases h with h | ⟨ha, rfl⟩
    · exact splittable_of_bytes h.ne_nil h.bytes
    · refine splittable_of_bytes (isV6_ne_nil ha) (fun c hc => ?_)
      rcases ha.2 c hc with hc | rfl <;> simp [*]
  | true =>
    obtain ⟨element, hvalid, rfl⟩ := h
    exact ⟨hvalid.passes, hvalid.head_ne.1, hvalid.head_ne.2⟩

theorem dropWhile_space {e : Str} (h : e.head? ≠ some (chr ' ')) :
    e.dropWhile (· == chr ' ') = e := by
  cases e with
  | nil => rfl
  | cons c e =>
    have hne : c ≠ chr ' ' := fun heq => h (by simp [heq])
    simp [hne]

/-- The element after the last appended comma is split off, whatever stands before. -/
theorem Splittable.hdrEntry_append {rfc7239 : Bool} {e : Str} (h : Splittable rfc7239 e)
    (front : Str) : hdrEntry (front ++ str ", " ++ e) rfc7239 = some (e, front) := by
  have hspace : Passes rfc7239 ([chr ' '] ++ e) :=
    (passes_byte rfc7239 ⟨by decide, by decide⟩).append h.passes
  have hloop := hspace (chr ',' :: front.reverse) []
  have hquote : ¬ (chr ',' = chr '"') := by decide
  unfold hdrEntry
  rw [show (front ++ str ", " ++ e).reverse =
    ([chr ' '] ++ e).reverse ++ chr ',' :: front.reverse by simp [str], hloop]
  simp only [hdrEntryLoop, if_neg hquote, decide_true, Bool.not_false, Bool.and_self, if_true,
    List.reverse_reverse, List.append_nil, List.singleton_append, List.dropWhile_cons,
    beq_self_eq_true, dropWhile_space h.head]

theorem Splittable.hdrEntry_first {rfc7239 : Bool} {e : Str} (h : Splittable rfc7239 e) :
    hdrEntry e rfc7239 = some (e, []) := by
  have hloop := h.passes [] []
  rw [List.append_nil, List.append_nil] at hloop
  unfold hdrEntry
  rw [hloop]
  rfl

/-! ### Reading a whole value -/

/-- All entries that are split off a value, up to the number that is read. -/
def splitAll (rfc7239 : Bool) : ℕ → Str → List Str
  | 0, _ => []
  | n + 1, buf =>
    if buf = [] then []
    else
      match hdrEntry buf rfc7239 with
      | none => []
      | some (entry, rest) => entry :: splitAll rfc7239 n rest

theorem stripLoop_length (esc quote : Bool) (comp rest value : Str)
    (h : stripLoop esc quote comp rest = some value) :
    value.length ≤ comp.length + rest.length := by
  fun_induction stripLoop esc quote comp rest with
  | case1 | case6 =>
    obtain rfl := Option.some.inj h
    simp only [List.length_drop, List.length_cons, List.length_nil]
    omega
  | case2 | case7 => cases h
  | case3 | case4 | case5 | case8 | case9 =>
    rename_i ih
    have hle := ih h
    simp only [List.length_append, List.length_cons, List.length_nil] at hle ⊢
    omega

theorem collect_length (self : Collect) (value : Str) :
    (collect self value).buf.length ≤ self.buf.length + value.length := by
  fun_induction collect self value with
  | case1 => simp
  | case2 | case3 | case4 | case5 | case6 | case7 | case8 | case9 | case10 | case11 =>
    simp_all only [Collect.plain, Collect.take, Collect.colon, List.length_append,
      List.length_cons, List.length_nil]
    omega

/-- An entry of at most 511 bytes fits the buffer. -/
theorem parseEntry_fits {entry : Str} (h : entry.length ≤ 511) (rfc7239 : Bool) :
    ∃ r, parseEntry entry rfc7239 = some r := by
  unfold parseEntry
  cases hvalue : (if rfc7239 then stripRfc7239 entry else some entry) with
  | none => exact ⟨none, rfl⟩
  | some value =>
    have hlength : value.length ≤ entry.length := by
      cases rfc7239 with
      | false =>
        obtain rfl := Option.some.inj hvalue
        exact Nat.le_refl _
      | true => simpa using stripLoop_length false false [] entry value hvalue
    have hbuf := collect_length ⟨false, 0, [], 0, 0⟩ value
    have haddress : (collect ⟨false, 0, [], 0, 0⟩ value).address.length ≤
        (collect ⟨false, 0, [], 0, 0⟩ value).buf.length := by
      unfold Collect.address
      split
      · rw [List.length_take]
        omega
      · exact Nat.le_refl _
    simp only [List.length_nil, Nat.zero_add] at hbuf
    dsimp only
    rw [if_neg (by omega)]
    split
    · exact ⟨none, rfl⟩
    · exact ⟨some _, rfl⟩

theorem parseLoop_fits (rfc7239 : Bool) (n : ℕ) (buf : Str)
    (h : ∀ entry ∈ splitAll rfc7239 n buf, entry.length ≤ 511) :
    ∃ p, parseLoop rfc7239 n buf = some p := by
  induction n generalizing buf with
  | zero => exact ⟨_, rfl⟩
  | succ n ih =>
    unfold parseLoop
    unfold splitAll at h
    by_cases hempty : buf = []
    · exact ⟨_, if_pos hempty⟩
    · rw [if_neg hempty] at h ⊢
      cases hentry : hdrEntry buf rfc7239 with
      | none => exact ⟨_, rfl⟩
      | some next =>
        obtain ⟨entry, rest⟩ := next
        simp only [hentry, List.forall_mem_cons] at h
        obtain ⟨r, hr⟩ := parseEntry_fits h.1 rfc7239
        obtain ⟨p, hp⟩ := ih rest h.2
        dsimp only
        rw [hr]
        cases r with
        | none => exact ⟨_, rfl⟩
        | some addr => exact ⟨_, by rw [hp]; rfl⟩

/-- The proxies' own elements, read from the right until one has no address. -/
def readOwn (rfc7239 : Bool) : List Str → Parsed
  | [] => ⟨[], true⟩
  | e :: es =>
    match parseEntry e rfc7239 with
    | some (some addr) =>
      { addrs := addr :: (readOwn rfc7239 es).addrs, ok := (readOwn rfc7239 es).ok }
    | _ => ⟨[], false⟩

theorem appended_snoc (p : Option Str) (es : List Str) (e : Str) :
    appended p (es ++ [e]) =
      some ((appended p es).elim e (fun val => val ++ str ", " ++ e)) := by
  simp [appended]

/-- What the loop reads off the appended elements does not depend on the client's
text; if it reads them all, the rest comes from that text. -/
theorem parseLoop_appended {rfc7239 : Bool} (p : Option Str) (es : List Str)
    (hes : ∀ e ∈ es, Splittable rfc7239 e) {n : ℕ} (hn : es.length ≤ n) {r : Parsed}
    (h : parseLoop rfc7239 n ((appended p es).getD []) = some r) :
    if (readOwn rfc7239 es.reverse).ok then
      ∃ q, r.addrs = (readOwn rfc7239 es.reverse).addrs ++ q
    else r.addrs = (readOwn rfc7239 es.reverse).addrs := by
  induction es using List.reverseRecOn generalizing n r with
  | nil => exact ⟨r.addrs, rfl⟩
  | append_singleton es e ih =>
    rw [List.length_append, List.length_singleton] at hn
    obtain ⟨n, rfl⟩ : ∃ m, n = m + 1 := ⟨n - 1, by omega⟩
    have he := hes e (by simp)
    have hentry : hdrEntry ((appended p (es ++ [e])).getD []) rfc7239 =
        some (e, (appended p es).getD []) := by
      rw [appended_snoc, Option.getD_some]
      cases appended p es with
      | none => exact he.hdrEntry_first
      | some val => exact he.hdrEntry_append val
    have hne : (appended p (es ++ [e])).getD [] ≠ [] := by
      rw [appended_snoc, Option.getD_some]
      cases appended p es with
      | none => exact he.ne_nil
      | some val => simp [he.ne_nil]
    rw [parseLoop, if_neg hne, hentry] at h
    rw [List.reverse_append, List.reverse_singleton, List.singleton_append, readOwn]
    cases haddr : parseEntry e rfc7239 with
    | none => simp [haddr] at h
    | some addr =>
      cases addr with
      | none =>
        simp only [haddr, Option.some.injEq] at h
        rw [← h]
        simp
      | some addr =>
        simp only [haddr, Option.map_eq_some_iff] at h
        obtain ⟨q, hq, rfl⟩ := h
        have hrest := ih (fun d hd => hes d (List.mem_append_left _ hd)) (by omega) hq
        dsimp only
        split at hrest
        · next hok =>
          obtain ⟨more, hmore⟩ := hrest
          rw [if_pos hok]
          exact ⟨more, by rw [hmore, List.cons_append]⟩
        · next hok =>
          rw [if_neg hok, hrest]

theorem readOwn_length (rfc7239 : Bool) (es : List Str) :
    if (readOwn rfc7239 es).ok then (readOwn rfc7239 es).addrs.length = es.length
    else (readOwn rfc7239 es).addrs.length < es.length := by
  induction es with
  | nil => rfl
  | cons e es ih =>
    rw [readOwn]
    split
    · dsimp only
      split at ih
      · next hok =>
        rw [if_pos hok, List.length_cons, ih, List.length_cons]
      · next hok =>
        rw [if_neg hok, List.length_cons, List.length_cons]
        omega
    · simp

/-- A request whose only trusted header holds the client's text with the elements
of the trusted proxies behind it, within the bounds of the buffers. -/
structure Request (rfc7239 : Bool) (p : Option Str) (es : List Str) (hdrs : HeaderSet)
    (header : ProxyHeader) : Prop where
  trusted : header.trusts rfc7239 = true
  only : header.trusts (!rfc7239) = false
  count : es.length ≤ 16
  values : (hdrs.any (headernm rfc7239)).map Header.value = (appended p es).toList
  length : ((appended p es).getD []).length ≤ 8191
  fits : ∀ entry ∈ splitAll rfc7239 16 ((appended p es).getD []), entry.length ≤ 511

/-- The address that the proxies' own elements name: the last one read from the
right, or the peer. -/
def trustedAddr (rfc7239 : Bool) (peer : Str) (es : List Str) : Str :=
  ((readOwn rfc7239 es.reverse).addrs.getLast?).getD peer

theorem proxyLoop_single {rfc7239 : Bool} {val : Str} {r : Parsed}
    (h : parseHdrVal (16 - ([] : List Str).length) val rfc7239 = some r) :
    proxyLoop rfc7239 [] [val] = some r.addrs := by
  rw [proxyLoop, h]
  simp only [List.nil_append, proxyLoop, ite_self]

theorem proxyAddr_of_value {rfc7239 : Bool} {val : Option Str} {r : Parsed}
    (hlength : (val.getD []).length ≤ 8191)
    (h : parseLoop rfc7239 16 (val.getD []) = some r) :
    proxyAddr val.toList rfc7239 = some (r.addrs.reverse.map (fun addr => ⟨addr, none⟩)) := by
  cases val with
  | none =>
    obtain rfl := Option.some.inj h
    rfl
  | some val =>
    rw [Option.getD_some] at hlength h
    have hval : parseHdrVal 16 val rfc7239 = some r := by
      rw [parseHdrVal, Nat.sub_eq_zero_of_le hlength, List.drop_zero]
      exact h
    have hone : (Option.some val).toList.reverse.take 16 = [val] := rfl
    rw [proxyAddr, hone, proxyLoop_single hval]
    rfl

theorem get_of_value {rfc7239 : Bool} {p : Option Str} {es : List Str} {hdrs : HeaderSet}
    {header : ProxyHeader} (hreq : Request rfc7239 p es hdrs header) {r : Parsed}
    (h : parseLoop rfc7239 16 ((appended p es).getD []) = some r) (peer : RemoteEntry) :
    Proxylist.get hdrs ⟨es.length, header⟩ peer =
      some (r.addrs.reverse.map (fun addr => ⟨addr, none⟩) ++ [peer]) := by
  have hlist : forwarded hdrs header rfc7239 =
      some (r.addrs.reverse.map (fun addr => ⟨addr, none⟩)) := by
    rw [forwarded, if_pos hreq.trusted, hreq.values]
    exact proxyAddr_of_value hreq.length h
  have hother : forwarded hdrs header (!rfc7239) = some [] := by
    rw [forwarded, hreq.only]
    rfl
  unfold Proxylist.get
  by_cases hpref : header.prefrfc = rfc7239
  · simp only [hpref, hlist, hother, Option.bind_eq_bind, Option.bind_some, Option.pure_def]
    split
    · next hempty => simp [hempty]
    · rfl
  · have hnot : header.prefrfc = !rfc7239 := by
      cases hp : header.prefrfc <;> cases rfc7239 <;> simp_all
    simp only [hnot, hother, Bool.not_not, hlist, Option.bind_eq_bind, Option.bind_some,
      Option.pure_def, if_true]

/-- The entry behind the addresses of the client's text. -/
theorem entry_behind (own q : List Str) (peer : RemoteEntry) :
    ∃ entry, ((own ++ q).reverse.map (fun addr => (⟨addr, none⟩ : RemoteEntry)) ++
      [peer])[q.length]? = some entry ∧ entry.addr = (own.getLast?).getD peer.addr := by
  rw [List.reverse_append, List.map_append, List.append_assoc,
    List.getElem?_append_right (by simp), List.length_map, List.length_reverse, Nat.sub_self]
  induction own using List.reverseRecOn with
  | nil => exact ⟨peer, rfl, rfl⟩
  | append_singleton own addr _ => exact ⟨⟨addr, none⟩, by simp, by simp⟩

/-- The client's text never changes the address that identifies the client. -/
theorem clientAddr_eq {rfc7239 : Bool} {p : Option Str} {es : List Str} {hdrs : HeaderSet}
    {header : ProxyHeader} (hreq : Request rfc7239 p es hdrs header)
    (hes : ∀ e ∈ es, Splittable rfc7239 e) (peer : RemoteEntry) :
    clientAddr hdrs ⟨es.length, header⟩ peer = some (trustedAddr rfc7239 peer.addr es) := by
  obtain ⟨r, hr⟩ := parseLoop_fits rfc7239 16 _ hreq.fits
  have hown := parseLoop_appended p es hes hreq.count hr
  have hlength := readOwn_length rfc7239 es.reverse
  rw [List.length_reverse] at hlength
  have hq : ∃ q, r.addrs = (readOwn rfc7239 es.reverse).addrs ++ q ∧
      (if es.length + 1 < r.addrs.length + 1 then r.addrs.length + 1 - es.length - 1 else 0) =
        q.length := by
    split at hown
    · next hok =>
      obtain ⟨q, hq⟩ := hown
      rw [if_pos hok] at hlength
      refine ⟨q, hq, ?_⟩
      rw [hq, List.length_append, hlength]
      split <;> omega
    · next hok =>
      rw [if_neg hok] at hlength
      refine ⟨[], by rw [hown, List.append_nil], ?_⟩
      rw [hown, if_neg (by omega)]
      rfl
  obtain ⟨q, hq, hindex⟩ := hq
  obtain ⟨entry, hentry, haddr⟩ := entry_behind (readOwn rfc7239 es.reverse).addrs q peer
  have hfirst : firstTrusted ⟨es.length, header⟩
      (r.addrs.reverse.map (fun addr => (⟨addr, none⟩ : RemoteEntry)) ++ [peer]) = q.length := by
    rw [← hindex, firstTrusted]
    simp only [List.length_append, List.length_map, List.length_reverse, List.length_singleton]
  simp only [clientAddr, get_of_value hreq hr, Option.bind_eq_bind, Option.bind_some, hfirst,
    Option.pure_def]
  rw [hq, hentry, Option.bind_some, haddr, trustedAddr]

/-! ### Reading an element -/

theorem outside_outside (b : ℤ) : outside (outside b) = outside b := by
  unfold outside
  by_cases hb : b = 0
  · simp [hb]
  · simp [hb]

/-- Bytes of an address are collected as they are. -/
theorem collect_plain (t : Str) (h : ∀ c ∈ t, c ≠ chr '\\' ∧ c ≠ chr '"' ∧ c ≠ chr '[' ∧ c ≠ chr ']')
    (self : Collect)
    (hesc : self.esc = false) (rest : Str) :
    ∃ lastcolon, collect self (t ++ rest) =
        collect ⟨false, if t = [] then self.bracket else outside self.bracket, self.buf ++ t,
          self.ncolons + t.count (chr ':'), lastcolon⟩ rest ∧
      (chr ':' ∉ t → lastcolon = self.lastcolon) := by
  induction t generalizing self with
  | nil =>
    obtain ⟨esc, bracket, buf, ncolons, lastcolon⟩ := self
    cases hesc
    exact ⟨lastcolon, by simp, fun _ => rfl⟩
  | cons c t ih =>
    have hrest := fun d (hd : d ∈ t) => h d (List.mem_cons_of_mem c hd)
    have hbracket : ∀ b : ℤ, (if t = [] then outside b else outside (outside b)) = outside b := by
      intro b
      rw [outside_outside, ite_self]
    have hc := h c List.mem_cons_self
    rw [List.cons_append, collect]
    simp only [hesc, Bool.false_eq_true, if_false, if_neg hc.1, if_neg hc.2.1, if_neg hc.2.2.1,
      if_neg hc.2.2.2]
    by_cases hcolon : c = chr ':'
    · subst hcolon
      rw [if_pos rfl]
      obtain ⟨lastcolon, hcollect, _⟩ := ih hrest self.colon hesc
      refine ⟨lastcolon, ?_, fun hnot => absurd (by simp) hnot⟩
      rw [hcollect]
      simp only [Collect.colon, Collect.plain, Collect.take, hbracket, List.append_assoc,
        List.singleton_append, List.count_cons_self, reduceCtorEq, if_false]
      congr 2
      omega
    · rw [if_neg hcolon]
      obtain ⟨lastcolon, hcollect, hkeep⟩ := ih hrest (self.plain c) hesc
      refine ⟨lastcolon, ?_, fun hnot => hkeep (fun hm => hnot (by simp [hm]))⟩
      rw [hcollect]
      simp only [Collect.plain, Collect.take, hbracket, List.append_assoc,
        List.singleton_append, List.count_cons_of_ne hcolon, reduceCtorEq, if_false]

theorem collect_address (t : Str) (h : ∀ c ∈ t, isTchar c = true ∨ c = chr ':') (self : Collect)
    (hesc : self.esc = false) (rest : Str) :
    ∃ lastcolon, collect self (t ++ rest) =
        collect ⟨false, if t = [] then self.bracket else outside self.bracket, self.buf ++ t,
          self.ncolons + t.count (chr ':'), lastcolon⟩ rest ∧
      (chr ':' ∉ t → lastcolon = self.lastcolon) := by
  refine collect_plain t (fun c hc => ?_) self hesc rest
  rcases h c hc with hc | rfl
  · exact ⟨isTchar_ne hc (by decide), isTchar_ne hc (by decide), isTchar_ne hc (by decide),
      isTchar_ne hc (by decide)⟩
  · decide

/-- The collector before the first byte. -/
def fresh : Collect := ⟨false, 0, [], 0, 0⟩

theorem IsToken.count_colon {a : Str} (h : IsToken a) : a.count (chr ':') = 0 :=
  List.count_eq_zero.mpr (fun hm => isTchar_ne (h.2 _ hm) (by decide) rfl)

/-- Everything behind the closing bracket is ignored. -/
theorem address_of_bracketed {a : Str} (h : IsV6 a) (tail : Str) :
    (collect fresh (chr '[' :: (a ++ chr ']' :: tail))).address = a := by
  obtain ⟨lastcolon, hcollect, _⟩ :=
    collect_address a h.2 ⟨false, 1, [], 0, 0⟩ rfl (chr ']' :: tail)
  have hopen : collect fresh (chr '[' :: (a ++ chr ']' :: tail)) =
      collect ⟨false, 1, [], 0, 0⟩ (a ++ chr ']' :: tail) := rfl
  have hcount : a.count (chr ':') ≠ 1 := by
    have := h.1
    omega
  rw [hopen, hcollect, if_neg (isV6_ne_nil h)]
  have hclose : ∀ buf ncolons lastcolon, collect ⟨false, outside 1, buf, ncolons, lastcolon⟩
      (chr ']' :: tail) = ⟨false, 0, buf, ncolons, lastcolon⟩ := by
    intro buf ncolons lastcolon
    rfl
  rw [hclose]
  simp [Collect.address, hcount]

theorem address_of_node {a text : Str} (h : Node a text) : (collect fresh text).address = a := by
  cases h with
  | host ha =>
    obtain ⟨lastcolon, hcollect, _⟩ :=
      collect_address a (fun c hc => Or.inl (ha.2 c hc)) fresh rfl []
    rw [List.append_nil] at hcollect
    rw [hcollect]
    simp [collect, Collect.address, fresh, ha.count_colon]
  | hostPort ha port hport =>
    obtain ⟨_, hcollect, _⟩ :=
      collect_address a (fun c hc => Or.inl (ha.2 c hc)) fresh rfl (chr ':' :: port)
    obtain ⟨lastcolon, hrest, hkeep⟩ := collect_address port (fun c hc => Or.inl (hport.2 c hc))
      (Collect.colon ⟨false, outside 0, a, 0, 0⟩) rfl []
    rw [List.append_nil] at hrest
    have hcolon : ∀ lastcolon, collect ⟨false, outside 0, a, 0, lastcolon⟩ (chr ':' :: port) =
        collect (Collect.colon ⟨false, outside 0, a, 0, 0⟩) port := fun _ => rfl
    have hlast := hkeep (List.count_eq_zero.mp hport.count_colon)
    rw [hcollect, if_neg ha.1]
    simp only [fresh, List.nil_append, ha.count_colon, Nat.add_zero]
    rw [hcolon, hrest, hlast]
    simp [collect, Collect.address, Collect.colon, Collect.plain, Collect.take,
      hport.count_colon]
  | v6 ha => exact address_of_bracketed ha []
  | v6Port ha port _ => exact address_of_bracketed ha (chr ':' :: port)

/-- An IPv6 address without brackets is read as well. -/
theorem address_of_v6 {a : Str} (h : IsV6 a) : (collect fresh a).address = a := by
  obtain ⟨lastcolon, hcollect, _⟩ := collect_address a h.2 fresh rfl []
  have hcount : a.count (chr ':') ≠ 1 := by
    have := h.1
    omega
  rw [List.append_nil] at hcollect
  rw [hcollect]
  simp [collect, Collect.address, fresh, hcount]

theorem Node.address_ne_nil {a text : Str} (h : Node a text) : a ≠ [] := by
  cases h with
  | host ha => exact ha.1
  | hostPort ha => exact ha.1
  | v6 ha => exact isV6_ne_nil ha
  | v6Port ha => exact isV6_ne_nil ha

/-- The address of a value, if the value fits the buffer. -/
theorem parseEntry_of_value {entry value a : Str} {rfc7239 : Bool} (hfits : entry.length ≤ 511)
    (hvalue : (if rfc7239 then stripRfc7239 entry else some entry) = some value)
    (haddr : (collect fresh value).address = a) (hne : a ≠ []) :
    parseEntry entry rfc7239 = some (some a) := by
  obtain ⟨r, hr⟩ := parseEntry_fits hfits rfc7239
  rw [hr]
  unfold parseEntry at hr
  rw [hvalue] at hr
  change (if 512 < (collect fresh value).buf.length ∨
      511 < (collect fresh value).address.length then none
    else if (collect fresh value).address = [] then some none
    else some (some (collect fresh value).address)) = some r at hr
  rw [haddr, if_neg hne] at hr
  split at hr
  · cases hr
  · exact hr.symm

/-- Every element of X-Forwarded-For is read. -/
theorem parseEntry_xfwd {a e : Str} (h : AppendedFor false a e) (hfits : e.length ≤ 511) :
    parseEntry e false = some (some a) := by
  rcases h with h | ⟨ha, rfl⟩
  · exact parseEntry_of_value hfits rfl (address_of_node h) h.address_ne_nil
  · exact parseEntry_of_value hfits rfl (address_of_v6 ha) (isV6_ne_nil ha)

/-- An element without the two inputs that are read wrongly: no quoted semicolon and
no empty pair comes before the for parameter, and its value escapes no colon and no
bracket. -/
structure Element.Plain (element : Element) : Prop where
  before : ∀ pair ∈ element.before, ∃ q, pair = some q ∧ chr ';' ∉ q.value.text
  value : ∀ chars, element.value = .quoted chars → ∀ c ∈ chars, c.esc = true →
    c.byte ≠ chr ':' ∧ c.byte ≠ chr '[' ∧ c.byte ≠ chr ']'

theorem collect_quotedBody (chars : List QChar) (hvalid : ∀ c ∈ chars, c.Valid)
    (hplain : ∀ c ∈ chars, c.esc = true → c.byte ≠ chr ':' ∧ c.byte ≠ chr '[' ∧ c.byte ≠ chr ']')
    (hbytes : ∀ c ∈ chars, isTchar c.byte = true ∨ c.byte = chr ':' ∨ c.byte = chr '[' ∨
      c.byte = chr ']')
    (self : Collect) (hesc : self.esc = false) :
    collect self (chars.flatMap QChar.render ++ [chr '"']) = collect self (chars.map QChar.byte) := by
  induction chars generalizing self with
  | nil =>
    have hquote : ¬ (chr '"' = chr '\\') := by decide
    simp only [List.flatMap_nil, List.nil_append, List.map_nil, collect, hesc, Bool.false_eq_true,
      if_false, if_neg hquote, if_true]
  | cons c chars ih =>
    have hrest := ih (fun d hd => hvalid d (by simp [hd])) (fun d hd => hplain d (by simp [hd]))
      (fun d hd => hbytes d (by simp [hd]))
    have hb := hbytes c (by simp)
    have hp := hplain c (by simp)
    obtain ⟨esc, byte⟩ := c
    have hback : byte ≠ chr '\\' :=
      node_ne hb (by decide) (by decide) (by decide) (by decide)
    have hquote : byte ≠ chr '"' :=
      node_ne hb (by decide) (by decide) (by decide) (by decide)
    cases esc with
    | true =>
      obtain ⟨hcolon, hopen, hclose⟩ := hp rfl
      simp only [QChar.render, List.flatMap_cons, List.map_cons, if_true, List.cons_append,
        List.nil_append, collect, hesc, Bool.false_eq_true, if_false, if_neg hback, if_neg hquote,
        if_neg hcolon, if_neg hopen, if_neg hclose]
      rw [hrest _ rfl]
      obtain ⟨e, bracket, buf, ncolons, lastcolon⟩ := self
      cases hesc
      rfl
    | false =>
      simp only [QChar.render, List.flatMap_cons, List.map_cons, Bool.false_eq_true, if_false,
        List.cons_append, List.nil_append, collect, hesc, if_neg hback, if_neg hquote]
      simp only [hrest, hesc, Collect.take, Collect.colon, Collect.plain]

theorem stripLoop_esc (quote : Bool) (comp : Str) (c : Byte) (rest : Str) :
    stripLoop true quote comp (c :: rest) = stripLoop false quote (comp ++ [c]) rest := by
  rw [stripLoop.eq_def]
  rfl

theorem stripLoop_byte (quote : Bool) (comp : Str) {c : Byte} (hquote : c ≠ chr '"')
    (hback : c ≠ chr '\\') (hsemi : c ≠ chr ';') (rest : Str) :
    stripLoop false quote comp (c :: rest) = stripLoop false quote (comp ++ [c]) rest := by
  rw [stripLoop.eq_def]
  simp only [Bool.false_eq_true, if_false, if_neg hquote, if_neg hback, if_neg hsemi]

theorem stripLoop_quote (quote : Bool) (comp rest : Str) :
    stripLoop false quote comp (chr '"' :: rest) =
      stripLoop false (!quote) (comp ++ [chr '"']) rest := by
  rw [stripLoop.eq_def]
  rfl

theorem stripLoop_backslash (quote : Bool) (comp rest : Str) :
    stripLoop false quote comp (chr '\\' :: rest) =
      stripLoop true quote (comp ++ [chr '\\']) rest := by
  rw [stripLoop.eq_def]
  rfl

/-- The search for the for parameter passes the text within one pair. -/
def Kept (quote : Bool) (w : Str) : Prop :=
  ∀ comp rest, stripLoop false quote comp (w ++ rest) = stripLoop false quote (comp ++ w) rest

theorem Kept.append {quote : Bool} {u v : Str} (hu : Kept quote u) (hv : Kept quote v) :
    Kept quote (u ++ v) := by
  intro comp rest
  rw [List.append_assoc, hu, hv, List.append_assoc]

theorem kept_plain (quote : Bool) (w : Str)
    (h : ∀ c ∈ w, c ≠ chr '"' ∧ c ≠ chr '\\' ∧ c ≠ chr ';') : Kept quote w := by
  intro comp rest
  induction w generalizing comp with
  | nil => simp
  | cons c w ih =>
    obtain ⟨hquote, hback, hsemi⟩ := h c (by simp)
    rw [List.cons_append, stripLoop_byte quote comp hquote hback hsemi,
      ih (fun d hd => h d (by simp [hd])), List.append_assoc, List.singleton_append]

theorem IsToken.kept {s : Str} (h : IsToken s) (quote : Bool) : Kept quote s := by
  apply kept_plain
  intro c hc
  exact ⟨isTchar_ne (h.2 c hc) (by decide), isTchar_ne (h.2 c hc) (by decide),
    isTchar_ne (h.2 c hc) (by decide)⟩

theorem kept_quotedBody (chars : List QChar) (hvalid : ∀ c ∈ chars, c.Valid)
    (hsemi : ∀ c ∈ chars, c.byte ≠ chr ';') : Kept true (chars.flatMap QChar.render) := by
  induction chars with
  | nil =>
    intro comp rest
    simp
  | cons c chars ih =>
    rw [List.flatMap_cons]
    refine Kept.append ?_ (ih (fun d hd => hvalid d (by simp [hd]))
      (fun d hd => hsemi d (by simp [hd])))
    have hv := hvalid c (by simp)
    have hs := hsemi c (by simp)
    obtain ⟨esc, byte⟩ := c
    cases esc with
    | true =>
      intro comp rest
      simp only [QChar.render, if_true, List.cons_append, List.nil_append, stripLoop_backslash,
        stripLoop_esc, List.append_assoc]
    | false =>
      obtain ⟨hquote, hback⟩ := hv.resolve_left (by simp)
      apply kept_plain
      intro d hd
      rw [show d = byte by simpa [QChar.render] using hd]
      exact ⟨hquote, hback, hs⟩

theorem kept_value {value : Value} (h : value.Valid) (hsemi : chr ';' ∉ value.text) :
    Kept false value.render := by
  cases value with
  | token s => exact IsToken.kept h false
  | quoted chars =>
    have hbody := kept_quotedBody chars h
      (fun c hc heq => hsemi (heq ▸ List.mem_map_of_mem hc))
    intro comp rest
    simp only [Value.render, List.cons_append, List.append_assoc, List.nil_append]
    rw [stripLoop_quote, Bool.not_false, hbody, stripLoop_quote]
    simp only [Bool.not_true, List.append_assoc, List.cons_append, List.nil_append]

theorem Pair.Valid.kept {pair : Pair} (h : pair.Valid) (hsemi : chr ';' ∉ pair.value.text) :
    Kept false pair.render := by
  have hequal : Kept false [chr '='] :=
    kept_plain false _ (List.forall_mem_singleton.mpr (by decide))
  have hpair := (h.1.kept false).append (hequal.append (kept_value h.2 hsemi))
  rwa [List.singleton_append] at hpair

theorem tolower_ne_equal {c : Byte} (h : isTchar c = true) : tolower c ≠ chr '=' := by
  intro heq
  unfold tolower at heq
  split at heq
  · next hupper =>
    simp only [isupper, Bool.and_eq_true, decide_eq_true_eq, UInt8.le_iff_toNat_le] at hupper
    have hnat := congrArg UInt8.toNat heq
    rw [UInt8.toNat_add] at hnat
    change 65 ≤ c.toNat ∧ c.toNat ≤ 90 at hupper
    change (c.toNat + 32) % 256 = 61 at hnat
    omega
  · exact isTchar_ne h (by decide) heq

/-- Only the name of the for parameter is taken for it. -/
theorem startsWithFor_pair {name : Str} (h : IsToken name) (rest : Str) :
    startsWithFor (name ++ chr '=' :: rest) = isFor name := by
  have hne : ∀ c ∈ name, tolower c ≠ chr '=' := fun c hc => tolower_ne_equal (h.2 c hc)
  have hequal : tolower (chr '=') = chr '=' := by decide
  have hf : chr '=' ≠ chr 'f' := by decide
  have ho : chr '=' ≠ chr 'o' := by decide
  have hr : chr '=' ≠ chr 'r' := by decide
  have hfor : str "for=" = [chr 'f', chr 'o', chr 'r', chr '='] := rfl
  have hfor' : str "for" = [chr 'f', chr 'o', chr 'r'] := rfl
  rw [Bool.eq_iff_iff]
  unfold startsWithFor isFor
  rw [beq_iff_eq, beq_iff_eq, hfor, hfor']
  match name, hne with
  | [], _ => simp [lowerstr, hequal, hf]
  | [a], _ => simp [lowerstr, hequal, ho]
  | [a, b], _ => simp [lowerstr, hequal, hr]
  | [a, b, c], _ => simp [lowerstr, hequal]
  | a :: b :: c :: d :: more, hne => simp [lowerstr, hne d (by simp)]

/-- A semicolon that is not quoted starts the next pair. -/
theorem stripLoop_semicolon {comp rest : Str} {d : Byte} (hcomp : startsWithFor comp = false)
    (hd : Kept false [d]) :
    stripLoop false false comp (chr ';' :: d :: rest) = stripLoop false false [] (d :: rest) := by
  have hquote : ¬ (chr ';' = chr '"') := by decide
  have hback : ¬ (chr ';' = chr '\\') := by decide
  have hnext := hd [] rest
  rw [List.singleton_append, List.nil_append] at hnext
  rw [hnext, stripLoop]
  simp only [Bool.false_eq_true, if_false, if_neg hquote, if_neg hback, if_true, hcomp,
    Bool.and_false]

theorem stripLoop_found {comp : Str} (hcomp : startsWithFor comp = true) (rest : Str)
    (hrest : rest = [] ∨ ∃ more, rest = chr ';' :: more) :
    stripLoop false false comp rest = some (comp.drop 4) := by
  have hquote : ¬ (chr ';' = chr '"') := by decide
  have hback : ¬ (chr ';' = chr '\\') := by decide
  rcases hrest with rfl | ⟨more, rfl⟩
  · rw [stripLoop, if_pos hcomp]
  · rw [stripLoop.eq_def]
    simp only [Bool.false_eq_true, if_false, if_neg hquote, if_neg hback, if_true, hcomp,
      Bool.not_false, Bool.and_self]

theorem Node.no_semicolon {a text : Str} (h : Node a text) : chr ';' ∉ text := fun hm =>
  node_ne (h.bytes _ hm) (by decide) (by decide) (by decide) (by decide) rfl

theorem strip_before (before : List (Option Pair)) (more : Str) (d : Byte) (hd : Kept false [d])
    (hvalid : ∀ pair ∈ before, ∀ q ∈ pair, q.Valid ∧ isFor q.name = false)
    (hplain : ∀ pair ∈ before, ∃ q, pair = some q ∧ chr ';' ∉ q.value.text) :
    stripLoop false false []
        (before.flatMap (fun pair => renderOpt pair ++ [chr ';']) ++ d :: more) =
      stripLoop false false [] (d :: more) := by
  induction before with
  | nil => rfl
  | cons pair before ih =>
    obtain ⟨q, rfl, hsemi⟩ := hplain pair (by simp)
    obtain ⟨hq, hname⟩ := hvalid (some q) (by simp) q rfl
    have hrest := ih (fun p hp => hvalid p (by simp [hp])) (fun p hp => hplain p (by simp [hp]))
    have hcomp : startsWithFor q.render = false := by
      rw [Pair.render, startsWithFor_pair hq.1]
      exact hname
    rw [List.flatMap_cons, List.append_assoc, List.append_assoc, renderOpt, Option.elim_some,
      hq.kept hsemi, List.nil_append, List.singleton_append, ← hrest]
    cases before with
    | nil => exact stripLoop_semicolon hcomp hd
    | cons next before =>
      obtain ⟨r, rfl, _⟩ := hplain next (by simp)
      obtain ⟨hr, _⟩ := hvalid (some r) (by simp) r rfl
      obtain ⟨c, name, hname⟩ := List.exists_cons_of_ne_nil hr.1.1
      have hc : Kept false [c] := by
        have hbyte := hr.1.2 c (by simp [hname])
        apply kept_plain
        intro b hb
        rw [List.mem_singleton.mp hb]
        exact ⟨isTchar_ne hbyte (by decide), isTchar_ne hbyte (by decide),
          isTchar_ne hbyte (by decide)⟩
      simp only [List.flatMap_cons, renderOpt, Option.elim_some, Pair.render, hname,
        List.cons_append, List.append_assoc]
      exact stripLoop_semicolon hcomp hc

/-- The for parameter of a plain element is found. -/
theorem strip_element {element : Element} {a : Str} (h : element.Valid a) (hplain : element.Plain) :
    stripRfc7239 element.render = some element.value.render := by
  obtain ⟨d, name, hname⟩ := List.exists_cons_of_ne_nil h.name.1.1
  have hfor : Pair.Valid ⟨element.name, element.value⟩ := ⟨h.name.1, h.value⟩
  have hbyte := h.name.1.2 d (by simp [hname])
  have hd : Kept false [d] := kept_plain false [d] (by
    intro b hb
    rw [List.mem_singleton.mp hb]
    exact ⟨isTchar_ne hbyte (by decide), isTchar_ne hbyte (by decide),
      isTchar_ne hbyte (by decide)⟩)
  have hkept := hfor.kept h.node.no_semicolon
  have hcomp : startsWithFor (element.name ++ chr '=' :: element.value.render) = true := by
    rw [startsWithFor_pair h.name.1]
    exact h.name.2
  have hlength : element.name.length = 3 := by
    have hlower : lowerstr element.name = str "for" := by simpa [isFor] using h.name.2
    have hlen := congrArg List.length hlower
    rw [lowerstr, List.length_map] at hlen
    exact hlen
  have hbefore := strip_before element.before
    (name ++ chr '=' :: element.value.render ++
      element.after.flatMap (fun pair => chr ';' :: renderOpt pair)) d hd h.before hplain.before
  have hrender : element.render =
      element.before.flatMap (fun pair => renderOpt pair ++ [chr ';']) ++
        d :: (name ++ chr '=' :: element.value.render ++
          element.after.flatMap (fun pair => chr ';' :: renderOpt pair)) := by
    simp [Element.render, hname]
  have hafter : element.after.flatMap (fun pair => chr ';' :: renderOpt pair) = [] ∨
      ∃ more, element.after.flatMap (fun pair => chr ';' :: renderOpt pair) = chr ';' :: more := by
    cases element.after with
    | nil => exact Or.inl rfl
    | cons pair after => exact Or.inr ⟨_, rfl⟩
  rw [stripRfc7239, hrender, hbefore]
  calc
    stripLoop false false [] (d :: (name ++ chr '=' :: element.value.render ++
        element.after.flatMap (fun pair => chr ';' :: renderOpt pair))) =
        stripLoop false false [] ((element.name ++ chr '=' :: element.value.render) ++
          element.after.flatMap (fun pair => chr ';' :: renderOpt pair)) := by
      simp [hname]
    _ = stripLoop false false (element.name ++ chr '=' :: element.value.render)
          (element.after.flatMap (fun pair => chr ';' :: renderOpt pair)) := hkept [] _
    _ = some ((element.name ++ chr '=' :: element.value.render).drop 4) :=
      stripLoop_found hcomp _ hafter
    _ = some element.value.render := by
      rw [← List.singleton_append, ← List.append_assoc, List.drop_left' (by simp [hlength])]

/-- Plain elements of the Forwarded header are read. -/
theorem parseEntry_forwarded {element : Element} {a : Str} (h : element.Valid a)
    (hplain : element.Plain) (hfits : element.render.length ≤ 511) :
    parseEntry element.render true = some (some a) := by
  have haddr : (collect fresh element.value.render).address = a := by
    cases hvalue : element.value with
    | token s =>
      have hnode := h.node
      rw [hvalue] at hnode
      exact address_of_node hnode
    | quoted chars =>
      have hvalid := h.value
      have hnode := h.node
      rw [hvalue] at hvalid hnode
      have hquote : ¬ (chr '"' = chr '\\') := by decide
      have hbody := collect_quotedBody chars hvalid (hplain.value chars hvalue)
        (fun c hc => hnode.bytes c.byte (List.mem_map_of_mem hc)) fresh rfl
      rw [Value.render, collect]
      simp only [fresh, Bool.false_eq_true, if_false, if_neg hquote, if_true] at hbody ⊢
      rw [hbody]
      exact address_of_node hnode
  exact parseEntry_of_value hfits (strip_element h hplain) haddr h.node.address_ne_nil

/-- What a proxy appends without the inputs that are read wrongly. -/
def AppendedPlain (rfc7239 : Bool) (a e : Str) : Prop :=
  if rfc7239 then ∃ element : Element, element.Valid a ∧ element.Plain ∧ e = element.render
  else AppendedFor false a e

theorem parseEntry_plain {rfc7239 : Bool} {a e : Str} (h : AppendedPlain rfc7239 a e)
    (hfits : e.length ≤ 511) : parseEntry e rfc7239 = some (some a) := by
  cases rfc7239 with
  | false => exact parseEntry_xfwd h hfits
  | true =>
    obtain ⟨element, hvalid, hplain, rfl⟩ := h
    exact parseEntry_forwarded hvalid hplain hfits

/-- Every appended element is one of the entries that are split off. -/
theorem mem_splitAll {rfc7239 : Bool} (p : Option Str) (es : List Str)
    (hes : ∀ e ∈ es, Splittable rfc7239 e) {n : ℕ} (hn : es.length ≤ n) :
    ∀ e ∈ es, e ∈ splitAll rfc7239 n ((appended p es).getD []) := by
  induction es using List.reverseRecOn generalizing n with
  | nil => simp
  | append_singleton es last ih =>
    rw [List.length_append, List.length_singleton] at hn
    obtain ⟨n, rfl⟩ : ∃ m, n = m + 1 := ⟨n - 1, by omega⟩
    have hlast := hes last (by simp)
    have hstep : splitAll rfc7239 (n + 1) ((appended p (es ++ [last])).getD []) =
        last :: splitAll rfc7239 n ((appended p es).getD []) := by
      rw [appended_snoc, Option.getD_some, splitAll]
      cases appended p es with
      | none => simp [hlast.ne_nil, hlast.hdrEntry_first]
      | some val =>
        rw [Option.elim_some, if_neg (by simp [hlast.ne_nil]), hlast.hdrEntry_append]
        rfl
    intro e he
    rw [hstep]
    rcases List.mem_append.mp he with he | he
    · exact List.mem_cons_of_mem _ (ih (fun d hd => hes d (by simp [hd])) (by omega) e he)
    · rw [List.mem_singleton.mp he]
      exact List.mem_cons_self

theorem splittable_of_forall₂ {rfc7239 : Bool} {as es : List Str}
    (h : List.Forall₂ (AppendedFor rfc7239) as es) : ∀ e ∈ es, Splittable rfc7239 e := by
  induction h with
  | nil => simp
  | cons hae _ ih => exact List.forall_mem_cons.mpr ⟨splittable_of_appended hae, ih⟩

end Swad.ProxyTrust
