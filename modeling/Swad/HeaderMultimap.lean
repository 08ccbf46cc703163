import Swad.HeaderChains

/-!
What a set of headers is for: a list of headers in the order of insertion, in which names are
looked for without regard to case. Each bucket holds the headers of the list with its hash.
The first entry of a chain with a key is the first header of the list with this name, so
taking it away is the same in both, and the removal of a whole name repeats this. Every run of
operations gives the results that the list gives.
-/
namespace Swad.HeaderMultimap

open Bytes Util Headerset LinkedChains Multimaps HeaderChains

/-! ### Names -/

/-- The letters of ASCII, `A` to `Z` at 65 and `a` to `z` at 97, each with its other case. -/
def letterCases : List (Byte × Byte) :=
  (List.range 26).map fun i => (UInt8.ofNat (65 + i), UInt8.ofNat (97 + i))

def sameLetter (c d : Byte) : Bool :=
  c == d || letterCases.contains (c, d) || letterCases.contains (d, c)

/-- The names differ in the case of letters at most. -/
def sameName : Str → Str → Bool
  | [], [] => true
  | c :: a, d :: b => sameLetter c d && sameName a b
  | _, _ => false

section names

variable {c d : Byte} {a b : Str}

theorem tolower_letterCases {p : Byte × Byte} (hp : p ∈ letterCases) :
    tolower p.1 = p.2 ∧ tolower p.2 = p.2 := by
  obtain ⟨i, hi, rfl⟩ := List.mem_map.mp hp
  revert i
  decide

theorem fst_letterCases {p : Byte × Byte} (hp : p ∈ letterCases) : p.1 = p.2 - 32 := by
  obtain ⟨i, hi, rfl⟩ := List.mem_map.mp hp
  revert i
  decide

theorem mem_letterCases {i : ℕ} (hi : i < 26) :
    (UInt8.ofNat (65 + i), UInt8.ofNat (65 + i) + 32) ∈ letterCases := by
  have hcase : UInt8.ofNat (65 + i) + 32 = UInt8.ofNat (97 + i) := by
    rw [show (32 : Byte) = UInt8.ofNat 32 from rfl, ← UInt8.ofNat_add]
    congr 1
    omega
  rw [hcase]
  exact List.mem_map.mpr ⟨i, List.mem_range.mpr hi, rfl⟩

/-- A byte that is no letter of the upper case stays as it is. -/
theorem tolower_cases (c : Byte) : (c, tolower c) ∈ letterCases ∨ tolower c = c := by
  by_cases hupper : isupper c = true
  · have hbounds : 65 ≤ c.toNat ∧ c.toNat ≤ 90 := by
      simpa [isupper, chr, UInt8.le_iff_toNat_le] using hupper
    have hmem := mem_letterCases (i := c.toNat - 65) (by omega)
    rw [Nat.add_sub_cancel' hbounds.1, UInt8.ofNat_toNat] at hmem
    rw [tolower, if_pos hupper]
    exact Or.inl hmem
  · exact Or.inr (if_neg hupper)

theorem sameLetter_iff : sameLetter c d = true ↔ tolower c = tolower d := by
  simp only [sameLetter, Bool.or_eq_true, beq_iff_eq, List.contains_iff_mem]
  constructor
  · rintro ((rfl | hcases) | hcases)
    · rfl
    · obtain ⟨hc, hd⟩ := tolower_letterCases hcases
      exact hc.trans hd.symm
    · obtain ⟨hd, hc⟩ := tolower_letterCases hcases
      exact hc.trans hd.symm
  · intro h
    rcases tolower_cases c with hc | hc
    · rcases tolower_cases d with hd | hd
      · have hfst := fst_letterCases hd
        rw [← h, ← fst_letterCases hc] at hfst
        exact Or.inl (Or.inl hfst.symm)
      · rw [h, hd] at hc
        exact Or.inl (Or.inr hc)
    · rcases tolower_cases d with hd | hd
      · rw [← h, hc] at hd
        exact Or.inr hd
      · exact Or.inl (Or.inl (hc.symm.trans (h.trans hd)))

/-- The program compares names by their lower case. -/
theorem sameName_iff : sameName a b = true ↔ lowerstr a = lowerstr b := by
  induction a generalizing b with
  | nil => cases b <;> simp [sameName, lowerstr]
  | cons c a ih =>
    cases b with
    | nil => simp [sameName, lowerstr]
    | cons d b =>
      rw [sameName, Bool.and_eq_true, sameLetter_iff, ih]
      unfold lowerstr
      rw [List.map_cons, List.map_cons, List.cons.injEq]

end names

/-! ### The list -/

abbrev Multimap := List Header

namespace Multimap

def named (headerName : Str) (h : Header) : Bool := sameName h.name headerName

def same (header h : Header) : Bool := sameName h.name header.name && h.value == header.value

def any (self : Multimap) (headerName : Str) : List Header := self.filter (named headerName)

def first (self : Multimap) (headerName : Str) : Option Header := (self.any headerName).head?

def single (self : Multimap) (headerName : Str) : Option Header :=
  match self.any headerName with
  | [header] => some header
  | _ => none

def size (self : Multimap) : ℕ := (self.map fun h => h.size.toNat).sum

def removeAll (self : Multimap) (headerName : Str) : Multimap :=
  self.filter fun h => !named headerName h

def step (self : Multimap) : Op → Multimap × ℕ
  | .add header => (self ++ [header], 0)
  | .set header => (self.removeAll header.name ++ [header], 0)
  | .remove header => (self.eraseP (same header), if (self.find? (same header)).isSome then 1 else 0)
  | .removeAll headerName => (self.removeAll headerName, (self.any headerName).length)

def run : Multimap → List Op → Multimap × List ℕ
  | self, [] => (self, [])
  | self, op :: ops =>
    let (self, rc) := self.step op
    let (self, rcs) := run self ops
    (self, rc :: rcs)

theorem isNamed_iff {headerName : Str} {h : Header} :
    named headerName h = true ↔ h.key = lowerstr headerName := sameName_iff

theorem named_eq (headerName : Str) : named headerName = fun h => h.key == lowerstr headerName :=
  funext fun _ => Bool.eq_iff_iff.mpr (isNamed_iff.trans beq_iff_eq.symm)

theorem same_eq (header : Header) :
    same header = fun h => h.key == header.key && h.value == header.value := by
  funext h
  have hname : sameName h.name header.name = (h.key == header.key) :=
    Bool.eq_iff_iff.mpr (sameName_iff.trans beq_iff_eq.symm)
  rw [same, hname]

end Multimap

/-! ### What the chains hold -/

abbrev Cells := Fin (2 ^ HSHT_BITS) → List (Addr × HeaderSetEntry)

def entryOf (h : Header) : HeaderSetEntry := ⟨h.key, h⟩

def inBucket (m : Multimap) : Fin (2 ^ HSHT_BITS) → List Header :=
  bucket Header.key (fun key => hash key HSHT_BITS) m

structure Stored (set : Memory) (cells : Cells) (m : Multimap) : Prop where
  chains : set.buckets.Represents cells
  entries : ∀ b, (cells b).map Prod.snd = (inBucket m b).map entryOf
  count : set.count = m.length
  size : set.size.toNat = m.size % 2 ^ 16

theorem stored_create : Stored Memory.create (fun _ => []) [] where
  chains := Chains.represents_empty
  entries _ := rfl
  count := rfl
  size := rfl

section chains

variable {self : Memory} {cells : Cells} {m : Multimap} {key : Str} {p : Header → Bool}
  {l r : List (Addr × HeaderSetEntry)} {a : Addr} {e : HeaderSetEntry}

/-- Every entry of a chain has the key of its header. -/
theorem Stored.entry (h : Stored self cells m) {b : Fin (2 ^ HSHT_BITS)}
    {c : Addr × HeaderSetEntry} (hc : c ∈ cells b) : c.2 = entryOf c.2.header := by
  have hmem : c.2 ∈ (cells b).map Prod.snd := List.mem_map_of_mem hc
  rw [h.entries] at hmem
  obtain ⟨x, _, hx⟩ := List.mem_map.mp hmem
  rw [← hx]
  rfl

theorem Stored.headers (h : Stored self cells m) (b : Fin (2 ^ HSHT_BITS)) :
    (cells b).map (fun c => c.2.header) = inBucket m b := by
  have hmap := congrArg (List.map HeaderSetEntry.header) (h.entries b)
  rw [List.map_map, List.map_map] at hmap
  rw [← List.map_id (inBucket m b)]
  exact hmap

/-- The first entry of a chain that is looked for is the first one of the list. -/
theorem Stored.find (h : Stored self cells m) (hp : ∀ x, p x = true → x.key = key)
    (hcells : cells (hash key HSHT_BITS) = l ++ (a, e) :: r)
    (hl : ∀ c ∈ l, p c.2.header = false) (he : p e.header = true) :
    m.find? p = some e.header := by
  have hbucket := @find?_bucket _ _ _ _ Header.key (fun key => hash key HSHT_BITS) p key hp m
  have hheaders := h.headers (hash key HSHT_BITS)
  rw [hcells, List.map_append, List.map_cons] at hheaders
  have hnone : (l.map fun c => c.2.header).find? p = none := by
    rw [List.find?_eq_none]
    intro x hx
    obtain ⟨c, hc, rfl⟩ := List.mem_map.mp hx
    rw [hl c hc]
    exact Bool.false_ne_true
  rw [← hbucket]
  show (inBucket m (hash key HSHT_BITS)).find? p = _
  rw [← hheaders, List.find?_append, hnone, Option.none_or, List.find?_cons_of_pos he]

theorem Stored.find_none (h : Stored self cells m) (hp : ∀ x, p x = true → x.key = key)
    (hl : ∀ c ∈ cells (hash key HSHT_BITS), p c.2.header = false) : m.find? p = none := by
  have hbucket := @find?_bucket _ _ _ _ Header.key (fun key => hash key HSHT_BITS) p key hp m
  have hheaders := h.headers (hash key HSHT_BITS)
  rw [← hbucket]
  show (inBucket m (hash key HSHT_BITS)).find? p = _
  rw [← hheaders, List.find?_eq_none]
  intro x hx
  obtain ⟨c, hc, rfl⟩ := List.mem_map.mp hx
  rw [hl c hc]
  exact Bool.false_ne_true

theorem size_sub {size x : UInt16} {rest total : ℕ} (hsize : size.toNat = total % 2 ^ 16)
    (htotal : total = rest + x.toNat) : (size - x).toNat = rest % 2 ^ 16 := by
  have hx := x.toNat_lt
  rw [UInt16.toNat_sub, hsize, htotal]
  omega

/-- Taking the first entry that is looked for out of its chain takes it out of the list. -/
theorem Stored.removeEntry (h : Stored self cells m) (hp : ∀ x, p x = true → x.key = key)
    (hcells : cells (hash key HSHT_BITS) = l ++ (a, e) :: r)
    (hl : ∀ c ∈ l, p c.2.header = false) (he : p e.header = true) :
    ∃ self' next, self.removeEntry (hash key HSHT_BITS) (lastAddr none l) a = some self' ∧
      self.buckets.node a = some ⟨e, next⟩ ∧ Segment self'.buckets.node next r none ∧
      Stored self' (Function.update cells (hash key HSHT_BITS) (l ++ r)) (m.eraseP p) := by
  have hfind := h.find hp hcells hl he
  obtain ⟨next, buckets, hnode, hbuckets, hsegment, hrep⟩ := h.chains.unlink hcells
  have hread : self.buckets.read a = some e := by
    rw [Chains.read, hnode]
    rfl
  have hunlink : self.buckets.unlink (hash key HSHT_BITS) (lastAddr none l) a = some buckets := by
    rw [Chains.unlink, hnode, hbuckets]
    rfl
  refine ⟨⟨self.count - 1, buckets, self.size - e.header.size⟩, next, ?_, hnode, hsegment,
    hrep, ?_, ?_, ?_⟩
  · rw [Memory.removeEntry, hread, hunlink]
    rfl
  · intro b
    have herase := @bucket_eraseP _ _ _ _ Header.key (fun key => hash key HSHT_BITS) p key hp m b
    have hentries := h.entries b
    show _ = (bucket _ _ _ b).map entryOf
    rw [herase]
    by_cases hb : b = hash key HSHT_BITS
    · rw [if_pos hb, hb, Function.update_self]
      have hheaders := h.headers (hash key HSHT_BITS)
      have hnot : ∀ x ∈ l.map (fun c => c.2.header), ¬ p x = true := by
        intro x hx
        obtain ⟨c, hc, rfl⟩ := List.mem_map.mp hx
        rw [hl c hc]
        exact Bool.false_ne_true
      rw [hcells, List.map_append, List.map_cons] at hheaders
      have hbucket : bucket Header.key (fun key => hash key HSHT_BITS) m (hash key HSHT_BITS) =
          l.map (fun c => c.2.header) ++ e.header :: r.map fun c => c.2.header := hheaders.symm
      rw [hbucket, List.eraseP_append_right _ hnot, List.eraseP_cons_of_pos he,
        ← List.map_append, List.map_map]
      apply List.map_congr_left
      intro c hc
      apply h.entry (b := hash key HSHT_BITS)
      rw [hcells]
      rcases List.mem_append.mp hc with hc | hc
      · exact List.mem_append_left _ hc
      · exact List.mem_append_right _ (List.mem_cons_of_mem _ hc)
    · rw [if_neg hb, Function.update_of_ne hb]
      exact hentries
  · show self.count - 1 = _
    rw [h.count, length_eraseP hfind]
    rfl
  · exact size_sub h.size (sum_eraseP hfind _)

theorem Stored.key_eq (h : Stored self cells m) {b : Fin (2 ^ HSHT_BITS)}
    {c : Addr × HeaderSetEntry} (hc : c ∈ cells b) : c.2.key = c.2.header.key := by
  rw [h.entry hc]
  rfl

theorem Stored.add (h : Stored self cells m) (header : Header) :
    ∃ self' cells', self.add header = some self' ∧ Stored self' cells' (m ++ [header]) := by
  obtain ⟨buckets, happend, _, hrep⟩ := h.chains.append (hash header.key HSHT_BITS) (entryOf header)
  refine ⟨⟨self.count + 1, buckets, self.size + header.size⟩, _, ?_, hrep, ?_, ?_, ?_⟩
  · show (self.buckets.append (hash header.key HSHT_BITS) (entryOf header)).bind _ = _
    rw [happend]
    rfl
  · intro b
    have hbucket := @bucket_append _ _ _ _ Header.key (fun key => hash key HSHT_BITS) m header b
    show _ = (bucket _ _ _ b).map entryOf
    rw [hbucket]
    by_cases hb : b = hash header.key HSHT_BITS
    · rw [hb, if_pos rfl, Function.update_self, List.map_append, List.map_append, h.entries]
      rfl
    · rw [if_neg (Ne.symm hb), Function.update_of_ne hb, List.append_nil, h.entries]
      rfl
  · show self.count + 1 = _
    rw [h.count, List.length_append, List.length_singleton]
  · show (self.size + header.size).toNat = _
    have htotal : Multimap.size (m ++ [header]) = m.size + header.size.toNat := by
      rw [Multimap.size, List.map_append, List.sum_append, List.map_singleton, List.sum_singleton]
      rfl
    rw [UInt16.toNat_add, h.size, htotal, Nat.mod_add_mod]

theorem Stored.remove (h : Stored self cells m) (header : Header) :
    ∃ self' cells', self.remove header =
        some (self', if (m.find? (Multimap.same header)).isSome then 1 else 0) ∧
      Stored self' cells' (m.eraseP (Multimap.same header)) := by
  let f := fun e : HeaderSetEntry => e.key == header.key && e.header.value == header.value
  have hf : ∀ c ∈ cells (hash header.key HSHT_BITS), f c.2 = Multimap.same header c.2.header := by
    intro c hc
    show (c.2.key == _ && _) = _
    rw [h.key_eq hc, Multimap.same_eq]
  have hp : ∀ x, Multimap.same header x = true → x.key = header.key := by
    intro x hx
    rw [Multimap.same_eq, Bool.and_eq_true, beq_iff_eq] at hx
    exact hx.1
  cases hfound : (cells (hash header.key HSHT_BITS)).find? (fun c => f c.2) with
  | none =>
    have hnone : ∀ c ∈ cells (hash header.key HSHT_BITS), f c.2 = false := by
      intro c hc
      exact Bool.eq_false_iff.mpr (List.find?_eq_none.mp hfound c hc)
    have hfind := h.find_none hp fun c hc => (hf c hc).symm.trans (hnone c hc)
    refine ⟨self, cells, ?_, ?_⟩
    · rw [hfind]
      show (self.buckets.search f (hash header.key HSHT_BITS)).bind _ = _
      rw [h.chains.search_none hnone]
      rfl
    · rwa [List.eraseP_of_forall_not (List.find?_eq_none.mp hfind)]
  | some c =>
    obtain ⟨a, e⟩ := c
    obtain ⟨he, l, r, hcells, _, hl⟩ := exists_first hfound
    have hmem : (a, e) ∈ cells (hash header.key HSHT_BITS) := by
      rw [hcells]
      exact List.mem_append_right _ List.mem_cons_self
    have hl' : ∀ c ∈ l, Multimap.same header c.2.header = false := by
      intro c hc
      rw [← hf c (by rw [hcells]; exact List.mem_append_left _ hc)]
      exact hl c hc
    have he' : Multimap.same header e.header = true := (hf (a, e) hmem).symm.trans he
    obtain ⟨self', _, hremove, _, _, hstored⟩ := h.removeEntry hp hcells hl' he'
    refine ⟨self', _, ?_, hstored⟩
    rw [h.find hp hcells hl' he']
    show (self.buckets.search f (hash header.key HSHT_BITS)).bind _ = _
    rw [h.chains.search_found hcells hl he]
    show (self.removeEntry (hash header.key HSHT_BITS) (lastAddr none l) a).bind _ = _
    rw [hremove]
    rfl

/-- The removal of a name goes on behind entries that stay. -/
theorem Stored.removeAllFrom {fuel : ℕ} {next : Option Addr} (h : Stored self cells m)
    (hcells : cells (hash key HSHT_BITS) = l ++ r)
    (hl : ∀ c ∈ l, (c.2.header.key == key) = false)
    (hr : Segment self.buckets.node next r none) (hfuel : r.length ≤ fuel) :
    ∃ self' cells', Memory.removeAllFrom key fuel self (lastAddr none l) next =
        some (self', (m.filter fun x => x.key == key).length) ∧
      Stored self' cells' (m.filter fun x => !(x.key == key)) := by
  have hp : ∀ x : Header, (x.key == key) = true → x.key = key := fun x hx => beq_iff_eq.mp hx
  induction r generalizing self cells m l next fuel with
  | nil =>
    obtain rfl : next = none := hr
    have hall : ∀ c ∈ cells (hash key HSHT_BITS), (c.2.header.key == key) = false := by
      rwa [hcells, List.append_nil]
    have hnone := List.find?_eq_none.mp (h.find_none hp hall)
    have hempty : (m.filter fun x => x.key == key) = [] := List.filter_eq_nil_iff.mpr hnone
    have hfull : (m.filter fun x => !(x.key == key)) = m := by
      rw [List.filter_eq_self]
      intro x hx
      have hne := hnone x hx
      rwa [Bool.not_eq_true, ← Bool.not_eq_true'] at hne
    refine ⟨self, cells, ?_, by rwa [hfull]⟩
    rw [Memory.removeAllFrom, hempty]
    rfl
  | cons c r ih =>
    obtain ⟨a, e⟩ := c
    obtain ⟨rfl, n, hn, hrest⟩ := hr
    have hmem : (a, e) ∈ cells (hash key HSHT_BITS) := by
      rw [hcells]
      exact List.mem_append_right _ List.mem_cons_self
    cases fuel with
    | zero => exact absurd hfuel (Nat.not_succ_le_zero _)
    | succ fuel =>
      have hlength : r.length ≤ fuel := Nat.le_of_succ_le_succ hfuel
      rw [Memory.removeAllFrom, hn]
      dsimp only
      rw [h.key_eq hmem]
      by_cases he : (e.header.key == key) = true
      · obtain ⟨self₁, n', hremove, hn', hsegment, hstored⟩ := h.removeEntry hp hcells hl he
        obtain rfl : n = n' := by
          rw [hn] at hn'
          exact (Node.mk.inj (Option.some.inj hn')).2
        have hfind := h.find hp hcells hl he
        obtain ⟨self', cells', hrun, hstored'⟩ :=
          ih hstored (Function.update_self ..) hl hsegment hlength
        refine ⟨self', cells', ?_, ?_⟩
        · rw [if_pos he, hremove, length_filter_eraseP hfind]
          show (Memory.removeAllFrom key fuel self₁ (lastAddr none l) n).bind _ = _
          rw [hrun]
          rfl
        · have hnot : (!(e.header.key == key)) = false := by rw [he]; rfl
          rwa [@filter_eraseP _ _ (fun x => !(x.key == key)) _ _ hfind hnot] at hstored'
      · have hcells' : cells (hash key HSHT_BITS) = (l ++ [(a, e)]) ++ r := by
          rw [hcells, List.append_assoc]
          rfl
        have hl' : ∀ c ∈ l ++ [(a, e)], (c.2.header.key == key) = false := by
          intro c hc
          rcases List.mem_append.mp hc with hc | hc
          · exact hl c hc
          · rw [List.mem_singleton.mp hc]
            exact Bool.eq_false_iff.mpr he
        obtain ⟨self', cells', hrun, hstored'⟩ := ih h hcells' hl' hrest hlength
        rw [lastAddr_snoc] at hrun
        exact ⟨self', cells', by rw [if_neg he, hrun], hstored'⟩

theorem Stored.removeAll (h : Stored self cells m) (headerName : Str) :
    ∃ self' cells', self.removeAll headerName =
        some (self', (m.any headerName).length) ∧
      Stored self' cells' (m.removeAll headerName) := by
  unfold Multimap.any Multimap.removeAll
  rw [Multimap.named_eq]
  exact h.removeAllFrom (l := []) rfl (fun _ hc => absurd hc List.not_mem_nil) (h.chains.chain _)
    (h.chains.length_le _)

theorem Stored.set (h : Stored self cells m) (header : Header) :
    ∃ self' cells', self.set header = some self' ∧
      Stored self' cells' (m.removeAll header.name ++ [header]) := by
  obtain ⟨self₁, cells₁, hremove, hstored⟩ := h.removeAll header.name
  obtain ⟨self', cells', hadd, hstored'⟩ := hstored.add header
  refine ⟨self', cells', ?_, hstored'⟩
  rw [Memory.set, hremove]
  exact hadd

theorem Stored.step (h : Stored self cells m) (op : Op) :
    ∃ self' cells', self.step op = some (self', (m.step op).2) ∧
      Stored self' cells' (m.step op).1 := by
  cases op with
  | add header =>
    obtain ⟨self', cells', hadd, hstored⟩ := h.add header
    exact ⟨self', cells', by rw [Memory.step, hadd]; rfl, hstored⟩
  | set header =>
    obtain ⟨self', cells', hset, hstored⟩ := h.set header
    exact ⟨self', cells', by rw [Memory.step, hset]; rfl, hstored⟩
  | remove header => exact h.remove header
  | removeAll headerName => exact h.removeAll headerName

/-- Every run in memory is a run of the list. -/
theorem Stored.run (h : Stored self cells m) (ops : List Op) :
    ∃ self' cells', self.run ops = some (self', (m.run ops).2) ∧
      Stored self' cells' (m.run ops).1 := by
  induction ops generalizing self cells m with
  | nil => exact ⟨self, cells, rfl, h⟩
  | cons op ops ih =>
    obtain ⟨self₁, cells₁, hstep, hstored⟩ := h.step op
    obtain ⟨self', cells', hrun, hstored'⟩ := ih hstored
    refine ⟨self', cells', ?_, hstored'⟩
    rw [Memory.run, hstep]
    show (self₁.run ops).bind _ = _
    rw [hrun]
    rfl

end chains

/-! ### Looking up -/

section lookup

variable {self : Memory} {cells : Cells} {m : Multimap} {key : Str}
  {l r : List (Addr × HeaderSetEntry)} {next parent : Option Addr} {fuel : ℕ}

/-- The headers with a key that are left in a chain. -/
def headersWith (key : Str) (r : List (Addr × HeaderSetEntry)) : List Header :=
  (r.map fun c => c.2.header).filter fun x => x.key == key

theorem headersWith_cons (key : Str) (a : Addr) (e : HeaderSetEntry)
    (r : List (Addr × HeaderSetEntry)) : headersWith key ((a, e) :: r) =
      if (e.header.key == key) = true then e.header :: headersWith key r
      else headersWith key r := by
  unfold headersWith
  rw [List.map_cons, List.filter_cons]

theorem Stored.headersWith (h : Stored self cells m) (headerName : Str) :
    HeaderMultimap.headersWith (lowerstr headerName) (cells (hash (lowerstr headerName) HSHT_BITS)) =
      m.any headerName := by
  unfold HeaderMultimap.headersWith Multimap.any
  rw [h.headers, Multimap.named_eq]
  exact filter_bucket (fun x hx => beq_iff_eq.mp hx) m

/-- The first entry with a key among those that are left, or the end. -/
theorem walk_headers (hr : Segment self.buckets.node next r none)
    (hkeys : ∀ c ∈ r, c.2.key = c.2.header.key) (hfuel : r.length ≤ fuel) :
    (∃ parent', Chains.walk (fun e => e.key == key) self.buckets.node fuel parent next =
        some (parent', none) ∧ headersWith key r = []) ∨
      ∃ parent' a e r', Chains.walk (fun e => e.key == key) self.buckets.node fuel parent next =
        some (parent', some a) ∧ headersWith key r = e.header :: headersWith key r' ∧
          (a, e) :: r' <:+ r := by
  cases hfound : r.find? (fun c => c.2.key == key) with
  | none =>
    have hnone : ∀ c ∈ r, (c.2.key == key) = false := fun c hc =>
      Bool.eq_false_iff.mpr (List.find?_eq_none.mp hfound c hc)
    refine Or.inl ⟨_, walk_none hr hnone hfuel, ?_⟩
    unfold headersWith
    rw [List.filter_eq_nil_iff]
    intro x hx
    obtain ⟨c, hc, rfl⟩ := List.mem_map.mp hx
    rw [← hkeys c hc, hnone c hc]
    exact Bool.false_ne_true
  | some c =>
    obtain ⟨a, e⟩ := c
    obtain ⟨he, l, r', hsplit, _, hl⟩ := exists_first hfound
    rw [hsplit] at hr hfuel hkeys
    refine Or.inr ⟨_, a, e, r', by rw [walk_found hr hl he hfuel], ?_, l, hsplit.symm⟩
    have hnone : headersWith key l = [] := by
      unfold headersWith
      rw [List.filter_eq_nil_iff]
      intro x hx
      obtain ⟨c, hc, rfl⟩ := List.mem_map.mp hx
      rw [← hkeys c (List.mem_append_left _ hc), hl c hc]
      exact Bool.false_ne_true
    have happend : headersWith key (l ++ (a, e) :: r') =
        headersWith key l ++ headersWith key ((a, e) :: r') := by
      unfold headersWith
      rw [List.map_append, List.filter_append]
    have hkey : e.key = e.header.key := hkeys (a, e) (List.mem_append_right _ List.mem_cons_self)
    have he' : (e.header.key == key) = true := by rwa [← hkey]
    rw [hsplit, happend, hnone, headersWith_cons, if_pos he']
    rfl

theorem Stored.first (h : Stored self cells m) (headerName : Str) :
    self.first headerName = some (m.first headerName) := by
  have hkeys : ∀ c ∈ cells (hash (lowerstr headerName) HSHT_BITS), c.2.key = c.2.header.key :=
    fun c hc => h.key_eq hc
  unfold Memory.first Multimap.first
  dsimp only
  rw [← h.headersWith]
  rcases @walk_headers self (lowerstr headerName) _ _ none _ (h.chains.chain _) hkeys
    (h.chains.length_le _) with ⟨_, hwalk, hnone⟩ | ⟨_, a, e, r', hwalk, hsome, l, hl⟩
  · rw [Chains.search, hwalk, hnone]
    rfl
  · have hmem : (a, e) ∈ cells (hash (lowerstr headerName) HSHT_BITS) := by
      rw [← hl]
      exact List.mem_append_right _ List.mem_cons_self
    rw [Chains.search, hwalk, hsome]
    show (self.buckets.read a).map _ = _
    rw [h.chains.read_eq hmem]
    rfl

/-- What is alone among the headers of which some were met before. -/
def alone : Option Header → List Header → Option Header
  | none, [header] => some header
  | some header, [] => some header
  | _, _ => none

theorem singleFrom_eq (hr : Segment self.buckets.node next r none)
    (hkeys : ∀ c ∈ r, c.2.key = c.2.header.key) (hfuel : r.length ≤ fuel)
    (header : Option Header) :
    self.singleFrom key fuel header next = some (alone header (headersWith key r)) := by
  induction r generalizing next fuel header with
  | nil =>
    obtain rfl : next = none := hr
    rw [Memory.singleFrom]
    cases header <;> rfl
  | cons c r ih =>
    obtain ⟨a, e⟩ := c
    obtain ⟨rfl, n, hn, hrest⟩ := hr
    cases fuel with
    | zero => exact absurd hfuel (Nat.not_succ_le_zero _)
    | succ fuel =>
      have hlength : r.length ≤ fuel := Nat.le_of_succ_le_succ hfuel
      have hrest' := ih hrest (fun c hc => hkeys c (List.mem_cons_of_mem _ hc)) hlength
      rw [Memory.singleFrom, hn]
      dsimp only
      rw [hkeys (a, e) List.mem_cons_self, headersWith_cons]
      by_cases he : (e.header.key == key) = true
      · rw [if_pos he, if_pos he]
        cases header with
        | none =>
          dsimp only
          rw [hrest']
          match headersWith key r with
          | [] => rfl
          | _ :: _ => rfl
        | some header =>
          dsimp only
          match headersWith key r with
          | [] => rfl
          | _ :: _ => rfl
      · rw [if_neg he, if_neg he, hrest']

theorem Stored.single (h : Stored self cells m) (headerName : Str) :
    self.single headerName = some (m.single headerName) := by
  unfold Memory.single Multimap.single
  dsimp only
  rw [singleFrom_eq (h.chains.chain _) (fun c hc => h.key_eq hc) (h.chains.length_le _),
    h.headersWith]
  match m.any headerName with
  | [] => rfl
  | [_] => rfl
  | _ :: _ :: _ => rfl

/-- An iterator stands before the entries that are left of its chain. -/
structure Stands (set : Memory) (it : HeaderChains.HeaderIterator) (key : Str)
    (r : List (Addr × HeaderSetEntry)) : Prop where
  key : it.key = some key
  rest : ∃ next, Segment set.buckets.node next r none ∧
    ((it.entry = none ∧ set.bucketAt it.hash = some next) ∨
      ∃ a e, it.entry = some a ∧ set.buckets.node a = some ⟨e, next⟩)

theorem stands_any (h : Stored self cells m) (headerName : Str) :
    Stands self (Memory.any headerName) (lowerstr headerName)
      (cells (hash (lowerstr headerName) HSHT_BITS)) where
  key := rfl
  rest := by
    have hlt := (hash (lowerstr headerName) HSHT_BITS).isLt
    have htoNat : (UInt8.ofNat (hash (lowerstr headerName) HSHT_BITS)).toNat =
        hash (lowerstr headerName) HSHT_BITS := by
      rw [UInt8.toNat_ofNat']
      exact Nat.mod_eq_of_lt (Nat.lt_trans hlt (by decide))
    refine ⟨_, h.chains.chain _, Or.inl ⟨rfl, ?_⟩⟩
    show self.bucketAt (UInt8.ofNat (hash (lowerstr headerName) HSHT_BITS)) = _
    unfold Memory.bucketAt
    rw [dif_pos (by rwa [htoNat])]
    congr 2
    exact Fin.ext htoNat

/-- Moving on stops at the next entry with the key, or nowhere. -/
theorem Stands.moveNext {it : HeaderChains.HeaderIterator} (h : Stands self it key r)
    (hkeys : ∀ c ∈ r, c.2.key = c.2.header.key) (hlength : r.length ≤ self.buckets.allocated) :
    (∃ it', self.moveNext it = some (it', false) ∧ headersWith key r = []) ∨
      ∃ it' r', ∃ e : HeaderSetEntry, self.moveNext it = some (it', true) ∧
        self.current it' = some (some e.header) ∧ Stands self it' key r' ∧
        headersWith key r = e.header :: headersWith key r' ∧ r'.length < r.length ∧ r' <:+ r := by
  obtain ⟨hkey, next, hsegment, hentry⟩ := h
  have hmove : ∃ parent, self.moveNext it = (Chains.walk (fun e => e.key == key)
      self.buckets.node self.buckets.allocated parent next).bind fun found =>
        some ({ it with entry := found.2 }, found.2.isSome) := by
    unfold Memory.moveNext
    rcases hentry with ⟨hnone, hbucket⟩ | ⟨a, e, hsome, hnode⟩
    · rw [hkey, hnone]
      dsimp only
      rw [hbucket]
      exact ⟨none, rfl⟩
    · rw [hkey, hsome]
      dsimp only
      rw [hnode]
      exact ⟨some a, rfl⟩
  obtain ⟨parent, hmove⟩ := hmove
  rw [hmove]
  rcases @walk_headers self key r next parent _ hsegment hkeys hlength with
    ⟨_, hwalk, hnone⟩ | ⟨_, a, e, r', hwalk, hsome, hsuffix⟩
  · rw [hwalk]
    exact Or.inl ⟨_, rfl, hnone⟩
  · rw [hwalk]
    obtain ⟨l, hl⟩ := hsuffix
    obtain ⟨_, _, hrest⟩ := segment_append.mp (by rwa [← hl] at hsegment)
    obtain ⟨_, n, hn, hrest⟩ := hrest
    refine Or.inr ⟨_, r', e, rfl, ?_, ⟨hkey, n, hrest, Or.inr ⟨a, e, rfl, hn⟩⟩, hsome, ?_, ?_⟩
    · show (self.buckets.read a).map _ = _
      rw [Chains.read, hn]
      rfl
    · rw [← hl, List.length_append, List.length_cons]
      omega
    · exact ⟨l ++ [(a, e)], by rw [← hl, List.append_assoc]; rfl⟩

theorem Stands.visited {it : HeaderChains.HeaderIterator} (h : Stands self it key r)
    (hkeys : ∀ c ∈ r, c.2.key = c.2.header.key) (hlength : r.length ≤ self.buckets.allocated)
    (hfuel : r.length < fuel) : self.visited fuel it = some (headersWith key r) := by
  induction fuel generalizing it r with
  | zero => exact absurd hfuel (Nat.not_lt_zero _)
  | succ fuel ih =>
    unfold Memory.visited
    rcases h.moveNext hkeys hlength with
      ⟨it', hmove, hnone⟩ | ⟨it', r', e, hmove, hcurrent, hstands, hsome, hless, hsuffix⟩
    · rw [hmove, hnone]
      rfl
    · have hrest := ih hstands (fun c hc => hkeys c (hsuffix.subset hc)) (by omega) (by omega)
      rw [hmove, hsome]
      show (self.current it').bind _ = _
      rw [hcurrent]
      show (self.visited fuel it').bind _ = _
      rw [hrest]
      rfl

theorem Stored.any (h : Stored self cells m) (headerName : Str)
    (hfuel : self.buckets.allocated < fuel) :
    self.visited fuel (Memory.any headerName) = some (m.any headerName) := by
  have hlength := h.chains.length_le (hash (lowerstr headerName) HSHT_BITS)
  rw [(stands_any h headerName).visited (fun c hc => h.key_eq hc) hlength (by omega),
    h.headersWith]

end lookup

/-! ### The buckets as lists -/

/-- The set as lists of headers, one for each bucket. -/
def toSet (m : Multimap) : HeaderSet := ⟨inBucket m, UInt16.ofNat m.size⟩

theorem toSet_append (m : Multimap) (header : Header) :
    toSet (m ++ [header]) = (toSet m).add header := by
  have hsize : Multimap.size (m ++ [header]) = m.size + header.size.toNat := by
    rw [Multimap.size, List.map_append, List.sum_append, List.map_singleton, List.sum_singleton]
    rfl
  unfold toSet HeaderSet.add
  rw [hsize, UInt16.ofNat_add, UInt16.ofNat_toNat]
  congr 1
  funext b
  have hbucket := @bucket_append _ _ _ _ Header.key (fun key => hash key HSHT_BITS) m header b
  rw [inBucket, hbucket]
  by_cases hb : b = hash header.key HSHT_BITS
  · rw [hb, Function.update_self, if_pos rfl]
    rfl
  · rw [Function.update_of_ne hb, if_neg (Ne.symm hb), List.append_nil]
    rfl

theorem size_removeAll (m : Multimap) (headerName : Str) :
    m.size = (m.removeAll headerName).size + Multimap.size (m.any headerName) := by
  unfold Multimap.removeAll Multimap.any
  induction m with
  | nil => rfl
  | cons h m ih =>
    unfold Multimap.size at ih ⊢
    cases hname : Multimap.named headerName h with
    | true =>
      rw [List.filter_cons_of_neg (by rw [hname]; decide), List.filter_cons_of_pos hname,
        List.map_cons, List.map_cons, List.sum_cons, List.sum_cons, ih]
      omega
    | false =>
      rw [List.filter_cons_of_pos (by rw [hname]; decide),
        List.filter_cons_of_neg (by rw [hname]; decide), List.map_cons, List.map_cons,
        List.sum_cons, List.sum_cons, ih]
      omega

theorem toSet_removeAll (m : Multimap) (headerName : Str) :
    toSet (m.removeAll headerName) = (toSet m).removeAll headerName := by
  have hremoved : (inBucket m (hash (lowerstr headerName) HSHT_BITS)).filter
      (fun h => h.key == lowerstr headerName) = m.any headerName := by
    unfold Multimap.any
    rw [Multimap.named_eq]
    exact filter_bucket (fun x hx => beq_iff_eq.mp hx) m
  have hrest : (m.any headerName).foldl (fun total h => total - h.size)
      (UInt16.ofNat ((m.removeAll headerName).size + Multimap.size (m.any headerName))) =
        UInt16.ofNat (m.removeAll headerName).size :=
    foldl_sub (fun h : Header => UInt16.ofNat_toNat.symm) _ _
  unfold toSet HeaderSet.removeAll
  dsimp only
  rw [hremoved, size_removeAll m headerName, hrest]
  congr 1
  funext b
  by_cases hb : b = hash (lowerstr headerName) HSHT_BITS
  · rw [hb, Function.update_self]
    unfold inBucket bucket Multimap.removeAll
    rw [List.filter_filter, List.filter_filter]
    apply List.filter_congr
    intro x _
    rw [Multimap.named_eq]
    exact Bool.and_comm ..
  · rw [Function.update_of_ne hb]
    unfold inBucket bucket Multimap.removeAll
    rw [List.filter_filter]
    apply List.filter_congr
    intro x _
    by_cases hx : hash x.key HSHT_BITS = b
    · have hname : Multimap.named headerName x = false := by
        rw [Bool.eq_false_iff, ne_eq, Multimap.isNamed_iff]
        intro hkey
        rw [hkey] at hx
        exact hb hx.symm
      rw [hname]
      exact Bool.and_true _
    · rw [decide_eq_false hx]
      rfl

theorem toSet_any (m : Multimap) (headerName : Str) :
    (toSet m).any headerName = m.any headerName := by
  rw [Multimap.any, Multimap.named_eq]
  exact @filter_bucket _ _ _ _ Header.key (fun key => hash key HSHT_BITS) _ (lowerstr headerName)
    (fun _ hx => beq_iff_eq.mp hx) m

/-! ### Runs of operations -/

/-- The name whose headers an operation can add or take away. -/
def Op.headerName : Op → Str
  | .add header | .set header | .remove header => header.name
  | .removeAll headerName => headerName

theorem any_append (m : Multimap) {header : Header} {headerName : Str}
    (hne : sameName headerName header.name = false) :
    Multimap.any (m ++ [header]) headerName = m.any headerName := by
  have hnot : Multimap.named headerName header = false := by
    rw [Bool.eq_false_iff, ne_eq, sameName_iff] at hne
    rw [Bool.eq_false_iff, ne_eq, Multimap.isNamed_iff]
    exact Ne.symm hne
  unfold Multimap.any
  rw [List.filter_append, List.filter_singleton, hnot]
  exact List.append_nil _

theorem any_removeAll (m : Multimap) {name headerName : Str}
    (hne : sameName headerName name = false) :
    (m.removeAll name).any headerName = m.any headerName := by
  rw [Bool.eq_false_iff, ne_eq, sameName_iff] at hne
  unfold Multimap.any Multimap.removeAll
  rw [List.filter_filter, Multimap.named_eq, Multimap.named_eq]
  apply List.filter_congr
  intro x _
  dsimp only
  by_cases hx : x.key = lowerstr headerName
  · rw [hx, beq_self_eq_true, Bool.true_and, Bool.not_eq_true', beq_eq_false_iff_ne]
    exact hne
  · rw [beq_eq_false_iff_ne.mpr hx, Bool.false_and]

/-- Headers of other names stay as they are. -/
theorem any_step (m : Multimap) (op : Op) {headerName : Str}
    (hname : sameName headerName (Op.headerName op) = false) :
    (m.step op).1.any headerName = m.any headerName := by
  cases op with
  | add header => exact any_append m hname
  | set header => exact (any_append _ hname).trans (any_removeAll m hname)
  | remove header =>
    show Multimap.any (m.eraseP (Multimap.same header)) headerName = _
    cases hfind : m.find? (Multimap.same header) with
    | none => rw [List.eraseP_of_forall_not (List.find?_eq_none.mp hfind)]
    | some x =>
      have hx := List.find?_some hfind
      rw [Multimap.same, Bool.and_eq_true, sameName_iff] at hx
      apply filter_eraseP hfind
      rw [Multimap.named, Bool.eq_false_iff, ne_eq, sameName_iff, hx.1]
      rw [Bool.eq_false_iff, ne_eq, sameName_iff] at hname
      exact Ne.symm hname
  | removeAll name => exact any_removeAll m hname

/-- Every run of operations in memory gives what the list gives, and the set holds what the
list holds. -/
theorem headers_refine (ops : List Op) :
    ∃ self m rcs, Memory.create.run ops = some (self, rcs) ∧
      Multimap.run [] ops = (m, rcs) ∧ self.count = m.length ∧
      self.size.toNat = m.size % 2 ^ 16 ∧
      (∀ headerName fuel, self.buckets.allocated < fuel →
        self.visited fuel (Memory.any headerName) = some (m.any headerName)) ∧
      (∀ headerName, self.first headerName = some (m.first headerName) ∧
        self.single headerName = some (m.single headerName)) ∧
      ∀ op headerName, sameName headerName (Op.headerName op) = false →
        ∃ self' rc, self.step op = some (self', rc) ∧
          ∀ fuel, self'.buckets.allocated < fuel →
            self'.visited fuel (Memory.any headerName) = some (m.any headerName) := by
  obtain ⟨self, cells, hrun, hstored⟩ := stored_create.run ops
  refine ⟨self, _, _, hrun, rfl, hstored.count, hstored.size, ?_, ?_, ?_⟩
  · exact fun headerName fuel hfuel => hstored.any headerName hfuel
  · exact fun headerName => ⟨hstored.first headerName, hstored.single headerName⟩
  · intro op headerName hname
    obtain ⟨self', cells', hstep, hstored'⟩ := hstored.step op
    refine ⟨self', _, hstep, fun fuel hfuel => ?_⟩
    rw [hstored'.any headerName hfuel, any_step _ op hname]

end Swad.HeaderMultimap
