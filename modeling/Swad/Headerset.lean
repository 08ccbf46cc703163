import Mathlib.Data.List.Induction
import Swad.Util

/-!
Header fields and sets of them. A set is a hash table of buckets in which fields
keep the order of insertion; names compare without regard to case. The total size
of the serialised fields is kept in 16 bits.
-/
namespace Swad.Headerset

open Bytes Util

def UINT16_MAX : ℕ := 65535

def validate (name value : Str) : Bool :=
  name.length ≤ UINT16_MAX && value.length ≤ UINT16_MAX &&
    name.length + value.length + 4 ≤ UINT16_MAX

/-- A field whose serialised form fits the 16 bits of its size. -/
structure Header where
  name : Str
  value : Str
  valid : validate name value = true
  deriving DecidableEq

def Header.create (name value : Str) : Option Header :=
  if h : validate name value = true then some ⟨name, value, h⟩ else none

def Header.size (self : Header) : UInt16 :=
  UInt16.ofNat (self.name.length + self.value.length + 4)

/-- The bytes of a field in a header block. -/
def Header.writeTo (self : Header) : Str := self.name ++ str ": " ++ self.value ++ crlf

/-- The key under which a set keeps the field. -/
def Header.key (self : Header) : Str := lowerstr self.name

def HSHT_BITS : ℕ := 5

structure HeaderSet where
  buckets : Fin (2 ^ HSHT_BITS) → List Header
  size : UInt16

def HeaderSet.create : HeaderSet := ⟨fun _ => [], 0⟩

def HeaderSet.add (self : HeaderSet) (header : Header) : HeaderSet where
  buckets := Function.update self.buckets (hash header.key HSHT_BITS)
    (self.buckets (hash header.key HSHT_BITS) ++ [header])
  size := self.size + header.size

def HeaderSet.removeAll (self : HeaderSet) (headerName : Str) : HeaderSet :=
  let key := lowerstr headerName
  let bucket := self.buckets (hash key HSHT_BITS)
  { buckets := Function.update self.buckets (hash key HSHT_BITS)
      (bucket.filter (fun h => h.key != key))
    size := (bucket.filter (fun h => h.key == key)).foldl (fun size h => size - h.size) self.size }

def HeaderSet.set (self : HeaderSet) (header : Header) : HeaderSet :=
  (self.removeAll header.name).add header

def HeaderSet.first (self : HeaderSet) (headerName : Str) : Option Header :=
  (self.buckets (hash (lowerstr headerName) HSHT_BITS)).find?
    (fun h => h.key == lowerstr headerName)

/-- The field of a name that occurs exactly once. -/
def HeaderSet.single (self : HeaderSet) (headerName : Str) : Option Header :=
  match (self.buckets (hash (lowerstr headerName) HSHT_BITS)).filter
      (fun h => h.key == lowerstr headerName) with
  | [header] => some header
  | _ => none

/-- The fields of a name, in the order an iterator visits them. -/
def HeaderSet.any (self : HeaderSet) (headerName : Str) : List Header :=
  (self.buckets (hash (lowerstr headerName) HSHT_BITS)).filter
    (fun h => h.key == lowerstr headerName)

/-- A walk through the fields of a name: the chain of their bucket, and what is left of it
from the current entry on, nothing if there is none. -/
structure HeaderIterator where
  bucket : List Header
  key : Str
  entry : List Header

def HeaderSet.iterator (self : HeaderSet) (headerName : Str) : HeaderIterator :=
  ⟨self.buckets (hash (lowerstr headerName) HSHT_BITS), lowerstr headerName, []⟩

/-- The next entry of the chain with the key, if there is one. -/
def HeaderIterator.moveNext (self : HeaderIterator) : Option HeaderIterator :=
  let chain :=
    match self.entry with
    | [] => self.bucket
    | _ :: next => next
  match chain.dropWhile (fun h => h.key != self.key) with
  | [] => none
  | entry => some { self with entry }

def HeaderIterator.current (self : HeaderIterator) : Option Header := self.entry.head?

/-- All that is current until there is no next entry. No chain is longer than its bucket. -/
def HeaderIterator.visit : ℕ → HeaderIterator → List Header
  | 0, _ => []
  | fuel + 1, self =>
    match self.moveNext with
    | none => []
    | some next => next.current.toList ++ next.visit fuel

def HeaderIterator.visited (self : HeaderIterator) : List Header :=
  self.visit (self.bucket.length + 1)

/-- Taking the sizes of all entries off a 16-bit total again. -/
theorem foldl_sub {A : Type*} {size : A → UInt16} {n : A → ℕ}
    (h : ∀ a, size a = UInt16.ofNat (n a)) (l : List A) (rest : ℕ) :
    l.foldl (fun total a => total - size a) (UInt16.ofNat (rest + (l.map n).sum)) =
      UInt16.ofNat rest := by
  induction l with
  | nil => rfl
  | cons a l ih =>
    have hfirst : rest + ((a :: l).map n).sum = rest + (l.map n).sum + n a := by
      rw [List.map_cons, List.sum_cons]
      omega
    rw [List.foldl_cons, hfirst, UInt16.ofNat_add, ← h, UInt16.add_sub_cancel, ih]

/-- All fields of a nonempty set, in the order an iterator visits them. -/
def HeaderSet.all (self : HeaderSet) : List Header :=
  (List.finRange (2 ^ HSHT_BITS)).flatMap self.buckets

theorem Header.create_eq_some {name value : Str} {h : Header} :
    Header.create name value = some h ↔
      validate name value = true ∧ h.name = name ∧ h.value = value := by
  unfold Header.create
  constructor
  · intro heq
    split at heq
    · next hv =>
      obtain rfl := Option.some.inj heq
      exact ⟨hv, rfl, rfl⟩
    · simp at heq
  · rintro ⟨hv, rfl, rfl⟩
    simp [h.valid]

@[simp] theorem HeaderSet.first_create (name : Str) : HeaderSet.create.first name = none := rfl

theorem HeaderSet.first_add (self : HeaderSet) (header : Header) (name : Str) :
    (self.add header).first name =
      (self.first name).or (if header.key = lowerstr name then some header else none) := by
  unfold HeaderSet.first HeaderSet.add
  by_cases hkey : header.key = lowerstr name
  · rw [← hkey]
    simp [List.find?_append, Option.or]
  · by_cases hhash : hash (lowerstr name) HSHT_BITS = hash header.key HSHT_BITS
    · simp [hhash, List.find?_append, hkey]
    · simp [Function.update_of_ne hhash, hkey]

theorem HeaderSet.any_add (self : HeaderSet) (header : Header) (name : Str) :
    (self.add header).any name =
      self.any name ++ if header.key = lowerstr name then [header] else [] := by
  unfold HeaderSet.any HeaderSet.add
  by_cases hkey : header.key = lowerstr name
  · rw [← hkey]
    simp
  · by_cases hhash : hash (lowerstr name) HSHT_BITS = hash header.key HSHT_BITS
    · simp [hhash, List.filter_append, hkey]
    · simp [Function.update_of_ne hhash, hkey]

theorem HeaderSet.any_removeAll (self : HeaderSet) (headerName name : Str) :
    (self.removeAll headerName).any name =
      if lowerstr headerName = lowerstr name then [] else self.any name := by
  unfold HeaderSet.any HeaderSet.removeAll
  dsimp only
  by_cases hkey : lowerstr headerName = lowerstr name
  · rw [if_pos hkey, hkey, Function.update_self, List.filter_filter, List.filter_eq_nil_iff]
    intro h _
    simp
  · rw [if_neg hkey]
    by_cases hhash : hash (lowerstr name) HSHT_BITS = hash (lowerstr headerName) HSHT_BITS
    · rw [← hhash, Function.update_self, List.filter_filter]
      refine List.filter_congr fun h _ => ?_
      by_cases hname : h.key = lowerstr name
      · simp [hname, Ne.symm hkey]
      · simp [hname]
    · rw [Function.update_of_ne hhash]

/-- After a field was set it is the only one of its name. -/
theorem HeaderSet.any_set (self : HeaderSet) (header : Header) (name : Str) :
    (self.set header).any name =
      if header.key = lowerstr name then [header] else self.any name := by
  rw [HeaderSet.set, HeaderSet.any_add, HeaderSet.any_removeAll]
  change (if header.key = lowerstr name then [] else self.any name) ++ _ = _
  by_cases hkey : header.key = lowerstr name
  · rw [if_pos hkey, if_pos hkey, if_pos hkey, List.nil_append]
  · rw [if_neg hkey, if_neg hkey, if_neg hkey, List.append_nil]

/-- The fields of a name keep the order in which they were added. -/
theorem HeaderSet.any_foldl (headers : List Header) (name : Str) :
    (headers.foldl HeaderSet.add HeaderSet.create).any name =
      headers.filter (fun h => h.key == lowerstr name) := by
  induction headers using List.reverseRecOn with
  | nil => rfl
  | append_singleton headers header ih =>
    rw [List.foldl_append, List.foldl_cons, List.foldl_nil, HeaderSet.any_add, ih,
      List.filter_append]
    by_cases hkey : header.key = lowerstr name
    · simp [hkey]
    · simp [hkey]

theorem filter_dropWhile (p : Header → Bool) (chain : List Header) :
    (chain.dropWhile fun h => !p h).filter p = chain.filter p := by
  conv_rhs => rw [← List.takeWhile_append_dropWhile (p := fun h => !p h) (l := chain)]
  have hnone : (chain.takeWhile fun h => !p h).filter p = [] := by
    rw [List.filter_eq_nil_iff]
    intro h hh
    have hnot := List.mem_takeWhile_imp hh
    simpa using hnot
  rw [List.filter_append, hnone, List.nil_append]

/-- An iterator visits what is left of the chain, and only the entries with its key. -/
theorem HeaderIterator.visit_eq (self : HeaderIterator) {chain : List Header}
    (hchain : chain = match self.entry with
      | [] => self.bucket
      | _ :: next => next) {fuel : ℕ} (hfuel : chain.length < fuel) :
    self.visit fuel = chain.filter (fun h => h.key == self.key) := by
  induction fuel generalizing self chain with
  | zero => exact absurd hfuel (Nat.not_lt_zero _)
  | succ fuel ih =>
    unfold HeaderIterator.visit HeaderIterator.moveNext
    dsimp only
    rw [← hchain, ← filter_dropWhile]
    have hshorter : (chain.dropWhile (fun h => h.key != self.key)).length ≤ chain.length :=
      (List.dropWhile_suffix _).length_le
    have hsame : (fun h : Header => !(h.key == self.key)) = fun h => h.key != self.key := rfl
    rw [hsame]
    cases hfound : chain.dropWhile (fun h => h.key != self.key) with
    | nil => rfl
    | cons header next =>
      rw [hfound] at hshorter
      have hkey : (header.key == self.key) = true := by simpa using (split_of_dropWhile hfound).2
      rw [List.length_cons] at hshorter
      have hrest := @ih { self with entry := header :: next } next rfl (by omega)
      rw [List.filter_cons, if_pos hkey]
      exact congrArg (header :: ·) hrest

theorem HeaderSet.visited_iterator (self : HeaderSet) (name : Str) :
    (self.iterator name).visited = self.any name :=
  HeaderIterator.visit_eq (self.iterator name) rfl (Nat.lt_succ_self _)

end Swad.Headerset
