import Mathlib.Algebra.BigOperators.Fin
import Swad.PairSplitting
import Swad.Pipeline

/-!
The header block of a response, and what a client reads in it. A block reads back as
the header set it was written from when no field contains the end of a line and the
16-bit count of the bytes did not wrap around.
-/
namespace Swad.HeaderBlock

open Bytes Util Headerset Http Httprequest Httpresponse Httpserver Middleware SessionStore
  Handlers Pipeline PairSplitting LabelledRuns Ratelimit TextCodecs

variable {W : Type}

/-! ### The size of a header set -/

def size (headers : List Header) : ℕ := (headers.map fun h => h.writeTo.length).sum

def total (self : HeaderSet) : ℕ := ∑ b, size (self.buckets b)

/-- The 16 bits that a header set keeps are those of the size of its fields. -/
def Counted (self : HeaderSet) : Prop := self.size = UInt16.ofNat (total self)

theorem Header.writeTo_length (header : Header) :
    header.writeTo.length = header.name.length + header.value.length + 4 := by
  have hsep : (str ": ").length = 2 := rfl
  have heol : crlf.length = 2 := rfl
  simp only [Header.writeTo, List.length_append]
  omega

theorem Header.size_eq (header : Header) : header.size = UInt16.ofNat header.writeTo.length := by
  rw [Header.writeTo_length, Header.size]

theorem size_append (xs ys : List Header) : size (xs ++ ys) = size xs + size ys := by
  simp [size]

theorem size_singleton (header : Header) : size [header] = header.writeTo.length := by
  simp [size]

theorem total_update (self : HeaderSet) (b : Fin (2 ^ HSHT_BITS)) (bucket : List Header) :
    (∑ i, size (Function.update self.buckets b bucket i)) + size (self.buckets b) =
      total self + size bucket := by
  have hfun : (fun i => size (Function.update self.buckets b bucket i)) =
      Function.update (fun i => size (self.buckets i)) b (size bucket) := by
    funext i
    by_cases hi : i = b
    · subst hi
      simp
    · simp [Function.update_of_ne hi]
  rw [hfun, Finset.sum_update_of_mem (Finset.mem_univ b), total,
    ← Finset.add_sum_erase _ _ (Finset.mem_univ b), Finset.sdiff_singleton_eq_erase]
  omega

theorem total_add (self : HeaderSet) (header : Header) :
    total (self.add header) = total self + header.writeTo.length := by
  have h := total_update self (hash header.key HSHT_BITS)
    (self.buckets (hash header.key HSHT_BITS) ++ [header])
  rw [size_append, size_singleton] at h
  simp only [total, HeaderSet.add] at h ⊢
  omega

theorem counted_add {self : HeaderSet} (h : Counted self) (header : Header) :
    Counted (self.add header) := by
  rw [Counted, total_add, UInt16.ofNat_add, ← h, ← Header.size_eq]
  rfl

theorem size_filter (headers : List Header) (p : Header → Bool) :
    size (headers.filter p) + size (headers.filter fun h => !p h) = size headers := by
  induction headers with
  | nil => rfl
  | cons header headers ih =>
    simp only [size] at ih ⊢
    by_cases hp : p header = true
    · simp only [List.filter_cons, hp, if_true, Bool.not_true, Bool.false_eq_true, if_false,
        List.map_cons, List.sum_cons]
      omega
    · simp only [Bool.not_eq_true] at hp
      simp only [List.filter_cons, hp, Bool.not_false, if_true, Bool.false_eq_true, if_false,
        List.map_cons, List.sum_cons]
      omega

theorem total_removeAll (self : HeaderSet) (name : Str) :
    total (self.removeAll name) +
        size ((self.buckets (hash (lowerstr name) HSHT_BITS)).filter
          fun h => h.key == lowerstr name) = total self := by
  have h := total_update self (hash (lowerstr name) HSHT_BITS)
    ((self.buckets (hash (lowerstr name) HSHT_BITS)).filter fun h => h.key != lowerstr name)
  have hfilter := size_filter (self.buckets (hash (lowerstr name) HSHT_BITS))
    fun h => h.key == lowerstr name
  simp only [total, HeaderSet.removeAll, bne] at h ⊢
  omega

theorem counted_removeAll {self : HeaderSet} (h : Counted self) (name : Str) :
    Counted (self.removeAll name) := by
  rw [Counted, HeaderSet.removeAll, h, ← total_removeAll self name]
  exact foldl_sub Header.size_eq _ _

theorem counted_set {self : HeaderSet} (h : Counted self) (header : Header) :
    Counted (self.set header) := counted_add (counted_removeAll h header.name) header

theorem total_set_le (self : HeaderSet) (header : Header) :
    total (self.set header) ≤ total self + header.writeTo.length := by
  have h := total_removeAll self header.name
  rw [HeaderSet.set, total_add]
  omega

theorem total_eq_size_all (self : HeaderSet) : total self = size self.all := by
  have hsize : ∀ bs : List (Fin (2 ^ HSHT_BITS)),
      size (bs.flatMap self.buckets) = (bs.map fun b => size (self.buckets b)).sum := by
    intro bs
    induction bs with
    | nil => rfl
    | cons b bs ih => rw [List.flatMap_cons, size_append, ih, List.map_cons, List.sum_cons]
  rw [total, HeaderSet.all, hsize, Fin.sum_univ_def]

/-! ### The fields of a header set -/

theorem mem_all {self : HeaderSet} {header : Header} :
    header ∈ self.all ↔ ∃ b, header ∈ self.buckets b := by
  simp [HeaderSet.all]

theorem mem_all_add {self : HeaderSet} {header h : Header} :
    h ∈ (self.add header).all ↔ h ∈ self.all ∨ h = header := by
  simp only [mem_all, HeaderSet.add]
  constructor
  · rintro ⟨b, hb⟩
    by_cases hhash : b = hash header.key HSHT_BITS
    · subst hhash
      rw [Function.update_self, List.mem_append, List.mem_singleton] at hb
      exact hb.imp (fun hold => ⟨_, hold⟩) id
    · rw [Function.update_of_ne hhash] at hb
      exact .inl ⟨b, hb⟩
  · rintro (⟨b, hb⟩ | rfl)
    · refine ⟨b, ?_⟩
      by_cases hhash : b = hash header.key HSHT_BITS
      · subst hhash
        rw [Function.update_self]
        exact List.mem_append_left _ hb
      · rw [Function.update_of_ne hhash]
        exact hb
    · refine ⟨hash h.key HSHT_BITS, ?_⟩
      rw [Function.update_self]
      simp

theorem mem_of_mem_removeAll {self : HeaderSet} {name : Str} {h : Header}
    (hmem : h ∈ (self.removeAll name).all) : h ∈ self.all := by
  obtain ⟨b, hb⟩ := mem_all.mp hmem
  rw [mem_all]
  simp only [HeaderSet.removeAll] at hb
  by_cases hhash : b = hash (lowerstr name) HSHT_BITS
  · subst hhash
    rw [Function.update_self] at hb
    exact ⟨_, List.mem_of_mem_filter hb⟩
  · rw [Function.update_of_ne hhash] at hb
    exact ⟨b, hb⟩

theorem mem_removeAll_of_ne {self : HeaderSet} {name : Str} {h : Header} (hmem : h ∈ self.all)
    (hne : h.key ≠ lowerstr name) : h ∈ (self.removeAll name).all := by
  obtain ⟨b, hb⟩ := mem_all.mp hmem
  refine mem_all.mpr ⟨b, ?_⟩
  simp only [HeaderSet.removeAll]
  by_cases hhash : b = hash (lowerstr name) HSHT_BITS
  · subst hhash
    rw [Function.update_self, List.mem_filter]
    exact ⟨hb, by simpa using hne⟩
  · rw [Function.update_of_ne hhash]
    exact hb

/-! ### The block -/

def Header.line (self : Header) : Str := self.name ++ str ": " ++ self.value

/-- The bytes before the body are, split at the ends of lines, the status line, a line
for every field, and the empty line that ends the block. -/
def ReadsBack (response : HttpResponse) : Prop :=
  ∃ block, response.headerBuf = some block ∧
    splitPair (chr '\r') (chr '\n') block =
      response.prepare.statusLine :: (response.prepare.headers.all.map Header.line ++ [[], []])

/-- The count of the bytes is right, with room for the fields that are added at the end. -/
structure Fits (headers : HeaderSet) : Prop where
  counted : Counted headers
  total_le : total headers ≤ 65000

theorem statusStr_length (status : HttpStatus) : (statusStr status).length ≤ 40 := by
  cases status <;> decide

theorem statusLine_noCrlf (response : HttpResponse) : ¬ crlf <:+: response.statusLine := by
  have hno : chr '\r' ∉ response.statusLine := by
    unfold HttpResponse.statusLine
    cases response.version <;> cases response.status <;> decide
  exact fun h => hno (h.subset (by simp [crlf]))

theorem prepare_headers (response : HttpResponse) :
    response.prepare.headers = response.headers ∨
      response.prepare.headers = response.headers.add cacheControl := by
  unfold HttpResponse.prepare
  dsimp only
  split
  · exact .inr rfl
  · exact .inl rfl

theorem total_prepare_le {response : HttpResponse} (h : Fits response.headers) :
    total response.prepare.headers ≤ 65100 := by
  have htotal := h.total_le
  rcases prepare_headers response with heq | heq
  · rw [heq]
    omega
  · rw [heq, total_add]
    have hlength : cacheControl.writeTo.length = 52 := by decide
    omega

theorem counted_prepare {response : HttpResponse} (h : Counted response.headers) :
    Counted response.prepare.headers := by
  rcases prepare_headers response with heq | heq
  · rw [heq]
    exact h
  · rw [heq]
    exact counted_add h _

def headerBlock (response : HttpResponse) : Str :=
  response.prepare.statusLine ++ crlf ++ response.prepare.headers.all.flatMap Header.writeTo ++ crlf

theorem length_headerBlock (response : HttpResponse) :
    (headerBlock response).length =
      total response.prepare.headers + (statusStr response.prepare.status).length + 13 := by
  have hversion : (versionStr response.prepare.version).length = 8 := by
    cases response.prepare.version <;> rfl
  have hspace : (str " ").length = 1 := rfl
  have heol : crlf.length = 2 := rfl
  have hfields : (response.prepare.headers.all.flatMap Header.writeTo).length =
      total response.prepare.headers := by
    rw [List.length_flatMap, total_eq_size_all, size]
  simp only [headerBlock, HttpResponse.statusLine, List.length_append]
  omega

/-- A block whose size fits 16 bits is sent as it is. -/
theorem headerBuf_of_length {response : HttpResponse} (hcounted : Counted response.headers)
    (hlength : (headerBlock response).length ≤ 65535) :
    response.headerBuf = some (headerBlock response) := by
  have hblock := length_headerBlock response
  have hsize : response.prepare.headers.size.toNat = total response.prepare.headers := by
    rw [counted_prepare hcounted, UInt16.toNat_ofNat']
    omega
  unfold HttpResponse.headerBuf
  dsimp only
  rw [hsize, ← hblock]
  change (if (headerBlock response).length ≤ (headerBlock response).length then
    some ((headerBlock response).take ((headerBlock response).length % 65536)) else none) = _
  rw [if_pos le_rfl, Nat.mod_eq_of_lt (by omega), List.take_length]

theorem length_headerBlock_le {response : HttpResponse} (h : Fits response.headers) :
    (headerBlock response).length ≤ 65535 := by
  have htotal := total_prepare_le h
  have hstatus := statusStr_length response.prepare.status
  have hblock := length_headerBlock response
  omega

theorem headerBuf_eq {response : HttpResponse} (h : Fits response.headers) :
    response.headerBuf = some (response.prepare.statusLine ++ crlf ++
      response.prepare.headers.all.flatMap Header.writeTo ++ crlf) :=
  headerBuf_of_length h.counted (length_headerBlock_le h)

/-- A block reads back exactly when no field contains the end of a line. -/
theorem readsBack_iff {response : HttpResponse} (h : Fits response.headers) :
    ReadsBack response ↔ ∀ header ∈ response.headers.all, ¬ crlf <:+: Header.line header := by
  have hab : chr '\r' ≠ chr '\n' := by decide
  have hblock : response.prepare.statusLine ++ crlf ++
      response.prepare.headers.all.flatMap Header.writeTo ++ crlf =
      (response.prepare.statusLine :: response.prepare.headers.all.map Header.line).flatMap
        (· ++ [chr '\r', chr '\n']) ++ crlf := by
    rw [List.flatMap_cons, List.flatMap_map]
    rfl
  have hsplit : splitPair (chr '\r') (chr '\n') crlf = [[], []] := by decide
  have hprepare : (∀ header ∈ response.prepare.headers.all, ¬ crlf <:+: Header.line header) ↔
      ∀ header ∈ response.headers.all, ¬ crlf <:+: Header.line header := by
    rcases prepare_headers response with heq | heq
    · rw [heq]
    · have hcache : ¬ crlf <:+: Header.line cacheControl := by decide
      rw [heq]
      refine ⟨fun hall header hmem => hall header (mem_all_add.mpr (.inl hmem)),
        fun hall header hmem => ?_⟩
      rcases mem_all_add.mp hmem with hold | rfl
      · exact hall header hold
      · exact hcache
  rw [← hprepare, ReadsBack, headerBuf_eq h]
  simp only [Option.some.injEq, exists_eq_left']
  rw [hblock, splitPair_flatMap hab, hsplit, ← List.cons_append,
    List.append_left_inj, flatMap_splitPair_eq hab, List.forall_mem_cons, List.forall_mem_map]
  exact and_iff_right (statusLine_noCrlf _)

end Swad.HeaderBlock
