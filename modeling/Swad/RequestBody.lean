import Swad.Httprequest

/-!
The body that a request holds once it is received, for every way the connection
splits it. Each chunk is copied to the start of the body's memory, so the body is
the announced bytes only if they arrive at once.
-/
namespace Swad.RequestBody

open Bytes Util Headerset Httprequest

/-- The headers announce a body of `n` bytes that the server accepts. -/
def ContentLength (headers : HeaderSet) (n : ℕ) : Prop :=
  ∃ header, headers.first (str "Content-Length") = some header ∧
    strtoll header.value = (↑n, []) ∧ 1 ≤ n ∧ n ≤ MAXBODY

/-- The chunks reach the end of a body of `n` bytes, and only the last one does. -/
def Delivers (n : ℕ) (chunks : List (List Byte)) : Prop :=
  n ≤ chunks.flatten.length ∧ chunks.dropLast.flatten.length < n

/-- The first chunk that is not empty holds the whole body. -/
def InOneChunk (n : ℕ) (chunks : List (List Byte)) : Prop :=
  ∃ pre chunk post, chunks = pre ++ chunk :: post ∧ pre.flatten = [] ∧ n ≤ chunk.length

/-- Nothing of a body has arrived before the blank line. -/
def Unfilled (self : HttpRequest) : Prop := self.recvState ≠ .body → self.bodypos = 0

theorem unfilled_of_eq {self self' : HttpRequest} (h : Unfilled self)
    (hstate : self.recvState ≠ .body) (hpos : self'.bodypos = self.bodypos) :
    Unfilled self' := by
  intro _
  rw [hpos]
  exact h hstate

theorem dataReceived_unfilled {self self' : HttpRequest} {buf : List Byte}
    (h : Unfilled self) (hdata : dataReceived self buf = .more self') : Unfilled self' := by
  unfold dataReceived at hdata
  cases hstate : self.recvState with
  | method =>
    simp only [hstate] at hdata
    obtain ⟨meth, path, version, rfl⟩ := requestLine_eq_some (orError_eq_more.mp hdata)
    exact unfilled_of_eq h (by simp [hstate]) rfl
  | headers =>
    simp only [hstate, headerLine] at hdata
    obtain ⟨headers, hdrnm, hdrval, hstore⟩ := storeHeader_eq self
    split at hdata
    · obtain ⟨_, _, _, _, _, rfl⟩ := continueHeader_eq_some (orError_eq_more.mp hdata)
      exact unfilled_of_eq h (by simp [hstate]) rfl
    · rw [hstore] at hdata
      split at hdata
      · unfold blankLine at hdata
        split at hdata
        · split at hdata <;> cases hdata
        · dsimp only at hdata
          split at hdata
          · cases hdata
          · cases hdata
            intro hbody
            exact absurd rfl hbody
      · obtain ⟨_, _, _, _, _, rfl⟩ := newHeader_eq_some (orError_eq_more.mp hdata)
        exact unfilled_of_eq h (by simp [hstate]) rfl
  | body =>
    simp only [hstate, bodyChunk] at hdata
    split at hdata
    · cases hdata
      intro hbody
      exact absurd rfl hbody
    · cases hdata

theorem feed_unfilled {self self' : HttpRequest} (bufs : List (List Byte))
    (h : Unfilled self) (hfeed : feed self bufs = some (.more self')) : Unfilled self' := by
  induction bufs generalizing self with
  | nil =>
    cases hfeed
    exact h
  | cons buf bufs ih =>
    unfold feed at hfeed
    cases hdata : dataReceived self buf with
    | more next =>
      rw [hdata] at hfeed
      exact ih (dataReceived_unfilled h hdata) hfeed
    | received next => simp [hdata] at hfeed
    | error => simp [hdata] at hfeed

/-- A request that has received the chunks, which are less than its body. -/
structure Filling (req : HttpRequest) (n : ℕ) (chunks : List (List Byte)) : Prop where
  state : req.recvState = .body
  size : req.bodySize = n
  pos : req.bodypos = chunks.flatten.length
  short : chunks.flatten.length < n
  length : req.body.length = n
  last_unset : req.body[n - 1]? = some none

/-- The blank line after a valid Content-Length starts the body. -/
theorem blankLine_filling {req : HttpRequest} {line : List Byte} {n : ℕ}
    (hfresh : Unfilled req) (hstate : req.recvState = .headers)
    (hblank : startsWithEol (cstr line) = true)
    (hn : ContentLength (storeHeader req).headers n) :
    ∃ self, dataReceived req line = .more self ∧ Filling self n [] := by
  obtain ⟨header, hfirst, hvalue, hpos, hmax⟩ := hn
  have hnotBlank : (cstr line).head?.any isBlank = false := by
    cases hline : (cstr line).head? with
    | none => rfl
    | some c =>
      simp only [startsWithEol, hline, Bool.or_eq_true, beq_iff_eq, Option.some.injEq] at hblank
      rcases hblank with rfl | rfl <;> rfl
  have hbad : ¬ (([] : Str) ≠ [] ∨ (n : ℤ) ≤ 0 ∨ (MAXBODY : ℤ) < n) := by
    simp only [ne_eq, not_true_eq_false, false_or]
    omega
  refine ⟨{ storeHeader req with
      bodySize := n, body := List.replicate n none, recvState := .body }, ?_, ?_⟩
  · simp only [dataReceived, hstate, headerLine, hnotBlank, hblank, if_true, blankLine,
      hfirst, hvalue, if_neg hbad, Int.toNat_natCast]
    rfl
  · obtain ⟨headers, hdrnm, hdrval, hstore⟩ := storeHeader_eq req
    have hzero : req.bodypos = 0 := hfresh (by simp [hstate])
    refine ⟨rfl, rfl, ?_, hpos, by simp, ?_⟩
    · simp [hstore, hzero]
    · rw [List.getElem?_replicate, if_pos (by omega)]

theorem overwrite_length {dest : List (Option Byte)} {src : List Byte}
    (h : src.length ≤ dest.length) : (overwrite dest src).length = dest.length := by
  simp only [overwrite, List.length_append, List.length_map, List.length_drop]
  omega

/-- Memory behind the copied bytes keeps its content. -/
theorem overwrite_getElem? {dest : List (Option Byte)} {src : List Byte} {i : ℕ}
    (h : src.length ≤ i) : (overwrite dest src)[i]? = dest[i]? := by
  rw [overwrite, List.getElem?_append_right (by simpa using h), List.length_map,
    List.getElem?_drop]
  congr 1
  omega

theorem Filling.more {self : HttpRequest} {n : ℕ} {chunks : List (List Byte)}
    (h : Filling self n chunks) (chunk : List Byte)
    (hshort : (chunks ++ [chunk]).flatten.length < n) :
    ∃ self', dataReceived self chunk = .more self' ∧ Filling self' n (chunks ++ [chunk]) := by
  obtain ⟨hstate, hsize, hpos, hbefore, hlength, hlast⟩ := h
  have hsum : chunks.flatten.length + chunk.length < n := by
    simpa only [List.flatten_append, List.flatten_singleton, List.length_append] using hshort
  have htake : chunk.take (self.bodySize - self.bodypos) = chunk :=
    List.take_of_length_le (by omega)
  refine ⟨{ self with
      body := overwrite self.body chunk, bodypos := self.bodypos + chunk.length }, ?_, ?_⟩
  · simp only [dataReceived, hstate, bodyChunk, htake]
    rw [if_pos (by omega)]
  · refine ⟨hstate, hsize, ?_, hshort, ?_, ?_⟩
    · simp [hpos]
    · change (overwrite self.body chunk).length = n
      rw [overwrite_length (by omega), hlength]
    · change (overwrite self.body chunk)[n - 1]? = some none
      rw [overwrite_getElem? (by omega), hlast]

/-- The last chunk completes the request; its body is right exactly if no byte of
it came in an earlier chunk. -/
theorem Filling.done {self : HttpRequest} {n : ℕ} {chunks : List (List Byte)}
    (h : Filling self n chunks) (chunk : List Byte)
    (hlong : n ≤ (chunks ++ [chunk]).flatten.length) :
    ∃ r, dataReceived self chunk = .received r ∧ r.bodySize = n ∧
      (r.body = ((chunks ++ [chunk]).flatten.take n).map some ↔ chunks.flatten = []) := by
  obtain ⟨hstate, hsize, hpos, hbefore, hlength, hlast⟩ := h
  have hsum : n ≤ chunks.flatten.length + chunk.length := by
    simpa only [List.flatten_append, List.flatten_singleton, List.length_append] using hlong
  refine ⟨finish { self with
      body := overwrite self.body (chunk.take (n - chunks.flatten.length))
      bodypos := n }, ?_, hsize, ?_⟩
  · have hrest : self.bodypos + (chunk.take (n - chunks.flatten.length)).length = n := by
      rw [List.length_take]
      omega
    simp only [dataReceived, hstate, bodyChunk, hsize, ← hpos]
    rw [hpos] at hrest ⊢
    simp only [hrest, lt_irrefl, if_false]
  · change overwrite self.body (chunk.take (n - chunks.flatten.length)) = _ ↔ _
    constructor
    · intro hbody
      by_contra hne
      have hsome : (overwrite self.body (chunk.take (n - chunks.flatten.length)))[n - 1]? =
          some none := by
        have hlen : 0 < chunks.flatten.length := List.length_pos_iff.mpr hne
        rw [overwrite_getElem? (by rw [List.length_take]; omega), hlast]
      rw [hbody, List.getElem?_map] at hsome
      simp at hsome
    · intro hnil
      rw [hnil] at hsum
      rw [List.flatten_append, hnil]
      simpa [overwrite, hlength] using Nat.le_min.mpr ⟨Nat.le_refl n, by simpa using hsum⟩

theorem inOneChunk_iff {n : ℕ} {chunks : List (List Byte)} {chunk : List Byte}
    (hbefore : chunks.flatten.length < n) (hlong : n ≤ (chunks ++ [chunk]).flatten.length) :
    InOneChunk n (chunks ++ [chunk]) ↔ chunks.flatten = [] := by
  constructor
  · rintro ⟨pre, c, post, heq, hpre, hc⟩
    induction post using List.reverseRecOn with
    | nil =>
      obtain ⟨rfl, _⟩ := List.append_inj' heq rfl
      exact hpre
    | append_singleton post d _ =>
      rw [← List.cons_append, ← List.append_assoc] at heq
      obtain ⟨rfl, _⟩ := List.append_inj' heq rfl
      simp only [List.flatten_append, List.flatten_cons, List.length_append] at hbefore
      omega
  · intro hnil
    refine ⟨chunks, chunk, [], rfl, hnil, ?_⟩
    simpa [List.flatten_append, hnil] using hlong

/-- From any part of the body on, the remaining chunks complete the request. -/
theorem feed_chunks {self : HttpRequest} {n : ℕ} (chunks rest : List (List Byte))
    (h : Filling self n chunks) (hd : Delivers n (chunks ++ rest)) :
    ∃ r, feed self rest = some (.received r) ∧ r.bodySize = n ∧
      (r.body = ((chunks ++ rest).flatten.take n).map some ↔ InOneChunk n (chunks ++ rest)) := by
  induction rest generalizing self chunks with
  | nil =>
    have hlong := hd.1
    rw [List.append_nil] at hlong
    exact absurd hlong (Nat.not_le.mpr h.short)
  | cons chunk rest ih =>
    rw [show chunks ++ chunk :: rest = (chunks ++ [chunk]) ++ rest by simp] at hd ⊢
    cases rest with
    | nil =>
      rw [List.append_nil] at hd ⊢
      obtain ⟨r, hdata, hsize, hbody⟩ := h.done chunk hd.1
      refine ⟨r, ?_, hsize, ?_⟩
      · simp [feed, hdata]
      · rw [hbody, inOneChunk_iff h.short hd.1]
    | cons next rest =>
      have hshort : (chunks ++ [chunk]).flatten.length < n := by
        have hinit := hd.2
        rw [List.dropLast_append_of_ne_nil (by simp), List.flatten_append,
          List.length_append] at hinit
        omega
      obtain ⟨self', hdata, hfill⟩ := h.more chunk hshort
      obtain ⟨r, hfeed, hrest⟩ := ih (chunks ++ [chunk]) hfill hd
      exact ⟨r, (feed_cons_more hdata _).trans hfeed, hrest⟩

/-- For every request whose headers announce a valid body and every way the
connection splits the bytes of the body, the request is received and its body is
the announced bytes exactly if they all arrived in one chunk. -/
theorem body_eq_iff {lines : List (List Byte)} {req : HttpRequest}
    (hlines : feed HttpRequest.create lines = some (.more req))
    (hstate : req.recvState = .headers) {line : List Byte}
    (hblank : startsWithEol (cstr line) = true) {n : ℕ}
    (hn : ContentLength (storeHeader req).headers n) {chunks : List (List Byte)}
    (hd : Delivers n chunks) :
    ∃ r, feed req (line :: chunks) = some (.received r) ∧ r.bodySize = n ∧
      (r.body = (chunks.flatten.take n).map some ↔ InOneChunk n chunks) := by
  have hfresh : Unfilled req := feed_unfilled lines (fun _ => rfl) hlines
  obtain ⟨self, hdata, hfill⟩ := blankLine_filling hfresh hstate hblank hn
  obtain ⟨r, hfeed, hsize, hbody⟩ := feed_chunks [] chunks hfill (by simpa using hd)
  exact ⟨r, (feed_cons_more hdata chunks).trans hfeed, hsize, by simpa using hbody⟩

/-- The lines of a login form of four bytes, without the blank line. -/
def postLines : List (List Byte) :=
  [str "POST / HTTP/1.1" ++ crlf, str "Content-Length: 4" ++ crlf]

theorem feed_postLines :
    ∃ req, feed HttpRequest.create postLines = some (.more req) ∧
      req.recvState = .headers ∧ ContentLength (storeHeader req).headers 4 :=
  ⟨_, rfl, rfl, _, rfl, by decide, by decide, by decide⟩

theorem body_eq_iff_post :
    ∃ req r, feed req [crlf, str "a=bc"] = some (.received r) ∧ r.bodySize = 4 ∧
      (r.body = ([str "a=bc"].flatten.take 4).map some ↔ InOneChunk 4 [str "a=bc"]) := by
  obtain ⟨req, hlines, hstate, hn⟩ := feed_postLines
  exact ⟨req, body_eq_iff hlines hstate rfl hn ⟨by decide, by decide⟩⟩

/-- The same four bytes in two chunks: the second chunk overwrites the first, and
the end of the body is never written. -/
theorem body_ne_of_two_chunks :
    ¬ ∀ lines req line n chunks r, feed HttpRequest.create lines = some (.more req) →
      ContentLength (storeHeader req).headers n → Delivers n chunks →
        feed req (line :: chunks) = some (.received r) →
          r.body = (chunks.flatten.take n).map some := by
  intro h
  obtain ⟨req, hlines, hstate, hn⟩ := feed_postLines
  have hd : Delivers 4 [str "a=", str "bc"] := ⟨by decide, by decide⟩
  have hblank : startsWithEol (cstr crlf) = true := rfl
  obtain ⟨self, hdata, hfill⟩ :=
    blankLine_filling (feed_unfilled _ (fun _ => rfl) hlines) hstate hblank hn
  obtain ⟨r, hfeed, _, hbody⟩ := feed_chunks [] _ hfill hd
  have hreq : feed req (crlf :: [str "a=", str "bc"]) = some (.received r) :=
    (feed_cons_more hdata _).trans hfeed
  obtain ⟨pre, c, post, heq, hpre, hc⟩ := hbody.mp (h _ req crlf 4 _ r hlines hn hd hreq)
  have hmem : c ∈ [str "a=", str "bc"] := by
    have hc : c ∈ pre ++ c :: post := by simp
    simpa only [List.nil_append, ← heq] using hc
  have hlen : ∀ d ∈ [str "a=", str "bc"], d.length < 4 := by decide
  exact absurd hc (Nat.not_le.mpr (hlen c hmem))

end Swad.RequestBody
