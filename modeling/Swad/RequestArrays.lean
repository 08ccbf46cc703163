import Swad.CharArrays
import Swad.Httprequest

/-!
The parser of a request with its arrays. The parts of a line are copied into arrays of fixed
size after their lengths were tested, a value that goes on is put behind a position that is
kept in 16 bits, and a header is made from two of the arrays. As long as the arrays hold the
texts of the parser that is described without them, each copy has the room it needs.
-/
namespace Swad.RequestArrays

open Bytes Util Headerset Http Httprequest CharArrays

structure Memory where
  bodySize : ℕ
  bodypos : ℕ
  headers : HeaderSet
  body : List (Option Byte)
  method : HttpMethod
  status : HttpStatus
  version : HttpVersion
  recvState : ReqRecvState
  hdrvalpos : UInt16
  path : List Byte
  hdrval : List Byte
  hdrnm : List Byte
  meth : List Byte

/-- What a delivery leads to. -/
inductive Progress
  | more | received | error
  deriving DecidableEq

/-- A difference of two sizes. -/
def sizeSub (a b : ℕ) : ℕ := (a + 2 ^ 64 - b) % 2 ^ 64

/-- The text of a new block that is copied with its end. -/
def copyBlock (text : Str) : Option (List Byte) :=
  memcpy (List.replicate (text.length + 1) 0) 0 (text ++ [0])

/-- A header with blocks of its own, or a null pointer. -/
def headerCreate (name value : Str) : Option (Option Header) :=
  if validate name value then do
    let _ ← copyBlock name
    let _ ← copyBlock value
    return Header.create name value
  else some none

namespace Memory

def create : Memory where
  bodySize := 0
  bodypos := 0
  headers := HeaderSet.create
  body := []
  method := .invalm
  status := .ok
  version := .http10
  recvState := .method
  hdrvalpos := 0
  path := List.replicate 8192 0
  hdrval := List.replicate 8192 0
  hdrnm := List.replicate 256 0
  meth := List.replicate 16 0

def versionPart (self : Memory) (line : Str) : Memory × Progress :=
  if line.take 7 = str "HTTP/1." then
    match protocolVersion (line.drop 7) with
    | none => (self, .error)
    | some (version, line) =>
      if startsWithEol (line.dropWhile (· == chr ' ')) then
        ({ self with version, recvState := .headers }, .more)
      else ({ self with version }, .error)
  else (self, .error)

def pathPart (self : Memory) (line : Str) : Option (Memory × Progress) :=
  let word := line.takeWhile isPath
  let line := line.dropWhile isPath
  if line.head? ≠ some (chr ' ') ∨ 8192 - 1 < word.length then some (self, .error)
  else do
    let path ← storeText 0 self.path 0 word
    return versionPart { self with path } (line.dropWhile (· == chr ' '))

def requestLine (self : Memory) (line : Str) : Option (Memory × Progress) :=
  let word := line.takeWhile (· != chr ' ')
  let line := line.dropWhile (· != chr ' ')
  if ¬ (word.all isupper ∧ line ≠ [] ∧ word ≠ []) ∨ 16 - 1 < word.length then
    some (self, .error)
  else do
    let meth ← storeText 0 self.meth 0 word
    pathPart { self with meth } (line.dropWhile (· == chr ' '))

/-- The blank between the parts of a value, if there is a part already. -/
def joinValue (self : Memory) : Option Memory :=
  if 0 < self.hdrvalpos then do
    let hdrval ← memcpy self.hdrval self.hdrvalpos.toNat [chr ' ']
    return { self with hdrval, hdrvalpos := self.hdrvalpos + 1 }
  else some self

def appendValue (self : Memory) (part : Str) : Option Memory := do
  let hdrval ← memcpy self.hdrval self.hdrvalpos.toNat part
  let hdrvalpos := self.hdrvalpos + UInt16.ofNat part.length
  let hdrval ← memcpy hdrval hdrvalpos.toNat [0]
  return { self with hdrval, hdrvalpos }

def continueHeader (self : Memory) (line : Str) : Option (Memory × Progress) := do
  let name ← readText 0 self.hdrnm
  if name = [] then return (self, .error)
  else
    match untilEol (line.dropWhile isBlank) with
    | none => return (self, .error)
    | some part =>
      let joint := if 0 < self.hdrvalpos then 1 else 0
      if 8192 - 1 < self.hdrvalpos.toNat + joint + part.length then return (self, .error)
      else
        let self ← self.joinValue
        let self ← self.appendValue part
        return (self, .more)

/-- There is no header at a null pointer. -/
def storeHeader (self : Memory) : Option Memory := do
  let name ← readText 0 self.hdrnm
  if name = [] then return self
  else
    let value ← readText 0 self.hdrval
    let header ← headerCreate name value
    let header ← header
    let hdrnm ← memcpy self.hdrnm 0 [0]
    return { self with headers := self.headers.add header, hdrnm, hdrvalpos := 0 }

def valuePart (self : Memory) (line : Str) : Option (Memory × Progress) :=
  match untilEol (line.dropWhile (· == chr ' ')) with
  | none => some (self, .error)
  | some value =>
    if 8192 - 1 < value.length then some (self, .error)
    else do
      let hdrval ← storeText 0 self.hdrval 0 value
      return ({ self with hdrval, hdrvalpos := UInt16.ofNat value.length }, .more)

def newHeader (self : Memory) (line : Str) : Option (Memory × Progress) :=
  let name := line.takeWhile (· != chr ':')
  if ¬ chr ':' ∈ line ∨ name = [] ∨ 256 - 1 < name.length then some (self, .error)
  else do
    let hdrnm ← storeText 0 self.hdrnm 0 name
    valuePart { self with hdrnm } ((line.dropWhile (· != chr ':')).drop 1)

def finish (self : Memory) : Option (Memory × Progress) := do
  let meth ← readText 0 self.meth
  return ({ self with
    method := methodOf meth
    status := if self.status = .ok then checkBody (methodOf meth) self.bodySize
      else self.status }, .received)

def blankLine (self : Memory) : Option (Memory × Progress) :=
  match self.headers.first (str "Content-Length") with
  | none => do
    let meth ← readText 0 self.meth
    if meth = str "POST" ∨ meth = str "PUT" then finish { self with status := .lengthRequired }
    else finish self
  | some contentLength =>
    let (length, endp) := strtoll contentLength.value
    if endp ≠ [] ∨ length ≤ 0 ∨ MAXBODY < length then
      finish { self with
        status := if MAXBODY < length then .requestEntityTooLarge else .badRequest }
    else some ({ self with
      bodySize := length.toNat
      body := List.replicate length.toNat none
      recvState := .body }, .more)

def bodyChunk (self : Memory) (buf : List Byte) : Option (Memory × Progress) := do
  let chunk := buf.take (sizeSub self.bodySize self.bodypos)
  let body ← memcpy self.body 0 (chunk.map some)
  let self := { self with body, bodypos := self.bodypos + chunk.length }
  if self.bodypos < self.bodySize then return (self, .more) else finish self

def headerLine (self : Memory) (line : Str) : Option (Memory × Progress) :=
  if line.head?.any isBlank then self.continueHeader line
  else do
    let self ← self.storeHeader
    if startsWithEol line then self.blankLine else self.newHeader line

def dataReceived (self : Memory) (buf : List Byte) : Option (Memory × Progress) :=
  match self.recvState with
  | .method => self.requestLine (cstr buf)
  | .headers => self.headerLine (cstr buf)
  | .body => self.bodyChunk buf

/-- The deliveries to one request, up to the one that completes it or is an error. -/
def run (self : Memory) : List (List Byte) → Option (Memory × Progress)
  | [] => some (self, .more)
  | buf :: bufs => do
    let (self, progress) ← self.dataReceived buf
    if progress = .more then run self bufs else return (self, progress)

end Memory

/-! ### What the arrays hold -/

/-- The sizes, positions and ends, whatever was delivered. -/
structure Fits (mem : Memory) : Prop where
  meth_size : mem.meth.length = 16
  path_size : mem.path.length = 8192
  hdrnm_size : mem.hdrnm.length = 256
  hdrval_size : mem.hdrval.length = 8192
  meth_end : (0 : Byte) ∈ mem.meth
  path_end : (0 : Byte) ∈ mem.path
  hdrnm_end : (0 : Byte) ∈ mem.hdrnm
  hdrval_end : (0 : Byte) ∈ mem.hdrval
  hdrvalpos_le : mem.hdrvalpos.toNat ≤ 8191
  bodypos_le : mem.bodypos ≤ mem.bodySize
  bodySize_le : mem.bodySize ≤ MAXBODY
  body_size : mem.body.length = mem.bodySize

/-- The arrays hold the texts of a request; the old value stays where no header is pending. -/
structure Holds (mem : Memory) (req : HttpRequest) : Prop where
  fits : Fits mem
  meth : HoldsText 0 mem.meth req.meth.text
  path : HoldsText 0 mem.path req.path.text
  hdrnm : HoldsText 0 mem.hdrnm req.hdrnm.text
  hdrval : req.hdrnm.text ≠ [] → HoldsText 0 mem.hdrval req.hdrval.text
  none_pending : req.hdrnm.text = [] → req.hdrval.text = []
  hdrvalpos : mem.hdrvalpos.toNat = req.hdrval.text.length
  bodySize : mem.bodySize = req.bodySize
  bodypos : mem.bodypos = req.bodypos
  headers : mem.headers = req.headers
  body : mem.body = req.body
  method : mem.method = req.method
  status : mem.status = req.status
  version : mem.version = req.version
  recvState : mem.recvState = req.recvState
  unread : mem.recvState ≠ .body → mem.bodypos = 0

/-- The pending value ends at the position that is kept, which is 0 if none is pending. -/
def Pending (self : Memory) : Prop :=
  self.hdrvalpos.toNat = if cstr self.hdrnm = [] then 0 else (cstr self.hdrval).length

theorem cstr_of_holds {cells text : Str} (h : HoldsText 0 cells text) : cstr cells = text := by
  obtain ⟨h0, rest, rfl⟩ := h
  exact takeWhile_until h0 rest

theorem Holds.pending {self : Memory} {req : HttpRequest} (h : Holds self req) : Pending self := by
  unfold Pending
  rw [cstr_of_holds h.hdrnm, h.hdrvalpos]
  by_cases hname : req.hdrnm.text = []
  · rw [if_pos hname, h.none_pending hname, List.length_nil]
  · rw [if_neg hname, cstr_of_holds (h.hdrval hname)]

/-- A delivery is what it is without the arrays, and there is no fault. -/
def Simulates (result : Option (Memory × Progress)) (abs : Received) : Prop :=
  ∃ self progress, result = some (self, progress) ∧ Fits self ∧
    ((progress = .more ∧ ∃ req, abs = .more req ∧ Holds self req) ∨
      (progress = .received ∧ ∃ req, abs = .received req ∧ Holds self req) ∨
      (progress = .error ∧ abs = .error ∧ (Pending self ∨ self.hdrvalpos = 0)))

theorem holds_create : Holds Memory.create HttpRequest.create where
  fits := by
    refine ⟨List.length_replicate, List.length_replicate, List.length_replicate,
      List.length_replicate, ?_, ?_, ?_, ?_, by decide, Nat.le_refl 0, by decide, rfl⟩
    all_goals exact List.mem_replicate.mpr ⟨by decide, rfl⟩
  meth := holdsText_replicate (by decide)
  path := holdsText_replicate (by decide)
  hdrnm := holdsText_replicate (by decide)
  hdrval h := absurd rfl h
  none_pending _ := rfl
  hdrvalpos := rfl
  bodySize := rfl
  bodypos := rfl
  headers := rfl
  body := rfl
  method := rfl
  status := rfl
  version := rfl
  recvState := rfl
  unread _ := rfl

section steps

variable {self : Memory} {req : HttpRequest} {line : Str}

theorem simulates_more {req' : HttpRequest} {abs : Received} (habs : abs = .more req')
    (h : Holds self req') : Simulates (some (self, .more)) abs :=
  ⟨self, .more, rfl, h.fits, Or.inl ⟨rfl, req', habs, h⟩⟩

theorem simulates_received {req' : HttpRequest} {abs : Received} (habs : abs = .received req')
    (h : Holds self req') : Simulates (some (self, .received)) abs :=
  ⟨self, .received, rfl, h.fits, Or.inr (Or.inl ⟨rfl, req', habs, h⟩)⟩

theorem simulates_error {abs : Received} (habs : abs = .error) (h : Fits self)
    (hpos : Pending self ∨ self.hdrvalpos = 0) : Simulates (some (self, .error)) abs :=
  ⟨self, .error, rfl, h, Or.inr (Or.inr ⟨rfl, habs, hpos⟩)⟩

theorem Holds.refused {abs : Received} (h : Holds self req) (habs : abs = .error) :
    Simulates (some (self, .error)) abs :=
  simulates_error habs h.fits (Or.inl h.pending)

theorem copy_some {size : ℕ} {text : Str} (h : text.length < size) :
    Buf.copy size text = some ⟨text, h⟩ := dif_pos h

theorem copy_none {size : ℕ} {text : Str} (h : ¬ text.length < size) :
    Buf.copy size text = none := dif_neg h

/-! ### The request line -/

/-- The end of a request line, without the arrays. -/
def versionOf (self : HttpRequest) (line : Str) : Option HttpRequest := do
  guard (line.take 7 = str "HTTP/1.")
  let (version, line) ← protocolVersion (line.drop 7)
  guard (startsWithEol (line.dropWhile (· == chr ' ')))
  return { self with version, recvState := .headers }

def pathOf (self : HttpRequest) (line : Str) : Option HttpRequest := do
  let word := line.takeWhile isPath
  let line := line.dropWhile isPath
  guard (line.head? = some (chr ' '))
  let path ← Buf.copy 8192 word
  versionOf { self with path } (line.dropWhile (· == chr ' '))

theorem requestLine_eq (self : HttpRequest) (line : Str) :
    Httprequest.requestLine self line = (do
      let word := line.takeWhile (· != chr ' ')
      let line := line.dropWhile (· != chr ' ')
      guard (word.all isupper ∧ line ≠ [] ∧ word ≠ [])
      let meth ← Buf.copy 16 word
      pathOf { self with meth } (line.dropWhile (· == chr ' '))) := rfl

theorem guard_bind {A : Type} {p : Prop} [Decidable p] (hp : p) (f : Unit → Option A) :
    (guard p >>= f) = f () := by
  rw [guard, if_pos hp]
  rfl

theorem guard_fails {A : Type} {p : Prop} [Decidable p] (hp : ¬ p) (f : Unit → Option A) :
    (guard p >>= f) = none := by
  rw [guard, if_neg hp]
  rfl

theorem versionPart_simulates (h : Holds self req) (hstate : self.recvState ≠ .body) :
    Simulates (some (self.versionPart line)) (orError (versionOf req line)) := by
  unfold Memory.versionPart versionOf
  by_cases htake : line.take 7 = str "HTTP/1."
  · rw [if_pos htake, guard_bind htake]
    cases hversion : protocolVersion (line.drop 7) with
    | none => exact h.refused rfl
    | some r =>
      obtain ⟨version, rest⟩ := r
      dsimp only [Option.bind_eq_bind, Option.bind_some]
      by_cases heol : startsWithEol (rest.dropWhile (· == chr ' ')) = true
      · rw [if_pos heol, ← Option.bind_eq_bind, guard_bind heol]
        exact simulates_more rfl { h with
          fits := { h.fits with }
          version := rfl
          recvState := rfl
          unread := fun _ => h.unread hstate }
      · rw [if_neg heol, ← Option.bind_eq_bind, guard_fails heol]
        exact simulates_error rfl { h.fits with } (Or.inl h.pending)
  · rw [if_neg htake, guard_fails htake]
    exact h.refused rfl

theorem pathPart_simulates (h : Holds self req) (hstate : self.recvState ≠ .body)
    (h0 : (0 : Byte) ∉ line) :
    Simulates (self.pathPart line) (orError (pathOf req line)) := by
  unfold Memory.pathPart pathOf
  dsimp only
  have hword : (0 : Byte) ∉ line.takeWhile isPath :=
    fun hmem => h0 ((List.takeWhile_prefix _).subset hmem)
  by_cases hblank : (line.dropWhile isPath).head? = some (chr ' ')
  · rw [guard_bind hblank]
    by_cases hfits : (line.takeWhile isPath).length < 8192
    · rw [if_neg (by rw [not_or, not_not]; exact ⟨hblank, by omega⟩), copy_some hfits]
      have hroom : (line.takeWhile isPath).length < self.path.length := by
        rw [h.fits.path_size]
        exact hfits
      obtain ⟨path, hpath, hsize, hholds⟩ := storeText_start hword hroom
      rw [hpath]
      refine versionPart_simulates ?_ hstate
      exact { h with
        fits := { h.fits with
          path_size := hsize.trans h.fits.path_size
          path_end := hholds.stop_mem }
        path := hholds }
    · rw [if_pos (Or.inr (by omega)), copy_none hfits]
      exact h.refused rfl
  · rw [if_pos (Or.inl hblank), guard_fails hblank]
    exact h.refused rfl

theorem requestLine_simulates (h : Holds self req) (hstate : self.recvState ≠ .body)
    (h0 : (0 : Byte) ∉ line) :
    Simulates (self.requestLine line) (orError (Httprequest.requestLine req line)) := by
  rw [requestLine_eq]
  unfold Memory.requestLine
  dsimp only
  have hword : (0 : Byte) ∉ line.takeWhile (· != chr ' ') :=
    fun hmem => h0 ((List.takeWhile_prefix _).subset hmem)
  have hrest : (0 : Byte) ∉ (line.dropWhile (· != chr ' ')).dropWhile (· == chr ' ') :=
    fun hmem => h0 ((List.dropWhile_suffix _).subset ((List.dropWhile_suffix _).subset hmem))
  by_cases hparts : (line.takeWhile (· != chr ' ')).all isupper = true ∧
      line.dropWhile (· != chr ' ') ≠ [] ∧ line.takeWhile (· != chr ' ') ≠ []
  · rw [guard_bind hparts]
    by_cases hfits : (line.takeWhile (· != chr ' ')).length < 16
    · rw [if_neg (by rw [not_or, not_not]; exact ⟨hparts, by omega⟩), copy_some hfits]
      have hroom : (line.takeWhile (· != chr ' ')).length < self.meth.length := by
        rw [h.fits.meth_size]
        exact hfits
      obtain ⟨meth, hmeth, hsize, hholds⟩ := storeText_start hword hroom
      rw [hmeth]
      refine pathPart_simulates ?_ hstate hrest
      exact { h with
        fits := { h.fits with
          meth_size := hsize.trans h.fits.meth_size
          meth_end := hholds.stop_mem }
        meth := hholds }
    · rw [if_pos (Or.inr (by omega)), copy_none hfits]
      exact h.refused rfl
  · rw [if_pos (Or.inl hparts), guard_fails hparts]
    exact h.refused rfl

/-! ### Header lines -/

theorem zero_notMem_untilEol {part : Str} (h0 : (0 : Byte) ∉ line)
    (h : untilEol line = some part) : (0 : Byte) ∉ part := by
  unfold untilEol at h
  split at h
  · obtain rfl := Option.some.inj h
    exact fun hmem => h0 ((List.takeWhile_prefix _).subset hmem)
  · split at h
    · obtain rfl := Option.some.inj h
      exact fun hmem => h0 ((List.takeWhile_prefix _).subset hmem)
    · cases h

/-- The position of the end is not one that 16 bits cannot hold. -/
theorem appendValue_eq {part front tail : Str} (hcells : self.hdrval = front ++ tail)
    (hpos : self.hdrvalpos.toNat = front.length) (hfront : (0 : Byte) ∉ front)
    (hpart : (0 : Byte) ∉ part) (hroom : part.length < tail.length)
    (hsize : self.hdrval.length = 8192) :
    ∃ hdrval hdrvalpos, self.appendValue part = some { self with hdrval, hdrvalpos } ∧
      hdrval.length = 8192 ∧ HoldsText 0 hdrval (front ++ part) ∧
      hdrvalpos.toNat = (front ++ part).length := by
  rw [hcells, List.length_append] at hsize
  have hend : (self.hdrvalpos + UInt16.ofNat part.length).toNat = front.length + part.length := by
    rw [UInt16.toNat_add, UInt16.toNat_ofNat', hpos]
    omega
  obtain ⟨cells, hstore, hlength, hholds⟩ := storeText_append hfront hpart hroom
  refine ⟨cells, self.hdrvalpos + UInt16.ofNat part.length, ?_, ?_, hholds, ?_⟩
  · unfold storeText at hstore
    rw [← hcells, Option.bind_eq_some_iff] at hstore
    obtain ⟨copied, hcopied, hended⟩ := hstore
    show (memcpy self.hdrval self.hdrvalpos.toNat part).bind _ = _
    rw [hpos, hcopied]
    show (memcpy copied (self.hdrvalpos + UInt16.ofNat part.length).toNat [0]).bind _ = _
    rw [hend, hended]
    rfl
  · rw [hlength, List.length_append]
    exact hsize
  · rw [hend, List.length_append]

/-- The value with another part behind it. -/
def joined (value part : Str) : Str := if value = [] then part else value ++ chr ' ' :: part

theorem append_joined {value part : Str} (hvalue : HoldsText 0 self.hdrval value)
    (hpos : self.hdrvalpos.toNat = value.length) (hsize : self.hdrval.length = 8192)
    (hpart : (0 : Byte) ∉ part) (hfits : (joined value part).length < 8192) :
    ∃ hdrval hdrvalpos, (self.joinValue.bind fun self => self.appendValue part) =
        some { self with hdrval, hdrvalpos } ∧
      hdrval.length = 8192 ∧ HoldsText 0 hdrval (joined value part) ∧
      hdrvalpos.toNat = (joined value part).length := by
  obtain ⟨h0, rest, hcells⟩ := hvalue
  unfold joined at hfits ⊢
  unfold Memory.joinValue
  by_cases hempty : value = []
  · subst hempty
    have hzero : ¬ (0 : UInt16) < self.hdrvalpos := by
      rw [UInt16.lt_iff_toNat_lt, hpos]
      exact Nat.lt_irrefl 0
    rw [if_pos rfl] at hfits ⊢
    rw [if_neg hzero, Option.bind_some]
    have hroom : part.length < (0 :: rest).length := by
      rw [hcells, List.nil_append] at hsize
      omega
    exact appendValue_eq hcells hpos h0 hpart hroom hsize
  · rw [if_neg hempty, List.length_append, List.length_cons] at hfits
    rw [if_neg hempty]
    have hlength : value.length + rest.length + 1 = 8192 := by
      rw [← hsize, hcells, List.length_append, List.length_cons, Nat.add_assoc]
    have hsome : (0 : UInt16) < self.hdrvalpos := by
      rw [UInt16.lt_iff_toNat_lt, hpos]
      exact List.length_pos_iff.mpr hempty
    have hblank : memcpy self.hdrval self.hdrvalpos.toNat [chr ' '] =
        some (value ++ [chr ' '] ++ rest) := by
      have hone : [chr ' '].length ≤ ((0 : Byte) :: rest).length := by
        rw [List.length_singleton, List.length_cons]
        omega
      rw [hpos, hcells, memcpy_append value hone]
      rfl
    have hnext : (self.hdrvalpos + 1).toNat = (value ++ [chr ' ']).length := by
      rw [UInt16.toNat_add, hpos, List.length_append, List.length_singleton]
      have hone : (1 : UInt16).toNat = 1 := rfl
      omega
    have hfront : (0 : Byte) ∉ value ++ [chr ' '] := by
      rw [List.mem_append, not_or]
      exact ⟨h0, by decide⟩
    have hjoin : value ++ chr ' ' :: part = value ++ [chr ' '] ++ part := by
      rw [List.append_assoc]
      rfl
    rw [if_pos hsome, hblank, hjoin]
    have hroom : part.length < rest.length := by omega
    have hblanked : (value ++ [chr ' '] ++ rest).length = 8192 := by
      simp only [List.length_append, List.length_singleton]
      omega
    exact @appendValue_eq { self with
      hdrval := value ++ [chr ' '] ++ rest
      hdrvalpos := self.hdrvalpos + 1 } part _ rest rfl hnext hfront hpart hroom hblanked

theorem length_joined {value part : Str} (hpos : self.hdrvalpos.toNat = value.length) :
    self.hdrvalpos.toNat + (if 0 < self.hdrvalpos then 1 else 0) + part.length =
      (joined value part).length := by
  unfold joined
  rw [hpos]
  by_cases hempty : value = []
  · subst hempty
    have hzero : ¬ (0 : UInt16) < self.hdrvalpos := by
      rw [UInt16.lt_iff_toNat_lt, hpos]
      exact Nat.lt_irrefl 0
    rw [if_pos rfl, if_neg hzero, List.length_nil, Nat.zero_add]
  · have hsome : (0 : UInt16) < self.hdrvalpos := by
      rw [UInt16.lt_iff_toNat_lt, hpos]
      exact List.length_pos_iff.mpr hempty
    rw [if_neg hempty, if_pos hsome, List.length_append, List.length_cons]
    omega

theorem continueHeader_simulates (h : Holds self req) (h0 : (0 : Byte) ∉ line) :
    Simulates (self.continueHeader line) (orError (Httprequest.continueHeader req line)) := by
  unfold Memory.continueHeader
  rw [h.hdrnm.read]
  dsimp only [Option.bind_eq_bind, Option.bind_some]
  by_cases hname : req.hdrnm.text = []
  · have habs : Httprequest.continueHeader req line = none := guard_fails (not_not.mpr hname) _
    rw [if_pos hname, habs]
    exact h.refused rfl
  · have habs : Httprequest.continueHeader req line =
        (untilEol (line.dropWhile isBlank)).bind fun part =>
          (Buf.copy 8192 (joined req.hdrval.text part)).bind fun hdrval =>
            some { req with hdrval } := guard_bind hname _
    rw [if_neg hname, habs]
    cases hpart : untilEol (line.dropWhile isBlank) with
    | none => exact h.refused rfl
    | some part =>
      have hpart0 : (0 : Byte) ∉ part :=
        zero_notMem_untilEol (fun hmem => h0 ((List.dropWhile_suffix _).subset hmem)) hpart
      dsimp only [Option.bind_some]
      rw [length_joined h.hdrvalpos]
      by_cases hfits : (joined req.hdrval.text part).length < 8192
      · obtain ⟨hdrval, hdrvalpos, happend, hsize, hholds, hpos⟩ :=
          append_joined (h.hdrval hname) h.hdrvalpos h.fits.hdrval_size hpart0 hfits
        rw [if_neg (by omega), copy_some hfits]
        rw [Option.bind_eq_some_iff] at happend
        obtain ⟨joint, hjoint, happend⟩ := happend
        rw [hjoint, Option.bind_some, happend]
        refine simulates_more rfl { h with
          fits := { h.fits with
            hdrval_size := hsize
            hdrval_end := hholds.stop_mem
            hdrvalpos_le := ?_ }
          hdrval := fun _ => hholds
          none_pending := fun hnone => absurd hnone hname
          hdrvalpos := hpos }
        rw [hpos]
        omega
      · rw [if_pos (by omega), copy_none hfits]
        exact h.refused rfl

theorem headerCreate_eq {name value : Str} (h : validate name value = true) :
    headerCreate name value = some (Header.create name value) := by
  have hblock (text : Str) : ∃ cells, copyBlock text = some cells := by
    refine ⟨_, memcpy_start ?_⟩
    rw [List.length_append, List.length_replicate, List.length_singleton]
  obtain ⟨_, hname⟩ := hblock name
  obtain ⟨_, hvalue⟩ := hblock value
  unfold headerCreate
  rw [if_pos h, hname, hvalue]
  rfl

/-- A pending header is one that can be made, whatever is in the arrays. -/
theorem storeHeader_holds (h : Holds self req) :
    ∃ self', self.storeHeader = some self' ∧ Holds self' (Httprequest.storeHeader req) ∧
      (Httprequest.storeHeader req).hdrnm.text = [] ∧ self'.recvState = self.recvState := by
  unfold Memory.storeHeader Httprequest.storeHeader
  rw [h.hdrnm.read]
  dsimp only [Option.bind_eq_bind, Option.bind_some]
  by_cases hname : req.hdrnm.text = []
  · rw [if_pos hname, if_pos hname]
    exact ⟨self, rfl, h, hname, rfl⟩
  · rw [if_neg hname, if_neg hname, (h.hdrval hname).read, Option.bind_some,
      headerCreate_eq (validate_bufs req.hdrnm req.hdrval), Option.bind_some]
    cases hcreate : Header.create req.hdrnm.text req.hdrval.text with
    | none =>
      unfold Header.create at hcreate
      rw [dif_pos (validate_bufs req.hdrnm req.hdrval)] at hcreate
      cases hcreate
    | some header =>
      have hone : [(0 : Byte)].length ≤ self.hdrnm.length := by
        rw [h.fits.hdrnm_size]
        decide
      have hcopy := memcpy_start hone
      have hsize := length_memcpy hcopy
      rw [Option.bind_some, hcopy]
      refine ⟨_, rfl, ?_, rfl, rfl⟩
      exact { h with
        fits := { h.fits with
          hdrnm_size := hsize.trans h.fits.hdrnm_size
          hdrnm_end := List.mem_cons_self ..
          hdrvalpos_le := Nat.zero_le _ }
        hdrnm := ⟨List.not_mem_nil, _, rfl⟩
        hdrval := fun hnone => absurd rfl hnone
        none_pending := fun _ => rfl
        hdrvalpos := rfl
        headers := congrArg (HeaderSet.add · header) h.headers }

/-- The value is copied after the name, whose array may hold a name that is then refused. -/
theorem valuePart_simulates {hdrnm : Buf 256} {cells : List Byte} (h : Holds self req)
    (hsize : cells.length = 256) (hcells : HoldsText 0 cells hdrnm.text) (hne : hdrnm.text ≠ [])
    (hpos : self.hdrvalpos = 0) (h0 : (0 : Byte) ∉ line) :
    Simulates (Memory.valuePart { self with hdrnm := cells } line)
      (orError ((untilEol (line.dropWhile (· == chr ' '))).bind fun value =>
        (Buf.copy 8192 value).bind fun hdrval => some { req with hdrnm, hdrval })) := by
  have hfits : Fits { self with hdrnm := cells } :=
    { h.fits with hdrnm_size := hsize, hdrnm_end := hcells.stop_mem }
  unfold Memory.valuePart
  cases hvalue : untilEol (line.dropWhile (· == chr ' ')) with
  | none => exact simulates_error rfl hfits (Or.inr hpos)
  | some value =>
    have hvalue0 : (0 : Byte) ∉ value :=
      zero_notMem_untilEol (fun hmem => h0 ((List.dropWhile_suffix _).subset hmem)) hvalue
    dsimp only [Option.bind_some]
    by_cases hlength : value.length < 8192
    · have hroom : value.length < self.hdrval.length := by
        rw [h.fits.hdrval_size]
        exact hlength
      have hend : (UInt16.ofNat value.length).toNat = value.length := by
        rw [UInt16.toNat_ofNat']
        exact Nat.mod_eq_of_lt (by omega)
      obtain ⟨hdrval, hstore, hstored, hholds⟩ := storeText_start hvalue0 hroom
      rw [if_neg (by omega), copy_some hlength, hstore]
      exact simulates_more rfl { h with
        fits := { hfits with
          hdrval_size := hstored.trans h.fits.hdrval_size
          hdrval_end := hholds.stop_mem
          hdrvalpos_le := by
            rw [hend]
            omega }
        hdrnm := hcells
        hdrval := fun _ => hholds
        none_pending := fun hnone => absurd hnone hne
        hdrvalpos := hend }
    · rw [if_pos (by omega), copy_none hlength]
      exact simulates_error rfl hfits (Or.inr hpos)

theorem newHeader_simulates (h : Holds self req) (hnone : req.hdrnm.text = [])
    (h0 : (0 : Byte) ∉ line) :
    Simulates (self.newHeader line) (orError (Httprequest.newHeader req line)) := by
  have hname : (0 : Byte) ∉ line.takeWhile (· != chr ':') :=
    fun hmem => h0 ((List.takeWhile_prefix _).subset hmem)
  have hrest : (0 : Byte) ∉ (line.dropWhile (· != chr ':')).drop 1 :=
    fun hmem => h0 ((List.dropWhile_suffix _).subset (List.mem_of_mem_drop hmem))
  have hpos : self.hdrvalpos = 0 := by
    rw [← UInt16.toNat_inj, h.hdrvalpos, h.none_pending hnone]
    rfl
  unfold Memory.newHeader Httprequest.newHeader
  dsimp only
  by_cases hcolon : chr ':' ∈ line
  · rw [guard_bind hcolon]
    by_cases hne : line.takeWhile (· != chr ':') ≠ []
    · rw [guard_bind hne]
      by_cases hfits : (line.takeWhile (· != chr ':')).length < 256
      · have hroom : (line.takeWhile (· != chr ':')).length < self.hdrnm.length := by
          rw [h.fits.hdrnm_size]
          exact hfits
        obtain ⟨hdrnm, hstore, hstored, hholds⟩ := storeText_start hname hroom
        have hok : ¬ (¬ chr ':' ∈ line ∨ line.takeWhile (· != chr ':') = [] ∨
            256 - 1 < (line.takeWhile (· != chr ':')).length) := by
          rw [not_or, not_or, not_not]
          exact ⟨hcolon, hne, by omega⟩
        rw [if_neg hok, copy_some hfits, hstore]
        exact valuePart_simulates h (hstored.trans h.fits.hdrnm_size) hholds hne hpos hrest
      · rw [if_pos (Or.inr (Or.inr (by omega))), copy_none hfits]
        exact h.refused rfl
    · rw [if_pos (Or.inr (Or.inl (not_not.mp hne))), guard_fails hne]
      exact h.refused rfl
  · rw [if_pos (Or.inl hcolon), guard_fails hcolon]
    exact h.refused rfl

/-! ### The end of the headers, and the body -/

theorem finish_simulates (h : Holds self req) :
    Simulates self.finish (.received (Httprequest.finish req)) := by
  unfold Memory.finish
  rw [h.meth.read]
  refine simulates_received rfl { h with
    fits := { h.fits with }
    method := rfl
    status := ?_ }
  show (if self.status = .ok then _ else _) = if req.status = .ok then _ else _
  rw [h.status, h.bodySize]

theorem blankLine_simulates (h : Holds self req) (hstate : self.recvState ≠ .body) :
    Simulates self.blankLine (Httprequest.blankLine req) := by
  have hfirst : self.headers.first (str "Content-Length") =
      req.headers.first (str "Content-Length") := by rw [h.headers]
  unfold Memory.blankLine Httprequest.blankLine
  rw [hfirst]
  cases req.headers.first (str "Content-Length") with
  | none =>
    dsimp only
    rw [h.meth.read]
    dsimp only [Option.bind_eq_bind, Option.bind_some]
    by_cases hmeth : req.meth.text = str "POST" ∨ req.meth.text = str "PUT"
    · rw [if_pos hmeth, if_pos hmeth]
      exact finish_simulates { h with fits := { h.fits with }, status := rfl }
    · rw [if_neg hmeth, if_neg hmeth]
      exact finish_simulates h
  | some contentLength =>
    dsimp only
    by_cases hbad : (strtoll contentLength.value).2 ≠ [] ∨
        (strtoll contentLength.value).1 ≤ 0 ∨ MAXBODY < (strtoll contentLength.value).1
    · rw [if_pos hbad, if_pos hbad]
      exact finish_simulates { h with fits := { h.fits with }, status := rfl }
    · rw [if_neg hbad, if_neg hbad]
      have hunread := h.unread hstate
      refine simulates_more rfl { h with
        fits := { h.fits with
          bodypos_le := ?_
          bodySize_le := ?_
          body_size := List.length_replicate }
        bodySize := rfl
        body := rfl
        recvState := rfl
        unread := fun hbody => absurd rfl hbody }
      · show self.bodypos ≤ _
        omega
      · show (strtoll contentLength.value).1.toNat ≤ MAXBODY
        omega

theorem headerLine_simulates (h : Holds self req) (hstate : self.recvState ≠ .body)
    (h0 : (0 : Byte) ∉ line) :
    Simulates (self.headerLine line) (Httprequest.headerLine req line) := by
  unfold Memory.headerLine Httprequest.headerLine
  by_cases hblank : line.head?.any isBlank = true
  · rw [if_pos hblank, if_pos hblank]
    exact continueHeader_simulates h h0
  · rw [if_neg hblank, if_neg hblank]
    obtain ⟨stored, hstore, hholds, hnone, hsame⟩ := storeHeader_holds h
    rw [hstore]
    dsimp only [Option.bind_eq_bind, Option.bind_some]
    by_cases heol : startsWithEol line = true
    · rw [if_pos heol, if_pos heol]
      exact blankLine_simulates hholds (hsame ▸ hstate)
    · rw [if_neg heol, if_neg heol]
      exact newHeader_simulates hholds hnone h0

theorem sizeSub_eq {a b : ℕ} (hb : b ≤ a) (ha : a < 2 ^ 64) : sizeSub a b = a - b := by
  unfold sizeSub
  rw [show a + 2 ^ 64 - b = a - b + 2 ^ 64 by omega, Nat.add_mod_right]
  exact Nat.mod_eq_of_lt (by omega)

theorem bodyChunk_simulates (h : Holds self req) (hstate : self.recvState = .body)
    (buf : List Byte) : Simulates (self.bodyChunk buf) (Httprequest.bodyChunk req buf) := by
  have hle := h.fits.bodypos_le
  have hmax := h.fits.bodySize_le
  have hsub : sizeSub self.bodySize self.bodypos = req.bodySize - req.bodypos := by
    rw [← h.bodySize, ← h.bodypos]
    exact sizeSub_eq hle (Nat.lt_of_le_of_lt hmax (by decide))
  have hchunk : (buf.take (req.bodySize - req.bodypos)).length ≤ req.bodySize - req.bodypos :=
    List.length_take_le _ _
  rw [h.bodySize, h.bodypos] at hle
  have hroom : ((buf.take (req.bodySize - req.bodypos)).map some).length ≤ self.body.length := by
    rw [List.length_map, h.fits.body_size, h.bodySize]
    omega
  have hcopy := memcpy_start hroom
  have hnew : Holds { self with
      body := (buf.take (req.bodySize - req.bodypos)).map some ++
        self.body.drop ((buf.take (req.bodySize - req.bodypos)).map some).length
      bodypos := self.bodypos + (buf.take (req.bodySize - req.bodypos)).length }
      { req with
        body := overwrite req.body (buf.take (req.bodySize - req.bodypos))
        bodypos := req.bodypos + (buf.take (req.bodySize - req.bodypos)).length } := by
    refine { h with
      fits := { h.fits with
        bodypos_le := ?_
        body_size := (length_memcpy hcopy).trans h.fits.body_size }
      bodypos := congrArg (· + _) h.bodypos
      body := ?_
      unread := fun hbody => absurd hstate hbody }
    · show self.bodypos + _ ≤ self.bodySize
      rw [h.bodypos, h.bodySize]
      omega
    · show _ = overwrite req.body _
      rw [overwrite, h.body, List.length_map]
  unfold Memory.bodyChunk Httprequest.bodyChunk
  dsimp only
  rw [hsub, hcopy]
  dsimp only [Option.bind_eq_bind, Option.bind_some]
  by_cases hmore : req.bodypos + (buf.take (req.bodySize - req.bodypos)).length < req.bodySize
  · have hmore' : self.bodypos + (buf.take (req.bodySize - req.bodypos)).length <
        self.bodySize := by
      rw [h.bodypos, h.bodySize]
      exact hmore
    rw [if_pos hmore, if_pos hmore']
    exact simulates_more rfl hnew
  · have hmore' : ¬ self.bodypos + (buf.take (req.bodySize - req.bodypos)).length <
        self.bodySize := by
      rw [h.bodypos, h.bodySize]
      exact hmore
    rw [if_neg hmore, if_neg hmore']
    exact finish_simulates hnew

theorem dataReceived_simulates (h : Holds self req) (buf : List Byte) :
    Simulates (self.dataReceived buf) (Httprequest.dataReceived req buf) := by
  have h0 := zero_notMem_cstr buf
  unfold Memory.dataReceived Httprequest.dataReceived
  rw [← h.recvState]
  cases hstate : self.recvState with
  | method => exact requestLine_simulates h (by rw [hstate]; decide) h0
  | headers => exact headerLine_simulates h (by rw [hstate]; decide) h0
  | body => exact bodyChunk_simulates h hstate buf

end steps

/-! ### Runs -/

/-- The deliveries lead to what they lead to without the arrays. -/
theorem run_simulates {self : Memory} {req : HttpRequest} (h : Holds self req)
    (bufs : List (List Byte)) :
    ∃ self' progress, self.run bufs = some (self', progress) ∧ Fits self' ∧
      ((progress = .more ∧ ∃ req', feed req bufs = some (.more req') ∧ Holds self' req') ∨
        (progress = .received ∧ ∃ taken req', taken <+: bufs ∧
          feed req taken = some (.received req') ∧ Holds self' req') ∨
        (progress = .error ∧ (Pending self' ∨ self'.hdrvalpos = 0) ∧
          ∃ taken, taken <+: bufs ∧ feed req taken = some .error)) := by
  induction bufs generalizing self req with
  | nil => exact ⟨self, .more, rfl, h.fits, Or.inl ⟨rfl, req, rfl, h⟩⟩
  | cons buf bufs ih =>
    obtain ⟨next, progress, hstep, hfits, hresult⟩ := dataReceived_simulates h buf
    rw [Memory.run, hstep]
    dsimp only [Option.bind_eq_bind, Option.bind_some]
    rcases hresult with ⟨rfl, req', habs, hnext⟩ | ⟨rfl, req', habs, hnext⟩ | ⟨rfl, habs, hpos⟩
    · obtain ⟨last, progress, hrun, hfits, hresult⟩ := ih hnext
      rw [if_pos rfl, hrun, feed_cons_more habs]
      refine ⟨last, progress, rfl, hfits, ?_⟩
      rcases hresult with hmore | ⟨rfl, taken, req', hpre, hfeed, hlast⟩ |
        ⟨rfl, hpos, taken, hpre, hfeed⟩
      · exact Or.inl hmore
      · refine Or.inr (Or.inl ⟨rfl, buf :: taken, req', ?_, ?_, hlast⟩)
        · exact List.cons_prefix_cons.mpr ⟨rfl, hpre⟩
        · rw [feed_cons_more habs, hfeed]
      · refine Or.inr (Or.inr ⟨rfl, hpos, buf :: taken, ?_, ?_⟩)
        · exact List.cons_prefix_cons.mpr ⟨rfl, hpre⟩
        · rw [feed_cons_more habs, hfeed]
    · rw [if_neg (by decide)]
      refine ⟨next, _, rfl, hfits, Or.inr (Or.inl ⟨rfl, [buf], req', ?_, ?_, hnext⟩)⟩
      · exact List.cons_prefix_cons.mpr ⟨rfl, List.nil_prefix⟩
      · rw [feed, habs]
        exact if_pos rfl
    · rw [if_neg (by decide)]
      refine ⟨next, _, rfl, hfits, Or.inr (Or.inr ⟨rfl, hpos, [buf], ?_, ?_⟩)⟩
      · exact List.cons_prefix_cons.mpr ⟨rfl, List.nil_prefix⟩
      · rw [feed, habs]
        exact if_pos rfl

/-- Whatever is delivered, no copy leaves its array or block and no null header is added, the
texts are ended in their arrays, and the body is not read past its announced size. The position
is that of the pending value; a header line that was refused leaves no value pending. -/
theorem arrays_fit (bufs : List (List Byte)) :
    ∃ self progress, Memory.create.run bufs = some (self, progress) ∧ Fits self ∧
      (Pending self ∨ (progress = .error ∧ self.hdrvalpos = 0)) := by
  obtain ⟨self, progress, hrun, hfits, hresult⟩ := run_simulates holds_create bufs
  refine ⟨self, progress, hrun, hfits, ?_⟩
  rcases hresult with ⟨_, _, _, h⟩ | ⟨_, _, _, _, _, h⟩ | ⟨herror, hpos, _⟩
  · exact Or.inl h.pending
  · exact Or.inl h.pending
  · exact hpos.imp_right fun hzero => ⟨herror, hzero⟩

end Swad.RequestArrays
