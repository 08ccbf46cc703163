import Mathlib.Algebra.Order.Ring.Int
import Mathlib.Data.List.TakeWhile

/-!
Buffers that grow. A program keeps a block of cells, its size and the position of the next
store in three variables. A store outside the block is a fault. As long as the size is that
of the block and the position is not behind it, everything that grows the buffer before it
stores only adds to what has been appended.
-/
namespace Swad.GrowingBuffer

/-- A cell that nothing was stored in yet has no value. -/
structure Buffer (A : Type*) where
  cells : List (Option A)
  size : ℕ
  pos : ℕ

variable {A : Type*}

namespace Buffer

def alloc (size : ℕ) : Buffer A := ⟨List.replicate size none, size, 0⟩

/-- The block is moved to one of the given size. -/
def realloc (size : ℕ) (buf : Buffer A) : Buffer A where
  cells := (buf.cells ++ List.replicate (size - buf.cells.length) none).take size
  size := size
  pos := buf.pos

/-- Store a text at the position. -/
def write (text : List A) (buf : Buffer A) : Option (Buffer A) :=
  if buf.pos + text.length ≤ buf.cells.length then
    some { buf with
      cells := buf.cells.take buf.pos ++ text.map some ++
        buf.cells.drop (buf.pos + text.length)
      pos := buf.pos + text.length }
  else none

/-- What was appended so far. -/
def content (buf : Buffer A) : List (Option A) := buf.cells.take buf.pos

structure WellFormed (buf : Buffer A) : Prop where
  length_cells : buf.cells.length = buf.size
  pos_le : buf.pos ≤ buf.size

theorem wellFormed_alloc (size : ℕ) : (alloc size : Buffer A).WellFormed :=
  ⟨List.length_replicate, Nat.zero_le size⟩

theorem content_alloc (size : ℕ) : (alloc size : Buffer A).content = [] := rfl

theorem WellFormed.realloc {buf : Buffer A} (h : buf.WellFormed) {size : ℕ}
    (hsize : buf.pos ≤ size) : (buf.realloc size).WellFormed := by
  have hlength := h.length_cells
  refine ⟨?_, hsize⟩
  simp only [Buffer.realloc, List.length_take, List.length_append, List.length_replicate]
  omega

theorem WellFormed.content_realloc {buf : Buffer A} (h : buf.WellFormed) {size : ℕ}
    (hsize : buf.pos ≤ size) : (buf.realloc size).content = buf.content := by
  have hpos : buf.pos ≤ buf.cells.length := by
    rw [h.length_cells]
    exact h.pos_le
  rw [content, Buffer.realloc, content, List.take_take, Nat.min_eq_left hsize,
    List.take_append_of_le_length hpos]

/-- A text that fits is stored behind the content. -/
theorem WellFormed.write {buf : Buffer A} (h : buf.WellFormed) {text : List A}
    (hfits : buf.pos + text.length ≤ buf.size) :
    ∃ after, buf.write text = some after ∧ after.WellFormed ∧
      after.content = buf.content ++ text.map some := by
  have hlength := h.length_cells
  refine ⟨_, if_pos (hlength ▸ hfits), ⟨?_, hfits⟩, ?_⟩
  · simp only [List.length_append, List.length_take, List.length_map, List.length_drop]
    omega
  · apply List.take_left'
    change _ = buf.pos + text.length
    rw [List.length_append, List.length_map, List.length_take]
    omega

theorem write_nil {buf : Buffer A} (h : buf.pos ≤ buf.cells.length) : buf.write [] = some buf := by
  rw [Buffer.write, List.length_nil, Nat.add_zero, if_pos h, List.map_nil, List.append_nil,
    List.take_append_drop]

theorem write_pos_le {buf after : Buffer A} {text : List A} (h : buf.write text = some after) :
    after.pos ≤ after.cells.length := by
  unfold Buffer.write at h
  by_cases hfits : buf.pos + text.length ≤ buf.cells.length
  · rw [if_pos hfits] at h
    obtain rfl := Option.some.inj h
    simp only [List.length_append, List.length_take, List.length_map, List.length_drop]
    omega
  · rw [if_neg hfits] at h
    cases h

/-- A text fills a block of its length. -/
theorem write_alloc (text : List A) :
    (alloc text.length).write text = some ⟨text.map some, text.length, text.length⟩ := by
  have hroom : (alloc text.length : Buffer A).pos + text.length ≤
      (alloc text.length : Buffer A).cells.length := by
    rw [alloc, List.length_replicate, Nat.zero_add]
  rw [Buffer.write, if_pos hroom]
  simp [alloc]

/-- Storing one text behind another is storing both. -/
theorem write_write (s t : List A) (buf : Buffer A) :
    (buf.write s).bind (Buffer.write t) = buf.write (s ++ t) := by
  unfold Buffer.write
  rw [List.length_append]
  by_cases hs : buf.pos + s.length ≤ buf.cells.length
  · have hlength : (buf.cells.take buf.pos ++ s.map some ++
        buf.cells.drop (buf.pos + s.length)).length = buf.cells.length := by
      simp only [List.length_append, List.length_take, List.length_map, List.length_drop]
      omega
    have hdone : (buf.cells.take buf.pos ++ s.map some).length = buf.pos + s.length := by
      rw [List.length_append, List.length_map, List.length_take]
      omega
    rw [if_pos hs, Option.bind_some]
    dsimp only
    rw [hlength]
    by_cases ht : buf.pos + s.length + t.length ≤ buf.cells.length
    · rw [if_pos ht, if_pos (by omega), ← hdone, List.take_left, List.drop_append, List.drop_drop,
        List.drop_eq_nil_of_le (by omega), List.map_append, hdone, Nat.add_sub_cancel_left,
        List.nil_append]
      simp only [List.append_assoc, Nat.add_assoc]
    · rw [if_neg ht, if_neg (by omega)]
  · rw [if_neg hs, if_neg (by omega), Option.bind_none]

theorem write_cons (a : A) (text : List A) (buf : Buffer A) :
    buf.write (a :: text) = (buf.write [a]).bind (Buffer.write text) :=
  (write_write [a] text buf).symm

/-- A loop that stores one entry after the other. -/
theorem foldlM_write (text : List A) {buf : Buffer A} (h : buf.pos ≤ buf.cells.length) :
    text.foldlM (fun buf a => buf.write [a]) buf = buf.write text := by
  induction text generalizing buf with
  | nil => exact (write_nil h).symm
  | cons a text ih =>
    rw [List.foldlM_cons, write_cons a text]
    cases hstep : buf.write [a] with
    | none => rfl
    | some after => exact ih (write_pos_le hstep)

theorem write_bind {B : Type*} (s t : List A) (buf : Buffer A) (next : Buffer A → Option B) :
    ((buf.write s).bind fun buf => (buf.write t).bind next) = (buf.write (s ++ t)).bind next := by
  rw [← write_write, Option.bind_assoc]

end Buffer

open Buffer

/-- A step adds the same text to every buffer. -/
def Emits (step : Buffer A → Option (Buffer A)) (text : List A) : Prop :=
  ∀ ⦃buf : Buffer A⦄, buf.WellFormed →
    ∃ after, step buf = some after ∧ after.WellFormed ∧
      after.content = buf.content ++ text.map some

section steps

variable {step next : Buffer A → Option (Buffer A)} {text more : List A}

theorem emits_nothing : Emits (some : Buffer A → Option (Buffer A)) [] := by
  intro buf h
  exact ⟨buf, rfl, h, (List.append_nil _).symm⟩

theorem Emits.bind (h : Emits step text) (hnext : Emits next more) :
    Emits (fun buf => (step buf).bind next) (text ++ more) := by
  intro buf hbuf
  obtain ⟨mid, hmid, hmidWell, hcontent⟩ := h hbuf
  obtain ⟨after, hafter, hwell, hmore⟩ := hnext hmidWell
  refine ⟨after, ?_, hwell, ?_⟩
  · show (step buf).bind next = some after
    rw [hmid, Option.bind_some, hafter]
  · rw [hmore, hcontent, List.map_append, List.append_assoc]

/-- A loop over a list adds the texts of its entries one behind the other. -/
theorem emits_foldlM {B : Type*} {f : Buffer A → B → Option (Buffer A)} {g : B → List A}
    (h : ∀ b, Emits (fun buf => f buf b) (g b)) (l : List B) :
    Emits (fun buf => l.foldlM f buf) (l.flatMap g) := by
  induction l with
  | nil => exact emits_nothing
  | cons b l ih =>
    have hbind := (h b).bind ih
    intro buf hbuf
    exact hbind hbuf

end steps

/-! ### Growing in chunks -/

/-- One entry is appended; a full buffer first grows by a chunk. -/
def append (chunk : ℕ) (a : A) (buf : Buffer A) : Option (Buffer A) :=
  if buf.size ≤ buf.pos then (buf.realloc (buf.size + chunk)).write [a] else buf.write [a]

/-- A loop that adds a chunk to the size at least once, until a text of the given length fits. -/
def grow (chunk pos len : ℕ) : ℕ → ℕ → ℕ
  | rounds + 1, size =>
    if size + chunk - pos < len then grow chunk pos len rounds (size + chunk) else size + chunk
  | 0, size => size

/-- A text is appended at once; a buffer without the space for it first grows. -/
def appendAll (chunk : ℕ) (text : List A) (buf : Buffer A) : Option (Buffer A) :=
  if buf.size - buf.pos < text.length then
    (buf.realloc (grow chunk buf.pos text.length text.length buf.size)).write text
  else buf.write text

theorem emits_append {chunk : ℕ} (hchunk : 0 < chunk) (a : A) : Emits (append chunk a) [a] := by
  intro buf h
  have hpos := h.pos_le
  unfold append
  by_cases hfull : buf.size ≤ buf.pos
  · rw [if_pos hfull]
    have hsize : buf.pos ≤ buf.size + chunk := by omega
    have hroom : buf.pos + 1 ≤ buf.size + chunk := by omega
    rw [← h.content_realloc hsize]
    exact (h.realloc hsize).write hroom
  · rw [if_neg hfull]
    have hroom : buf.pos + 1 ≤ buf.size := by omega
    exact h.write hroom

theorem grow_room {chunk pos len : ℕ} (hchunk : 0 < chunk) (rounds size : ℕ) (hpos : pos ≤ size)
    (hrounds : pos + len ≤ size + rounds) : pos + len ≤ grow chunk pos len rounds size := by
  induction rounds generalizing size with
  | zero => exact hrounds
  | succ rounds ih =>
    rw [grow]
    by_cases hshort : size + chunk - pos < len
    · rw [if_pos hshort]
      exact ih (size + chunk) (by omega) (by omega)
    · rw [if_neg hshort]
      omega

theorem emits_appendAll {chunk : ℕ} (hchunk : 0 < chunk) (text : List A) :
    Emits (appendAll chunk text) text := by
  intro buf h
  have hpos := h.pos_le
  unfold appendAll
  by_cases hshort : buf.size - buf.pos < text.length
  · rw [if_pos hshort]
    have hroom := grow_room hchunk text.length buf.size hpos
      (show buf.pos + text.length ≤ buf.size + text.length by omega)
    have hsize : buf.pos ≤ grow chunk buf.pos text.length text.length buf.size := by omega
    rw [← h.content_realloc hsize]
    exact (h.realloc hsize).write hroom
  · rw [if_neg hshort]
    exact h.write (by omega)

/-- A new buffer that is cut behind its last entry has the text and that entry. -/
theorem Emits.cells_cut {step : Buffer A → Option (Buffer A)} {text : List A}
    (h : Emits step text) (size : ℕ) (stop : A) :
    (((step (alloc size)).bind (append 1 stop)).map fun out =>
      (out.realloc out.pos).cells) = some ((text ++ [stop]).map some) := by
  obtain ⟨out, hout, hwell, hcontent⟩ :=
    (h.bind (emits_append Nat.one_pos stop)) (wellFormed_alloc size)
  have hrealloc := hwell.realloc le_rfl
  have hall : (out.realloc out.pos).cells = (out.realloc out.pos).content := by
    rw [content]
    exact (List.take_of_length_le (Nat.le_of_eq hrealloc.length_cells)).symm
  dsimp only at hout
  rw [hout, Option.map_some, hall, hwell.content_realloc le_rfl, hcontent, content_alloc,
    List.nil_append]

/-! ### Texts that an entry ends -/

section ended

variable [DecidableEq A] {stop : A}

/-- The entries before the first one that ends the text; a cell without a value must not be
read. -/
def readUntil (stop : A) : List (Option A) → Option (List A)
  | some a :: cells => if a = stop then some [] else (readUntil stop cells).map (a :: ·)
  | _ => none

theorem readUntil_append {text : List A} (h : stop ∉ text) (cells : List (Option A)) :
    readUntil stop (text.map some ++ some stop :: cells) = some text := by
  induction text with
  | nil => exact if_pos rfl
  | cons a text ih =>
    rw [List.mem_cons, not_or] at h
    obtain ⟨hne, hrest⟩ := h
    rw [List.map_cons, List.cons_append, readUntil, if_neg (Ne.symm hne), ih hrest]
    rfl

theorem readUntil_unended {text : List A} (h : stop ∉ text) (cells : List (Option A)) :
    readUntil stop (text.map some ++ none :: cells) = none := by
  induction text with
  | nil => rfl
  | cons a text ih =>
    rw [List.mem_cons, not_or] at h
    obtain ⟨hne, hrest⟩ := h
    rw [List.map_cons, List.cons_append, readUntil, if_neg (Ne.symm hne), ih hrest]
    rfl

end ended

end Swad.GrowingBuffer
