import Swad.LineIsolation
import Swad.PairedRuns

/-!
What the calls of `fgets` make of a file that is put together from lines. A file that ends
with a newline does not share a call with what follows it. A line that fits into the buffer
is read by one call; of any other, the first part is reported, and the rest is left out up
to the next newline that is seen, which is the end of the line unless there is a NUL before
it.
-/
namespace Swad.FileChunks

open Bytes Util StringPrograms Config ConfigLines LineIsolation PairedRuns

variable {u v : List Byte}

/-! ### Calls -/

/-- A line that fits is read at once. -/
theorem fgets_line (hu : nl ∉ u) (hlength : u.length + 1 < LINEBUFSZ) (v : List Byte) :
    fgets (u ++ nl :: v) = u ++ [nl] := by
  have htake : (u ++ nl :: v).take (LINEBUFSZ - 1) =
      u ++ nl :: v.take (LINEBUFSZ - 1 - (u.length + 1)) := by
    have hle : u.length ≤ LINEBUFSZ - 1 := by omega
    have hsub : LINEBUFSZ - 1 - u.length = (LINEBUFSZ - 1 - (u.length + 1)) + 1 := by omega
    rw [List.take_append, List.take_of_length_le hle, hsub, List.take_succ_cons]
  unfold fgets
  dsimp only
  rw [htake, takeWhile_until hu, List.append_cons]
  exact List.take_left' (by rw [List.length_append, List.length_singleton])

/-- Without a newline the buffer is filled. -/
theorem fgets_full (hu : nl ∉ u) (hlength : u.length + 1 = LINEBUFSZ) (v : List Byte) :
    fgets (u ++ v) = u := by
  have htake : (u ++ v).take (LINEBUFSZ - 1) = u := List.take_left' (by omega)
  unfold fgets
  dsimp only
  rw [htake, takeWhile_of_notMem hu]
  exact List.take_of_length_le (by omega)

theorem fgets_last (hu : nl ∉ u) (hlength : u.length < LINEBUFSZ) : fgets u = u := by
  have htake : u.take (LINEBUFSZ - 1) = u := List.take_of_length_le (by omega)
  unfold fgets
  dsimp only
  rw [htake, takeWhile_of_notMem hu]
  exact List.take_of_length_le (by omega)

theorem fgets_ne_nil (hu : u ≠ []) : 0 < (fgets u).length := by
  have hpos : 0 < u.length := List.length_pos_iff.mpr hu
  have hmin : LINEBUFSZ - 1 = 1023 := rfl
  unfold fgets
  dsimp only
  rw [List.length_take, List.length_take, hmin]
  omega

/-- Every call reads something, so the length of the file is enough fuel. -/
theorem chunksLoop_eq (n m : ℕ) (file : List Byte) (hn : file.length ≤ n) (hm : file.length ≤ m) :
    chunksLoop n file = chunksLoop m file := by
  induction n generalizing m file with
  | zero =>
    obtain rfl : file = [] := List.length_eq_zero_iff.mp (by omega)
    cases m <;> rfl
  | succ n ih =>
    by_cases hnil : file = []
    · subst hnil
      cases m <;> rfl
    have hpos : 0 < file.length := List.length_pos_iff.mpr hnil
    have hread := fgets_ne_nil hnil
    obtain ⟨m, rfl⟩ : ∃ k, m = k + 1 := ⟨m - 1, by omega⟩
    unfold chunksLoop
    rw [if_neg hnil, if_neg hnil,
      ih m _ (by rw [List.length_drop]; omega) (by rw [List.length_drop]; omega)]

theorem chunks_cons (hu : u ≠ []) :
    chunks u = fgets u :: chunks (u.drop (fgets u).length) := by
  have hpos : 0 < u.length := List.length_pos_iff.mpr hu
  have hread := fgets_ne_nil hu
  obtain ⟨n, hn⟩ : ∃ n, u.length = n + 1 := ⟨u.length - 1, by omega⟩
  unfold chunks
  rw [hn, chunksLoop, if_neg hu,
    chunksLoop_eq n _ _ (by rw [List.length_drop]; omega) (Nat.le_refl _)]

/-! ### Lines -/

/-- A line that fits is one call. -/
theorem chunks_line (hu : nl ∉ u) (hlength : u.length + 1 < LINEBUFSZ) (v : List Byte) :
    chunks (u ++ nl :: v) = (u ++ [nl]) :: chunks v := by
  rw [chunks_cons (by simp), fgets_line hu hlength v]
  rw [List.append_cons u nl v, List.drop_left]

/-- Without a newline, a full buffer is read at first. -/
theorem chunks_full (hu : nl ∉ u) (hlength : u.length + 1 = LINEBUFSZ) (v : List Byte) :
    chunks (u ++ v) = u :: chunks v := by
  have hne : u ++ v ≠ [] := by
    intro hnil
    have hsize : LINEBUFSZ = 1024 := rfl
    rw [(List.append_eq_nil_iff.mp hnil).1, List.length_nil] at hlength
    omega
  rw [chunks_cons hne, fgets_full hu hlength v, List.drop_left]

/-- What does not fit is a full buffer and a rest. -/
theorem exists_full (hlength : ¬ u.length + 1 < LINEBUFSZ) :
    ∃ p q, u = p ++ q ∧ p.length + 1 = LINEBUFSZ := by
  have hsize : LINEBUFSZ = 1024 := rfl
  refine ⟨u.take (LINEBUFSZ - 1), u.drop (LINEBUFSZ - 1), (List.take_append_drop _ _).symm, ?_⟩
  rw [List.length_take]
  omega

/-- Of all the calls that read a line, only the last one sees the newline. -/
theorem chunks_split (u : List Byte) (hu : nl ∉ u) :
    ∃ init last, (∀ c ∈ init, nl ∉ c) ∧
      ∀ v, chunks (u ++ nl :: v) = init ++ last :: chunks v := by
  by_cases hlength : u.length + 1 < LINEBUFSZ
  · exact ⟨[], u ++ [nl], by simp, chunks_line hu hlength⟩
  obtain ⟨p, q, hsplit, hp⟩ := exists_full hlength
  have hfirst : nl ∉ p := fun h => hu (hsplit ▸ List.mem_append_left q h)
  have hrest : nl ∉ q := fun h => hu (hsplit ▸ List.mem_append_right p h)
  have hshorter : q.length < u.length := by
    have hsize : LINEBUFSZ = 1024 := rfl
    rw [hsplit, List.length_append]
    omega
  obtain ⟨init, last, hinit, hchunks⟩ := chunks_split q hrest
  refine ⟨p :: init, last, ?_, fun v => ?_⟩
  · intro c hc
    rcases List.mem_cons.mp hc with rfl | hc
    · exact hfirst
    · exact hinit c hc
  · rw [hsplit, List.append_assoc, chunks_full hfirst hp, hchunks, List.cons_append]
termination_by u.length

/-- No call reads the end of a line together with the start of the next one. -/
theorem chunks_newline (x b : List Byte) :
    chunks (x ++ nl :: b) = chunks (x ++ [nl]) ++ chunks b := by
  by_cases hx : nl ∈ x
  · obtain ⟨u, w, hsplit, hu⟩ := List.eq_append_cons_of_mem hx
    have hshorter : w.length < x.length := by
      rw [hsplit, List.length_append, List.length_cons]
      omega
    obtain ⟨init, last, _, hchunks⟩ := chunks_split u hu
    have hrest := chunks_newline w b
    rw [hsplit, List.append_assoc, List.append_assoc, List.cons_append, List.cons_append, hchunks,
      hchunks, hrest, List.append_assoc, List.cons_append]
  · obtain ⟨init, last, _, hchunks⟩ := chunks_split x hx
    rw [hchunks, hchunks, List.append_assoc]
    rfl
termination_by x.length

theorem chunks_append {a : List Byte} (ha : a = [] ∨ ∃ x, a = x ++ [nl]) (b : List Byte) :
    chunks (a ++ b) = chunks a ++ chunks b := by
  rcases ha with rfl | ⟨x, rfl⟩
  · rfl
  · rw [List.append_assoc, List.singleton_append]
    exact chunks_newline x b

/-- What is behind the last newline. -/
theorem chunks_last (u : List Byte) (hu : nl ∉ u) : ∀ c ∈ chunks u, nl ∉ c := by
  intro c hc
  by_cases hlength : u.length + 1 < LINEBUFSZ
  · by_cases hnil : u = []
    · rw [hnil] at hc
      cases hc
    rw [chunks_cons hnil, fgets_last hu (by omega), List.drop_length] at hc
    rcases List.mem_cons.mp hc with rfl | hc
    · exact hu
    · cases hc
  obtain ⟨p, q, hsplit, hp⟩ := exists_full hlength
  have hfirst : nl ∉ p := fun h => hu (hsplit ▸ List.mem_append_left q h)
  have hrest : nl ∉ q := fun h => hu (hsplit ▸ List.mem_append_right p h)
  have hshorter : q.length < u.length := by
    have hsize : LINEBUFSZ = 1024 := rfl
    rw [hsplit, List.length_append]
    omega
  rw [hsplit, chunks_full hfirst hp] at hc
  rcases List.mem_cons.mp hc with rfl | hc
  · exact hfirst
  · exact chunks_last q hrest c hc
termination_by u.length

/-! ### Readers -/

section readers

variable {accounts : Accounts} {cut : Bool} {self : Reader} {chunk : List Byte}

theorem lineOf_none (h : nl ∉ chunk) : lineOf chunk = none := by
  unfold lineOf
  rw [if_neg]
  intro hcontains
  exact h (cstr_subset chunk (List.contains_iff_mem.mp hcontains))

theorem readChunk_skip (hskip : self.skipping = true) (chunk : List Byte) :
    ∃ linebuf, readChunk accounts cut self chunk =
      .ok { self with linebuf := linebuf, skipping := (lineOf chunk).isNone } := by
  have hnot : (!(cstr chunk).contains nl) = (lineOf chunk).isNone := by
    rw [← lineOf_isSome]
    cases lineOf chunk <;> rfl
  refine ⟨chunk ++ 0 :: self.linebuf.drop (chunk.length + 1), ?_⟩
  unfold readChunk
  dsimp only
  rw [if_pos hskip, hnot]

theorem readChunk_long (hskip : self.skipping = false) (h : lineOf chunk = none) :
    ∃ linebuf, readChunk accounts cut self chunk = .ok { self with
      linebuf := linebuf, skipping := true, warnings := self.warnings ++ [.lineTooLong] } := by
  have hnot : (cstr chunk).contains nl = false := by
    rw [← lineOf_isSome, h]
    rfl
  refine ⟨chunk ++ 0 :: self.linebuf.drop (chunk.length + 1), ?_⟩
  unfold readChunk
  dsimp only
  rw [hskip, hnot]
  rfl

/-- Nothing happens as long as no newline is seen. -/
theorem skip_run (hskip : self.skipping = true) {cs : List (List Byte)} (h : ∀ c ∈ cs, nl ∉ c) :
    ∃ linebuf, cs.foldlM (readChunk accounts cut) self = .ok { self with linebuf := linebuf } := by
  induction cs generalizing self with
  | nil => exact ⟨self.linebuf, rfl⟩
  | cons c cs ih =>
    obtain ⟨linebuf, hread⟩ := @readChunk_skip accounts cut self hskip c
    rw [lineOf_none (h c List.mem_cons_self)] at hread
    obtain ⟨linebuf', hrest⟩ := @ih { self with linebuf := linebuf, skipping := true } rfl
      fun c' hc' => h c' (List.mem_cons_of_mem c hc')
    refine ⟨linebuf', ?_⟩
    rw [foldlM_cons_ok hread, hskip]
    exact hrest

/-- A line is left out from its first call on, until a newline is seen. -/
theorem long_run (hskip : self.skipping = false) {init : List (List Byte)} {last : List Byte}
    (hinit : ∀ c ∈ init, nl ∉ c) (hfirst : (init ++ [last]).head?.all (lineOf · == none)) :
    ∃ linebuf, (init ++ [last]).foldlM (readChunk accounts cut) self = .ok { self with
      linebuf := linebuf, skipping := (lineOf last).isNone
      warnings := self.warnings ++ [.lineTooLong] } := by
  cases init with
  | nil =>
    have hlast : lineOf last = none := by simpa using hfirst
    obtain ⟨linebuf, hread⟩ := @readChunk_long accounts cut self last hskip hlast
    refine ⟨linebuf, ?_⟩
    rw [List.nil_append, foldlM_cons_ok hread, hlast]
    rfl
  | cons c cs =>
    have hc : lineOf c = none := lineOf_none (hinit c List.mem_cons_self)
    obtain ⟨linebuf, hread⟩ := @readChunk_long accounts cut self c hskip hc
    obtain ⟨linebuf', hrun⟩ := @skip_run accounts cut { self with
        linebuf := linebuf, skipping := true, warnings := self.warnings ++ [.lineTooLong] } rfl cs
      fun c' hc' => hinit c' (List.mem_cons_of_mem c hc')
    obtain ⟨linebuf'', hlast⟩ := @readChunk_skip accounts cut { self with
        linebuf := linebuf', skipping := true, warnings := self.warnings ++ [.lineTooLong] } rfl last
    refine ⟨linebuf'', ?_⟩
    rw [List.cons_append, foldlM_cons_ok hread, foldlM_append_ok hrun, foldlM_cons_ok hlast]
    rfl

end readers

end Swad.FileChunks
