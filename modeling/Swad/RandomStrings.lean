import Mathlib.Data.Vector.Basic
import Swad.Base64

/-!
Random strings. Where the destination is too small for the requested bytes, their number is
computed from its size. The size of the decoded text is one byte too many for a text that ends
with a single character, so the string gets longer than the destination then.
-/
namespace Swad.RandomStrings

open Bytes GrowingBuffer Base64

section strings

variable (random : (num : ℕ) → List.Vector Byte num)

/-- The number of bytes that are used. -/
def rndNum (size num : ℕ) : ℕ :=
  let reqsz := base64encsz num + 1
  if size < reqsz then base64decsz (size - 1) else num

/-- The buffer of the function itself, with the random bytes. -/
def rndBuf (size num : ℕ) : Option (Buffer Byte) :=
  (Buffer.alloc num).write (random (rndNum size num)).toList

def getRndStr (dest : Buffer Byte) (size num : ℕ) : Option (Buffer Byte) :=
  (rndBuf random size num).bind fun _ =>
    base64enc (random (rndNum size num)).toList (rndNum size num) dest

def createRndStr (num : ℕ) : Option (Buffer Byte) :=
  let strsz := base64encsz num + 1
  getRndStr random (.alloc strsz) strsz num

end strings

/-! ### Sizes -/

/-- Decoding a size and encoding it again gives too much for a single last character. -/
theorem base64encsz_base64decsz (size : ℕ) :
    base64encsz (base64decsz size) ≤ size ↔ size % 4 ≠ 1 := by
  unfold base64encsz base64decsz
  dsimp only
  rcases (show size % 4 = 0 ∨ size % 4 = 1 ∨ size % 4 = 2 ∨ size % 4 = 3 by omega) with
    h | h | h | h
  · rw [h, if_neg (by omega)]
    have hmod : (3 * (size / 4) + 0) % 3 = 0 := by omega
    rw [if_pos hmod]
    omega
  · rw [h, if_neg (by omega)]
    have hmod : (3 * (size / 4) + 1) % 3 = 1 := by omega
    rw [hmod, if_neg (by omega)]
    omega
  · rw [h, if_pos (by omega)]
    have hmod : (3 * (size / 4) + (2 - 1)) % 3 = 1 := by omega
    rw [hmod, if_neg (by omega)]
    omega
  · rw [h, if_pos (by omega)]
    have hmod : (3 * (size / 4) + (3 - 1)) % 3 = 2 := by omega
    rw [hmod, if_neg (by omega)]
    omega

theorem base64decsz_le {size num : ℕ} (h : size < base64encsz num) : base64decsz size ≤ num := by
  unfold base64encsz at h
  unfold base64decsz
  dsimp only at h ⊢
  by_cases hnum : num % 3 = 0
  · rw [if_pos hnum] at h
    by_cases hsize : 1 < size % 4
    · rw [if_pos hsize]
      omega
    · rw [if_neg hsize]
      omega
  · rw [if_neg hnum] at h
    by_cases hsize : 1 < size % 4
    · rw [if_pos hsize]
      omega
    · rw [if_neg hsize]
      omega

/-- The own buffer has room for the bytes that are used. -/
theorem rndNum_le {size : ℕ} (hsize : 1 ≤ size) (num : ℕ) : rndNum size num ≤ num := by
  unfold rndNum
  dsimp only
  by_cases h : size < base64encsz num + 1
  · rw [if_pos h]
    exact base64decsz_le (by omega)
  · rw [if_neg h]

/-- The string is too long exactly if the destination is too small and ends after a single
character. -/
theorem base64encsz_rndNum {size num : ℕ} (hsize : 1 ≤ size) :
    base64encsz (rndNum size num) + 1 ≤ size ↔
      ¬ (size < base64encsz num + 1 ∧ (size - 1) % 4 = 1) := by
  unfold rndNum
  dsimp only
  by_cases h : size < base64encsz num + 1
  · have hiff := base64encsz_base64decsz (size - 1)
    rw [if_pos h]
    constructor
    · intro hle hbad
      exact hiff.mp (by omega) hbad.2
    · intro hgood
      have hle := hiff.mpr fun hmod => hgood ⟨h, hmod⟩
      omega
  · rw [if_neg h]
    exact iff_of_true (by omega) fun hbad => h hbad.1

section writes

variable (random : (num : ℕ) → List.Vector Byte num)

theorem rndBuf_some {size : ℕ} (hsize : 1 ≤ size) (num : ℕ) :
    ∃ buf, rndBuf random size num = some buf := by
  have hle := rndNum_le hsize num
  have hfits : (Buffer.alloc num : Buffer Byte).pos +
      (random (rndNum size num)).toList.length ≤ (Buffer.alloc num : Buffer Byte).size := by
    rw [List.Vector.toList_length]
    change 0 + rndNum size num ≤ num
    omega
  obtain ⟨buf, hbuf, -⟩ := (Buffer.wellFormed_alloc num).write hfits
  exact ⟨buf, hbuf⟩

/-- Encoding so many bytes stores the characters of their size and a NUL. -/
theorem getRndStr_eq {size : ℕ} (hsize : 1 ≤ size) (num : ℕ) (dest : Buffer Byte) :
    ∃ text : Str, text.length = base64encsz (rndNum size num) + 1 ∧
      getRndStr random dest size num = dest.write text := by
  obtain ⟨buf, hbuf⟩ := rndBuf_some random hsize num
  have hlength : (random (rndNum size num)).toList.length = rndNum size num :=
    List.Vector.toList_length _
  refine ⟨TextCodecs.base64enc (random (rndNum size num)).toList ++ [0], ?_, ?_⟩
  · rw [List.length_append, length_base64enc, hlength]
    rfl
  · rw [getRndStr, hbuf, Option.bind_some, base64enc_eq (Nat.le_of_eq hlength.symm),
      List.take_of_length_le (Nat.le_of_eq hlength)]

theorem getRndStr_some {size num : ℕ} (hsize : 1 ≤ size) {dest : Buffer Byte}
    (hdest : dest.WellFormed) (hpos : dest.pos = 0) (hcells : dest.size = size)
    (h : base64encsz (rndNum size num) + 1 ≤ size) :
    ∃ after, getRndStr random dest size num = some after := by
  obtain ⟨text, hlength, heq⟩ := getRndStr_eq random hsize num dest
  have hroom : dest.pos + text.length ≤ dest.size := by omega
  obtain ⟨after, hafter, -⟩ := hdest.write hroom
  exact ⟨after, heq.trans hafter⟩

/-- A string that is created fits. -/
theorem createRndStr_some (num : ℕ) : ∃ after, createRndStr random num = some after :=
  getRndStr_some random (Nat.le_add_left 1 _) (Buffer.wellFormed_alloc _) rfl rfl
    ((base64encsz_rndNum (Nat.le_add_left 1 _)).mpr fun h => absurd h.1 (Nat.lt_irrefl _))

end writes

/-- A random string fits into its destination exactly unless the destination is too small for
the requested bytes and has room for a single character behind the last whole group. The bytes
fit into the own buffer in any case. -/
theorem getRndStr_fits_iff (random : (num : ℕ) → List.Vector Byte num) (size num : ℕ)
    (hsize : 1 ≤ size) (dest : Buffer Byte) (hdest : dest.WellFormed) (hpos : dest.pos = 0)
    (hcells : dest.size = size) :
    (∃ buf, rndBuf random size num = some buf) ∧
      ((∃ after, getRndStr random dest size num = some after) ↔
        ¬ (size < base64encsz num + 1 ∧ (size - 1) % 4 = 1)) := by
  refine ⟨rndBuf_some random hsize num, ?_⟩
  rw [← base64encsz_rndNum hsize]
  constructor
  · rintro ⟨after, hafter⟩
    obtain ⟨text, hlength, heq⟩ := getRndStr_eq random hsize num dest
    rw [heq] at hafter
    by_contra hlong
    have hover : ¬ dest.pos + text.length ≤ dest.cells.length := by
      rw [hpos, hdest.length_cells, hcells]
      omega
    rw [Buffer.write, if_neg hover] at hafter
    cases hafter
  · exact getRndStr_some random hsize hdest hpos hcells

theorem getRndStr_fits_exact :
    ∃ after, getRndStr (fun num => List.Vector.replicate num 7) (Buffer.alloc 5) 5 9 =
      some after ∧ after.cells = (str "BwcH").map some ++ [some 0] := by
  obtain ⟨-, hiff⟩ := getRndStr_fits_iff (fun num => List.Vector.replicate num 7) 5 9 (by decide)
    (Buffer.alloc 5) (Buffer.wellFormed_alloc 5) rfl rfl
  obtain ⟨after, hafter⟩ := hiff.mpr (by decide)
  have hrun : (getRndStr (fun num => List.Vector.replicate num 7) (Buffer.alloc 5) 5 9).map
      Buffer.cells = some ((str "BwcH").map some ++ [some 0]) := by
    decide +kernel
  rw [hafter] at hrun
  exact ⟨after, hafter, Option.some.inj hrun⟩

/-- Two characters of room: two are stored, and then the NUL. -/
theorem getRndStr_overflows :
    getRndStr (fun num => List.Vector.replicate num 7) (Buffer.alloc 2) 2 32 = none ∧
      (getRndStr (fun num => List.Vector.replicate num 7) (Buffer.alloc 3) 2 32).map
        Buffer.cells = some ((str "Bw").map some ++ [some 0]) := by
  decide +kernel

end Swad.RandomStrings
