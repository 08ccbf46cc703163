import Mathlib.Data.List.GetD
import Swad.Bytes

/-!
The first bits of a sequence of bytes, the most significant bit of each byte first. Comparing
them takes the whole bytes and, under a mask, the byte in which the prefix ends.
-/
namespace Swad.BitPrefixes

open Bytes

def bit (s : List Byte) (i : ℕ) : Bool := (s.getD (i / 8) 0).toBitVec.getMsbD (i % 8)

/-- The first bits of a byte. -/
def mask (bits : ℕ) : Byte := UInt8.ofNat (0xff <<< (8 - bits))

section bytes

variable {as bs : List Byte} {x y : Byte} {k bits : ℕ}

theorem eq_iff_bits : x = y ↔ ∀ j < 8, x.toBitVec.getMsbD j = y.toBitVec.getMsbD j := by
  constructor
  · rintro rfl j _
    rfl
  · intro h
    exact UInt8.toBitVec_inj.mp (BitVec.eq_of_getMsbD_eq h)

theorem getMsbD_mask : ∀ bits < 8, ∀ j < 8, (mask bits).toBitVec.getMsbD j = decide (j < bits) := by
  decide

theorem and_mask_eq_iff (hbits : bits < 8) :
    x &&& mask bits = y &&& mask bits ↔
      ∀ j < bits, x.toBitVec.getMsbD j = y.toBitVec.getMsbD j := by
  have hand (z : Byte) (j : ℕ) (hj : j < 8) :
      (z &&& mask bits).toBitVec.getMsbD j = (z.toBitVec.getMsbD j && decide (j < bits)) := by
    rw [UInt8.toBitVec_and, BitVec.getMsbD_and, getMsbD_mask bits hbits j hj]
  rw [eq_iff_bits]
  constructor
  · intro h j hj
    have heq := h j (by omega)
    rwa [hand x j (by omega), hand y j (by omega), decide_eq_true hj, Bool.and_true,
      Bool.and_true] at heq
  · intro h j hj
    rw [hand x j hj, hand y j hj]
    by_cases hlt : j < bits
    · rw [h j hlt]
    · rw [decide_eq_false hlt, Bool.and_false, Bool.and_false]

theorem take_eq_iff (hlength : as.length = bs.length) (hk : k ≤ as.length) :
    as.take k = bs.take k ↔ ∀ i < k, as.getD i 0 = bs.getD i 0 := by
  constructor
  · intro h i hi
    have hget := congrArg (fun s => s.getD i 0) h
    simp only [List.getD_eq_getElem?_getD, List.getElem?_take_of_lt hi] at hget ⊢
    exact hget
  · intro h
    apply List.ext_getElem
    · rw [List.length_take, List.length_take, hlength]
    · intro i hi hi'
      rw [List.length_take] at hi hi'
      have hget := h i (by omega)
      rw [List.getElem_take, List.getElem_take]
      rwa [List.getD_eq_getElem _ _ (by omega), List.getD_eq_getElem _ _ (by omega)] at hget

/-- The whole bytes and the rest under the mask are equal exactly if the bits are. -/
theorem samePrefix_iff (hlength : as.length = bs.length) (hk : k ≤ 8 * as.length) :
    (as.take (k / 8) = bs.take (k / 8) ∧ (k % 8 = 0 ∨
        as.getD (k / 8) 0 &&& mask (k % 8) = bs.getD (k / 8) 0 &&& mask (k % 8))) ↔
      ∀ i < k, bit as i = bit bs i := by
  rw [take_eq_iff hlength (by omega), and_mask_eq_iff (Nat.mod_lt k (by decide))]
  constructor
  · intro ⟨hbytes, hrest⟩ i hi
    unfold bit
    by_cases hlast : i / 8 < k / 8
    · rw [hbytes _ hlast]
    · have hsame : i / 8 = k / 8 := by omega
      rw [hsame]
      rcases hrest with hzero | hrest
      · omega
      · exact hrest _ (by omega)
  · intro h
    have hbit (j b : ℕ) (hb : b < 8) (hlt : 8 * j + b < k) :
        (as.getD j 0).toBitVec.getMsbD b = (bs.getD j 0).toBitVec.getMsbD b := by
      have heq := h (8 * j + b) hlt
      unfold bit at heq
      rwa [show (8 * j + b) / 8 = j by omega, show (8 * j + b) % 8 = b by omega] at heq
    refine ⟨?_, Or.inr ?_⟩
    · intro j hj
      exact eq_iff_bits.mpr fun b hb => hbit j b hb (by omega)
    · intro b hb
      exact hbit (k / 8) b (by omega) (by omega)

end bytes

end Swad.BitPrefixes
