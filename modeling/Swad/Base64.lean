import Mathlib.Tactic.IntervalCases
import Swad.GrowingBuffer
import Swad.PercentCoding

/-!
Base64 without padding. The two functions read by positions and store through a pointer that
moves on; the size of what they store is computed by functions of their own. What the encoder
stores is decoded to the same bytes.
-/
namespace Swad.Base64

open Bytes TextCodecs GrowingBuffer PercentCoding

def base64encsz (size : ℕ) : ℕ :=
  let res := size % 3
  4 * (size / 3) + if res = 0 then res else res + 1

def base64decsz (size : ℕ) : ℕ :=
  let res := size % 4
  3 * (size / 4) + if 1 < res then res - 1 else res

def dec1 (val : Byte) : Byte :=
  if chr 'A' ≤ val ∧ val ≤ chr 'Z' then val - chr 'A'
  else if chr 'a' ≤ val ∧ val ≤ chr 'z' then val - chr 'a' + 0x1a
  else if chr '0' ≤ val ∧ val ≤ chr '9' then val - chr '0' + 0x34
  else if val = chr '+' then 0x3e
  else 0x3f

/-- The loop over groups of three bytes and what is stored behind it, for at most so many
rounds. -/
def base64encLoop (data : List Byte) (size : ℕ) : ℕ → ℕ → Buffer Byte → Option (Buffer Byte)
  | rounds + 1, pos, enc =>
    if 3 ≤ size - pos then do
      let a ← data[pos]?
      let b ← data[pos + 1]?
      let c ← data[pos + 2]?
      let enc ← enc.write [enc1 (a >>> 2)]
      let enc ← enc.write [enc1 (a <<< 4 ||| b >>> 4)]
      let enc ← enc.write [enc1 (b <<< 2 ||| c >>> 6)]
      let enc ← enc.write [enc1 c]
      base64encLoop data size rounds (pos + 3) enc
    else if size - pos = 2 then do
      let a ← data[pos]?
      let b ← data[pos + 1]?
      let enc ← enc.write [enc1 (a >>> 2)]
      let enc ← enc.write [enc1 (a <<< 4 ||| b >>> 4)]
      let enc ← enc.write [enc1 (b <<< 2)]
      enc.write [0]
    else if pos < size then do
      let a ← data[pos]?
      let enc ← enc.write [enc1 (a >>> 2)]
      let enc ← enc.write [enc1 (a <<< 4)]
      enc.write [0]
    else enc.write [0]
  | 0, _, _ => none

def base64enc (data : List Byte) (size : ℕ) (enc : Buffer Byte) : Option (Buffer Byte) :=
  base64encLoop data size (size + 1) 0 enc

def base64decLoop (enc : List Byte) (size : ℕ) : ℕ → ℕ → Buffer Byte → Option (Buffer Byte)
  | rounds + 1, pos, data =>
    if 4 ≤ size - pos then do
      let b1 ← enc[pos]?.map dec1
      let b2 ← enc[pos + 1]?.map dec1
      let b3 ← enc[pos + 2]?.map dec1
      let data ← data.write [b1 <<< 2 ||| b2 >>> 4]
      let data ← data.write [b2 <<< 4 ||| b3 >>> 2]
      let b4 ← enc[pos + 3]?.map dec1
      let data ← data.write [b3 <<< 6 ||| b4]
      base64decLoop enc size rounds (pos + 4) data
    else if size - pos = 3 then do
      let b1 ← enc[pos]?.map dec1
      let b2 ← enc[pos + 1]?.map dec1
      let b3 ← enc[pos + 2]?.map dec1
      let data ← data.write [b1 <<< 2 ||| b2 >>> 4]
      data.write [b2 <<< 4 ||| b3 >>> 2]
    else if size - pos = 2 then do
      let b1 ← enc[pos]?.map dec1
      let b2 ← enc[pos + 1]?.map dec1
      data.write [b1 <<< 2 ||| b2 >>> 4]
    else some data
  | 0, _, _ => none

def base64dec (data : Buffer Byte) (enc : List Byte) (size : ℕ) : Option (Buffer Byte) :=
  base64decLoop enc size (size + 1) 0 data

def alphabet : Str := str "ABCDEFGHIJKLMNOPQRSTUVWXYZabcdefghijklmnopqrstuvwxyz0123456789+/"

/-! ### One character -/

theorem dec1_enc1 : ∀ v : Byte, dec1 (enc1 v) = v &&& 0x3f := by
  apply byte_all
  decide +kernel

theorem enc1_mem (v : Byte) : enc1 v ∈ alphabet := by
  have hsmall : ∀ n < 64, enc1 (UInt8.ofNat n) ∈ alphabet := by decide +kernel
  have hlt : (v &&& 0x3f).toNat < 64 := by
    rw [UInt8.toNat_and]
    exact Nat.lt_of_le_of_lt Nat.and_le_right (by decide)
  have hmask : enc1 (v &&& 0x3f) = enc1 v := by
    unfold enc1
    rw [UInt8.and_assoc, UInt8.and_self]
  have h := hsmall _ hlt
  rwa [UInt8.ofNat_toNat, hmask] at h

/-! ### The bits of a group -/

section bits

variable (a b c : Byte)

/-- Two bytes are compared bit by bit. -/
theorem byte_ext {x y : Byte} (h : ∀ i, (hi : i < 8) → x.toBitVec[i] = y.toBitVec[i]) : x = y :=
  UInt8.eq_of_toBitVec_eq (BitVec.eq_of_getElem_eq h)

theorem bits_first :
    ((a >>> 2) &&& 0x3f) <<< 2 ||| ((a <<< 4 ||| b >>> 4) &&& 0x3f) >>> 4 = a := by
  refine byte_ext fun i hi => ?_
  interval_cases i <;> simp

theorem bits_second :
    ((a <<< 4 ||| b >>> 4) &&& 0x3f) <<< 4 ||| ((b <<< 2 ||| c >>> 6) &&& 0x3f) >>> 2 = b := by
  refine byte_ext fun i hi => ?_
  interval_cases i <;> simp

theorem bits_third : ((b <<< 2 ||| c >>> 6) &&& 0x3f) <<< 6 ||| (c &&& 0x3f) = c := by
  refine byte_ext fun i hi => ?_
  interval_cases i <;> simp

theorem bits_first_last : ((a >>> 2) &&& 0x3f) <<< 2 ||| ((a <<< 4) &&& 0x3f) >>> 4 = a := by
  have h := bits_first a 0
  rwa [UInt8.zero_shiftRight, UInt8.or_zero] at h

theorem bits_second_last :
    ((a <<< 4 ||| b >>> 4) &&& 0x3f) <<< 4 ||| ((b <<< 2) &&& 0x3f) >>> 2 = b := by
  have h := bits_second a b 0
  rwa [UInt8.zero_shiftRight, UInt8.or_zero] at h

end bits

/-! ### The loops -/

section loops

variable {size pos k : ℕ} {w : List Byte} {c : Byte}

/-- What a position in the part that is left says about the whole. -/
theorem getElem?_of_drop {data : List Byte} (h : (data.take size).drop pos = w)
    (hk : w[k]? = some c) : data[pos + k]? = some c := by
  rw [← h, List.getElem?_drop] at hk
  have hlt := (List.getElem?_eq_some_iff.mp hk).1
  rw [List.length_take] at hlt
  rwa [List.getElem?_take_of_lt (by omega)] at hk

theorem getElem?_head_of_drop {data : List Byte} (h : (data.take size).drop pos = w)
    (hk : w[0]? = some c) : data[pos]? = some c :=
  getElem?_of_drop (k := 0) h hk

theorem base64encLoop_eq {data : List Byte} (hsize : size ≤ data.length) (rounds : ℕ)
    (hpos : pos ≤ size) (hrounds : size < pos + rounds) (enc : Buffer Byte) :
    base64encLoop data size rounds pos enc =
      enc.write (TextCodecs.base64enc ((data.take size).drop pos) ++ [0]) := by
  induction rounds generalizing pos enc with
  | zero => omega
  | succ rounds ih =>
    have hlength : ((data.take size).drop pos).length = size - pos := by
      rw [List.length_drop, List.length_take_of_le hsize]
    rw [base64encLoop]
    rcases hw : (data.take size).drop pos with _ | ⟨a, _ | ⟨b, _ | ⟨c, rest⟩⟩⟩
    · rw [hw, List.length_nil] at hlength
      rw [if_neg (by omega), if_neg (by omega), if_neg (by omega)]
      rfl
    · rw [hw, List.length_singleton] at hlength
      have ha : data[pos]? = some a := getElem?_head_of_drop hw rfl
      rw [if_neg (by omega), if_neg (by omega), if_pos (by omega), ha]
      simp only [Option.bind_eq_bind, Option.bind_some]
      rw [Buffer.write_bind, Buffer.write_write]
      rfl
    · rw [hw, List.length_cons, List.length_singleton] at hlength
      have ha : data[pos]? = some a := getElem?_head_of_drop hw rfl
      have hb : data[pos + 1]? = some b := getElem?_of_drop hw rfl
      rw [if_neg (by omega), if_pos (by omega), ha, hb]
      simp only [Option.bind_eq_bind, Option.bind_some]
      rw [Buffer.write_bind, Buffer.write_bind, Buffer.write_write]
      rfl
    · rw [hw, List.length_cons, List.length_cons, List.length_cons] at hlength
      have ha : data[pos]? = some a := getElem?_head_of_drop hw rfl
      have hb : data[pos + 1]? = some b := getElem?_of_drop hw rfl
      have hc : data[pos + 2]? = some c := getElem?_of_drop hw rfl
      have hrest : (data.take size).drop (pos + 3) = rest := by
        rw [← List.drop_drop, hw]
        rfl
      have hnext := ih (show pos + 3 ≤ size by omega) (by omega)
      rw [hrest] at hnext
      rw [if_pos (by omega), ha, hb, hc]
      simp only [Option.bind_eq_bind, Option.bind_some, hnext]
      rw [Buffer.write_bind, Buffer.write_bind, Buffer.write_bind, Buffer.write_write]
      rfl

theorem base64decLoop_eq {enc d : List Byte} (rounds : ℕ) (hsize : size ≤ enc.length)
    (hpos : pos ≤ size) (hrounds : size < pos + rounds)
    (henc : (enc.take size).drop pos = TextCodecs.base64enc d) (data : Buffer Byte)
    (hdata : data.pos ≤ data.cells.length) :
    base64decLoop enc size rounds pos data = data.write d := by
  induction rounds generalizing pos d data with
  | zero => omega
  | succ rounds ih =>
    have hlength : (TextCodecs.base64enc d).length = size - pos := by
      rw [← henc, List.length_drop, List.length_take_of_le hsize]
    rw [base64decLoop]
    rcases d with _ | ⟨a, _ | ⟨b, _ | ⟨c, rest⟩⟩⟩
    · rw [TextCodecs.base64enc, List.length_nil] at hlength
      rw [if_neg (by omega), if_neg (by omega), if_neg (by omega), Buffer.write_nil hdata]
    · rw [TextCodecs.base64enc] at henc hlength
      simp only [List.length_cons, List.length_nil] at hlength
      rw [if_neg (by omega), if_neg (by omega), if_pos (by omega),
        getElem?_head_of_drop henc rfl, getElem?_of_drop (k := 1) henc rfl]
      simp only [Option.bind_eq_bind, Option.bind_some, Option.map_some, dec1_enc1,
        bits_first_last]
    · rw [TextCodecs.base64enc] at henc hlength
      simp only [List.length_cons, List.length_nil] at hlength
      rw [if_neg (by omega), if_pos (by omega),
        getElem?_head_of_drop henc rfl, getElem?_of_drop (k := 1) henc rfl,
        getElem?_of_drop (k := 2) henc rfl]
      simp only [Option.bind_eq_bind, Option.bind_some, Option.map_some, dec1_enc1, bits_first,
        bits_second_last]
      rw [Buffer.write_write]
      rfl
    · rw [TextCodecs.base64enc] at henc hlength
      simp only [List.length_cons] at hlength
      have hrest : (enc.take size).drop (pos + 4) = TextCodecs.base64enc rest := by
        rw [← List.drop_drop, henc]
        rfl
      rw [if_pos (by omega), getElem?_head_of_drop henc rfl,
        getElem?_of_drop (k := 1) henc rfl, getElem?_of_drop (k := 2) henc rfl,
        getElem?_of_drop (k := 3) henc rfl]
      simp only [Option.bind_eq_bind, Option.bind_some, Option.map_some, dec1_enc1, bits_first,
        bits_second, bits_third]
      rw [Buffer.write_bind, Buffer.write_bind]
      change (data.write [a, b, c]).bind _ = data.write ([a, b, c] ++ rest)
      rw [← Buffer.write_write]
      cases hmid : data.write [a, b, c] with
      | none => rfl
      | some mid => exact ih (by omega) (by omega) hrest mid (Buffer.write_pos_le hmid)

end loops

/-! ### Sizes -/

theorem length_base64enc (d : List Byte) :
    (TextCodecs.base64enc d).length = base64encsz d.length := by
  induction d using TextCodecs.base64enc.induct with
  | case1 a b c d ih =>
    rw [TextCodecs.base64enc]
    simp only [List.length_cons, ih, base64encsz]
    have hmod : (d.length + 1 + 1 + 1) % 3 = d.length % 3 := by omega
    have hdiv : (d.length + 1 + 1 + 1) / 3 = d.length / 3 + 1 := by omega
    rw [hmod, hdiv]
    omega
  | case2 a b => simp [TextCodecs.base64enc, base64encsz]
  | case3 a => simp [TextCodecs.base64enc, base64encsz]
  | case4 => rfl

theorem base64decsz_base64encsz (n : ℕ) : base64decsz (base64encsz n) = n := by
  unfold base64decsz base64encsz
  dsimp only
  by_cases h : n % 3 = 0
  · rw [if_pos h, h, if_neg (by omega)]
    omega
  · rw [if_neg h, if_pos (by omega)]
    omega

theorem base64enc_eq {data : List Byte} {size : ℕ} (h : size ≤ data.length) (enc : Buffer Byte) :
    base64enc data size enc = enc.write (TextCodecs.base64enc (data.take size) ++ [0]) := by
  have hloop := base64encLoop_eq h (size + 1) (Nat.zero_le size) (by omega) enc
  rwa [List.drop_zero] at hloop

theorem mem_alphabet (d : List Byte) : ∀ c ∈ TextCodecs.base64enc d, c ∈ alphabet := by
  intro c hc
  induction d using TextCodecs.base64enc.induct with
  | case1 a b c d ih =>
    simp only [TextCodecs.base64enc, List.mem_cons] at hc
    rcases hc with rfl | rfl | rfl | rfl | hc
    · exact enc1_mem _
    · exact enc1_mem _
    · exact enc1_mem _
    · exact enc1_mem _
    · exact ih hc
  | case2 a b =>
    simp only [TextCodecs.base64enc, List.mem_cons, List.not_mem_nil, or_false] at hc
    rcases hc with rfl | rfl | rfl <;> exact enc1_mem _
  | case3 a =>
    simp only [TextCodecs.base64enc, List.mem_cons, List.not_mem_nil, or_false] at hc
    rcases hc with rfl | rfl <;> exact enc1_mem _
  | case4 => exact absurd hc List.not_mem_nil

/-- The encoder stores as many characters as its size says, and a NUL, and the decoder makes
the same bytes of them, whatever follows. -/
theorem base64dec_base64enc (d : List Byte) :
    (∀ enc : Buffer Byte,
      base64enc d d.length enc = enc.write (TextCodecs.base64enc d ++ [0])) ∧
    (TextCodecs.base64enc d).length = base64encsz d.length ∧
    (∀ c ∈ TextCodecs.base64enc d, c ∈ alphabet) ∧
    base64decsz (base64encsz d.length) = d.length ∧
    ∀ (data : Buffer Byte) (rest : List Byte), data.WellFormed →
      base64dec data (TextCodecs.base64enc d ++ rest) (base64encsz d.length) = data.write d := by
  refine ⟨?_, length_base64enc d, mem_alphabet d, base64decsz_base64encsz d.length, ?_⟩
  · intro enc
    rw [base64enc_eq le_rfl, List.take_length]
  · intro data rest hdata
    have hlength := length_base64enc d
    apply base64decLoop_eq
    · rw [List.length_append]
      omega
    · exact Nat.zero_le _
    · omega
    · rw [List.drop_zero, ← hlength, List.take_left]
    · rw [hdata.length_cells]
      exact hdata.pos_le

end Swad.Base64
