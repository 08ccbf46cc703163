import Swad.BitPrefixes
import Swad.Ipaddr

/-!
Whether an address lies in the network that a prefix describes. The comparison starts at the
first of the sixteen bytes for both protocols, and the address proper of an IPv4 address are
the last four of them.
-/
namespace Swad.AddressMatching

open Bytes Util Ipaddr BitPrefixes

/-- What is promised of an address: it has sixteen bytes, of which an IPv4 address uses four,
and the prefix length does not exceed the bits of the address. -/
structure Sound (a : IpAddr) : Prop where
  proto : a.proto = .ipv4 ∨ a.proto = .ipv6
  length : a.data.length = 16
  ipv4 : a.proto = .ipv4 → a.prefixlen ≤ 32 ∧ a.data.take 12 = List.replicate 12 0
  ipv6 : a.proto = .ipv6 → a.prefixlen ≤ 128

/-- The bytes of the address. -/
def proper (a : IpAddr) : List Byte := if a.proto = .ipv4 then a.data.drop 12 else a.data

section parsing

variable {s buf : Str} {data : List Byte} {n : ℕ} {a : IpAddr}

theorem parsev4Loop_length (n : ℕ) (buf : Str) (h : parsev4Loop n buf = some data) :
    data.length = n := by
  induction n generalizing buf data with
  | zero =>
    obtain rfl := Option.some.inj h
    rfl
  | succ n ih =>
    unfold parsev4Loop at h
    dsimp only at h
    split at h
    · cases h
    split at h
    · next hlast =>
      split at h
      · obtain rfl := Option.some.inj h
        rw [hlast]
        rfl
      · cases h
    · split at h
      · split at h
        · obtain ⟨rest, hrest, rfl⟩ := Option.map_eq_some_iff.mp h
          rw [List.length_cons, ih _ hrest]
        · cases h
      · cases h

theorem fill_length {head tail : List Byte} (h : head.length + tail.length ≤ 16) :
    (fill head tail).length = 16 := by
  unfold fill
  rw [List.length_append, List.length_append, List.length_replicate]
  omega

/-- The groups that are read are pairs of bytes, of which there is room for eight. -/
theorem parsev6Loop_length (n : ℕ) (head : List Byte) (tail : Option (List Byte)) (buf : Str)
    (heven : (head.length + (tail.getD []).length) % 2 = 0)
    (hroom : head.length + (tail.getD []).length ≤ 16)
    (h : parsev6Loop n head tail buf = some data) : data.length = 16 := by
  induction n generalizing head tail buf with
  | zero => cases h
  | succ n ih =>
    unfold parsev6Loop at h
    dsimp only at h
    split at h
    · obtain rfl := Option.some.inj h
      exact fill_length hroom
    split at h
    · next hgap =>
      rw [hgap.1] at heven hroom
      exact ih head (some []) _ heven hroom h
    split at h
    · cases h
    split at h
    · cases h
    · next hfull =>
      cases tail with
      | none =>
        refine ih _ none _ ?_ ?_ h
        · rw [List.length_append]
          simpa using heven
        · rw [List.length_append]
          simp only [Option.getD_none, List.length_nil, List.length_cons] at hfull heven ⊢
          omega
      | some tail =>
        refine ih _ (some _) _ ?_ ?_ h
        · rw [Option.getD_some, List.length_append, ← Nat.add_assoc]
          simpa using heven
        · rw [Option.getD_some, List.length_append]
          simp only [Option.getD_some, List.length_nil, List.length_cons] at hfull heven ⊢
          omega

theorem parsePrefix_le {prefixlen : Option ℕ} (h : parsePrefix s = some (buf, prefixlen)) :
    ∀ n ∈ prefixlen, n ≤ 128 := by
  unfold parsePrefix at h
  split at h
  · obtain ⟨-, rfl⟩ := Prod.mk.inj (Option.some.inj h)
    intro n hn
    cases hn
  · dsimp only at h
    split at h
    · cases h
    · next hbounds =>
      obtain ⟨-, rfl⟩ := Prod.mk.inj (Option.some.inj h)
      intro n hn
      obtain rfl := Option.some.inj hn
      omega

theorem sound_v4 (h : parsev4 buf = some data) (hn : n ≤ 32) : Sound ⟨data, n, .ipv4⟩ := by
  obtain ⟨bytes, hbytes, rfl⟩ := Option.map_eq_some_iff.mp h
  have hlength := parsev4Loop_length 4 buf hbytes
  refine ⟨Or.inl rfl, ?_, fun _ => ⟨hn, rfl⟩, fun hproto => by cases hproto⟩
  show (List.replicate 12 0 ++ bytes).length = 16
  rw [List.length_append, hlength]
  rfl

/-- Every address that is created is sound. -/
theorem sound_create (h : IpAddr.create s = some a) : Sound a := by
  unfold IpAddr.create at h
  split at h
  · cases h
  split at h
  · cases h
  · next buf prefixlen hlead =>
    have hle := parsePrefix_le hlead
    split at h
    · next data hdata =>
      split at h
      · obtain rfl := Option.some.inj h
        exact sound_v4 hdata (Nat.le_refl 32)
      · next n =>
        split at h
        · cases h
        · next hn =>
          obtain rfl := Option.some.inj h
          exact sound_v4 hdata (Nat.le_of_not_lt hn)
    · obtain ⟨data, hdata, rfl⟩ := Option.map_eq_some_iff.mp h
      have hlength := parsev6Loop_length _ [] none buf rfl (Nat.zero_le _) hdata
      refine ⟨Or.inr rfl, hlength, fun hproto => (by cases hproto), fun _ => ?_⟩
      cases prefixlen with
      | none => exact Nat.le_refl 128
      | some n => exact hle n rfl

end parsing

section comparing

variable {a p : IpAddr}

theorem matches_eq_true (a p : IpAddr) :
    a.matches p = true ↔ a.proto = p.proto ∧ p.prefixlen ≤ a.prefixlen ∧
      a.data.take (p.prefixlen / 8) = p.data.take (p.prefixlen / 8) ∧
      (p.prefixlen % 8 = 0 ∨ a.data.getD (p.prefixlen / 8) 0 &&& mask (p.prefixlen % 8) =
        p.data.getD (p.prefixlen / 8) 0 &&& mask (p.prefixlen % 8)) := by
  unfold IpAddr.matches
  by_cases hproto : a.proto = p.proto
  · rw [if_neg (not_not.mpr hproto)]
    by_cases hlen : a.prefixlen < p.prefixlen
    · rw [if_pos hlen]
      exact ⟨fun h => (by cases h), fun h => absurd hlen (Nat.not_lt.mpr h.2.1)⟩
    · rw [if_neg hlen]
      dsimp only
      by_cases hbytes : a.data.take (p.prefixlen / 8) = p.data.take (p.prefixlen / 8)
      · rw [if_neg (not_not.mpr hbytes)]
        by_cases hbits : p.prefixlen % 8 = 0
        · rw [if_pos hbits]
          exact ⟨fun _ => ⟨hproto, Nat.le_of_not_lt hlen, hbytes, Or.inl hbits⟩, fun _ => rfl⟩
        · rw [if_neg hbits, beq_iff_eq]
          constructor
          · exact fun h => ⟨hproto, Nat.le_of_not_lt hlen, hbytes, Or.inr h⟩
          · exact fun h => h.2.2.2.resolve_left hbits
      · rw [if_pos hbytes]
        exact ⟨fun h => (by cases h), fun h => absurd h.2.2.1 hbytes⟩
  · rw [if_pos hproto]
    exact ⟨fun h => (by cases h), fun h => absurd h.1 hproto⟩

/-- The bits that the code compares are the first ones of all sixteen bytes. -/
theorem matches_iff_bits (ha : Sound a) (hp : Sound p) :
    a.matches p = true ↔ a.proto = p.proto ∧ p.prefixlen ≤ a.prefixlen ∧
      ∀ i < p.prefixlen, bit a.data i = bit p.data i := by
  have hlength : a.data.length = p.data.length := ha.length.trans hp.length.symm
  have hle : p.prefixlen ≤ 8 * a.data.length := by
    rw [ha.length]
    rcases hp.proto with h | h
    · have := (hp.ipv4 h).1
      omega
    · exact hp.ipv6 h
  rw [matches_eq_true, samePrefix_iff hlength hle]

/-- What the code should decide. -/
def InNetwork (a p : IpAddr) : Prop :=
  a.proto = p.proto ∧ p.prefixlen ≤ a.prefixlen ∧
    ∀ i < p.prefixlen, bit (proper a) i = bit (proper p) i

/-- The first bits of an IPv4 address are those of the bytes that it does not use. -/
theorem bit_front (ha : Sound a) (h : a.proto = .ipv4) {i : ℕ} (hi : i < 32) :
    bit a.data i = false := by
  have hbyte : a.data[i / 8]? = some 0 := by
    have htake : (a.data.take 12)[i / 8]? = some 0 := by
      rw [(ha.ipv4 h).2, List.getElem?_replicate_of_lt (by omega)]
    rwa [List.getElem?_take_of_lt (by omega)] at htake
  unfold bit
  rw [List.getD_eq_getElem?_getD, hbyte]
  exact BitVec.getMsbD_zero

theorem proper_of_ne (h : a.proto ≠ .ipv4) : proper a = a.data := if_neg h

/-- The answer is right except for two IPv4 addresses of which the first is long enough, but
not in the network: there the zeros in front are compared. -/
theorem matches_right_iff {s t : Str} (ha : IpAddr.create s = some a)
    (hp : IpAddr.create t = some p) :
    (a.matches p = true ↔ InNetwork a p) ↔
      ¬ (a.proto = .ipv4 ∧ p.proto = .ipv4 ∧ p.prefixlen ≤ a.prefixlen ∧
        ∃ i < p.prefixlen, bit (proper a) i ≠ bit (proper p) i) := by
  have hbits := matches_iff_bits (sound_create ha) (sound_create hp)
  rw [hbits]
  constructor
  · intro hright ⟨hav4, hpv4, hlen, i, hi, hne⟩
    have hle := ((sound_create hp).ipv4 hpv4).1
    have hmatches : a.proto = p.proto ∧ p.prefixlen ≤ a.prefixlen ∧
        ∀ i < p.prefixlen, bit a.data i = bit p.data i := by
      refine ⟨hav4.trans hpv4.symm, hlen, fun j hj => ?_⟩
      rw [bit_front (sound_create ha) hav4 (by omega),
        bit_front (sound_create hp) hpv4 (by omega)]
    exact hne ((hright.mp hmatches).2.2 i hi)
  · intro hnot
    unfold InNetwork
    by_cases hv4 : a.proto = .ipv4
    · constructor
      · intro ⟨hproto, hlen, _⟩
        refine ⟨hproto, hlen, fun i hi => ?_⟩
        by_contra hne
        exact hnot ⟨hv4, hproto ▸ hv4, hlen, i, hi, hne⟩
      · intro ⟨hproto, hlen, _⟩
        have hpv4 : p.proto = .ipv4 := hproto ▸ hv4
        have hle := ((sound_create hp).ipv4 hpv4).1
        refine ⟨hproto, hlen, fun i hi => ?_⟩
        rw [bit_front (sound_create ha) hv4 (by omega),
          bit_front (sound_create hp) hpv4 (by omega)]
    · constructor
      · intro ⟨hproto, hlen, hsame⟩
        rw [proper_of_ne hv4, proper_of_ne (hproto ▸ hv4)]
        exact ⟨hproto, hlen, hsame⟩
      · intro ⟨hproto, hlen, hsame⟩
        rw [proper_of_ne hv4, proper_of_ne (hproto ▸ hv4)] at hsame
        exact ⟨hproto, hlen, hsame⟩

end comparing

section samples

def hostV4 : IpAddr := ⟨List.replicate 12 0 ++ [10, 0, 0, 1], 32, .ipv4⟩

def networkV4 : IpAddr := ⟨List.replicate 12 0 ++ [192, 168, 0, 0], 16, .ipv4⟩

theorem create_v4 : IpAddr.create (str "10.0.0.1") = some hostV4 ∧
    IpAddr.create (str "192.168.0.0/16") = some networkV4 := by
  decide +kernel

/-- Every long enough IPv4 address is taken for a member of every IPv4 network. -/
theorem foreign_matches :
    IpAddr.create (str "10.0.0.1") = some hostV4 ∧
      IpAddr.create (str "192.168.0.0/16") = some networkV4 ∧
      hostV4.matches networkV4 = true ∧ ¬ InNetwork hostV4 networkV4 := by
  refine ⟨create_v4.1, create_v4.2, by decide +kernel, fun h => ?_⟩
  exact absurd (h.2.2 0 (by decide)) (by decide +kernel)

def hostV6 : IpAddr := ⟨[0, 100, 255, 155, 0, 0, 0, 0, 0, 0, 0, 0, 10, 0, 0, 1], 128, .ipv6⟩

def networkV6 : IpAddr := ⟨[0, 100, 255, 155, 0, 0, 0, 0, 0, 0, 0, 0, 0, 0, 0, 0], 96, .ipv6⟩

/-- An address behind the prefix for IPv4. -/
theorem mapped_matches :
    (hostV6.matches networkV6 = true ↔ InNetwork hostV6 networkV6) ∧
      hostV6.matches networkV6 = true := by
  have hhost : IpAddr.create (str "64:ff9b::a00:1") = some hostV6 := by decide +kernel
  have hnetwork : IpAddr.create (str "64:ff9b::/96") = some networkV6 := by decide +kernel
  refine ⟨(matches_right_iff hhost hnetwork).mpr ?_, by decide +kernel⟩
  intro h
  cases h.1

end samples

end Swad.AddressMatching
