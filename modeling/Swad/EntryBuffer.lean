import Swad.ForwardedLines
import Swad.Httprequest
import Swad.NodeText

/-!
The buffer of 512 bytes that the text of an entry is collected in. Nothing but the limit of a
header value bounds the text, so whether all stores stay inside the buffer depends on the
entries that are reached, walking the values from the right until an entry has no address or
there are sixteen addresses.
-/
namespace Swad.EntryBuffer

open Bytes Headerset Proxylist NodeText

/-- The entries of a value that are reached, and whether what is before the value is. -/
def visits (rfc7239 : Bool) : ℕ → Str → List Str × Bool
  | 0, _ => ([], true)
  | n + 1, buf =>
    if buf = [] then ([], true)
    else
      match hdrEntry buf rfc7239 with
      | none => ([], false)
      | some (entry, rest) =>
        if entryAddress rfc7239 entry = [] then ([entry], false)
        else (entry :: (visits rfc7239 n rest).1, (visits rfc7239 n rest).2)

/-- The entries of some values that are reached, the last value first. -/
def reached (rfc7239 : Bool) : ℕ → List Str → List Str
  | _, [] => []
  | n, val :: vals =>
    let v := visits rfc7239 n (val.drop (val.length - 8191))
    if v.2 = false ∨ v.1 = [] ∨ v.1.length = n then v.1
    else v.1 ++ reached rfc7239 (n - v.1.length) vals

section loops

variable {rfc7239 : Bool} {entry rest buf : Str} {n : ℕ}

theorem visits_none (hne : buf ≠ []) (h : hdrEntry buf rfc7239 = none) (n : ℕ) :
    visits rfc7239 (n + 1) buf = ([], false) := by
  rw [visits, if_neg hne, h]

theorem visits_some (hne : buf ≠ []) (h : hdrEntry buf rfc7239 = some (entry, rest)) (n : ℕ) :
    visits rfc7239 (n + 1) buf =
      if entryAddress rfc7239 entry = [] then ([entry], false)
      else (entry :: (visits rfc7239 n rest).1, (visits rfc7239 n rest).2) := by
  rw [visits, if_neg hne, h]

theorem visits_length (n : ℕ) (buf : Str) (h : (visits rfc7239 n buf).2 = true) :
    (visits rfc7239 n buf).1.length ≤ n := by
  induction n generalizing buf with
  | zero => exact Nat.le_refl 0
  | succ n ih =>
    by_cases hempty : buf = []
    · rw [visits, if_pos hempty]
      exact Nat.zero_le _
    cases hentry : hdrEntry buf rfc7239 with
    | none =>
      rw [visits_none hempty hentry] at h
      cases h
    | some next =>
      rw [visits_some hempty hentry] at h ⊢
      by_cases haddress : entryAddress rfc7239 next.1 = []
      · rw [if_pos haddress] at h
        cases h
      · rw [if_neg haddress] at h ⊢
        exact Nat.succ_le_succ (ih next.2 h)

/-- If all entries that are reached fit, the loop over a value reads their addresses. -/
theorem parseLoop_fits (n : ℕ) (buf : Str)
    (h : ∀ entry ∈ (visits rfc7239 n buf).1, EntryFits rfc7239 entry) :
    ∃ addrs, parseLoop rfc7239 n buf = some ⟨addrs, (visits rfc7239 n buf).2⟩ ∧
      ((visits rfc7239 n buf).2 = true → addrs.length = (visits rfc7239 n buf).1.length) := by
  induction n generalizing buf with
  | zero => exact ⟨[], rfl, fun _ => rfl⟩
  | succ n ih =>
    by_cases hempty : buf = []
    · rw [visits, parseLoop, if_pos hempty, if_pos hempty]
      exact ⟨[], rfl, fun _ => rfl⟩
    rw [parseLoop, if_neg hempty]
    cases hentry : hdrEntry buf rfc7239 with
    | none =>
      rw [visits_none hempty hentry]
      exact ⟨[], rfl, fun h => by cases h⟩
    | some next =>
      rw [visits_some hempty hentry] at h ⊢
      dsimp only
      by_cases haddress : entryAddress rfc7239 next.1 = []
      · rw [if_pos haddress] at h ⊢
        rw [parseEntry_fits (h next.1 (List.mem_singleton_self _)), if_pos haddress]
        exact ⟨[], rfl, fun h => by cases h⟩
      · rw [if_neg haddress] at h ⊢
        obtain ⟨hfits, hmore⟩ := List.forall_mem_cons.mp h
        obtain ⟨addrs, hloop, hlength⟩ := ih next.2 hmore
        rw [parseEntry_fits hfits, if_neg haddress]
        dsimp only
        rw [hloop]
        exact ⟨_, rfl, fun h => congrArg (· + 1) (hlength h)⟩

theorem parseLoop_overflows (n : ℕ) (buf : Str)
    (h : ¬ ∀ entry ∈ (visits rfc7239 n buf).1, EntryFits rfc7239 entry) :
    parseLoop rfc7239 n buf = none := by
  induction n generalizing buf with
  | zero => exact absurd (List.forall_mem_nil _) h
  | succ n ih =>
    by_cases hempty : buf = []
    · rw [visits, if_pos hempty] at h
      exact absurd (List.forall_mem_nil _) h
    rw [parseLoop, if_neg hempty]
    cases hentry : hdrEntry buf rfc7239 with
    | none =>
      rw [visits_none hempty hentry] at h
      exact absurd (List.forall_mem_nil _) h
    | some next =>
      rw [visits_some hempty hentry] at h
      dsimp only
      by_cases hfits : EntryFits rfc7239 next.1
      · by_cases haddress : entryAddress rfc7239 next.1 = []
        · rw [if_pos haddress] at h
          exact absurd (List.forall_mem_singleton.mpr hfits) h
        · rw [if_neg haddress, List.forall_mem_cons] at h
          have hmore := ih next.2 fun hall => h ⟨hfits, hall⟩
          rw [parseEntry_fits hfits, if_neg haddress]
          dsimp only
          rw [hmore]
          rfl
      · rw [parseEntry_overflows hfits]

theorem proxyLoop_reached (addrs vals : List Str) (h : addrs.length < 16) :
    (proxyLoop rfc7239 addrs vals).isSome = true ↔
      ∀ entry ∈ reached rfc7239 (16 - addrs.length) vals, EntryFits rfc7239 entry := by
  induction vals generalizing addrs with
  | nil => exact ⟨fun _ => List.forall_mem_nil _, fun _ => rfl⟩
  | cons val vals ih =>
    have hfits := @parseLoop_fits rfc7239 (16 - addrs.length) (val.drop (val.length - 8191))
    have hover := @parseLoop_overflows rfc7239 (16 - addrs.length) (val.drop (val.length - 8191))
    have hlength := @visits_length rfc7239 (16 - addrs.length) (val.drop (val.length - 8191))
    unfold proxyLoop reached parseHdrVal
    dsimp only
    generalize visits rfc7239 (16 - addrs.length) (val.drop (val.length - 8191)) = v
      at hfits hover hlength ⊢
    by_cases hall : ∀ entry ∈ v.1, EntryFits rfc7239 entry
    · obtain ⟨parsed, hloop, hparsed⟩ := hfits hall
      rw [hloop]
      dsimp only
      by_cases hbroken : v.2 = false
      · rw [hbroken, if_pos (Or.inl rfl)]
        exact ⟨fun _ => hall, fun _ => rfl⟩
      have hwhole := Bool.eq_true_of_not_eq_false hbroken
      have hcount := hparsed hwhole
      have hle := hlength hwhole
      have hnil : parsed = [] ↔ v.1 = [] := by
        rw [← List.length_eq_zero_iff, hcount, List.length_eq_zero_iff]
      have hfull : (addrs ++ parsed).length = 16 ↔ v.1.length = 16 - addrs.length := by
        rw [List.length_append, hcount]
        omega
      rw [hwhole]
      simp only [Bool.not_true, Bool.false_or, Bool.or_eq_true, decide_eq_true_eq, hnil, hfull,
        Bool.true_eq_false, false_or]
      by_cases hstop : v.1 = [] ∨ v.1.length = 16 - addrs.length
      · rw [if_pos hstop, if_pos hstop]
        exact ⟨fun _ => hall, fun _ => rfl⟩
      · have hroom : (addrs ++ parsed).length < 16 := by
          rw [List.length_append, hcount]
          omega
        have hleft : 16 - (addrs ++ parsed).length = 16 - addrs.length - v.1.length := by
          rw [List.length_append, hcount]
          omega
        rw [if_neg hstop, if_neg hstop, ih _ hroom, hleft]
        constructor
        · exact fun hrest => List.forall_mem_append.mpr ⟨hall, hrest⟩
        · exact fun hboth => (List.forall_mem_append.mp hboth).2
    · rw [hover hall]
      refine ⟨fun hsome => absurd hsome Bool.false_ne_true, fun hreached => absurd ?_ hall⟩
      intro entry hentry
      split at hreached
      · exact hreached entry hentry
      · exact hreached entry (List.mem_append_left _ hentry)

end loops

/-- Reading a forwarding header stores inside the buffer exactly if all entries that are
reached fit it. -/
theorem stores_inside_iff (hdrs : HeaderSet) (rfc7239 : Bool) :
    (ForwardedLines.proxyAddr (hdrs.iterator (headernm rfc7239)) rfc7239).isSome = true ↔
      ∀ entry ∈ reached rfc7239 16
          (((hdrs.any (headernm rfc7239)).map Header.value).reverse.take 16),
        EntryFits rfc7239 entry := by
  have hiff := @proxyLoop_reached rfc7239 []
    (((hdrs.any (headernm rfc7239)).map Header.value).reverse.take 16) (by decide)
  rw [ForwardedLines.proxyAddr_eq, proxyAddr, Option.isSome_map]
  exact hiff

section samples

/-- A request with an address of the given length in X-Forwarded-For. -/
def requestLines (n : ℕ) : List (List Byte) :=
  [str "GET / HTTP/1.1\r\n", str "X-Forwarded-For: " ++ List.replicate n (chr 'a') ++ crlf, crlf]

open Httprequest in
def requestHeaders (n : ℕ) : Option HeaderSet :=
  match feed HttpRequest.create (requestLines n) with
  | some (.received req) => some req.headers
  | _ => none

/-- An address of 513 bytes, which the parser of the request accepts, is stored behind the end. -/
theorem long_address_outside :
    (requestHeaders 513).any (fun hdrs =>
      (ForwardedLines.proxyAddr (hdrs.iterator (headernm false)) false).isNone) = true := by
  decide +kernel

end samples

end Swad.EntryBuffer
