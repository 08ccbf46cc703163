import Swad.Middleware

/-!
Cookies on their way to the client and back. The header for a cookie is cut off after 1023
bytes, and left out from 4096 bytes on. What the client sends back is the text before the
first semicolon; the loop over the pairs finds it wherever it stands, with its value, unless
it was cut off itself.
-/
namespace Swad.CookieRoundTrip

open Bytes Util Headerset Httpresponse Tables TextCodecs Middleware

def IsName (name : Str) : Prop := name ≠ [] ∧ ∀ c ∈ name, c ≠ chr '=' ∧ c ≠ chr ';' ∧ c ≠ chr ' '

/-- A pair as a client sends it. -/
structure Pair where
  name : Str
  value : Str
  isName : IsName name
  noSemicolon : chr ';' ∉ value

def pairText (name value : Str) : Str := name ++ chr '=' :: value

def Pair.text (self : Pair) : Str := pairText self.name self.value

/-- What the client keeps of a header: the text before the attributes. -/
def pairOf (header : Header) : Str := header.value.takeWhile (· != chr ';')

/-- The header that the response gets for a cookie, if it gets one. -/
def cookieHeader (name value : Str) : Option Header :=
  if (name ++ str "=" ++ value ++ str "; Path=/; HttpOnly").length < 4096 then
    some (setCookieHeader name value)
  else none

/-- The headers for all cookies, with the names of the cookies. -/
def sent (self : Cookies) : List (Str × Header) :=
  self.out.entries.filterMap fun cookie =>
    (cookieHeader cookie.1 cookie.2).map fun header => (cookie.1, header)

/-- A pair that is sent back among others gives a value. -/
def ReadsBack (text name value : Str) : Prop :=
  ∀ (before after : List Pair), (∀ p ∈ before ++ after, p.name ≠ name) →
    ∀ (headers : HeaderSet) (cookie : Header), headers.first (str "Cookie") = some cookie →
      cookie.value = joinstr (str "; ")
        (before.map Pair.text ++ [text] ++ after.map Pair.text) →
      (Cookies.create headers).getCookie name = some value

/-! ### The way to the client -/

section response

variable {name value : Str}

theorem addTo_sent (self : Cookies) (headers : HeaderSet) :
    self.addTo headers = ((sent self).map Prod.snd).foldl HeaderSet.add headers := by
  unfold Cookies.addTo sent
  generalize self.out.entries = cookies
  induction cookies generalizing headers with
  | nil => rfl
  | cons cookie cookies ih =>
    rw [List.foldl_cons, ih, List.filterMap_cons]
    unfold cookieHeader
    split
    · rfl
    · rfl

/-- The response has the headers for all cookies. -/
theorem any_addTo (self : Cookies) (headers : HeaderSet) :
    (self.addTo headers).any (str "Set-Cookie") =
      headers.any (str "Set-Cookie") ++ (sent self).map Prod.snd := by
  have hname : ∀ h ∈ (sent self).map Prod.snd, h.key = lowerstr (str "Set-Cookie") := by
    intro h hh
    obtain ⟨x, hx, rfl⟩ := List.mem_map.mp hh
    obtain ⟨cookie, _, hcookie⟩ := List.mem_filterMap.mp hx
    obtain ⟨header, hheader, rfl⟩ := Option.map_eq_some_iff.mp hcookie
    unfold cookieHeader at hheader
    split at hheader
    · rw [← Option.some.inj hheader]
      rfl
    · cases hheader
  rw [addTo_sent]
  generalize (sent self).map Prod.snd = added at hname
  induction added generalizing headers with
  | nil => rw [List.foldl_nil, List.append_nil]
  | cons h added ih =>
    rw [List.foldl_cons, ih _ fun h' hh' => hname h' (List.mem_cons_of_mem h hh'),
      HeaderSet.any_add, if_pos (hname h List.mem_cons_self), List.append_assoc,
      List.singleton_append]

/-- A cookie that is set again only has its last value. -/
theorem sent_setCookie (self : Cookies) (name value : Str) (header : Header) :
    (name, header) ∈ sent (self.setCookie name value) ↔ cookieHeader name value = some header := by
  have hentry : ∀ v, ⟨name, v⟩ ∈ (self.setCookie name value).out.entries ↔ v = value := by
    intro v
    rw [← AList.mem_lookup_iff]
    unfold Cookies.setCookie
    rw [AList.lookup_insert, Option.mem_def]
    exact ⟨fun h => (Option.some.inj h).symm, fun h => h ▸ rfl⟩
  unfold sent
  rw [List.mem_filterMap]
  constructor
  · rintro ⟨⟨n, v⟩, hmem, hcookie⟩
    obtain ⟨h, hheader, heq⟩ := Option.map_eq_some_iff.mp hcookie
    obtain ⟨rfl, rfl⟩ := Prod.mk.inj heq
    rw [(hentry v).mp hmem] at hheader
    exact hheader
  · intro hheader
    refine ⟨⟨name, value⟩, (hentry value).mpr rfl, ?_⟩
    dsimp only
    rw [hheader]
    rfl

theorem pairText_noSemicolon (hname : IsName name) (hvalue : chr ';' ∉ value) :
    chr ';' ∉ pairText name value := by
  unfold pairText
  rw [List.mem_append, List.mem_cons, not_or, not_or]
  exact ⟨fun h => (hname.2 _ h).2.1 rfl, by decide, hvalue⟩

theorem cookieValue_eq (name value : Str) :
    cookieValue name value = (pairText name value ++ str "; Path=/; HttpOnly").take 1023 := by
  unfold cookieValue pairText
  congr 1
  simp [str]

/-- What the client keeps if the pair itself fits. -/
theorem pairOf_short (hname : IsName name) (hvalue : chr ';' ∉ value)
    (hlength : (pairText name value).length < 1024) :
    pairOf (setCookieHeader name value) = pairText name value := by
  have hplain := bne_of_notMem (pairText_noSemicolon hname hvalue)
  show (cookieValue name value).takeWhile (· != chr ';') = _
  rw [cookieValue_eq, List.take_append, List.take_of_length_le (by omega),
    List.takeWhile_append_of_pos hplain]
  cases 1023 - (pairText name value).length with
  | zero => exact List.append_nil _
  | succ n => exact List.append_nil _

/-- What it keeps otherwise is cut off. -/
theorem pairOf_long (hname : IsName name) (hvalue : chr ';' ∉ value)
    (hlength : ¬ (pairText name value).length < 1024) :
    pairOf (setCookieHeader name value) = (pairText name value).take 1023 := by
  have hnot := pairText_noSemicolon hname hvalue
  show (cookieValue name value).takeWhile (· != chr ';') = _
  rw [cookieValue_eq, List.take_append_of_le_length (by omega)]
  exact takeWhile_of_notMem fun h => hnot (List.mem_of_mem_take h)

end response

/-! ### The way back -/

section request

variable {name value : Str}

/-- What the loop does with one pair. -/
def store (cookies : Table Str Str) (text : Str) : Table Str Str :=
  let name := text.takeWhile (· != chr '=')
  if name ≠ [] ∧ name.length < 2048 ∧ name.length < text.length then
    cookies.insert name (text.drop (name.length + 1))
  else cookies

/-- A text that the loop takes as a pair. -/
structure Separate (text : Str) : Prop where
  nonempty : text ≠ []
  noSemicolon : chr ';' ∉ text
  noBlank : text.head? ≠ some (chr ' ')

theorem cookieLoop_cons {text : Str} (h : Separate text) {rest : Str} {rounds : ℕ}
    (hrest : rest = [] ∨ ∃ more, rest = chr ';' :: more) (cookies : Table Str Str) :
    cookieLoop (rounds + 1) (text ++ rest) cookies =
      cookieLoop rounds ((rest.drop 1).dropWhile (· == chr ' ')) (store cookies text) := by
  obtain ⟨hne, hnot, _⟩ := h
  have hpair : (text ++ rest).takeWhile (· != chr ';') = text := takeWhile_sep hnot hrest
  have hdrop : (text ++ rest).drop text.length = rest := List.drop_left
  cases text with
  | nil => exact absurd rfl hne
  | cons c text =>
    rw [List.cons_append] at hpair hdrop ⊢
    rw [cookieLoop]
    dsimp only
    rw [hpair, if_neg hne, hdrop]
    rfl

theorem Separate.dropWhile_append {text : Str} (h : Separate text) (rest : Str) :
    (text ++ rest).dropWhile (· == chr ' ') = text ++ rest := by
  obtain ⟨hne, _, hblank⟩ := h
  cases text with
  | nil => exact absurd rfl hne
  | cons c text =>
    have hc : (c == chr ' ') = false := by
      rw [beq_eq_false_iff_ne]
      rintro rfl
      exact hblank rfl
    rw [List.cons_append, List.dropWhile_cons, hc]
    rfl

theorem joinstr_cons (text : Str) (texts : List Str) :
    ∃ rest, joinstr (str "; ") (text :: texts) = text ++ rest := by
  unfold joinstr
  cases texts with
  | nil => exact ⟨[], by rw [List.intercalate_singleton, List.append_nil]⟩
  | cons => exact ⟨_, by rw [List.intercalate_cons_cons, List.append_assoc]⟩

theorem dropWhile_join {texts : List Str} (h : ∀ text ∈ texts, Separate text) :
    (joinstr (str "; ") texts).dropWhile (· == chr ' ') = joinstr (str "; ") texts := by
  cases texts with
  | nil => rfl
  | cons text texts =>
    obtain ⟨rest, hrest⟩ := joinstr_cons text texts
    rw [hrest]
    exact (h text List.mem_cons_self).dropWhile_append rest

/-- The loop takes the texts one after the other. -/
theorem cookieLoop_join (texts : List Str) (h : ∀ text ∈ texts, Separate text) {rounds : ℕ}
    (hrounds : (joinstr (str "; ") texts).length ≤ rounds) (cookies : Table Str Str) :
    cookieLoop rounds (joinstr (str "; ") texts) cookies = texts.foldl store cookies := by
  induction texts generalizing rounds cookies with
  | nil => cases rounds <;> rfl
  | cons text texts ih =>
    have htext := h text List.mem_cons_self
    have hpos : 0 < text.length := List.length_pos_iff.mpr htext.nonempty
    cases texts with
    | nil =>
      have hjoin : joinstr (str "; ") [text] = text ++ [] := by
        rw [List.append_nil]
        exact List.intercalate_singleton
      rw [hjoin] at hrounds ⊢
      rw [List.length_append] at hrounds
      obtain ⟨k, rfl⟩ : ∃ k, rounds = k + 1 := ⟨rounds - 1, by omega⟩
      rw [cookieLoop_cons htext (Or.inl rfl)]
      cases k <;> rfl
    | cons next texts =>
      have hjoin : joinstr (str "; ") (text :: next :: texts) =
          text ++ chr ';' :: chr ' ' :: joinstr (str "; ") (next :: texts) := by
        unfold joinstr
        rw [List.intercalate_cons_cons, List.append_assoc]
        rfl
      have hmore : ∀ t ∈ next :: texts, Separate t := fun t ht => h t (List.mem_cons_of_mem text ht)
      have hblank : (chr ' ' :: joinstr (str "; ") (next :: texts)).dropWhile (· == chr ' ') =
          joinstr (str "; ") (next :: texts) := by
        rw [List.dropWhile_cons, if_pos (by decide)]
        exact dropWhile_join hmore
      rw [hjoin] at hrounds ⊢
      rw [List.length_append, List.length_cons, List.length_cons] at hrounds
      obtain ⟨k, rfl⟩ : ∃ k, rounds = k + 1 := ⟨rounds - 1, by omega⟩
      rw [cookieLoop_cons htext (Or.inr ⟨_, rfl⟩), List.drop_succ_cons, List.drop_zero, hblank,
        ih hmore (by omega)]
      rfl

theorem separate_of_pair (hname : IsName name) (hvalue : chr ';' ∉ value) {n : ℕ} (hn : 0 < n) :
    Separate ((pairText name value).take n) := by
  obtain ⟨c, rest, rfl⟩ := List.exists_cons_of_ne_nil hname.1
  obtain ⟨n, rfl⟩ : ∃ k, n = k + 1 := ⟨n - 1, by omega⟩
  refine ⟨List.cons_ne_nil _ _, fun h => ?_, fun h => ?_⟩
  · exact pairText_noSemicolon hname hvalue (List.mem_of_mem_take h)
  · exact (hname.2 c List.mem_cons_self).2.2 (Option.some.inj h)

theorem Pair.separate (self : Pair) : Separate self.text := by
  have hpos : 0 < self.text.length := by
    unfold Pair.text pairText
    rw [List.length_append, List.length_cons]
    omega
  have hall := separate_of_pair self.isName self.noSemicolon hpos
  rw [← Pair.text, List.take_length] at hall
  exact hall

/-- A pair is stored, unless its name is too long. -/
theorem store_pair (hname : IsName name) (cookies : Table Str Str) :
    store cookies (pairText name value) =
      if name.length < 2048 then cookies.insert name value else cookies := by
  have hlength : name.length < (pairText name value).length := by
    unfold pairText
    rw [List.length_append, List.length_cons]
    omega
  have hvalue : (pairText name value).drop (name.length + 1) = value := by
    unfold pairText
    rw [List.drop_append]
    simp
  unfold store
  have hfirst : (pairText name value).takeWhile (· != chr '=') = name :=
    takeWhile_until (fun h => (hname.2 _ h).1 rfl) value
  rw [hfirst]
  dsimp only
  rw [hvalue]
  by_cases hfits : name.length < 2048
  · rw [if_pos hfits, if_pos ⟨hname.1, hfits, hlength⟩]
  · rw [if_neg hfits, if_neg fun h => hfits h.2.1]

/-- Pairs with other names leave a cookie alone. -/
theorem lookup_others (pairs : List Pair) (h : ∀ p ∈ pairs, p.name ≠ name)
    (cookies : Table Str Str) :
    ((pairs.map Pair.text).foldl store cookies).lookup name = cookies.lookup name := by
  induction pairs generalizing cookies with
  | nil => rfl
  | cons p pairs ih =>
    rw [List.map_cons, List.foldl_cons, ih (fun q hq => h q (List.mem_cons_of_mem p hq)),
      Pair.text, store_pair p.isName]
    split
    · exact AList.lookup_insert_ne (Ne.symm (h p List.mem_cons_self))
    · rfl

/-- What is found after a text among other pairs. -/
theorem getCookie_join {text : Str} (htext : Separate text) {before after : List Pair}
    (h : ∀ p ∈ before ++ after, p.name ≠ name) {headers : HeaderSet} {cookie : Header}
    (hfirst : headers.first (str "Cookie") = some cookie)
    (hcookie : cookie.value = joinstr (str "; ")
      (before.map Pair.text ++ [text] ++ after.map Pair.text)) :
    ∃ cookies : Table Str Str, cookies.lookup name = none ∧
      (Cookies.create headers).getCookie name = (store cookies text).lookup name := by
  have hall : ∀ t ∈ before.map Pair.text ++ [text] ++ after.map Pair.text, Separate t := by
    intro t ht
    rw [List.mem_append, List.mem_append, List.mem_singleton] at ht
    rcases ht with (ht | rfl) | ht
    · obtain ⟨p, _, rfl⟩ := List.mem_map.mp ht
      exact p.separate
    · exact htext
    · obtain ⟨p, _, rfl⟩ := List.mem_map.mp ht
      exact p.separate
  refine ⟨(before.map Pair.text).foldl store ∅, ?_, ?_⟩
  · rw [lookup_others before fun p hp => h p (List.mem_append_left after hp)]
    rfl
  · unfold Cookies.getCookie Cookies.create
    rw [hfirst]
    dsimp only
    rw [hcookie, dropWhile_join hall, cookieLoop_join _ hall (Nat.le_refl _), List.foldl_append,
      List.foldl_append, lookup_others after fun p hp => h p (List.mem_append_right before hp)]
    rfl

end request

/-- A pair that was cut off does not give its value. -/
theorem not_readsBack_cut {name value : Str} (hname : IsName name) (hvalue : chr ';' ∉ value)
    (hlong : 1024 ≤ (pairText name value).length) :
    ¬ ReadsBack ((pairText name value).take 1023) name value := by
  intro h
  have hsep : Separate ((pairText name value).take 1023) :=
    separate_of_pair hname hvalue (by decide)
  have hlength : ((pairText name value).take 1023).length ≤ 10000 := by
    rw [List.length_take]
    omega
  obtain ⟨cookie, hvalid⟩ : ∃ cookie : Header, cookie.name = str "Cookie" ∧
      cookie.value = (pairText name value).take 1023 :=
    ⟨⟨str "Cookie", _, validate_of_short (by decide) hlength⟩, rfl, rfl⟩
  have hfirst : (HeaderSet.create.add cookie).first (str "Cookie") = some cookie := by
    have hkey : cookie.key = lowerstr (str "Cookie") := congrArg lowerstr hvalid.1
    rw [HeaderSet.first_add, HeaderSet.first_create, if_pos hkey]
    rfl
  have hcookie : cookie.value = joinstr (str "; ") ([] ++ [(pairText name value).take 1023] ++ []) :=
    hvalid.2.trans List.intercalate_singleton.symm
  have hothers : ∀ p ∈ ([] : List Pair) ++ [], p.name ≠ name := fun p hp => nomatch hp
  obtain ⟨cookies, hnone, hget⟩ := getCookie_join hsep hothers hfirst hcookie
  have hsome := h [] [] hothers _ _ hfirst hcookie
  rw [hget] at hsome
  unfold pairText at hlong hsome
  rw [List.length_append, List.length_cons] at hlong
  by_cases hshort : name.length < 1023
  · have hcut : (name ++ chr '=' :: value).take 1023 =
        pairText name (value.take (1022 - name.length)) := by
      have hsub : 1023 - name.length = (1022 - name.length) + 1 := by omega
      rw [List.take_append, List.take_of_length_le (by omega), hsub, List.take_succ_cons]
      rfl
    rw [hcut, store_pair hname, if_pos (by omega), AList.lookup_insert] at hsome
    have heq := congrArg List.length (Option.some.inj hsome)
    rw [List.length_take] at heq
    omega
  · have hcut : (name ++ chr '=' :: value).take 1023 = name.take 1023 :=
      List.take_append_of_le_length (by omega)
    have hall : (name.take 1023).takeWhile (· != chr '=') = name.take 1023 := by
      rw [List.takeWhile_eq_self_iff]
      intro c hc
      exact bne_iff_ne.mpr (hname.2 c (List.mem_of_mem_take hc)).1
    rw [hcut] at hsome
    unfold store at hsome
    rw [hall] at hsome
    dsimp only at hsome
    rw [if_neg fun hcond => Nat.lt_irrefl _ hcond.2.2, hnone] at hsome
    cases hsome

/-- Whatever the response carries for a cookie is read back with its value, exactly if the
pair fits the buffer, or the header is left out. -/
theorem roundTrip_iff (self : Cookies) (response : HeaderSet) {name value : Str}
    (hname : IsName name) (hvalue : chr ';' ∉ value) :
    ((self.setCookie name value).addTo response).any (str "Set-Cookie") =
        response.any (str "Set-Cookie") ++ (sent (self.setCookie name value)).map Prod.snd ∧
      ((∀ header, (name, header) ∈ sent (self.setCookie name value) →
          ReadsBack (pairOf header) name value) ↔
        name.length + 1 + value.length < 1024 ∨
          4096 ≤ name.length + 1 + value.length + (str "; Path=/; HttpOnly").length) := by
  have hlength : (pairText name value).length = name.length + 1 + value.length := by
    unfold pairText
    rw [List.length_append, List.length_cons]
    omega
  have hheader : cookieHeader name value =
      if name.length + 1 + value.length + (str "; Path=/; HttpOnly").length < 4096 then
        some (setCookieHeader name value)
      else none := by
    unfold cookieHeader
    simp only [List.length_append]
    rfl
  refine ⟨any_addTo _ _, ?_, ?_⟩
  · intro h
    by_contra hnot
    rw [not_or, not_lt, not_le] at hnot
    have hsent := (sent_setCookie self name value (setCookieHeader name value)).mpr
      (hheader.trans (if_pos hnot.2))
    have hback := h _ hsent
    rw [pairOf_long hname hvalue (by omega)] at hback
    exact not_readsBack_cut hname hvalue (by omega) hback
  · intro h header hsent
    have hsome := (sent_setCookie self name value header).mp hsent
    rw [hheader] at hsome
    split at hsome
    · next hfits =>
      have hshort := h.resolve_right (Nat.not_le.mpr hfits)
      rw [← Option.some.inj hsome, pairOf_short hname hvalue (by omega)]
      intro before after hothers headers cookie hfirst hcookie
      have hpos : 0 < (pairText name value).length := by omega
      have hsep := separate_of_pair hname hvalue hpos
      rw [List.take_length] at hsep
      obtain ⟨cookies, _, hget⟩ := getCookie_join hsep hothers hfirst hcookie
      rw [hget, store_pair hname, if_pos (by omega), AList.lookup_insert]
    · cases hsome

section samples

def sampleCookies : Cookies := ⟨∅, ∅⟩

/-- A value of 1100 bytes. -/
def longValue : Str := List.replicate 1100 (chr 'x')

/-- The response has a header for the cookie, and what is sent back is not its value. -/
theorem long_value_cut :
    (str "sid", setCookieHeader (str "sid") longValue) ∈
        sent (sampleCookies.setCookie (str "sid") longValue) ∧
      ¬ ReadsBack (pairOf (setCookieHeader (str "sid") longValue)) (str "sid") longValue := by
  have hname : IsName (str "sid") := ⟨by decide, by decide +kernel⟩
  have hvalue : chr ';' ∉ longValue := fun h => absurd (List.eq_of_mem_replicate h) (by decide)
  have hlength : (pairText (str "sid") longValue).length = 1104 := by decide +kernel
  constructor
  · rw [sent_setCookie]
    decide +kernel
  · rw [pairOf_long hname hvalue (by omega)]
    exact not_readsBack_cut hname hvalue (by omega)

theorem roundTrip_iff_sample :
    ((sampleCookies.setCookie (str "sid") (str "a=b")).addTo HeaderSet.create).any
          (str "Set-Cookie") =
        HeaderSet.create.any (str "Set-Cookie") ++
          (sent (sampleCookies.setCookie (str "sid") (str "a=b"))).map Prod.snd ∧
      ((∀ header, (str "sid", header) ∈ sent (sampleCookies.setCookie (str "sid") (str "a=b")) →
          ReadsBack (pairOf header) (str "sid") (str "a=b")) ↔
        (str "sid").length + 1 + (str "a=b").length < 1024 ∨ 4096 ≤
          (str "sid").length + 1 + (str "a=b").length + (str "; Path=/; HttpOnly").length) :=
  roundTrip_iff sampleCookies HeaderSet.create ⟨by decide, by decide +kernel⟩ (by decide)

end samples

end Swad.CookieRoundTrip
