import Swad.ContentCodings
import Swad.Middleware
import Swad.RedirectPages

/-!
The compression of a body. The words of the accepted codings are found by a loop over blanks
and commas, which knows nothing of weights, so a word before a blank counts even if a weight
of zero follows. The coder gets the size of the body in 32 bits, both as the length of its
input and as the space for its output, and what it writes is taken if it is shorter.
-/
namespace Swad.CompressedBodies

open Bytes Util Headerset Httpresponse RedirectPages Middleware ContentCodings

/-! ### The code -/

def isSep (c : Byte) : Bool := c == chr ' ' || c == chr ','

/-- The loop over the words: whether deflate and gzip are among them. -/
def haveCodings : ℕ → Str → Bool → Bool → Bool × Bool
  | 0, _, haveDeflate, haveGzip => (haveDeflate, haveGzip)
  | fuel + 1, acceptVal, haveDeflate, haveGzip =>
    let word := acceptVal.takeWhile fun c => !isSep c
    let haveDeflate := haveDeflate || word == str "deflate"
    let haveGzip := haveGzip || word == str "gzip"
    let acceptVal := (acceptVal.dropWhile fun c => !isSep c).dropWhile isSep
    if acceptVal = [] then (haveDeflate, haveGzip)
    else haveCodings fuel acceptVal haveDeflate haveGzip

/-- A size as the coder gets it. -/
def uInt (size : ℕ) : ℕ := size % 2 ^ 32

/-- The body is read and written up to the size that the coder got. -/
def comp (codec : Codec) (body : Str) : Str :=
  codec.deflate (body.take (uInt body.length)) (uInt body.length)

theorem gzip_short : (str "gzip").length ≤ 10000 := by decide

theorem deflate_short : (str "deflate").length ≤ 10000 := by decide

def mwCompress (gzip deflate : Codec) (headers : HeaderSet) (response : HttpResponse) :
    HttpResponse :=
  if response.bodySize = 0 then response
  else
    match headers.first (str "Accept-Encoding") with
    | none => response
    | some accept =>
      let have' := haveCodings (accept.value.length + 1) accept.value false false
      if have'.2 then
        compressWith response (comp gzip response.body)
          (contentEncoding (str "gzip") gzip_short)
      else if have'.1 then
        compressWith response (comp deflate response.body)
          (contentEncoding (str "deflate") deflate_short)
      else response

/-! ### The words of a value -/

variable {value coding : Str}

theorem accepts_dropWhile (hne : coding ≠ []) (v : Str) :
    accepts (v.dropWhile isSep) coding = accepts v coding := by
  induction v with
  | nil => rfl
  | cons c v ih =>
    cases hc : isSep c with
    | false => rw [List.dropWhile_cons_of_neg (by rw [hc]; decide)]
    | true =>
      rw [List.dropWhile_cons_of_pos hc, ih]
      have hsplit : (c :: v).splitOnP isSep = [] :: v.splitOnP isSep :=
        List.splitOnP_append_cons_of_forall_mem (fun _ h => absurd h List.not_mem_nil) c hc v
      show (v.splitOnP isSep).contains coding = ((c :: v).splitOnP isSep).contains coding
      rw [hsplit, List.contains_cons, beq_eq_false_iff_ne.mpr hne, Bool.false_or]

/-- The first word, or a later one. -/
theorem accepts_word (hne : coding ≠ []) (v : Str) :
    accepts v coding = (coding == (v.takeWhile fun c => !isSep c) ||
      accepts ((v.dropWhile fun c => !isSep c).dropWhile isSep) coding) := by
  have hword : ∀ c ∈ v.takeWhile fun c => !isSep c, isSep c = false := by
    intro c hc
    simpa using List.mem_takeWhile_imp hc
  rw [accepts_dropWhile hne]
  show (v.splitOnP isSep).contains coding = _
  conv_lhs => rw [← List.takeWhile_append_dropWhile (p := fun c => !isSep c) (l := v)]
  cases hrest : v.dropWhile fun c => !isSep c with
  | nil =>
    have hnil : accepts [] coding = false := by
      show [([] : Str)].contains coding = false
      rw [List.contains_cons, beq_eq_false_iff_ne.mpr hne]
      rfl
    rw [List.append_nil, List.splitOnP_eq_singleton hword, List.contains_cons, hnil]
    rfl
  | cons c rest =>
    have hc : isSep c = true := by simpa using (split_of_dropWhile hrest).2
    have hskip := accepts_dropWhile hne (c :: rest)
    rw [List.splitOnP_append_cons_of_forall_mem hword c hc, List.contains_cons, ← hskip,
      List.dropWhile_cons_of_pos hc, accepts_dropWhile hne]
    rfl

theorem length_next {v : Str} (hne : (v.dropWhile fun c => !isSep c).dropWhile isSep ≠ []) :
    ((v.dropWhile fun c => !isSep c).dropWhile isSep).length < v.length := by
  cases hrest : v.dropWhile fun c => !isSep c with
  | nil =>
    rw [hrest] at hne
    exact absurd rfl hne
  | cons c rest =>
    have hc : isSep c = true := by simpa using (split_of_dropWhile hrest).2
    have hle := (List.dropWhile_suffix (l := rest) isSep).length_le
    have hsuffix := (List.dropWhile_suffix (l := v) fun c => !isSep c).length_le
    rw [hrest, List.length_cons] at hsuffix
    rw [List.dropWhile_cons_of_pos hc]
    omega

theorem accepts_nil (hne : coding ≠ []) : accepts [] coding = false := by
  show [([] : Str)].contains coding = false
  rw [List.contains_cons, beq_eq_false_iff_ne.mpr hne]
  rfl

/-- The loop finds what is a word. -/
theorem haveCodings_eq {fuel : ℕ} {v : Str} (hfuel : v.length < fuel)
    (haveDeflate haveGzip : Bool) : haveCodings fuel v haveDeflate haveGzip =
      (haveDeflate || accepts v (str "deflate"), haveGzip || accepts v (str "gzip")) := by
  induction fuel generalizing v haveDeflate haveGzip with
  | zero => exact absurd hfuel (Nat.not_lt_zero _)
  | succ fuel ih =>
    have hdeflate := accepts_word (show str "deflate" ≠ [] by decide) v
    have hgzip := accepts_word (show str "gzip" ≠ [] by decide) v
    rw [Bool.beq_comm] at hdeflate hgzip
    rw [haveCodings, hdeflate, hgzip]
    by_cases hend : (v.dropWhile fun c => !isSep c).dropWhile isSep = []
    · rw [if_pos hend, hend, accepts_nil (by decide), accepts_nil (by decide), Bool.or_false,
        Bool.or_false]
    · have hless := length_next hend
      rw [if_neg hend, ih (by omega), Bool.or_assoc, Bool.or_assoc]

/-- The coders as they are called. -/
def zlibOf (gzip deflate : Codec) : Zlib := ⟨comp gzip, comp deflate⟩

theorem mwCompress_eq (gzip deflate : Codec) (headers : HeaderSet) (response : HttpResponse) :
    mwCompress gzip deflate headers response =
      compress (zlibOf gzip deflate) headers response := by
  unfold mwCompress compress
  by_cases hempty : response.bodySize = 0
  · rw [if_pos hempty, if_pos hempty]
  · rw [if_neg hempty, if_neg hempty]
    cases headers.first (str "Accept-Encoding") with
    | none => rfl
    | some accept =>
      dsimp only
      rw [haveCodings_eq (Nat.lt_succ_self _), Bool.false_or, Bool.false_or]
      rfl

/-! ### What is taken -/

/-- A body was replaced by a shorter one that is read as it, and the headers say so. -/
structure Applied (codec : Codec) (coding : Str) (response result : HttpResponse) : Prop where
  shorter : result.body.length < response.body.length
  restored : codec.inflate result.body = some response.body
  encoding : (result.headers.any (str "Content-Encoding")).map Header.value = [coding]
  length : (result.headers.any (str "Content-Length")).map Header.value =
    [decimal result.body.length]
  others : ∀ name, lowerstr name ≠ str "content-encoding" → lowerstr name ≠ str "content-length" →
    result.headers.any name = response.headers.any name
  status : result.status = response.status
  version : result.version = response.version

/-- Either nothing is changed, or a coding that the value lists was applied. -/
def Negotiated (gzip deflate : Codec) (headers : HeaderSet) (response result : HttpResponse) :
    Prop :=
  result = response ∨
    ∃ accept, headers.first (str "Accept-Encoding") = some accept ∧
      ((lists accept.value (str "gzip") = true ∧ Applied gzip (str "gzip") response result) ∨
        (lists accept.value (str "deflate") = true ∧
          Applied deflate (str "deflate") response result))

section result

variable {codec : Codec} {response : HttpResponse} {compressed : Str} {header : Header}

theorem key_lengths : lowerstr (str "Content-Encoding") = str "content-encoding" ∧
    lowerstr (str "Content-Length") = str "content-length" ∧
    str "content-encoding" ≠ str "content-length" := by decide

/-- The headers of a body that was replaced. -/
theorem any_replaced (hkey : header.key = str "content-encoding") (name : Str) :
    ((response.passBody compressed).headers.set header).any name =
      if str "content-encoding" = lowerstr name then [header]
      else if str "content-length" = lowerstr name then [contentLength compressed.length]
      else response.headers.any name := by
  have hlength : (contentLength compressed.length).key = str "content-length" := key_lengths.2.1
  rw [HeaderSet.any_set, hkey]
  unfold HttpResponse.passBody
  dsimp only
  rw [HeaderSet.any_set, hlength]

theorem applied_replaced (hkey : header.key = str "content-encoding")
    (hshorter : compressed.length < response.body.length) (hsize : response.body.length < 2 ^ 32)
    (hrestored : codec.inflate compressed = some response.body) :
    Applied codec header.value response
      { response.passBody compressed with
        headers := (response.passBody compressed).headers.set header } where
  shorter := hshorter
  restored := hrestored
  encoding := by
    rw [any_replaced hkey, if_pos key_lengths.1.symm]
    rfl
  length := by
    have hmax : compressed.length ≤ SIZE_MAX := by
      unfold SIZE_MAX
      omega
    rw [any_replaced hkey, if_neg (by decide), if_pos key_lengths.2.1.symm]
    exact congrArg (fun value => [value]) (sizeStr_eq hmax)
  others name hencoding hlength := by
    rw [any_replaced hkey, if_neg (Ne.symm hencoding), if_neg (Ne.symm hlength)]
  status := rfl
  version := rfl

end result

/-! ### The middleware -/

section negotiation

variable {gzip deflate codec : Codec} {headers : HeaderSet} {response : HttpResponse}
  {accept header : Header} {compressed : Str}

/-- The coding whose word is found, with its coder. -/
def chosen (gzip deflate : Codec) (value : Str) : Option (Str × Codec) :=
  if accepts value (str "gzip") then some (str "gzip", gzip)
  else if accepts value (str "deflate") then some (str "deflate", deflate)
  else none

theorem chosen_cases (h : chosen gzip deflate value = some (coding, codec)) :
    (coding = str "gzip" ∧ codec = gzip) ∨ (coding = str "deflate" ∧ codec = deflate) := by
  unfold chosen at h
  split at h
  · obtain ⟨rfl, rfl⟩ := Prod.mk.inj (Option.some.inj h)
    exact Or.inl ⟨rfl, rfl⟩
  · split at h
    · obtain ⟨rfl, rfl⟩ := Prod.mk.inj (Option.some.inj h)
      exact Or.inr ⟨rfl, rfl⟩
    · cases h

theorem compress_unchanged (h : response.body = [] ∨
    ∀ accept, headers.first (str "Accept-Encoding") = some accept →
      chosen gzip deflate accept.value = none) :
    mwCompress gzip deflate headers response = response := by
  rw [mwCompress_eq]
  unfold compress
  rcases h with hempty | hnone
  · exact if_pos (congrArg List.length hempty)
  · split
    · rfl
    · cases haccept : headers.first (str "Accept-Encoding") with
      | none => rfl
      | some accept =>
        have hchosen := hnone accept haccept
        unfold chosen at hchosen
        dsimp only
        split at hchosen
        · cases hchosen
        · next hgzip =>
          rw [if_neg hgzip]
          split at hchosen
          · cases hchosen
          · next hdeflate => rw [if_neg hdeflate]

/-- With a chosen coding the output of its coder is taken if it is shorter. -/
theorem compress_chosen (hne : response.body ≠ [])
    (haccept : headers.first (str "Accept-Encoding") = some accept)
    (hchosen : chosen gzip deflate accept.value = some (coding, codec)) :
    ∃ header : Header, header.key = str "content-encoding" ∧ header.value = coding ∧
      mwCompress gzip deflate headers response =
        compressWith response (comp codec response.body) header := by
  have hsize : ¬ response.bodySize = 0 := fun h => hne (List.length_eq_zero_iff.mp h)
  rw [mwCompress_eq]
  unfold compress
  rw [if_neg hsize, haccept]
  dsimp only
  unfold chosen at hchosen
  split at hchosen
  · next hgzip =>
    obtain ⟨rfl, rfl⟩ := Prod.mk.inj (Option.some.inj hchosen)
    rw [if_pos hgzip]
    exact ⟨contentEncoding (str "gzip") (by decide), key_lengths.1, rfl, rfl⟩
  · next hgzip =>
    rw [if_neg hgzip]
    split at hchosen
    · next hdeflate =>
      obtain ⟨rfl, rfl⟩ := Prod.mk.inj (Option.some.inj hchosen)
      rw [if_pos hdeflate]
      exact ⟨contentEncoding (str "deflate") (by decide), key_lengths.1, rfl, rfl⟩
    · cases hchosen

theorem negotiated_replaced (haccept : headers.first (str "Accept-Encoding") = some accept)
    (hchosen : chosen gzip deflate accept.value = some (coding, codec))
    (hkey : header.key = str "content-encoding") (hvalue : header.value = coding)
    (hshorter : compressed.length < response.body.length) :
    Negotiated gzip deflate headers response { response.passBody compressed with
        headers := (response.passBody compressed).headers.set header } ↔
      lists accept.value coding = true ∧ Applied codec coding response
        { response.passBody compressed with
          headers := (response.passBody compressed).headers.set header } := by
  have hcoding {other : Codec} {name : Str} (h : Applied other name response
      { response.passBody compressed with
        headers := (response.passBody compressed).headers.set header }) : coding = name := by
    have hencoding := h.encoding
    rw [any_replaced hkey, if_pos key_lengths.1.symm, List.map_singleton, hvalue] at hencoding
    exact (List.cons.inj hencoding).1
  have hother : str "gzip" ≠ str "deflate" := by decide
  constructor
  · rintro (hsame | ⟨accept', haccept', happlied⟩)
    · have hbody : compressed = response.body := congrArg HttpResponse.body hsame
      rw [hbody] at hshorter
      exact absurd hshorter (Nat.lt_irrefl _)
    · obtain rfl := Option.some.inj (haccept.symm.trans haccept')
      rcases happlied with ⟨hlists, happlied⟩ | ⟨hlists, happlied⟩
      · obtain rfl := hcoding happlied
        rcases chosen_cases hchosen with ⟨_, rfl⟩ | ⟨hname, _⟩
        · exact ⟨hlists, happlied⟩
        · exact absurd hname hother
      · obtain rfl := hcoding happlied
        rcases chosen_cases hchosen with ⟨hname, _⟩ | ⟨_, rfl⟩
        · exact absurd hname.symm hother
        · exact ⟨hlists, happlied⟩
  · rintro ⟨hlists, happlied⟩
    refine Or.inr ⟨accept, haccept, ?_⟩
    rcases chosen_cases hchosen with ⟨rfl, rfl⟩ | ⟨rfl, rfl⟩
    · exact Or.inl ⟨hlists, happlied⟩
    · exact Or.inr ⟨hlists, happlied⟩

theorem comp_small (codec : Codec) {body : Str} (h : body.length < 2 ^ 32) :
    comp codec body = codec.deflate body body.length := by
  unfold comp uInt
  rw [Nat.mod_eq_of_lt h, List.take_length]

/-- A body of which the coder gets a part only is replaced by something else. -/
theorem comp_large (hcodec : codec.Documented) {body : Str} (h : 2 ^ 32 ≤ body.length) :
    (comp codec body).length < body.length ∧ codec.inflate (comp codec body) ≠ some body := by
  have hroom : uInt body.length < body.length :=
    Nat.lt_of_lt_of_le (Nat.mod_lt _ (by decide)) h
  refine ⟨Nat.lt_of_le_of_lt (hcodec.fits _ _) hroom, fun hread => ?_⟩
  have hpart := congrArg List.length (hcodec.faithful _ _ _ hread)
  rw [List.length_take, Nat.min_eq_left (Nat.le_of_lt hroom)] at hpart
  exact absurd hpart (Nat.ne_of_gt hroom)

/-- What is done to a response for a chosen coding is right if and only if the size has 32 bits
and the value lists the coding, unless the coder does not make the body shorter. -/
theorem chosen_negotiated_iff (hcodec : codec.Documented) (hne : response.body ≠ [])
    (haccept : headers.first (str "Accept-Encoding") = some accept)
    (hchosen : chosen gzip deflate accept.value = some (coding, codec)) :
    Negotiated gzip deflate headers response (mwCompress gzip deflate headers response) ↔
      response.body.length < 2 ^ 32 ∧ (lists accept.value coding = true ∨
        response.body.length ≤ (codec.deflate response.body response.body.length).length) := by
  obtain ⟨header, hkey, hvalue, hresult⟩ := compress_chosen hne haccept hchosen
  rw [hresult]
  unfold compressWith HttpResponse.bodySize
  by_cases hsize : response.body.length < 2 ^ 32
  · rw [comp_small codec hsize]
    by_cases hshorter : (codec.deflate response.body response.body.length).length <
        response.body.length
    · rw [if_pos hshorter]
      dsimp only
      rw [negotiated_replaced haccept hchosen hkey hvalue hshorter]
      have hrestored := hcodec.complete _ _ hshorter
      have happlied := applied_replaced hkey hshorter hsize hrestored
      rw [hvalue] at happlied
      constructor
      · rintro ⟨hlists, _⟩
        exact ⟨hsize, Or.inl hlists⟩
      · rintro ⟨_, hlists | hnot⟩
        · exact ⟨hlists, happlied⟩
        · exact absurd hshorter (Nat.not_lt.mpr hnot)
    · rw [if_neg hshorter]
      exact ⟨fun _ => ⟨hsize, Or.inr (Nat.not_lt.mp hshorter)⟩, fun _ => Or.inl rfl⟩
  · obtain ⟨hshorter, hlost⟩ := comp_large hcodec (Nat.not_lt.mp hsize)
    rw [if_pos hshorter]
    dsimp only
    rw [negotiated_replaced haccept hchosen hkey hvalue hshorter]
    constructor
    · rintro ⟨_, happlied⟩
      exact absurd happlied.restored hlost
    · rintro ⟨hsmall, _⟩
      exact absurd hsmall hsize

end negotiation

theorem compress_iff (gzip deflate : Codec) (hgzip : gzip.Documented)
    (hdeflate : deflate.Documented) (headers : HeaderSet) (response : HttpResponse) :
    Negotiated gzip deflate headers response (mwCompress gzip deflate headers response) ↔
      ∀ accept coding codec, response.body ≠ [] →
        headers.first (str "Accept-Encoding") = some accept →
        chosen gzip deflate accept.value = some (coding, codec) →
          response.body.length < 2 ^ 32 ∧ (lists accept.value coding = true ∨
            response.body.length ≤
              (codec.deflate response.body response.body.length).length) := by
  have hdocumented {coding : Str} {codec : Codec} {value : Str}
      (h : chosen gzip deflate value = some (coding, codec)) : codec.Documented := by
    rcases chosen_cases h with ⟨_, rfl⟩ | ⟨_, rfl⟩
    · exact hgzip
    · exact hdeflate
  constructor
  · intro h accept coding codec hne haccept hchosen
    exact (chosen_negotiated_iff (hdocumented hchosen) hne haccept hchosen).mp h
  · intro h
    by_cases hsame : response.body = [] ∨
        ∀ accept, headers.first (str "Accept-Encoding") = some accept →
          chosen gzip deflate accept.value = none
    · exact Or.inl (compress_unchanged hsame)
    · rw [not_or] at hsame
      obtain ⟨hne, hsome⟩ := hsame
      obtain ⟨accept, hsome⟩ := not_forall.mp hsome
      rw [Classical.not_imp, ← ne_eq, Option.ne_none_iff_exists'] at hsome
      obtain ⟨haccept, ⟨coding, codec⟩, hchosen⟩ := hsome
      exact (chosen_negotiated_iff (hdocumented hchosen) hne haccept hchosen).mpr
        (h accept coding codec hne haccept hchosen)

/-! ### A coder that writes one text as zlib does -/

/-- Another text is written behind its length. -/
def encode (sample bytes text : Str) : Str :=
  if text = sample then bytes else List.replicate text.length 1 ++ 0 :: text

def decode (sample bytes s : Str) : Option Str :=
  if s = bytes then some sample
  else
    match s.dropWhile (· == 1) with
    | [] => none
    | c :: text =>
      if c = 0 ∧ text.length = (s.takeWhile (· == 1)).length then some text else none

def sampleCodec (sample bytes : Str) : Codec where
  deflate text room := (encode sample bytes text).take room
  inflate := decode sample bytes

theorem decode_start {sample bytes s rest : Str} {c : Byte} (hs : s = c :: rest) (h0 : c ≠ 0)
    (h1 : c ≠ 1) (hne : s ≠ bytes) : decode sample bytes s = none := by
  unfold decode
  rw [if_neg hne, hs, List.dropWhile_cons_of_neg (by simpa using h1)]
  exact if_neg fun h => h0 h.1

theorem decode_nil {sample bytes : Str} (hne : bytes ≠ []) : decode sample bytes [] = none :=
  if_neg (Ne.symm hne)

theorem decode_counted {sample bytes rest : Str} {b : Byte} (hbytes : bytes = b :: rest)
    (h0 : b ≠ 0) (h1 : b ≠ 1) (n : ℕ) (text : Str) :
    decode sample bytes (List.replicate n 1 ++ 0 :: text) =
      if text.length = n then some text else none := by
  have hne : List.replicate n 1 ++ 0 :: text ≠ bytes := by
    intro heq
    rw [hbytes] at heq
    cases n with
    | zero => exact h0 (List.cons.inj heq).1.symm
    | succ n => exact h1 (List.cons.inj heq).1.symm
  have hall : ∀ c ∈ List.replicate n (1 : Byte), (c == 1) = true := by
    intro c hc
    rw [(List.mem_replicate.mp hc).2]
    rfl
  unfold decode
  rw [if_neg hne, dropWhile_stop hall (by decide), takeWhile_stop hall (by decide),
    List.length_replicate]
  simp

theorem decode_ones {sample bytes rest : Str} {b : Byte} (hbytes : bytes = b :: rest)
    (h1 : b ≠ 1) (n : ℕ) : decode sample bytes (List.replicate n 1) = none := by
  have hne : List.replicate n 1 ≠ bytes := by
    intro heq
    rw [hbytes] at heq
    cases n with
    | zero => cases heq
    | succ n => exact h1 (List.cons.inj heq).1.symm
  have hall : (List.replicate n (1 : Byte)).dropWhile (· == 1) = [] := by
    rw [List.dropWhile_eq_nil_iff]
    intro c hc
    rw [(List.mem_replicate.mp hc).2]
    rfl
  unfold decode
  rw [if_neg hne, hall]

theorem documented_sample {sample bytes rest : Str} {b : Byte} (hbytes : bytes = b :: rest)
    (h0 : b ≠ 0) (h1 : b ≠ 1) : (sampleCodec sample bytes).Documented where
  fits _ room := List.length_take_le room _
  complete text room hless := by
    have hwhole : (encode sample bytes text).take room = encode sample bytes text := by
      apply List.take_of_length_le
      change ((encode sample bytes text).take room).length < room at hless
      rw [List.length_take] at hless
      omega
    show decode sample bytes ((encode sample bytes text).take room) = some text
    rw [hwhole]
    unfold encode
    by_cases hsample : text = sample
    · rw [if_pos hsample, hsample]
      exact if_pos rfl
    · rw [if_neg hsample, decode_counted hbytes h0 h1, if_pos rfl]
  faithful text room read hread := by
    change decode sample bytes ((encode sample bytes text).take room) = some read at hread
    unfold encode at hread
    by_cases hsample : text = sample
    · rw [if_pos hsample] at hread
      by_cases hall : bytes.take room = bytes
      · rw [hall, decode, if_pos rfl] at hread
        exact (Option.some.inj hread).symm.trans hsample.symm
      · cases room with
        | zero =>
          rw [List.take_zero, decode_nil (by rw [hbytes]; exact List.cons_ne_nil _ _)] at hread
          cases hread
        | succ room =>
          rw [decode_start (by rw [hbytes, List.take_succ_cons]) h0 h1 hall] at hread
          cases hread
    · rw [if_neg hsample, List.take_append, List.take_replicate, List.length_replicate] at hread
      by_cases hroom : text.length < room
      · obtain ⟨k, rfl⟩ := Nat.exists_eq_add_of_lt hroom
        rw [Nat.min_eq_right (by omega), show text.length + k + 1 - text.length = k + 1 by omega,
          List.take_succ_cons, decode_counted hbytes h0 h1] at hread
        split at hread
        · next hlength =>
          rw [List.length_take] at hlength
          rw [← Option.some.inj hread, List.take_of_length_le (by omega)]
        · cases hread
      · rw [Nat.sub_eq_zero_of_le (by omega), List.take_zero, List.append_nil,
          decode_ones hbytes h1] at hread
        cases hread

/-! ### Two values -/

def sampleBody : Str := List.replicate 40 (chr 'a')

/-- What zlib writes for the body. -/
def gzipBytes : Str :=
  [0x1f, 0x8b, 0x08, 0x00, 0x00, 0x00, 0x00, 0x00, 0x00, 0x03, 0x4b, 0x4c, 0x24, 0x0e, 0x00,
    0x00, 0x25, 0x8a, 0x5b, 0xc9, 0x28, 0x00, 0x00, 0x00]

def deflateBytes : Str :=
  [0x78, 0x9c, 0x4b, 0x4c, 0x24, 0x0e, 0x00, 0x00, 0x36, 0xeb, 0x0f, 0x29]

def gzipSample : Codec := sampleCodec sampleBody gzipBytes

def deflateSample : Codec := sampleCodec sampleBody deflateBytes

theorem documented_gzipSample : gzipSample.Documented :=
  documented_sample rfl (by decide) (by decide)

theorem documented_deflateSample : deflateSample.Documented :=
  documented_sample rfl (by decide) (by decide)

def sampleResponse : HttpResponse := (HttpResponse.create .ok .text).passBody sampleBody

theorem weightZero_valid : validate (str "Accept-Encoding") (str "gzip ;q=0") = true :=
  validate_of_short (by decide) (by decide)

def weightZero : Header := ⟨str "Accept-Encoding", str "gzip ;q=0", weightZero_valid⟩

theorem deflateFirst_valid : validate (str "Accept-Encoding") (str "deflate, gzip;q=0") = true :=
  validate_of_short (by decide) (by decide)

def deflateFirst : Header := ⟨str "Accept-Encoding", str "deflate, gzip;q=0", deflateFirst_valid⟩

theorem first_single (header : Header) (h : header.key = lowerstr (str "Accept-Encoding")) :
    (HeaderSet.create.add header).first (str "Accept-Encoding") = some header := by
  rw [HeaderSet.first_add, HeaderSet.first_create, if_pos h]
  rfl

theorem sampleBody_ne_nil : sampleResponse.body ≠ [] := List.cons_ne_nil _ _

theorem gzip_length :
    (gzipSample.deflate sampleResponse.body sampleResponse.body.length).length = 24 := by
  decide +kernel

/-- The word before the blank counts, although its weight is zero. -/
theorem unwanted_applied :
    lists (str "gzip ;q=0") (str "gzip") = false ∧
      (mwCompress gzipSample deflateSample (HeaderSet.create.add weightZero)
        sampleResponse).body = gzipBytes ∧
      ¬ Negotiated gzipSample deflateSample (HeaderSet.create.add weightZero) sampleResponse
        (mwCompress gzipSample deflateSample (HeaderSet.create.add weightZero)
          sampleResponse) := by
  have hlists : lists (str "gzip ;q=0") (str "gzip") = false := by decide +kernel
  have hfirst := first_single weightZero (by decide)
  have hchosen : chosen gzipSample deflateSample weightZero.value =
      some (str "gzip", gzipSample) := if_pos (by decide +kernel)
  refine ⟨hlists, by decide +kernel, ?_⟩
  rw [chosen_negotiated_iff documented_gzipSample sampleBody_ne_nil hfirst hchosen]
  rintro ⟨_, hlisted | hlonger⟩
  · exact absurd (hlists.symm.trans hlisted) Bool.false_ne_true
  · rw [gzip_length] at hlonger
    exact absurd hlonger (by decide)

theorem compress_iff_deflate :
    Negotiated gzipSample deflateSample (HeaderSet.create.add deflateFirst) sampleResponse
      (mwCompress gzipSample deflateSample (HeaderSet.create.add deflateFirst)
        sampleResponse) := by
  refine (compress_iff gzipSample deflateSample documented_gzipSample documented_deflateSample
    (HeaderSet.create.add deflateFirst) sampleResponse).mpr ?_
  intro accept coding codec _ haccept hchosen
  obtain rfl := Option.some.inj ((first_single deflateFirst (by decide)).symm.trans haccept)
  have hdeflate : chosen gzipSample deflateSample deflateFirst.value =
      some (str "deflate", deflateSample) :=
    (if_neg (by decide +kernel)).trans (if_pos (by decide +kernel))
  obtain ⟨rfl, rfl⟩ := Prod.mk.inj (Option.some.inj (hdeflate.symm.trans hchosen))
  exact ⟨by decide +kernel, Or.inl (by decide +kernel)⟩

end Swad.CompressedBodies
