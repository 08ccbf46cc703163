import Swad.ParameterLoops
import Swad.PercentCoding

/-!
Parameters that are rendered as a query or as the body of a form come back as they were.
Encoded texts hold no separator, so splitting undoes joining, and decoding gives back each
name and each value. The form is valid when its texts are, and counts their characters. The
list must have a pair: nothing at all is not a form, and a query of no bytes is a parameter
without a name.
-/
namespace Swad.ParameterRoundTrip

open Bytes Util Headerset Httprequest Httpresponse TextCodecs Template Middleware
open PercentCoding ParameterLoops

/-! ### Rendering -/

def pairText (p : Str × Str) : Str := urlencode p.1 ++ chr '=' :: urlencode p.2

/-- The pairs as they are sent. -/
def rendered (pairs : List (Str × Str)) : Str := joinstr (str "&") (pairs.map pairText)

def bytesOf (p : List Char × List Char) : Str × Str := (utf8 p.1, utf8 p.2)

def queryParamOf (p : Str × Str) : QueryParam := ⟨p.1, some p.2⟩

def formParamOf (p : List Char × List Char) : FormParam :=
  ⟨utf8 p.1, some (utf8 p.2), p.1.length, p.2.length, true, true⟩

/-- A request that carries these bytes as a form. -/
structure FormRequest (request : HttpRequest) (memory : ℕ → Byte) (body : List Byte) : Prop where
  size : request.bodySize = body.length
  bytes : bodyBytes request memory = body
  type : (request.headers.first (str "Content-Type")).map (·.value) =
    some (str "application/x-www-form-urlencoded")

theorem pairText_ne_nil (p : Str × Str) : pairText p ≠ [] := by
  intro h
  have hlength := congrArg List.length h
  rw [pairText, List.length_append, List.length_cons, List.length_nil] at hlength
  omega

theorem amp_notMem_pairText (p : Str × Str) : chr '&' ∉ pairText p := by
  have henc : ∀ s, chr '&' ∉ urlencode s := notMem_urlencode (by decide) (by decide)
  intro h
  rcases List.mem_append.mp h with h | h
  · exact henc _ h
  rcases List.mem_cons.mp h with h | h
  · exact absurd h (by decide)
  · exact henc _ h

/-- Splitting undoes joining. -/
theorem splitOn_rendered {pairs : List (Str × Str)} (hne : pairs ≠ []) :
    (rendered pairs).splitOn (chr '&') = pairs.map pairText := by
  unfold rendered joinstr
  apply List.splitOn_intercalate
  · intro text htext
    obtain ⟨p, _, rfl⟩ := List.mem_map.mp htext
    exact amp_notMem_pairText p
  · intro h
    exact hne (List.map_eq_nil_iff.mp h)

theorem formParts_rendered {pairs : List (Str × Str)} (hne : pairs ≠ []) :
    formParts (rendered pairs) = pairs.map pairText := by
  unfold formParts
  rw [splitOn_rendered hne, if_neg]
  intro hlast
  obtain ⟨p, _, hp⟩ := List.mem_map.mp (List.mem_of_getLast? hlast)
  exact pairText_ne_nil p hp

theorem rendered_ne_nil {pairs : List (Str × Str)} (hne : pairs ≠ []) : rendered pairs ≠ [] := by
  intro h
  have hsplit := formParts_rendered hne
  rw [h] at hsplit
  exact hne (List.map_eq_nil_iff.mp hsplit.symm)

/-! ### One pair -/

theorem splitParam_pairText {p : Str × Str} (h : (0 : Byte) ∉ p.1 ∧ (0 : Byte) ∉ p.2) :
    splitParam (pairText p) = (p.1, some p.2) := by
  have heq : chr '=' ∉ urlencode p.1 := notMem_urlencode (by decide) (by decide) p.1
  unfold splitParam pairText
  rw [if_pos (List.mem_append_right _ List.mem_cons_self),
    takeWhile_until heq, dropWhile_until heq, urldecode_urlencode h.1]
  show (p.1, some (urldecode (urlencode p.2))) = _
  rw [urldecode_urlencode h.2]

theorem formParam_pairText {p : List Char × List Char} (h : '\x00' ∉ p.1 ∧ '\x00' ∉ p.2) :
    formParam (pairText (bytesOf p)) = formParamOf p := by
  have hzero : (0 : Byte) ∉ (bytesOf p).1 ∧ (0 : Byte) ∉ (bytesOf p).2 :=
    ⟨zero_notMem_utf8 h.1, zero_notMem_utf8 h.2⟩
  unfold formParam
  rw [splitParam_pairText hzero]
  dsimp only [bytesOf]
  rw [utf8Sanitize_utf8, utf8Sanitize_utf8]
  rfl

/-! ### All pairs -/

theorem parsePath_rendered {pairs : List (Str × Str)} (hne : pairs ≠ [])
    (hfew : pairs.length ≤ 32) (htext : ∀ p ∈ pairs, (0 : Byte) ∉ p.1 ∧ (0 : Byte) ∉ p.2)
    {path : Str} (hpath : chr '?' ∉ path) :
    parsePath (path ++ chr '?' :: rendered pairs) =
      ⟨urldecode path, pairs.map queryParamOf⟩ := by
  rw [parsePath_eq, PathParser.create, takeWhile_until hpath, dropWhile_until hpath]
  dsimp only
  rw [splitOn_rendered hne, List.take_of_length_le (by rwa [List.length_map]), List.map_map]
  congr 1
  apply List.map_congr_left
  intro p hp
  rw [Function.comp_apply, splitParam_pairText (htext p hp)]
  rfl

theorem parseForm_rendered {pairs : List (List Char × List Char)} (hne : pairs ≠ [])
    (hfew : pairs.length ≤ 64) (htext : ∀ p ∈ pairs, '\x00' ∉ p.1 ∧ '\x00' ∉ p.2) :
    parseForm (rendered (pairs.map bytesOf)) = ⟨pairs.map formParamOf, true⟩ := by
  have hparams : ((formParts (rendered (pairs.map bytesOf))).take 64).map formParam =
      pairs.map formParamOf := by
    rw [formParts_rendered (by rwa [ne_eq, List.map_eq_nil_iff]),
      List.take_of_length_le (by rwa [List.length_map, List.length_map]), List.map_map,
      List.map_map]
    apply List.map_congr_left
    intro p hp
    exact formParam_pairText (htext p hp)
  rw [parseForm_eq, FormData.parse, hparams]
  congr 1
  rw [List.all_eq_true]
  intro q hq
  obtain ⟨p, _, rfl⟩ := List.mem_map.mp hq
  rfl

theorem get_formRequest {request : HttpRequest} {memory : ℕ → Byte} {body : List Byte}
    (h : FormRequest request memory body) (hne : body ≠ []) :
    FormData.get request memory = some (parseForm body) := by
  have hsize : request.bodySize ≠ 0 := by
    rw [h.size, ne_eq, List.length_eq_zero_iff]
    exact hne
  obtain ⟨reqType, hfirst, hvalue⟩ := Option.map_eq_some_iff.mp h.type
  unfold FormData.get
  rw [if_neg hsize, hfirst]
  dsimp only
  rw [if_pos hvalue, h.bytes, parseForm_eq]

/-- Parameters come back from a query and from a form. -/
theorem parameters_return :
    (∀ pairs : List (Str × Str), pairs ≠ [] → pairs.length ≤ 32 →
      (∀ p ∈ pairs, (0 : Byte) ∉ p.1 ∧ (0 : Byte) ∉ p.2) → ∀ path, chr '?' ∉ path →
      ∃ parser, parsePath (path ++ chr '?' :: rendered pairs) = parser ∧
        parser.path = urldecode path ∧ parser.params = pairs.map queryParamOf ∧
        ∀ name fuel, pairs.length < fuel →
          (visit (pathParserParam parser name) fuel none).filterMap (parser.params[·]?) =
            (pairs.filter (·.1 == name)).map queryParamOf) ∧
    ∀ pairs : List (List Char × List Char), pairs ≠ [] → pairs.length ≤ 64 →
      (∀ p ∈ pairs, '\x00' ∉ p.1 ∧ '\x00' ∉ p.2) → ∀ request memory,
      FormRequest request memory (rendered (pairs.map bytesOf)) →
      ∃ form, FormData.get request memory = some form ∧ form.valid = true ∧
        form.params = pairs.map formParamOf ∧
        (∀ name fuel, pairs.length < fuel →
          (visit (formDataParam form name) fuel none).filterMap (form.params[·]?) =
            (pairs.filter (utf8 ·.1 == name)).map formParamOf) ∧
        ∀ name value, formDataSingle form name = some value ↔
          ∃ p, pairs.filter (utf8 ·.1 == name) = [p] ∧ value = (utf8 p.2, p.2.length) := by
  constructor
  · intro pairs hne hfew htext path hpath
    refine ⟨_, parsePath_rendered hne hfew htext hpath, rfl, rfl, ?_⟩
    intro name fuel hfuel
    have hlength : (pairs.map queryParamOf).length < 0 + fuel := by
      rwa [List.length_map, Nat.zero_add]
    have hvisit := @visit_nextParam _ QueryParam.name _ name fuel none 0 rfl hlength
    rw [List.drop_zero, List.filter_map] at hvisit
    exact hvisit
  · intro pairs hne hfew htext request memory hrequest
    have hbody : rendered (pairs.map bytesOf) ≠ [] :=
      rendered_ne_nil (by rwa [ne_eq, List.map_eq_nil_iff])
    have hfilter : ∀ name, (pairs.map formParamOf).filter (fun p => p.name == name) =
        (pairs.filter (utf8 ·.1 == name)).map formParamOf := fun name => List.filter_map
    refine ⟨_, get_formRequest hrequest hbody, ?_⟩
    rw [parseForm_rendered hne hfew htext]
    refine ⟨rfl, rfl, ?_, ?_⟩
    · intro name fuel hfuel
      have hlength : (pairs.map formParamOf).length < 0 + fuel := by
        rwa [List.length_map, Nat.zero_add]
      have hvisit := @visit_nextParam _ FormParam.name _ name fuel none 0 rfl hlength
      rw [List.drop_zero, hfilter] at hvisit
      exact hvisit
    · intro name value
      rw [formDataSingle_eq, FormData.single, hfilter]
      generalize pairs.filter (utf8 ·.1 == name) = found
      match found with
      | [] => simp
      | [p] =>
        show some (utf8 p.2, p.2.length) = some value ↔ _
        simp [eq_comm]
      | p :: q :: found => simp

/-- Two pairs with one name, and what they are as a form. -/
def twice : List (List Char × List Char) :=
  [(['a', ' '], ['&', '=']), ([], ['é']), (['a', ' '], [])]

def twiceRequest : HttpRequest where
  __ := HttpRequest.create
  bodySize := (rendered (twice.map bytesOf)).length
  body := (rendered (twice.map bytesOf)).map some
  headers := HeaderSet.create.add
    ⟨str "Content-Type", str "application/x-www-form-urlencoded", formType_valid⟩

theorem twice_return :
    (parsePath (str "/" ++ chr '?' :: rendered (twice.map bytesOf))).params.length = 3 ∧
      ∃ form, FormData.get twiceRequest (fun _ => 0) = some form ∧ form.valid = true ∧
        formDataSingle form [] = some (utf8 ['é'], 1) ∧ formDataSingle form (str "a ") = none := by
  obtain ⟨_, hparse, _, hparams, _⟩ :=
    parameters_return.1 (twice.map bytesOf) (by decide) (by decide) (by decide +kernel) (str "/")
      (by decide)
  have hrequest : FormRequest twiceRequest (fun _ => 0) (rendered (twice.map bytesOf)) :=
    ⟨rfl, by decide +kernel, by decide +kernel⟩
  obtain ⟨form, hget, hvalid, _, _, hsingle⟩ :=
    parameters_return.2 twice (by decide) (by decide) (by decide) twiceRequest _ hrequest
  refine ⟨?_, form, hget, hvalid, ?_, ?_⟩
  · rw [hparse, hparams]
    rfl
  · exact (hsingle [] _).mpr ⟨([], ['é']), by decide +kernel, rfl⟩
  · have hnone : ∀ value, formDataSingle form (str "a ") ≠ some value := by
      intro value h
      obtain ⟨p, hp, _⟩ := (hsingle _ _).mp h
      have htwo : (twice.filter (utf8 ·.1 == str "a ")).length = 2 := by decide +kernel
      rw [hp] at htwo
      cases htwo
    exact Option.eq_none_iff_forall_ne_some.mpr hnone

/-- A query of no bytes is a parameter without a name, and a form of no bytes is none. -/
theorem no_pairs_differ :
    (parsePath (str "/" ++ chr '?' :: rendered [])).params.map (·.name) = [[]] ∧
      (parsePath (str "/" ++ chr '?' :: rendered [])).params.map (·.name) ≠
        ([] : List (Str × Str)).map (·.1) ∧
      rendered [] = [] ∧ FormData.get HttpRequest.create (fun _ => 0) = none := by
  decide +kernel

end Swad.ParameterRoundTrip
