import Swad.Middleware

/-!
The loops of the two parsers of parameters, as they compute the places of the separators in
what is left of the text: over a buffer with its size, for a form, and over a C string, for
a query. Each delimiter is searched for in all of the rest. The loops that look for a
parameter start behind the current one. They all agree with the parsers that split the text
at first.
-/
namespace Swad.ParameterLoops

open Bytes Httprequest TextCodecs Middleware

/-! ### Splitting -/

def indexOf (buf : List Byte) (c : Byte) : ℕ := (buf.takeWhile (· != c)).length

/-- The first parameter of a form, with the validation that replaces malformed text. -/
def formParamAt (body : List Byte) : FormParam :=
  let dpos := indexOf body (chr '&')
  let eqpos := indexOf body (chr '=')
  if eqpos < dpos then
    let name := utf8Sanitize (urldecode (body.take eqpos))
    let value := utf8Sanitize (urldecode ((body.drop (eqpos + 1)).take (dpos - eqpos - 1)))
    ⟨name.text, some value.text, name.len, value.len, name.valid, value.valid⟩
  else
    let name := utf8Sanitize (urldecode (body.take dpos))
    ⟨name.text, none, name.len, 0, name.valid, false⟩

/-- So many parameters have room. -/
def formLoop : ℕ → List Byte → List FormParam
  | 0, _ => []
  | n + 1, body =>
    if body = [] then []
    else formParamAt body :: formLoop n ((body.drop (indexOf body (chr '&'))).drop 1)

def parseForm (body : List Byte) : FormData :=
  let params := formLoop 64 body
  ⟨params, params.all fun p => p.namevalid && (p.value.isNone || p.valuevalid)⟩

def queryParamAt (reqPath : Str) : QueryParam :=
  let dpos := indexOf reqPath (chr '&')
  let eqpos := indexOf reqPath (chr '=')
  if eqpos < dpos then
    ⟨urldecode (reqPath.take eqpos),
      some (urldecode ((reqPath.drop (eqpos + 1)).take (dpos - eqpos - 1)))⟩
  else ⟨urldecode (reqPath.take dpos), none⟩

/-- The loop stands at a question mark or an ampersand, or at the end. -/
def queryLoop : ℕ → Str → List QueryParam
  | 0, _ => []
  | n + 1, reqPath =>
    match reqPath with
    | [] => []
    | _ :: reqPath =>
      queryParamAt reqPath :: queryLoop n (reqPath.drop (indexOf reqPath (chr '&')))

def parsePath (reqPath : Str) : PathParser :=
  let dpos := indexOf reqPath (chr '?')
  ⟨urldecode (reqPath.take dpos), queryLoop 32 (reqPath.drop dpos)⟩

/-! ### Searching -/

/-- The place of the next parameter with a name, behind the current one. -/
def nextParam {α : Type} (nameOf : α → Str) (params : List α) (name : Str) (curr : Option ℕ) :
    Option ℕ :=
  let pos := match curr with
    | none => 0
    | some curr => curr + 1
  let pos := pos + ((params.drop pos).takeWhile fun p => nameOf p != name).length
  if params.length ≤ pos then none else some pos

def formDataParam (self : FormData) : Str → Option ℕ → Option ℕ :=
  nextParam FormParam.name self.params

def pathParserParam (self : PathParser) : Str → Option ℕ → Option ℕ :=
  nextParam QueryParam.name self.params

/-- All parameters that are met by going on from the current one. -/
def visit (next : Option ℕ → Option ℕ) : ℕ → Option ℕ → List ℕ
  | 0, _ => []
  | fuel + 1, curr =>
    match next curr with
    | none => []
    | some pos => pos :: visit next fuel (some pos)

/-- The value of the first parameter with the name, unless a later one has it too. -/
def formDataSingle (self : FormData) (name : Str) : Option (Str × ℕ) :=
  match self.params.dropWhile fun p => p.name != name with
  | [] => none
  | p :: rest =>
    match p.value with
    | none => none
    | some val => if rest.any (fun p => p.name == name) then none else some (val, p.valuelen)

section splitting

variable {part : List Byte}

/-- A text up to its first separator, and the rest. -/
theorem exists_part (c : Byte) (s : List Byte) :
    ∃ part rest, s = part ++ rest ∧ c ∉ part ∧ (rest = [] ∨ ∃ more, rest = c :: more) := by
  by_cases h : c ∈ s
  · obtain ⟨part, more, hs, hpart⟩ := List.eq_append_cons_of_mem h
    exact ⟨part, c :: more, hs, hpart, Or.inr ⟨more, rfl⟩⟩
  · exact ⟨s, [], (List.append_nil s).symm, h, Or.inl rfl⟩

/-- The places of both separators tell the same parts as splitting the first part does. -/
theorem split_part (hpart : chr '&' ∉ part) {rest : List Byte}
    (hrest : rest = [] ∨ ∃ more, rest = chr '&' :: more) :
    indexOf (part ++ rest) (chr '&') = part.length ∧
      splitParam part =
        if indexOf (part ++ rest) (chr '=') < part.length then
          (urldecode ((part ++ rest).take (indexOf (part ++ rest) (chr '='))),
            some (urldecode (((part ++ rest).drop (indexOf (part ++ rest) (chr '=') + 1)).take
              (part.length - indexOf (part ++ rest) (chr '=') - 1))))
        else (urldecode part, none) := by
  constructor
  · unfold indexOf
    rw [takeWhile_sep hpart hrest]
  by_cases heq : chr '=' ∈ part
  · obtain ⟨name, value, hsplit, hname⟩ := List.eq_append_cons_of_mem heq
    have hindex : indexOf (part ++ rest) (chr '=') = name.length := by
      unfold indexOf
      rw [hsplit, List.append_assoc, List.cons_append,
        takeWhile_until hname]
    have hlength : part.length = name.length + (value.length + 1) := by
      rw [hsplit, List.length_append, List.length_cons]
    have hfirst : part.takeWhile (· != chr '=') = name := by
      rw [hsplit]
      exact takeWhile_until hname value
    have hsecond : (part.dropWhile (· != chr '=')).drop 1 = value := by
      rw [hsplit, dropWhile_until hname]
      rfl
    have hvalue : ((part ++ rest).drop (name.length + 1)).take
        (part.length - name.length - 1) = value := by
      have hsub : part.length - name.length - 1 = value.length := by omega
      rw [hsub, hsplit, List.append_cons, List.append_assoc]
      have hlen : (name ++ [chr '=']).length = name.length + 1 := by
        rw [List.length_append, List.length_singleton]
      rw [← hlen, List.drop_left, List.take_left]
    have htake : (part ++ rest).take name.length = name := by
      rw [hsplit, List.append_assoc, List.take_left]
    rw [hindex, if_pos (by omega), htake, hvalue]
    unfold splitParam
    rw [if_pos heq, hfirst, hsecond]
  · have hnot : ¬ indexOf (part ++ rest) (chr '=') < part.length := by
      intro hlt
      unfold indexOf at hlt
      rw [List.takeWhile_append_of_pos (bne_of_notMem heq), List.length_append] at hlt
      omega
    rw [if_neg hnot]
    unfold splitParam
    rw [if_neg heq]

theorem splitOn_part (hpart : chr '&' ∉ part) (more : List Byte) :
    (part ++ chr '&' :: more).splitOn (chr '&') = part :: more.splitOn (chr '&') := by
  rw [List.splitOn_append_cons_self, List.splitOn_eq_singleton hpart, List.singleton_append]

/-- The first parameter is that of the first part. -/
theorem formParamAt_part (hpart : chr '&' ∉ part) {rest : List Byte}
    (hrest : rest = [] ∨ ∃ more, rest = chr '&' :: more) :
    formParamAt (part ++ rest) = formParam part := by
  obtain ⟨hindex, hsplit⟩ := split_part hpart hrest
  unfold formParamAt formParam
  rw [hindex, hsplit]
  dsimp only
  split
  · rfl
  · rw [List.take_left]

theorem queryParamAt_part (hpart : chr '&' ∉ part) {rest : List Byte}
    (hrest : rest = [] ∨ ∃ more, rest = chr '&' :: more) :
    queryParamAt (part ++ rest) = ⟨(splitParam part).1, (splitParam part).2⟩ := by
  obtain ⟨hindex, hsplit⟩ := split_part hpart hrest
  unfold queryParamAt
  rw [hindex, hsplit]
  dsimp only
  split
  · rfl
  · rw [List.take_left]

theorem formLoop_eq (n : ℕ) (body : List Byte) :
    formLoop n body = ((formParts body).take n).map formParam := by
  induction n generalizing body with
  | zero => rfl
  | succ n ih =>
    unfold formLoop
    by_cases hnil : body = []
    · rw [if_pos hnil, hnil]
      rfl
    rw [if_neg hnil]
    obtain ⟨part, rest, rfl, hpart, hrest⟩ := exists_part (chr '&') body
    rw [formParamAt_part hpart hrest, (split_part hpart hrest).1, List.drop_left, ih]
    rcases hrest with rfl | ⟨more, rfl⟩
    · have hparts : formParts (part ++ []) = [part] := by
        rw [List.append_nil] at hnil ⊢
        unfold formParts
        rw [List.splitOn_eq_singleton hpart, if_neg]
        intro hlast
        exact hnil (Option.some.inj hlast)
      rw [hparts, List.take_succ_cons, List.map_cons, List.take_nil]
      cases n <;> rfl
    · have hparts : formParts (part ++ chr '&' :: more) = part :: formParts more := by
        have hne := List.splitOn_ne_nil (chr '&') more
        unfold formParts
        rw [splitOn_part hpart, List.getLast?_cons_of_ne_nil hne]
        split
        · exact List.dropLast_cons_of_ne_nil hne
        · rfl
      rw [hparts, List.take_succ_cons, List.map_cons]
      rfl

/-- The loop over a buffer splits it at its separators. -/
theorem parseForm_eq (body : List Byte) : parseForm body = FormData.parse body := by
  unfold parseForm FormData.parse
  rw [formLoop_eq]

theorem queryLoop_eq (n : ℕ) (c : Byte) (query : Str) :
    queryLoop n (c :: query) = ((query.splitOn (chr '&')).take n).map
      fun part => ⟨(splitParam part).1, (splitParam part).2⟩ := by
  induction n generalizing c query with
  | zero => rfl
  | succ n ih =>
    unfold queryLoop
    obtain ⟨part, rest, rfl, hpart, hrest⟩ := exists_part (chr '&') query
    dsimp only
    rw [queryParamAt_part hpart hrest, (split_part hpart hrest).1, List.drop_left]
    rcases hrest with rfl | ⟨more, rfl⟩
    · rw [List.append_nil, List.splitOn_eq_singleton hpart, List.take_succ_cons, List.map_cons,
        List.take_nil]
      cases n <;> rfl
    · rw [splitOn_part hpart, List.take_succ_cons, List.map_cons, ih]

/-- The loop over a C string splits it at its separators. -/
theorem parsePath_eq (reqPath : Str) : parsePath reqPath = PathParser.create reqPath := by
  obtain ⟨path, rest, rfl, hpath, hrest⟩ := exists_part (chr '?') reqPath
  have htake : (path ++ rest).takeWhile (· != chr '?') = path := takeWhile_sep hpath hrest
  have hdrop : (path ++ rest).dropWhile (· != chr '?') = rest := by
    have hall := List.takeWhile_append_dropWhile (p := (· != chr '?')) (l := path ++ rest)
    rw [htake] at hall
    exact List.append_cancel_left hall
  unfold parsePath PathParser.create indexOf
  rw [htake, hdrop]
  dsimp only
  rw [List.take_left, List.drop_left]
  rcases hrest with rfl | ⟨query, rfl⟩
  · rfl
  · dsimp only
    rw [queryLoop_eq]

end splitting

section searching

variable {α : Type} {nameOf : α → Str} {params : List α} {name : Str}

/-- Going on from nowhere meets every parameter with the name, in their order. -/
theorem visit_nextParam (fuel : ℕ) (curr : Option ℕ) {pos : ℕ}
    (hpos : pos = match curr with
      | none => 0
      | some curr => curr + 1) (hfuel : params.length < pos + fuel) :
    (visit (nextParam nameOf params name) fuel curr).filterMap (params[·]?) =
      (params.drop pos).filter fun p => nameOf p == name := by
  induction fuel generalizing curr pos with
  | zero =>
    rw [List.drop_eq_nil_of_le (by omega)]
    rfl
  | succ fuel ih =>
    have hnext : nextParam nameOf params name curr =
        if params.length ≤ pos + ((params.drop pos).takeWhile (nameOf · != name)).length then none
        else some (pos + ((params.drop pos).takeWhile (nameOf · != name)).length) := by
      rw [hpos]
      rfl
    have hsplit := (List.takeWhile_append_dropWhile (p := (nameOf · != name))
      (l := params.drop pos)).symm
    generalize hskip : (params.drop pos).takeWhile (nameOf · != name) = skipped at hnext hsplit
    generalize hrest : (params.drop pos).dropWhile (nameOf · != name) = rest at hsplit
    have hnone : skipped.filter (nameOf · == name) = [] := by
      rw [List.filter_eq_nil_iff]
      intro p hp
      rw [← hskip] at hp
      have hne := List.mem_takeWhile_imp hp
      rw [bne_iff_ne] at hne
      rwa [beq_iff_eq]
    have hlength : params.length - pos = skipped.length + rest.length := by
      rw [← List.length_drop, hsplit, List.length_append]
    unfold visit
    rw [hnext, hsplit, List.filter_append, hnone, List.nil_append]
    cases rest with
    | nil =>
      rw [if_pos (by rw [List.length_nil] at hlength; omega)]
      rfl
    | cons p rest =>
      rw [List.length_cons] at hlength
      have hfound : nameOf p == name := by simpa using (split_of_dropWhile hrest).2
      have hdrop : params.drop (pos + skipped.length) = p :: rest := by
        rw [← List.drop_drop, hsplit, List.drop_left]
      have hget : params[pos + skipped.length]? = some p := by
        rw [← List.head?_drop, hdrop]
        rfl
      rw [if_neg (by omega), List.filter_cons_of_pos (p := (nameOf · == name)) hfound]
      dsimp only
      rw [List.filterMap_cons_some hget, @ih (some (pos + skipped.length)) (pos + skipped.length + 1) rfl (by omega)]
      congr 2
      rw [← List.drop_drop, hdrop]
      rfl

theorem formDataSingle_eq (self : FormData) (name : Str) :
    formDataSingle self name = FormData.single self name := by
  have hsplit := (List.takeWhile_append_dropWhile (p := (fun p : FormParam => p.name != name))
    (l := self.params)).symm
  have hnone : (self.params.takeWhile fun p => p.name != name).filter
      (fun p => p.name == name) = [] := by
    rw [List.filter_eq_nil_iff]
    intro p hp
    have hne := List.mem_takeWhile_imp hp
    rw [bne_iff_ne] at hne
    rwa [beq_iff_eq]
  unfold formDataSingle FormData.single
  rw [hsplit, List.filter_append, hnone, List.nil_append, ← hsplit]
  generalize hrest : (self.params.dropWhile fun p => p.name != name) = found
  cases found with
  | nil => rfl
  | cons p rest =>
    have hfound : p.name == name := by simpa using (split_of_dropWhile hrest).2
    rw [List.filter_cons_of_pos (p := fun p : FormParam => p.name == name) hfound]
    dsimp only
    by_cases hmore : rest.any (fun p => p.name == name) = true
    · obtain ⟨q, hq, hname⟩ := List.any_eq_true.mp hmore
      have hmem : q ∈ rest.filter fun p => p.name == name := List.mem_filter.mpr ⟨hq, hname⟩
      generalize rest.filter (fun p => p.name == name) = others at hmem
      cases others with
      | nil => cases hmem
      | cons o others =>
        rw [hmore]
        cases p.value <;> rfl
    · have hothers : (rest.filter fun p => p.name == name) = [] := by
        rw [List.filter_eq_nil_iff]
        intro q hq hname
        exact hmore (List.any_eq_true.mpr ⟨q, hq, hname⟩)
      rw [Bool.not_eq_true] at hmore
      rw [hmore, hothers]
      dsimp only
      cases p.value <;> rfl

end searching

end Swad.ParameterLoops
