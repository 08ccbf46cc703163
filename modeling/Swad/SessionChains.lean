import Swad.LinkedChains
import Swad.SessionStore

/-!
The session table in memory. Sessions hang in chains from the buckets of a table, and
the properties of a session hang in chains from the buckets of that session. What a
session is found by, how it is taken out of its chain and where a new one is put is
done by following links; no loop meets a dangling link, and the chains hold what the
lists of the store hold.
-/
namespace Swad.SessionChains

open Bytes Util TextCodecs LinkedChains
open SessionStore (MAXAGE MAXIDLE CLEANINTERVAL SHT_BITS rndStr)

variable {V D : Type}

def SPHT_BITS : ℕ := 4

structure SessionProp (V D : Type) where
  name : Str
  value : Option V
  deleter : Option D

structure Session where
  id : Str
  referrer : Option Str
  ctime : ℤ
  atime : ℤ

def sessionExpired (s : Session) (now : ℤ) : Bool :=
  decide (now - s.atime > MAXIDLE) || decide (now - s.ctime > MAXAGE)

/-- The buckets of a session belong to its address. What deleters were called with is
written down. -/
structure Memory (V D : Type) where
  sessions : Chains (Fin (2 ^ SHT_BITS)) Session
  props : Chains (Addr × Fin (2 ^ SPHT_BITS)) (SessionProp V D)
  cleantime : ℤ
  deleted : List (D × Option V)

namespace Memory

def init (now : ℤ) : Memory V D := ⟨.empty, .empty, now, []⟩

/-- The properties of a session that was taken out of its chain. -/
def deleteSession (self : Memory V D) (a : Addr) : Option (Memory V D) :=
  (List.finRange (2 ^ SPHT_BITS)).foldlM (fun self p => do
    let (props, freed) ← self.props.discard (a, p)
    return { self with
      props
      deleted := self.deleted ++ freed.filterMap fun q => q.deleter.map fun d => (d, q.value) })
    self

def findSession (self : Memory V D) (id : Str) (now : ℤ) :
    Option (Memory V D × Option Addr) := do
  let h := hash id SHT_BITS
  match ← self.sessions.search (fun s => s.id == id) h with
  | (_, none) => return (self, none)
  | (parent, some a) =>
    let session ← self.sessions.read a
    if sessionExpired session now then
      let sessions ← self.sessions.unlink h parent a
      let self ← deleteSession { self with sessions } a
      return (self, none)
    else return (self, some a)

def clean (self : Memory V D) (now : ℤ) : Option (Memory V D) :=
  if now - self.cleantime < CLEANINTERVAL then some self
  else
    (List.finRange (2 ^ SHT_BITS)).foldlM (fun self h => do
      let (sessions, removed) ← self.sessions.sweep (fun s => sessionExpired s now) h
      removed.foldlM deleteSession { self with sessions })
      { self with cleantime := now }

/-- Draw ids until one is not in use. -/
def freshId (self : Memory V D) (now : ℤ) : List (List Byte) → Option (Memory V D × Str)
  | [] => none
  | draw :: draws => do
    match ← self.findSession (rndStr draw) now with
    | (self, some _) => self.freshId now draws
    | (self, none) => return (self, rndStr draw)

def createSession (self : Memory V D) (now : ℤ) (draws : List (List Byte)) :
    Option (Memory V D × Addr) := do
  let (self, id) ← self.freshId now draws
  let a := self.sessions.allocated
  let sessions ← self.sessions.append (hash id SHT_BITS) ⟨id, none, now, now⟩
  return ({ self with
    sessions
    props := { self.props with head := fun k => if k.1 = a then none else self.props.head k } }, a)

def findProp (self : Memory V D) (a : Addr) (key : Str) : Option (Option Addr) :=
  (self.props.search (fun p => p.name == key) (a, hash key SPHT_BITS)).map Prod.snd

/-- A property that is to be overwritten is deleted first. -/
def insertOrUpdate (self : Memory V D) (a : Addr) (key : Str) : Option (Memory V D × Addr) := do
  match ← self.findProp a key with
  | some p =>
    let prop ← self.props.read p
    return ({ self with
      deleted := self.deleted ++ (prop.deleter.map fun d => (d, prop.value)).toList }, p)
  | none =>
    let props ← self.props.append (a, hash key SPHT_BITS) ⟨key, none, none⟩
    return ({ self with props }, self.props.allocated)

def getProp (self : Memory V D) (a : Addr) (name : Str) : Option (Option V) := do
  match ← self.findProp a name with
  | some p => (self.props.read p).map SessionProp.value
  | none => return none

def setProp (self : Memory V D) (a : Addr) (name : Str) (obj : Option V) (deleter : Option D) :
    Option (Memory V D) := do
  let (self, p) ← self.insertOrUpdate a name
  return { self with props := self.props.modify p fun q => ⟨q.name, obj, deleter⟩ }

end Memory

/-- A request with the time, the session id in its cookie, whether the client may not
create another session, the random draws, the properties that the handlers set, and the
path that is noted if the response is a page. -/
structure Request (V D : Type) where
  now : ℤ
  sid : Option Str
  limited : Bool
  draws : List (List Byte)
  sets : List (Str × Option V × Option D)
  page : Option Str

inductive Outcome
  | refused
  | found (session : Addr)
  | created (session : Addr) (id : Str)
  deriving DecidableEq

namespace Memory

/-- The handlers, and the referrer. -/
def callNext (self : Memory V D) (a : Addr) (req : Request V D) : Option (Memory V D) := do
  let self ← req.sets.foldlM (fun self (name, obj, deleter) => self.setProp a name obj deleter) self
  match req.page with
  | none => return self
  | some path =>
    return { self with sessions := self.sessions.modify a fun s => { s with referrer := some path } }

def mwSession (self : Memory V D) (req : Request V D) : Option (Memory V D × Outcome) := do
  let self ← self.clean req.now
  let (self, found) ← match req.sid with
    | none => some (self, none)
    | some sid => self.findSession sid req.now
  match found with
  | some a =>
    let self ← callNext
      { self with sessions := self.sessions.modify a fun s => { s with atime := req.now } } a req
    return (self, .found a)
  | none =>
    if req.limited then return (self, .refused)
    else
      let (self, a) ← self.createSession req.now req.draws
      let session ← self.sessions.read a
      let self ← self.callNext a req
      return (self, .created a session.id)

end Memory

/-! ### What the chains hold -/

abbrev Sessions := Fin (2 ^ SHT_BITS) → List (Addr × Session)

abbrev Props (V D : Type) := Addr × Fin (2 ^ SPHT_BITS) → List (Addr × SessionProp V D)

/-- The session with an id, if there is one. -/
def entry (S : Sessions) (id : Str) : Option (Addr × Session) :=
  (S (hash id SHT_BITS)).find? fun c => c.2.id == id

/-- The session with an id that has not expired. -/
def live (S : Sessions) (id : Str) (now : ℤ) : Option (Addr × Session) :=
  (entry S id).filter fun c => !sessionExpired c.2 now

/-- What a search for a session depends on. -/
structure Entry where
  ref : ℕ
  ctime : ℤ
  atime : ℤ

def record (c : Addr × Session) : Entry := ⟨c.1, c.2.ctime, c.2.atime⟩

def propVal (P : Props V D) (a : Addr) (key : Str) : Option V :=
  ((P (a, hash key SPHT_BITS)).find? fun c => c.2.name == key).bind fun c => c.2.value

def dropProps (P : Props V D) (l : List Addr) : Props V D := fun k => if k.1 ∈ l then [] else P k

/-- The sessions after a search for an id. -/
def findS (S : Sessions) (id : Str) (now : ℤ) : Sessions :=
  match entry S id with
  | none => S
  | some c =>
    if sessionExpired c.2 now then
      Function.update S (hash id SHT_BITS)
        ((S (hash id SHT_BITS)).eraseP fun c => c.2.id == id)
    else S

def findP (S : Sessions) (P : Props V D) (id : Str) (now : ℤ) : Props V D :=
  dropProps P (((entry S id).filter fun c => sessionExpired c.2 now).map Prod.fst).toList

def cleanS (S : Sessions) (now : ℤ) : Sessions :=
  fun h => (S h).filter fun c => !sessionExpired c.2 now

def expiredIn (S : Sessions) (now : ℤ) (hs : List (Fin (2 ^ SHT_BITS))) : List Addr :=
  hs.flatMap fun h => addrs ((S h).filter fun c => sessionExpired c.2 now)

def appendS (S : Sessions) (a : Addr) (s : Session) : Sessions :=
  Function.update S (hash s.id SHT_BITS) (S (hash s.id SHT_BITS) ++ [(a, s)])

def modifyS (S : Sessions) (a : Addr) (g : Session → Session) : Sessions :=
  fun h => (S h).map fun c => if c.1 = a then (c.1, g c.2) else c

/-- Every session is in the bucket of the hash of its id, no id occurs twice, and only
sessions that are there have properties. -/
structure Proper (S : Sessions) (P : Props V D) : Prop where
  hashed : ∀ h, ∀ c ∈ S h, hash c.2.id SHT_BITS = h
  ids : ∀ h, ((S h).map fun c => c.2.id).Nodup
  owned : ∀ k, P k ≠ [] → ∃ h, k.1 ∈ addrs (S h)

structure Stored (memory : Memory V D) (S : Sessions) (P : Props V D) : Prop extends
    Proper S P where
  sessions : memory.sessions.Represents S
  props : memory.props.Represents P

section lists

variable {S : Sessions} {P : Props V D} {id : Str} {now : ℤ} {a : Addr} {s : Session}

theorem hash_of_entry (hentry : entry S id = some (a, s)) :
    (a, s) ∈ S (hash id SHT_BITS) ∧ s.id = id := by
  exact ⟨List.mem_of_find?_eq_some hentry, by simpa using List.find?_some hentry⟩

theorem proper_of_sublist {S' : Sessions} {l : List Addr} (h : Proper S P)
    (hsub : ∀ b, (S' b).Sublist (S b))
    (hdrop : ∀ b, ∀ x ∈ addrs (S b), x ∈ l ∨ x ∈ addrs (S' b)) : Proper S' (dropProps P l) where
  hashed b c hc := h.hashed b c ((hsub b).subset hc)
  ids b := (h.ids b).sublist ((hsub b).map _)
  owned k hk := by
    have hnot : k.1 ∉ l := fun hmem => hk (if_pos hmem)
    rw [dropProps, if_neg hnot] at hk
    obtain ⟨b, hb⟩ := h.owned k hk
    exact ⟨b, (hdrop b _ hb).resolve_left hnot⟩

theorem find?_eraseP {A : Type} {p q : A → Bool} {l : List A} (hpq : ∀ x, p x → q x = false) :
    (l.eraseP q).find? p = l.find? p := by
  induction l with
  | nil => rfl
  | cons x l ih =>
    by_cases hq : q x = true
    · have hp : p x = false := by
        by_contra hp
        rw [hpq x (by simpa using hp)] at hq
        cases hq
      rw [List.eraseP_cons_of_pos hq, List.find?_cons_of_neg (by simp [hp])]
    · rw [List.eraseP_cons_of_neg hq, List.find?_cons, List.find?_cons, ih]

theorem erase_split (h : Proper S P) (hentry : entry S id = some (a, s)) :
    ∃ l r, S (hash id SHT_BITS) = l ++ (a, s) :: r ∧
      (S (hash id SHT_BITS)).eraseP (fun c => c.2.id == id) = l ++ r ∧
      ∀ c ∈ l ++ r, c.2.id ≠ id := by
  obtain ⟨hid, l, r, hsplit, hl⟩ := List.find?_eq_some_iff_append.mp hentry
  obtain rfl : s.id = id := by simpa using hid
  have hnot : ∀ c ∈ l, ¬ (c.2.id == s.id) = true := fun c hc => by simpa using hl c hc
  have hnodup := h.ids (hash s.id SHT_BITS)
  rw [hsplit, List.map_append, List.map_cons, List.nodup_append] at hnodup
  obtain ⟨hr, _⟩ := List.nodup_cons.mp hnodup.2.1
  refine ⟨l, r, hsplit, ?_, fun c hc heq => ?_⟩
  · rw [hsplit, List.eraseP_append_right _ hnot, List.eraseP_cons_of_pos (by simp)]
  · rcases List.mem_append.mp hc with hc | hc
    · exact hnot c hc (by simpa using heq)
    · apply hr
      rw [← heq]
      exact List.mem_map_of_mem hc

theorem entry_findS (h : Proper S P) (id' : Str) :
    entry (findS S id now) id' = if id' = id then live S id now else entry S id' := by
  unfold findS
  cases hentry : entry S id with
  | none =>
    by_cases hid : id' = id
    · subst hid
      rw [if_pos rfl, live, hentry]
      rfl
    · rw [if_neg hid]
  | some c =>
    obtain ⟨a, s⟩ := c
    by_cases hexpired : sessionExpired s now = true
    · simp only [hexpired, if_true]
      obtain ⟨l, r, hsplit, herase, hne⟩ := erase_split h hentry
      by_cases hid : id' = id
      · subst hid
        rw [if_pos rfl, live, hentry, Option.filter_some_neg (by simp [hexpired]), entry,
          Function.update_self, herase, List.find?_eq_none]
        exact fun c hc heq => hne c hc (by simpa using heq)
      · rw [if_neg hid]
        unfold entry
        by_cases hbucket : hash id' SHT_BITS = hash id SHT_BITS
        · rw [hbucket, Function.update_self]
          apply find?_eraseP
          intro c hc
          have hc' : c.2.id = id' := by simpa using hc
          simpa [hc'] using hid
        · rw [Function.update_of_ne hbucket]
    · simp only [hexpired, if_false, Bool.false_eq_true]
      by_cases hid : id' = id
      · subst hid
        rw [if_pos rfl, live, hentry, Option.filter_some_pos (by simpa using hexpired)]
      · rw [if_neg hid]

theorem dropProps_nil : dropProps P [] = P := funext fun _ => if_neg List.not_mem_nil

/-- A search that finds nothing that has expired changes nothing. -/
theorem find_unchanged (id : Str) (now : ℤ) (h : ∀ c, entry S id = some c → sessionExpired c.2 now = false) :
    findS S id now = S ∧ findP S P id now = P := by
  unfold findS findP
  cases hentry : entry S id with
  | none => exact ⟨rfl, dropProps_nil⟩
  | some c =>
    have hc := h c hentry
    rw [Option.filter_some_neg (p := fun c : Addr × Session => sessionExpired c.2 now) hc]
    exact ⟨if_neg (by simp [hc]), dropProps_nil⟩

theorem find_expired (hentry : entry S id = some (a, s)) (hs : sessionExpired s now = true) :
    findS S id now = Function.update S (hash id SHT_BITS)
        ((S (hash id SHT_BITS)).eraseP fun c => c.2.id == id) ∧
      findP S P id now = dropProps P [a] := by
  unfold findS findP
  rw [hentry, Option.filter_some_pos (p := fun c : Addr × Session => sessionExpired c.2 now) hs]
  exact ⟨if_pos hs, rfl⟩

theorem proper_find (h : Proper S P) (id : Str) (now : ℤ) :
    Proper (findS S id now) (findP S P id now) := by
  by_cases hexpired : ∀ c, entry S id = some c → sessionExpired c.2 now = false
  · obtain ⟨hsessions, hprops⟩ := find_unchanged (P := P) id now hexpired
    rwa [hsessions, hprops]
  · push Not at hexpired
    obtain ⟨⟨a, s⟩, hentry, hs⟩ := hexpired
    obtain ⟨l, r, hsplit, herase, _⟩ := erase_split h hentry
    obtain ⟨hsessions, hprops⟩ := find_expired (P := P) hentry (by simpa using hs)
    rw [hsessions, hprops, herase]
    apply proper_of_sublist h
    · intro b
      by_cases hb : b = hash id SHT_BITS
      · subst hb
        rw [Function.update_self, hsplit]
        exact List.Sublist.append_left (List.sublist_cons_self ..) _
      · rw [Function.update_of_ne hb]
    · intro b x hx
      by_cases hb : b = hash id SHT_BITS
      · subst hb
        rw [hsplit, addrs_append, addrs_cons] at hx
        rw [Function.update_self, addrs_append]
        simp only [List.mem_append, List.mem_cons] at hx ⊢
        tauto
      · rw [Function.update_of_ne hb]
        exact .inr hx

theorem find?_filter_of_nodup {A B : Type} [BEq B] [LawfulBEq B] {f : A → B} {q : A → Bool} {l : List A}
    (hnodup : (l.map f).Nodup) (b : B) :
    (l.filter q).find? (fun x => f x == b) = (l.find? fun x => f x == b).filter q := by
  induction l with
  | nil => rfl
  | cons x l ih =>
    obtain ⟨hx, hnodup⟩ := List.nodup_cons.mp hnodup
    by_cases hb : f x = b
    · rw [List.find?_cons_of_pos (by simpa using hb)]
      by_cases hq : q x = true
      · rw [List.filter_cons_of_pos hq, List.find?_cons_of_pos (by simpa using hb)]
        simp [Option.filter, hq]
      · rw [List.filter_cons_of_neg hq]
        have hnone : (l.filter q).find? (fun x => f x == b) = none := by
          rw [List.find?_eq_none]
          intro y hy heq
          apply hx
          rw [hb, ← show f y = b by simpa using heq]
          exact List.mem_map_of_mem (List.mem_of_mem_filter hy)
        rw [hnone]
        simp [Option.filter, hq]
    · rw [List.find?_cons_of_neg (by simpa using hb), ← ih hnodup]
      by_cases hq : q x = true
      · rw [List.filter_cons_of_pos hq, List.find?_cons_of_neg (by simpa using hb)]
      · rw [List.filter_cons_of_neg hq]

theorem entry_cleanS (h : Proper S P) : entry (cleanS S now) id = live S id now :=
  find?_filter_of_nodup (h.ids (hash id SHT_BITS)) id

theorem proper_clean (h : Proper S P) (now : ℤ) :
    Proper (cleanS S now) (dropProps P (expiredIn S now (List.finRange _))) := by
  apply proper_of_sublist h
  · exact fun b => List.filter_sublist
  · intro b x hx
    obtain ⟨c, hc, rfl⟩ := List.mem_map.mp hx
    by_cases hexpired : sessionExpired c.2 now = true
    · left
      refine List.mem_flatMap.mpr ⟨b, List.mem_finRange b, ?_⟩
      exact List.mem_map_of_mem (List.mem_filter.mpr ⟨hc, hexpired⟩)
    · right
      exact List.mem_map_of_mem (List.mem_filter.mpr ⟨hc, by simpa using hexpired⟩)

theorem entry_appendS (hnone : entry S s.id = none) (id : Str) :
    entry (appendS S a s) id = if id = s.id then some (a, s) else entry S id := by
  by_cases hid : id = s.id
  · subst hid
    rw [if_pos rfl, entry, appendS, Function.update_self, List.find?_append]
    rw [entry] at hnone
    rw [hnone]
    simp
  · rw [if_neg hid, entry, appendS]
    by_cases hbucket : hash id SHT_BITS = hash s.id SHT_BITS
    · have hne : ¬ (s.id == id) = true := by simpa using Ne.symm hid
      rw [hbucket, Function.update_self, List.find?_append, List.find?_singleton, if_neg hne,
        Option.or_none, entry, hbucket]
    · rw [Function.update_of_ne hbucket, entry]

theorem proper_append (h : Proper S P) (hnone : entry S s.id = none) :
    Proper (appendS S a s) P where
  hashed b c hc := by
    by_cases hb : b = hash s.id SHT_BITS
    · subst hb
      rw [appendS, Function.update_self, List.mem_append, List.mem_singleton] at hc
      rcases hc with hc | rfl
      · exact h.hashed _ c hc
      · rfl
    · rw [appendS, Function.update_of_ne hb] at hc
      exact h.hashed b c hc
  ids b := by
    by_cases hb : b = hash s.id SHT_BITS
    · subst hb
      rw [appendS, Function.update_self, List.map_append, List.nodup_append]
      refine ⟨h.ids _, by simp, fun x hx y hy => ?_⟩
      obtain rfl : y = s.id := by simpa using hy
      obtain ⟨c, hc, rfl⟩ := List.mem_map.mp hx
      intro heq
      exact List.find?_eq_none.mp hnone c hc (by simpa using heq)
    · rw [appendS, Function.update_of_ne hb]
      exact h.ids b
  owned k hk := by
    obtain ⟨b, hb⟩ := h.owned k hk
    refine ⟨b, ?_⟩
    by_cases heq : b = hash s.id SHT_BITS
    · subst heq
      rw [appendS, Function.update_self, addrs_append]
      exact List.mem_append_left _ hb
    · rwa [appendS, Function.update_of_ne heq]

theorem addrs_modifyS {g : Session → Session} (b : Fin (2 ^ SHT_BITS)) :
    addrs (modifyS S a g b) = addrs (S b) := by
  rw [addrs, modifyS, List.map_map]
  apply List.map_congr_left
  intro c _
  simp only [Function.comp]
  split <;> rfl

theorem entry_modifyS {g : Session → Session} (hg : ∀ s, (g s).id = s.id) (id : Str) :
    entry (modifyS S a g) id =
      (entry S id).map fun c => if c.1 = a then (c.1, g c.2) else c := by
  rw [entry, modifyS, List.find?_map, entry]
  congr 2
  funext c
  simp only [Function.comp]
  split
  · rw [hg]
  · rfl

theorem proper_modify {g : Session → Session} (h : Proper S P) (hg : ∀ s, (g s).id = s.id) :
    Proper (modifyS S a g) P where
  hashed b c hc := by
    obtain ⟨d, hd, rfl⟩ := List.mem_map.mp hc
    split
    · rw [hg]
      exact h.hashed b d hd
    · exact h.hashed b d hd
  ids b := by
    have hsame : (modifyS S a g b).map (fun c => c.2.id) = (S b).map fun c => c.2.id := by
      rw [modifyS, List.map_map]
      apply List.map_congr_left
      intro c _
      simp only [Function.comp]
      split
      · rw [hg]
      · rfl
    rw [hsame]
    exact h.ids b
  owned k hk := by
    obtain ⟨b, hb⟩ := h.owned k hk
    exact ⟨b, by rwa [addrs_modifyS]⟩

end lists

/-! ### The loops -/

section loops

variable {self : Memory V D} {S : Sessions} {P : Props V D} {now : ℤ} {a : Addr}

theorem dropProps_append (l r : List Addr) :
    dropProps (dropProps P l) r = dropProps P (l ++ r) := by
  funext k
  unfold dropProps
  by_cases hr : k.1 ∈ r
  · simp [hr]
  · by_cases hl : k.1 ∈ l
    · simp [hl]
    · simp [hl, hr]

theorem deleteBuckets_spec (h : self.props.Represents P) (a : Addr)
    (ps : List (Fin (2 ^ SPHT_BITS))) :
    ∃ self', ps.foldlM (fun (self : Memory V D) p => (self.props.discard (a, p)).bind fun r =>
        some { self with
          props := r.1
          deleted := self.deleted ++
            r.2.filterMap fun q => q.deleter.map fun d => (d, q.value) }) self = some self' ∧
      self'.sessions = self.sessions ∧ self'.cleantime = self.cleantime ∧
      self'.props.Represents fun k => if k.1 = a ∧ k.2 ∈ ps then [] else P k := by
  induction ps generalizing self P with
  | nil =>
    refine ⟨self, rfl, rfl, rfl, ?_⟩
    simpa using h
  | cons p ps ih =>
    obtain ⟨props, hdiscard, _, hprops⟩ := h.discard (a, p)
    have hnext : ({ self with
      props
      deleted := self.deleted ++ ((P (a, p)).map Prod.snd).filterMap fun q =>
        q.deleter.map fun d => (d, q.value) } : Memory V D).props.Represents _ := hprops
    obtain ⟨self', hfold, hsessions, htime, hrep⟩ := ih hnext
    refine ⟨self', ?_, hsessions, htime, ?_⟩
    · rw [List.foldlM_cons, hdiscard]
      exact hfold
    · convert hrep using 1
      funext ⟨b, q⟩
      by_cases hb : b = a
      · subst hb
        by_cases hq : q = p
        · subst hq
          simp
        · simp [hq]
      · simp [hb]

theorem deleteSession_spec (h : self.props.Represents P) (a : Addr) :
    ∃ self', self.deleteSession a = some self' ∧ self'.sessions = self.sessions ∧
      self'.cleantime = self.cleantime ∧ self'.props.Represents (dropProps P [a]) := by
  obtain ⟨self', hfold, hsessions, htime, hrep⟩ :=
    deleteBuckets_spec h a (List.finRange (2 ^ SPHT_BITS))
  refine ⟨self', hfold, hsessions, htime, ?_⟩
  convert hrep using 1
  funext k
  simp [dropProps]

theorem deleteSessions_spec (h : self.props.Represents P) (l : List Addr) :
    ∃ self', l.foldlM Memory.deleteSession self = some self' ∧ self'.sessions = self.sessions ∧
      self'.cleantime = self.cleantime ∧ self'.props.Represents (dropProps P l) := by
  induction l generalizing self P with
  | nil => exact ⟨self, rfl, rfl, rfl, by rwa [dropProps_nil]⟩
  | cons a l ih =>
    obtain ⟨mid, hmid, hsessions, htime, hrep⟩ := deleteSession_spec h a
    obtain ⟨self', hfold, hsessions', htime', hrep'⟩ := ih hrep
    refine ⟨self', ?_, hsessions'.trans hsessions, htime'.trans htime, ?_⟩
    · rw [List.foldlM_cons, hmid]
      exact hfold
    · rwa [dropProps_append] at hrep'

theorem findSession_spec (h : Stored self S P) (id : Str) (now : ℤ) :
    ∃ self', self.findSession id now = some (self', (live S id now).map Prod.fst) ∧
      self'.cleantime = self.cleantime ∧ self'.sessions.allocated = self.sessions.allocated ∧
      Stored self' (findS S id now) (findP S P id now) := by
  have hproper := proper_find h.toProper id now
  cases hentry : entry S id with
  | none =>
    obtain ⟨hsessions, hprops⟩ := find_unchanged (S := S) (P := P) id now
      (by simp [hentry])
    have hnone : ∀ c ∈ S (hash id SHT_BITS), (c.2.id == id) = false := by
      intro c hc
      simpa using List.find?_eq_none.mp hentry c hc
    refine ⟨self, ?_, rfl, rfl, by rwa [hsessions, hprops]⟩
    rw [Memory.findSession, h.sessions.search_none (f := fun s : Session => s.id == id) hnone,
      live, hentry]
    rfl
  | some c =>
    obtain ⟨a, s⟩ := c
    obtain ⟨hid, l, r, hsplit, hl⟩ := List.find?_eq_some_iff_append.mp hentry
    have hsearch := h.sessions.search_found (f := fun s : Session => s.id == id) hsplit
      (fun c hc => by simpa using hl c hc) hid
    have hread := h.sessions.read_eq (hash_of_entry hentry).1
    by_cases hs : sessionExpired s now = true
    · obtain ⟨hsessions, hprops⟩ := find_expired (P := P) hentry hs
      obtain ⟨l', r', hsplit', herase, _⟩ := erase_split h.toProper hentry
      obtain ⟨n, sessions, hnode, hunlink, _, hrep⟩ := h.sessions.unlink hsplit
      have hpropsKept : ({ self with sessions } : Memory V D).props.Represents P := h.props
      obtain ⟨self', hdelete, hsame, htime, hrepProps⟩ := deleteSession_spec hpropsKept a
      refine ⟨self', ?_, htime, ?_, ⟨hproper, ?_, by rwa [hprops]⟩⟩
      · rw [Memory.findSession, hsearch, live, hentry,
          Option.filter_some_neg (p := fun c : Addr × Session => !sessionExpired c.2 now)
            (by simp [hs])]
        simp only [Option.bind_eq_bind, Option.bind_some, hread, hs, if_true, Option.map_none]
        rw [Chains.unlink, hnode, Option.map_some, ← hunlink, Option.bind_some, hdelete]
        rfl
      · rw [hsame, hunlink]
        exact Chains.link_allocated ..
      · rw [hsame, hsessions, hsplit, List.eraseP_append_right, List.eraseP_cons_of_pos]
        · exact hrep
        · exact hid
        · exact fun c hc => by simpa using hl c hc
    · obtain ⟨hsessions, hprops⟩ := find_unchanged (S := S) (P := P) id now
        (by simpa [hentry] using hs)
      refine ⟨self, ?_, rfl, rfl, by rwa [hsessions, hprops]⟩
      rw [Memory.findSession, hsearch, live, hentry,
        Option.filter_some_pos (p := fun c : Addr × Session => !sessionExpired c.2 now)
          (by simpa using hs)]
      simp only [Option.bind_eq_bind, Option.bind_some, hread, hs, if_false, Bool.false_eq_true]
      rfl

theorem cleanBuckets_spec (hsessions : self.sessions.Represents S) (hprops : self.props.Represents P)
    (now : ℤ) (hs : List (Fin (2 ^ SHT_BITS))) (hnodup : hs.Nodup) :
    ∃ self', hs.foldlM (fun (self : Memory V D) h =>
        (self.sessions.sweep (fun s => sessionExpired s now) h).bind fun r =>
          r.2.foldlM Memory.deleteSession { self with sessions := r.1 }) self = some self' ∧
      self'.cleantime = self.cleantime ∧
      self'.sessions.allocated = self.sessions.allocated ∧
      self'.sessions.Represents
        (fun h => if h ∈ hs then (S h).filter fun c => !sessionExpired c.2 now else S h) ∧
      self'.props.Represents (dropProps P (expiredIn S now hs)) := by
  induction hs generalizing self S P with
  | nil =>
    refine ⟨self, rfl, rfl, rfl, ?_, ?_⟩
    · simpa using hsessions
    · rwa [expiredIn, List.flatMap_nil, dropProps_nil]
  | cons h hs ih =>
    obtain ⟨hnot, hnodup⟩ := List.nodup_cons.mp hnodup
    obtain ⟨sessions, hsweep, halloc, hrep⟩ :=
      hsessions.sweep (fun s => sessionExpired s now) h
    have hpropsKept : ({ self with sessions } : Memory V D).props.Represents P := hprops
    obtain ⟨mid, hmid, hsame, htime, hrepProps⟩ :=
      deleteSessions_spec hpropsKept (addrs ((S h).filter fun c => sessionExpired c.2 now))
    have hrepMid : mid.sessions.Represents
        (Function.update S h ((S h).filter fun c => !sessionExpired c.2 now)) := by
      rw [hsame]
      exact hrep
    obtain ⟨self', hfold, htime', halloc', hrep', hrepProps'⟩ := ih hrepMid hrepProps hnodup
    refine ⟨self', ?_, htime'.trans htime, ?_, ?_, ?_⟩
    · rw [List.foldlM_cons, hsweep, Option.bind_some, hmid]
      exact hfold
    · rw [halloc', hsame]
      exact halloc
    · convert hrep' using 1
      funext h'
      by_cases hh : h' = h
      · subst hh
        simp [hnot]
      · simp [hh]
    · rw [dropProps_append] at hrepProps'
      have hsame : expiredIn (Function.update S h
          ((S h).filter fun c => !sessionExpired c.2 now)) now hs = expiredIn S now hs := by
        apply List.flatMap_congr
        intro h' hh'
        have hne : h' ≠ h := by
          rintro rfl
          exact hnot hh'
        rw [Function.update_of_ne hne]
      rwa [hsame] at hrepProps'

/-- Cleaning is skipped, or takes away all sessions that have expired. -/
theorem clean_spec (h : Stored self S P) (now : ℤ) :
    ∃ self', self.clean now = some self' ∧
      self'.sessions.allocated = self.sessions.allocated ∧
      ((now - self.cleantime < CLEANINTERVAL ∧ self' = self) ∨
        (¬ now - self.cleantime < CLEANINTERVAL ∧ self'.cleantime = now ∧
          Stored self' (cleanS S now) (dropProps P (expiredIn S now (List.finRange _))))) := by
  by_cases hrecent : now - self.cleantime < CLEANINTERVAL
  · exact ⟨self, if_pos hrecent, rfl, .inl ⟨hrecent, rfl⟩⟩
  · have hsessions : ({ self with cleantime := now } : Memory V D).sessions.Represents S :=
      h.sessions
    obtain ⟨self', hfold, htime, halloc, hrep, hrepProps⟩ :=
      cleanBuckets_spec hsessions h.props now (List.finRange _) (List.nodup_finRange _)
    refine ⟨self', (if_neg hrecent).trans hfold, halloc, .inr ⟨hrecent, htime, ?_⟩⟩
    refine ⟨proper_clean h.toProper now, ?_, hrepProps⟩
    convert hrep using 1
    funext b
    rw [if_pos (List.mem_finRange b)]
    rfl

/-- The first id that finds no session is taken. -/
theorem freshId_spec (h : Stored self S P) (now : ℤ) (draws : List (List Byte)) :
    match draws.find? fun d => (live S (rndStr d) now).isNone with
    | none => self.freshId now draws = none
    | some d => ∃ self', self.freshId now draws = some (self', rndStr d) ∧
        self'.cleantime = self.cleantime ∧ self'.sessions.allocated = self.sessions.allocated ∧
        Stored self' (findS S (rndStr d) now) (findP S P (rndStr d) now) := by
  induction draws generalizing self S P with
  | nil => rfl
  | cons d draws ih =>
    obtain ⟨self', hfind, htime, halloc, hstored⟩ := findSession_spec h (rndStr d) now
    cases hlive : live S (rndStr d) now with
    | none =>
      rw [List.find?_cons_of_pos (by simp [hlive])]
      rw [hlive] at hfind
      refine ⟨self', ?_, htime, halloc, hstored⟩
      rw [Memory.freshId, hfind]
      rfl
    | some c =>
      obtain ⟨hentry, hnot⟩ := Option.filter_eq_some_iff.mp hlive
      obtain ⟨hsessions, hprops⟩ := find_unchanged (S := S) (P := P) (rndStr d) now
        (by simpa [hentry] using hnot)
      rw [hsessions, hprops] at hstored
      rw [List.find?_cons_of_neg (by simp [hlive])]
      rw [hlive] at hfind
      have hnext := ih hstored
      rw [htime, halloc] at hnext
      convert hnext using 3 <;> rw [Memory.freshId, hfind] <;> rfl

/-- A new session has the first free id, stands at the end of the bucket of that id and
has no properties. -/
theorem createSession_spec (h : Stored self S P) (now : ℤ) (draws : List (List Byte)) :
    match draws.find? fun d => (live S (rndStr d) now).isNone with
    | none => self.createSession now draws = none
    | some d => ∃ self', self.createSession now draws = some (self', self.sessions.allocated) ∧
        self'.cleantime = self.cleantime ∧
        self'.sessions.allocated = self.sessions.allocated + 1 ∧
        Stored self' (appendS (findS S (rndStr d) now) self.sessions.allocated
          ⟨rndStr d, none, now, now⟩) (findP S P (rndStr d) now) := by
  have hfresh := freshId_spec h now draws
  cases hdraw : draws.find? fun d => (live S (rndStr d) now).isNone with
  | none =>
    rw [hdraw] at hfresh
    have hnone : self.freshId now draws = none := hfresh
    show self.createSession now draws = none
    rw [Memory.createSession, hnone]
    rfl
  | some d =>
    rw [hdraw] at hfresh
    obtain ⟨mid, hid, htime, halloc, hstored⟩ := hfresh
    have hlive : live S (rndStr d) now = none := by
      simpa using List.find?_some hdraw
    have hnone : entry (findS S (rndStr d) now) (rndStr d) = none := by
      rw [entry_findS h.toProper, if_pos rfl, hlive]
    obtain ⟨sessions, happend, halloc', hrep⟩ :=
      hstored.sessions.append (hash (rndStr d) SHT_BITS) ⟨rndStr d, none, now, now⟩
    have hempty : ∀ p, findP S P (rndStr d) now (mid.sessions.allocated, p) = [] := by
      intro p
      by_contra hne
      obtain ⟨b, hb⟩ := hstored.owned _ hne
      exact hstored.sessions.notMem (Nat.le_refl _) b hb
    have hheads : (fun k : Addr × Fin (2 ^ SPHT_BITS) =>
        if k.1 = mid.sessions.allocated then none else mid.props.head k) = mid.props.head := by
      funext k
      by_cases hk : k.1 = mid.sessions.allocated
      · have hchain := hstored.props.chain k
        rw [← Prod.mk.eta (p := k), hk, hempty] at hchain
        rw [if_pos hk, ← Prod.mk.eta (p := k), hk]
        exact hchain.symm
      · rw [if_neg hk]
    refine ⟨{ mid with sessions }, ?_, htime, ?_, proper_append hstored.toProper hnone, ?_,
      hstored.props⟩
    · rw [halloc] at hheads
      rw [Memory.createSession, hid]
      simp only [Option.bind_eq_bind, Option.bind_some, happend, halloc, hheads]
      rfl
    · rw [← halloc]
      exact halloc'
    · rw [← halloc]
      exact hrep

theorem findProp_spec (h : self.props.Represents P) (a : Addr) (key : Str) :
    self.findProp a key =
      some (((P (a, hash key SPHT_BITS)).find? fun c => c.2.name == key).map Prod.fst) := by
  cases hfind : (P (a, hash key SPHT_BITS)).find? fun c => c.2.name == key with
  | none =>
    rw [Memory.findProp, h.search_none (f := fun p : SessionProp V D => p.name == key)]
    · rfl
    · intro c hc
      simpa using List.find?_eq_none.mp hfind c hc
  | some c =>
    obtain ⟨p, q⟩ := c
    obtain ⟨hname, l, r, hsplit, hl⟩ := List.find?_eq_some_iff_append.mp hfind
    rw [Memory.findProp, h.search_found (f := fun p : SessionProp V D => p.name == key) hsplit]
    · rfl
    · exact fun c hc => by simpa using hl c hc
    · exact hname

theorem getProp_spec (h : self.props.Represents P) (a : Addr) (key : Str) :
    self.getProp a key = some (propVal P a key) := by
  rw [Memory.getProp, findProp_spec h, propVal]
  cases hfind : (P (a, hash key SPHT_BITS)).find? fun c => c.2.name == key with
  | none => rfl
  | some c =>
    obtain ⟨p, q⟩ := c
    have hread := h.read_eq (List.mem_of_find?_eq_some hfind)
    show (self.props.read p).map _ = _
    rw [hread]
    rfl

def findCell (P : Props V D) (a : Addr) (key : Str) : Option (Addr × SessionProp V D) :=
  (P (a, hash key SPHT_BITS)).find? fun c => c.2.name == key

theorem insertOrUpdate_spec (h : Stored self S P) {b : Fin (2 ^ SHT_BITS)} (ha : a ∈ addrs (S b))
    (key : Str) :
    ∃ self' P' p q, self.insertOrUpdate a key = some (self', p) ∧
      self'.sessions = self.sessions ∧ self'.cleantime = self.cleantime ∧ Stored self' S P' ∧
      findCell P' a key = some (p, q) ∧
      ∀ c key', ¬ (c = a ∧ key' = key) → findCell P' c key' = findCell P c key' := by
  cases hfind : findCell P a key with
  | some c =>
    obtain ⟨p, q⟩ := c
    have hread := h.props.read_eq (List.mem_of_find?_eq_some hfind)
    refine ⟨{ self with
      deleted := self.deleted ++ (q.deleter.map fun d => (d, q.value)).toList }, P, p, q, ?_,
      rfl, rfl, ⟨h.toProper, h.sessions, h.props⟩, hfind, fun _ _ _ => rfl⟩
    rw [Memory.insertOrUpdate, findProp_spec h.props, ← findCell, hfind]
    simp only [Option.map_some, Option.bind_eq_bind, Option.bind_some, hread]
    rfl
  | none =>
    obtain ⟨props, happend, _, hrep⟩ :=
      h.props.append (a, hash key SPHT_BITS) (⟨key, none, none⟩ : SessionProp V D)
    refine ⟨{ self with props }, _, self.props.allocated, ⟨key, none, none⟩, ?_, rfl, rfl,
      ⟨⟨h.hashed, h.ids, fun k hk => ?_⟩, h.sessions, hrep⟩, ?_, fun c key' hne => ?_⟩
    · rw [Memory.insertOrUpdate, findProp_spec h.props, ← findCell, hfind]
      simp only [Option.map_none, Option.bind_eq_bind, Option.bind_some, happend]
      rfl
    · by_cases heq : k = (a, hash key SPHT_BITS)
      · subst heq
        exact ⟨b, ha⟩
      · rw [Function.update_of_ne heq] at hk
        exact h.owned k hk
    · have hnone : ((P (a, hash key SPHT_BITS)).find? fun c => c.2.name == key) = none := hfind
      rw [findCell, Function.update_self, List.find?_append, hnone]
      simp
    · unfold findCell
      by_cases heq : (c, hash key' SPHT_BITS) = (a, hash key SPHT_BITS)
      · obtain ⟨rfl, hbucket⟩ := Prod.mk.inj heq
        have hkey : ¬ (key == key') = true := by
          intro hkey
          exact hne ⟨rfl, (beq_iff_eq.mp hkey).symm⟩
        rw [hbucket, Function.update_self, List.find?_append, List.find?_singleton, if_neg hkey,
          Option.or_none]
      · rw [Function.update_of_ne heq]

/-- A property is set in its session only. -/
theorem setProp_spec (h : Stored self S P) {b : Fin (2 ^ SHT_BITS)} (ha : a ∈ addrs (S b))
    (key : Str) (obj : Option V) (deleter : Option D) :
    ∃ self' P', self.setProp a key obj deleter = some self' ∧ self'.sessions = self.sessions ∧
      self'.cleantime = self.cleantime ∧ Stored self' S P' ∧
      ∀ c key', propVal P' c key' = if c = a ∧ key' = key then obj else propVal P c key' := by
  obtain ⟨mid, P₁, p, q, hinsert, hsessions, htime, hstored, hcell, hothers⟩ :=
    insertOrUpdate_spec h ha key
  have hrep := hstored.props.modify p fun q => ⟨q.name, obj, deleter⟩
  refine ⟨{ mid with props := mid.props.modify p fun q => ⟨q.name, obj, deleter⟩ }, _, ?_,
    hsessions, htime, ⟨⟨h.hashed, h.ids, fun k hk => ?_⟩, hstored.sessions, hrep⟩,
    fun c key' => ?_⟩
  · rw [Memory.setProp, hinsert]
    rfl
  · apply hstored.owned k
    intro hnil
    rw [hnil] at hk
    exact hk rfl
  · have hval : ∀ c key', propVal (fun k => (P₁ k).map fun c =>
        if c.1 = p then (c.1, (⟨c.2.name, obj, deleter⟩ : SessionProp V D)) else c) c key' =
        (findCell P₁ c key').bind fun x => if x.1 = p then obj else x.2.value := by
      intro c key'
      rw [propVal, List.find?_map, Option.bind_map, findCell]
      congr 1
      · congr 1
        funext x
        simp only [Function.comp]
        split <;> rfl
      · funext x
        simp only [Function.comp]
        split <;> rfl
    rw [hval]
    by_cases hsame : c = a ∧ key' = key
    · obtain ⟨rfl, rfl⟩ := hsame
      rw [hcell, if_pos ⟨rfl, rfl⟩, Option.bind_some, if_pos rfl]
    · have hvalue : propVal P c key' = (findCell P c key').bind fun x => x.2.value := rfl
      rw [if_neg hsame, hvalue, ← hothers c key' hsame]
      cases hother : findCell P₁ c key' with
      | none => rfl
      | some x =>
        obtain ⟨p', q'⟩ := x
        have hne : p' ≠ p := by
          rintro rfl
          have hmem := List.mem_of_find?_eq_some hother
          have hmem' := List.mem_of_find?_eq_some hcell
          have hbucket := hstored.props.apart _ _ p' (List.mem_map_of_mem hmem)
            (List.mem_map_of_mem hmem')
          have hread := hstored.props.read_eq hmem
          rw [hstored.props.read_eq hmem'] at hread
          obtain rfl := Option.some.inj hread
          have hname : q.name = key := by simpa using List.find?_some hcell
          have hname' : q.name = key' := by simpa using List.find?_some hother
          exact hsame ⟨(Prod.mk.inj hbucket).1, hname'.symm.trans hname⟩
        rw [Option.bind_some, Option.bind_some, if_neg hne]

/-- The value of every property after these are set. -/
def setAll (sets : List (Str × Option V × Option D)) (f : Str → Option V) : Str → Option V :=
  sets.foldl (fun f q => Function.update f q.1 q.2.1) f

theorem setProps_spec (h : Stored self S P) {b : Fin (2 ^ SHT_BITS)} (ha : a ∈ addrs (S b))
    (sets : List (Str × Option V × Option D)) :
    ∃ self' P', sets.foldlM (fun (self : Memory V D) q => self.setProp a q.1 q.2.1 q.2.2) self =
        some self' ∧ self'.sessions = self.sessions ∧ self'.cleantime = self.cleantime ∧
      Stored self' S P' ∧
      ∀ c, propVal P' c = if c = a then setAll sets (propVal P a) else propVal P c := by
  induction sets generalizing self P with
  | nil =>
    refine ⟨self, P, rfl, rfl, rfl, h, fun c => ?_⟩
    by_cases hc : c = a
    · subst hc
      rw [if_pos rfl]
      rfl
    · rw [if_neg hc]
  | cons q sets ih =>
    obtain ⟨mid, P₁, hset, hsessions, htime, hstored, hval⟩ := setProp_spec h ha q.1 q.2.1 q.2.2
    obtain ⟨self', P', hfold, hsessions', htime', hstored', hval'⟩ := ih hstored
    refine ⟨self', P', ?_, hsessions'.trans hsessions, htime'.trans htime, hstored', fun c => ?_⟩
    · rw [List.foldlM_cons, hset]
      exact hfold
    · rw [hval']
      by_cases hc : c = a
      · subst hc
        rw [if_pos rfl, if_pos rfl]
        have hnow : propVal P₁ c = Function.update (propVal P c) q.1 q.2.1 := by
          funext key
          rw [hval, Function.update_apply]
          simp
        rw [hnow]
        rfl
      · rw [if_neg hc, if_neg hc]
        funext key
        rw [hval, if_neg fun hboth => hc hboth.1]

theorem stored_modify (h : Stored self S P) {g : Session → Session} (hg : ∀ s, (g s).id = s.id) :
    Stored { self with sessions := self.sessions.modify a g } (modifyS S a g) P :=
  ⟨proper_modify h.toProper hg, h.sessions.modify a g, h.props⟩

/-- The handlers set properties of their session; the referrer is neither id nor time. -/
theorem callNext_spec (h : Stored self S P) {b : Fin (2 ^ SHT_BITS)} (ha : a ∈ addrs (S b))
    (req : Request V D) :
    ∃ self' S' P', self.callNext a req = some self' ∧ self'.cleantime = self.cleantime ∧
      self'.sessions.allocated = self.sessions.allocated ∧ Stored self' S' P' ∧
      (∀ id, (entry S' id).map record = (entry S id).map record) ∧
      ∀ c, propVal P' c = if c = a then setAll req.sets (propVal P a) else propVal P c := by
  obtain ⟨mid, P', hfold, hsessions, htime, hstored, hval⟩ := setProps_spec h ha req.sets
  cases hpage : req.page with
  | none =>
    refine ⟨mid, S, P', ?_, htime, by rw [hsessions], hstored, fun _ => rfl, hval⟩
    rw [Memory.callNext, hpage]
    exact congrArg (fun x => x >>= fun s => pure s) hfold
  | some path =>
    have hid : ∀ s : Session, ({ s with referrer := some path } : Session).id = s.id := fun _ => rfl
    refine ⟨{ mid with sessions := mid.sessions.modify a fun s => { s with referrer := some path } },
      _, P', ?_, htime, ?_, stored_modify hstored hid, fun id => ?_, hval⟩
    · rw [Memory.callNext, hpage]
      exact congrArg (fun x => x >>= fun (s : Memory V D) => pure { s with
        sessions := s.sessions.modify a fun s => { s with referrer := some path } }) hfold
    · show mid.sessions.allocated = _
      rw [hsessions]
    · rw [entry_modifyS hid, Option.map_map]
      congr 1
      funext c
      simp only [Function.comp]
      split <;> rfl

end loops

/-! ### The lists of the store -/

section store

open SessionStore (Store newSession)

def view (s : SessionStore.Session) : Addr × Session :=
  (s.ref, ⟨s.id, s.referrer, s.ctime, s.atime⟩)

def viewStore (store : Store) : Sessions := fun h => (store.buckets h).map view

/-- The chains hold the sessions of the store, in the same order. -/
structure Holds (memory : Memory V D) (store : Store) : Prop where
  stored : ∃ P, Stored memory (viewStore store) P
  cleantime : memory.cleantime = store.cleantime
  allocated : memory.sessions.allocated = store.created

variable {self : Memory V D} {store : Store} {now : ℤ}

theorem entry_viewStore (id : Str) :
    entry (viewStore store) id =
      ((store.buckets (hash id SHT_BITS)).find? fun s => s.id == id).map view := by
  rw [entry, viewStore, List.find?_map]
  rfl

theorem findS_viewStore (id : Str) :
    findS (viewStore store) id now = viewStore (store.find id now).1 ∧
      (live (viewStore store) id now).map Prod.fst = (store.find id now).2.map fun s => s.ref := by
  simp only [Store.find]
  cases hfind : (store.buckets (hash id SHT_BITS)).find? fun s => s.id == id with
  | none =>
    have hnone : entry (viewStore store) id = none := by rw [entry_viewStore, hfind]; rfl
    refine ⟨?_, by rw [live, hnone]; rfl⟩
    unfold findS
    rw [hnone]
  | some s =>
    have hsome : entry (viewStore store) id = some (view s) := by rw [entry_viewStore, hfind]; rfl
    have hview : sessionExpired (view s).2 now = SessionStore.sessionExpired s now := rfl
    by_cases hs : SessionStore.sessionExpired s now = true
    · simp only [hs, if_true]
      have hexpired : sessionExpired (view s).2 now = true := hview.trans hs
      constructor
      · have herase := (find_expired (P := fun _ : Addr × Fin (2 ^ SPHT_BITS) =>
          ([] : List (Addr × SessionProp Unit Unit))) hsome hexpired).1
        rw [herase]
        funext h
        by_cases hh : h = hash id SHT_BITS
        · subst hh
          rw [Function.update_self]
          show _ = List.map view (Function.update store.buckets _ _ _)
          rw [Function.update_self, viewStore, List.eraseP_map]
          rfl
        · rw [Function.update_of_ne hh]
          show _ = List.map view (Function.update store.buckets _ _ _)
          rw [Function.update_of_ne hh]
          rfl
      · rw [live, hsome, Option.filter_some_neg (p := fun c : Addr × Session =>
          !sessionExpired c.2 now) (by simp [hexpired])]
        rfl
    · simp only [hs, if_false, Bool.false_eq_true]
      constructor
      · unfold findS
        rw [hsome]
        exact if_neg (by simpa [hview] using hs)
      · rw [live, hsome, Option.filter_some_pos (p := fun c : Addr × Session =>
          !sessionExpired c.2 now) (by simpa [hview] using hs)]
        rfl

theorem cleantime_find {id : Str} : (store.find id now).1.cleantime = store.cleantime := by
  simp only [Store.find]
  split
  · rfl
  · split <;> rfl

theorem findSession_holds (h : Holds self store) (id : Str) (now : ℤ) :
    ∃ self', self.findSession id now =
        some (self', (store.find id now).2.map fun s => s.ref) ∧
      Holds self' (store.find id now).1 := by
  obtain ⟨P, hstored⟩ := h.stored
  obtain ⟨self', hfind, htime, halloc, hstored'⟩ := findSession_spec hstored id now
  obtain ⟨hS, hfound⟩ := @findS_viewStore store now id
  rw [hS] at hstored'
  refine ⟨self', by rw [hfind, hfound], ⟨_, hstored'⟩, ?_, ?_⟩
  · rw [htime, h.cleantime, cleantime_find]
  · rw [halloc, h.allocated, SessionStore.created_find]

theorem clean_holds (h : Holds self store) (now : ℤ) :
    ∃ self', self.clean now = some self' ∧ Holds self' (store.clean now) := by
  obtain ⟨P, hstored⟩ := h.stored
  obtain ⟨self', hclean, halloc, hcase⟩ := clean_spec hstored now
  refine ⟨self', hclean, ?_⟩
  unfold Store.clean
  rcases hcase with ⟨hrecent, rfl⟩ | ⟨hold, htime, hstored'⟩
  · rw [h.cleantime] at hrecent
    rw [if_pos hrecent]
    exact h
  · rw [h.cleantime] at hold
    rw [if_neg hold]
    have hS : viewStore { store with
        buckets := fun h => (store.buckets h).filter fun s => !SessionStore.sessionExpired s now
        cleantime := now } = cleanS (viewStore store) now := by
      funext b
      rw [cleanS, viewStore, viewStore, List.filter_map]
      rfl
    rw [← hS] at hstored'
    exact ⟨⟨_, hstored'⟩, htime, halloc.trans h.allocated⟩

theorem store_find_some {store' : Store} {id : Str} {s : SessionStore.Session}
    (h : store.find id now = (store', some s)) : store' = store := by
  simp only [Store.find] at h
  split at h
  · cases h
  · split at h
    · cases h
    · exact (Prod.mk.inj h).1.symm

theorem store_freshId (draws : List (List Byte)) :
    store.freshId now draws =
      (draws.find? fun d => (store.find (rndStr d) now).2.isNone).map fun d =>
        ((store.find (rndStr d) now).1, rndStr d) := by
  induction draws with
  | nil => rfl
  | cons d draws ih =>
    rw [Store.freshId]
    cases hfind : store.find (rndStr d) now with
    | mk store' found =>
      cases found with
      | none =>
        rw [List.find?_cons_of_pos (by simp [hfind]), Option.map_some, hfind]
      | some s =>
        obtain rfl := store_find_some hfind
        rw [List.find?_cons_of_neg (by simp [hfind])]
        exact ih

/-- The chains of the memory do what the lists of the store do. -/
theorem createSession_holds (h : Holds self store) (now : ℤ) (draws : List (List Byte)) :
    match store.createSession now draws with
    | none => self.createSession now draws = none
    | some (store', session) => ∃ self', self.createSession now draws = some (self', session.ref) ∧
        Holds self' store' := by
  obtain ⟨P, hstored⟩ := h.stored
  have hcreate := createSession_spec hstored now draws
  have hdraws : (fun d : List Byte => (live (viewStore store) (rndStr d) now).isNone) =
      fun d => (store.find (rndStr d) now).2.isNone := by
    funext d
    rw [← Option.isNone_map (f := Prod.fst), (findS_viewStore _).2, Option.isNone_map]
  rw [hdraws] at hcreate
  rw [Store.createSession, store_freshId]
  cases hfind : draws.find? fun d => (store.find (rndStr d) now).2.isNone with
  | none =>
    rw [hfind] at hcreate
    exact hcreate
  | some d =>
    rw [hfind] at hcreate
    obtain ⟨self', hself, htime, halloc, hstored'⟩ := hcreate
    rw [(findS_viewStore _).1, h.allocated] at hstored'
    rw [h.allocated] at hself halloc
    have hcreated : (store.find (rndStr d) now).1.created = store.created :=
      SessionStore.created_find
    have hS : viewStore ((store.find (rndStr d) now).1.append
        (newSession store.created (rndStr d) now)) =
          appendS (viewStore (store.find (rndStr d) now).1) store.created
            ⟨rndStr d, none, now, now⟩ := by
      funext b
      by_cases hb : b = hash (rndStr d) SHT_BITS
      · subst hb
        simp [viewStore, Store.append, appendS, newSession, view]
      · simp [viewStore, Store.append, appendS, newSession, hb]
    rw [← hS] at hstored'
    rw [← hcreated] at hself halloc hstored'
    exact ⟨self', hself, ⟨_, hstored'⟩, htime.trans (h.cleantime.trans cleantime_find.symm), halloc⟩

end store

end Swad.SessionChains
