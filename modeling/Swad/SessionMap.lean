import Swad.LabelledRuns
import Swad.SessionChains
import Swad.Tables

/-!
What the session table is for: a finite map from ids to the time of creation and the time
of the last access. It is never cleaned, since an entry that has expired is not found.
The chains in memory give every request the answer that the map gives, in every run at
times that do not go back, so the cleaning is never noticed.
-/
namespace Swad.SessionMap

open Bytes Util TextCodecs LinkedChains SessionChains Tables LabelledRuns
open SessionStore (MAXAGE MAXIDLE CLEANINTERVAL SHT_BITS rndStr)

variable {V D : Type}

def Expired (e : Entry) (now : ℤ) : Bool :=
  decide (now - e.atime > MAXIDLE) || decide (now - e.ctime > MAXAGE)

structure IdMap (V : Type) where
  entries : Table Str Entry
  props : ℕ → Str → Option V
  created : ℕ

namespace IdMap

def init : IdMap V := ⟨∅, fun _ _ => none, 0⟩

def find (self : IdMap V) (id : Str) (now : ℤ) : Option Entry :=
  (self.entries.lookup id).filter fun e => !Expired e now

/-- The session is accessed, and the handlers set properties. -/
def access (self : IdMap V) (id : Str) (e : Entry) (req : Request V D) : IdMap V :=
  { self with
    entries := self.entries.insert id ⟨e.ref, e.ctime, req.now⟩
    props := Function.update self.props e.ref (setAll req.sets (self.props e.ref)) }

def create (self : IdMap V) (id : Str) (req : Request V D) : IdMap V where
  entries := self.entries.insert id ⟨self.created, req.now, req.now⟩
  props := Function.update self.props self.created (setAll req.sets fun _ => none)
  created := self.created + 1

def step (self : IdMap V) (req : Request V D) : Option (IdMap V × Outcome) :=
  match req.sid.bind fun sid => (self.find sid req.now).map fun e => (sid, e) with
  | some (sid, e) => some (self.access sid e req, .found e.ref)
  | none =>
    if req.limited then some (self, .refused)
    else
      (req.draws.find? fun d => (self.find (rndStr d) req.now).isNone).map fun d =>
        (self.create (rndStr d) req, .created self.created (rndStr d))

end IdMap

/-- The chains have what the map has, at this time and later. -/
def Agree (S : Sessions) (P : Props V D) (m : IdMap V) (now : ℤ) : Prop :=
  (∀ id t, now ≤ t → (live S id t).map record = m.find id t) ∧
    ∀ id c, entry S id = some c → propVal P c.1 = m.props c.1

structure Refines (memory : Memory V D) (m : IdMap V) (now : ℤ) : Prop where
  stored : ∃ S P, Stored memory S P ∧ Agree S P m now
  created : memory.sessions.allocated = m.created

section steps

variable {self : Memory V D} {S S' : Sessions} {P P' : Props V D} {m : IdMap V} {now t : ℤ}
  {id : Str} {req : Request V D}

theorem expired_mono {e : Entry} (h : Expired e now = true) (hnow : now ≤ t) :
    Expired e t = true := by
  simp only [Expired, Bool.or_eq_true, decide_eq_true_eq] at h ⊢
  omega

theorem live_record : (live S id t).map record = ((entry S id).map record).filter (!Expired · t) := by
  rw [Option.filter_map]
  rfl

/-- What is alive later is alive now. -/
theorem filter_filter {o : Option Entry} (hnow : now ≤ t) :
    (o.filter (!Expired · now)).filter (!Expired · t) = o.filter (!Expired · t) := by
  cases o with
  | none => rfl
  | some e =>
    by_cases h : Expired e now = true
    · have hlater := expired_mono h hnow
      rw [Option.filter_some, if_neg (by simp [h]), Option.filter_some, if_neg (by simp [hlater])]
      rfl
    · rw [Option.filter_some (a := e), if_pos (by simpa using h)]

theorem agree_mono (h : Agree S P m now) (hnow : now ≤ t) : Agree S P m t :=
  ⟨fun id t' ht => h.1 id t' (hnow.trans ht), h.2⟩

/-- Sessions that have expired may be taken away. -/
theorem agree_drop {l : List Addr} (hstored : Stored self S P) (h : Agree S P m now)
    (hnow : now ≤ t) (hentry : ∀ id, entry S' id = entry S id ∨ entry S' id = live S id t)
    (hl : ∀ a ∈ l, ∃ b s, (a, s) ∈ S b ∧ sessionExpired s t = true ∧
      entry S' s.id = live S s.id t) : Agree S' (dropProps P l) m t := by
  constructor
  · intro id t' ht
    have hlive : (live S' id t').map record = (live S id t').map record := by
      rcases hentry id with hsame | hlive
      · rw [live, hsame, live]
      · rw [live_record, hlive, live_record, filter_filter ht, live_record]
    rw [hlive]
    exact h.1 id t' (hnow.trans ht)
  · intro id c hc
    have hold : entry S id = some c := by
      rcases hentry id with hsame | hlive
      · rw [← hsame, hc]
      · rw [hlive] at hc
        exact (Option.filter_eq_some_iff.mp hc).1
    have hnot : c.1 ∉ l := by
      intro hmem
      obtain ⟨b, s, hs, hexpired, hdropped⟩ := hl c.1 hmem
      obtain ⟨hcell, hid⟩ := hash_of_entry hold
      have hread := hstored.sessions.read_eq hcell
      rw [hstored.sessions.read_eq hs] at hread
      obtain rfl : s = c.2 := Option.some.inj hread
      rw [hid, hc] at hdropped
      have halive := (Option.filter_eq_some_iff.mp hdropped.symm).2
      simp [hexpired] at halive
    rw [← h.2 id c hold]
    funext key
    simp only [propVal, dropProps, hnot, if_false]

theorem agree_clean (hstored : Stored self S P) (h : Agree S P m now) (hnow : now ≤ t) :
    Agree (cleanS S t) (dropProps P (expiredIn S t (List.finRange _))) m t := by
  apply agree_drop hstored h hnow
  · exact fun id => .inr (entry_cleanS hstored.toProper)
  · intro a ha
    obtain ⟨b, _, hb⟩ := List.mem_flatMap.mp ha
    obtain ⟨⟨_, s⟩, hc, rfl⟩ := List.mem_map.mp hb
    obtain ⟨hmem, hexpired⟩ := List.mem_filter.mp hc
    exact ⟨b, s, hmem, hexpired, entry_cleanS hstored.toProper⟩

theorem agree_find (hstored : Stored self S P) (h : Agree S P m now) (hnow : now ≤ t) (id : Str) :
    Agree (findS S id t) (findP S P id t) m t := by
  apply agree_drop hstored h hnow
  · intro id'
    rw [entry_findS hstored.toProper]
    by_cases hid : id' = id
    · subst hid
      exact .inr (if_pos rfl)
    · exact .inl (if_neg hid)
  · intro a ha
    rw [Option.mem_toList, Option.map_eq_some_iff] at ha
    obtain ⟨⟨_, s⟩, hc, rfl⟩ := ha
    obtain ⟨hentry, hexpired⟩ := Option.filter_eq_some_iff.mp hc
    obtain ⟨hmem, rfl⟩ := hash_of_entry hentry
    exact ⟨_, s, hmem, hexpired, by rw [entry_findS hstored.toProper, if_pos rfl]⟩

theorem refines_clean (h : Refines self m now) (hnow : now ≤ t) :
    ∃ self', self.clean t = some self' ∧ Refines self' m t := by
  obtain ⟨S, P, hstored, hagree⟩ := h.stored
  obtain ⟨self', hclean, halloc, hcase⟩ := clean_spec hstored t
  refine ⟨self', hclean, ?_, halloc.trans h.created⟩
  rcases hcase with ⟨_, rfl⟩ | ⟨_, _, hstored'⟩
  · exact ⟨S, P, hstored, agree_mono hagree hnow⟩
  · exact ⟨_, _, hstored', agree_clean hstored hagree hnow⟩

theorem refines_find (h : Refines self m now) (hnow : now ≤ t) (id : Str) :
    ∃ self', self.findSession id t = some (self', (m.find id t).map Entry.ref) ∧
      Refines self' m t := by
  obtain ⟨S, P, hstored, hagree⟩ := h.stored
  obtain ⟨self', hfind, _, halloc, hstored'⟩ := findSession_spec hstored id t
  refine ⟨self', ?_, ⟨_, _, hstored', agree_find hstored hagree hnow id⟩, halloc.trans h.created⟩
  rw [hfind, ← hagree.1 id t hnow, Option.map_map]
  rfl

/-- The handlers of a session that was found change that session only. -/
theorem refines_access {e : Entry} (h : Refines self m req.now)
    (he : m.find id req.now = some e) :
    ∃ self', Memory.callNext { self with
        sessions := self.sessions.modify e.ref fun s => { s with atime := req.now } } e.ref req =
          some self' ∧ Refines self' (m.access id e req) req.now := by
  obtain ⟨S, P, hstored, hagree⟩ := h.stored
  rw [← hagree.1 id req.now le_rfl, Option.map_eq_some_iff] at he
  obtain ⟨⟨a, s⟩, hlive, rfl⟩ := he
  obtain ⟨hentry, _⟩ := Option.filter_eq_some_iff.mp hlive
  obtain ⟨hmem, hid⟩ := hash_of_entry hentry
  have hkeeps : ∀ s : Session, ({ s with atime := req.now } : Session).id = s.id := fun _ => rfl
  have hmodified := stored_modify (a := a) hstored hkeeps
  have ha : a ∈ addrs (modifyS S a (fun s => { s with atime := req.now }) (hash id SHT_BITS)) := by
    rw [addrs_modifyS]
    exact List.mem_map_of_mem hmem
  obtain ⟨self', S', P', hnext, _, halloc, hstored', hsame, hval⟩ := callNext_spec hmodified ha req
  have hrecord : ∀ id', (entry S' id').map record =
      if id' = id then some ⟨a, s.ctime, req.now⟩ else (entry S id').map record := by
    intro id'
    rw [hsame, entry_modifyS hkeeps]
    by_cases heq : id' = id
    · subst heq
      rw [if_pos rfl, hentry]
      simp [record]
    · rw [if_neg heq]
      cases hother : entry S id' with
      | none => rfl
      | some c =>
        have hne : c.1 ≠ a := by
          rintro rfl
          obtain ⟨hmem', hid'⟩ := hash_of_entry hother
          have hread := hstored.sessions.read_eq hmem'
          rw [hstored.sessions.read_eq hmem] at hread
          obtain rfl := Option.some.inj hread
          exact heq (hid'.symm.trans hid)
        rw [Option.map_some, if_neg hne]
  refine ⟨self', hnext, ⟨S', P', hstored', fun id' t ht => ?_, fun id' c hc => ?_⟩,
    halloc.trans h.created⟩
  · rw [live_record, hrecord, IdMap.find, IdMap.access]
    by_cases heq : id' = id
    · subst heq
      rw [if_pos rfl, AList.lookup_insert]
      rfl
    · rw [if_neg heq, AList.lookup_insert_ne heq, ← live_record]
      exact hagree.1 id' t ht
  · rw [hval, IdMap.access]
    show _ = Function.update m.props a _ c.1
    by_cases heq : c.1 = a
    · rw [heq, if_pos rfl, Function.update_self, hagree.2 id _ hentry]
      rfl
    · rw [if_neg heq, Function.update_of_ne heq]
      have hold := hrecord id'
      rw [hc] at hold
      by_cases hid' : id' = id
      · rw [if_pos hid'] at hold
        exact absurd (Entry.mk.inj (Option.some.inj hold)).1 heq
      · rw [if_neg hid', Option.map_some, eq_comm, Option.map_eq_some_iff] at hold
        obtain ⟨d, hd, hrec⟩ := hold
        have href : d.1 = c.1 := (Entry.mk.inj hrec).1
        rw [← href]
        exact hagree.2 id' d hd

theorem propVal_fresh (hstored : Stored self S P) :
    propVal P self.sessions.allocated = fun _ => none := by
  funext key
  have hnil : P (self.sessions.allocated, hash key SPHT_BITS) = [] := by
    by_contra hne
    obtain ⟨b, hb⟩ := hstored.owned _ hne
    exact hstored.sessions.notMem (Nat.le_refl _) b hb
  rw [propVal, hnil]
  rfl

theorem refines_create (h : Refines self m req.now) :
    match req.draws.find? fun d => (m.find (rndStr d) req.now).isNone with
    | none => self.createSession req.now req.draws = none
    | some d => ∃ mid self' s, self.createSession req.now req.draws = some (mid, m.created) ∧
        mid.sessions.read m.created = some s ∧ s.id = rndStr d ∧
        mid.callNext m.created req = some self' ∧ Refines self' (m.create (rndStr d) req) req.now := by
  obtain ⟨S, P, hstored, hagree⟩ := h.stored
  have hdraws : (fun d : List Byte => (live S (rndStr d) req.now).isNone) =
      fun d => (m.find (rndStr d) req.now).isNone := by
    funext d
    rw [← hagree.1 (rndStr d) req.now le_rfl, Option.isNone_map]
  have hcreate := createSession_spec hstored req.now req.draws
  rw [hdraws] at hcreate
  cases hfind : req.draws.find? fun d => (m.find (rndStr d) req.now).isNone with
  | none =>
    rw [hfind] at hcreate
    exact hcreate
  | some d =>
    rw [hfind] at hcreate
    obtain ⟨mid, hmid, _, halloc, hstoredMid⟩ := hcreate
    have hfound := agree_find hstored hagree le_rfl (rndStr d)
    have hnone : entry (findS S (rndStr d) req.now) (rndStr d) = none := by
      rw [entry_findS hstored.toProper, if_pos rfl, ← Option.map_eq_none_iff (f := record),
        hagree.1 _ _ le_rfl]
      simpa using List.find?_some hfind
    rw [h.created] at hmid halloc hstoredMid
    have hmem : (m.created, (⟨rndStr d, none, req.now, req.now⟩ : Session)) ∈
        appendS (findS S (rndStr d) req.now) m.created ⟨rndStr d, none, req.now, req.now⟩
          (hash (rndStr d) SHT_BITS) := by
      rw [appendS, Function.update_self]
      simp
    obtain ⟨self', S', P', hnext, _, halloc', hstored', hsame, hval⟩ :=
      callNext_spec hstoredMid (List.mem_map_of_mem hmem) req
    have hfresh : propVal (findP S P (rndStr d) req.now) m.created = fun _ => none := by
      have hold := propVal_fresh hstored
      rw [h.created] at hold
      funext key
      rw [propVal, findP, dropProps]
      split
      · rfl
      · exact congrFun hold key
    refine ⟨mid, self', _, hmid, hstoredMid.sessions.read_eq hmem, rfl, hnext,
      ⟨S', P', hstored', fun id' t ht => ?_, fun id' c hc => ?_⟩, halloc'.trans halloc⟩
    · rw [live_record, hsame, entry_appendS hnone, IdMap.find, IdMap.create]
      by_cases heq : id' = rndStr d
      · subst heq
        rw [if_pos rfl, AList.lookup_insert]
        rfl
      · rw [if_neg heq, AList.lookup_insert_ne heq, ← live_record]
        exact hfound.1 id' t ht
    · have hold := hsame id'
      rw [hc, entry_appendS hnone] at hold
      rw [hval, IdMap.create]
      show _ = Function.update m.props m.created _ c.1
      by_cases heq : id' = rndStr d
      · rw [if_pos heq] at hold
        have href : c.1 = m.created := (Entry.mk.inj (Option.some.inj hold)).1
        rw [href, if_pos rfl, Function.update_self, hfresh]
      · rw [if_neg heq, Option.map_some, eq_comm, Option.map_eq_some_iff] at hold
        obtain ⟨e, he, hrec⟩ := hold
        have href : e.1 = c.1 := (Entry.mk.inj hrec).1
        have hlt : c.1 ≠ m.created := by
          rw [← href, ← h.created]
          intro hallocated
          have hproper : some e = if id' = rndStr d then live S (rndStr d) req.now
              else entry S id' := by
            rw [← he]
            exact entry_findS hstored.toProper id'
          rw [if_neg heq] at hproper
          exact hstored.sessions.notMem (Nat.le_of_eq hallocated.symm) _
            (List.mem_map_of_mem (hash_of_entry hproper.symm).1)
        rw [if_neg hlt, Function.update_of_ne hlt, ← href]
        exact hfound.2 id' e he

/-- The search for the request's session finds what the map has. -/
theorem searched_of_clean {cleaned : Memory V D} (hcleaned : Refines cleaned m req.now) :
    ∃ searched, (req.sid.elim (some (cleaned, none)) fun sid => cleaned.findSession sid req.now) =
        some (searched, req.sid.bind fun sid => (m.find sid req.now).map Entry.ref) ∧
      Refines searched m req.now := by
  cases req.sid with
  | none => exact ⟨cleaned, rfl, hcleaned⟩
  | some sid => exact refines_find hcleaned le_rfl sid

/-- The rest of a request, once the search has an answer. -/
theorem mwSession_of_searched {cleaned searched : Memory V D} {found : Option ℕ}
    (hclean : self.clean req.now = some cleaned) :
    (req.sid.elim (some (cleaned, none)) fun sid => cleaned.findSession sid req.now) =
      some (searched, found) →
    self.mwSession req =
      match found with
      | some a => (Memory.callNext { searched with
          sessions := searched.sessions.modify a fun s => { s with atime := req.now } } a req).bind
            fun self => some (self, .found a)
      | none =>
        if req.limited then some (searched, .refused)
        else (searched.createSession req.now req.draws).bind fun r =>
          (r.1.sessions.read r.2).bind fun session => (r.1.callNext r.2 req).bind fun self =>
            some (self, .created r.2 session.id) := by
  intro hfind
  rw [Memory.mwSession, hclean]
  simp only [Option.bind_eq_bind, Option.bind_some]
  cases hsid : req.sid with
  | none =>
    rw [hsid] at hfind
    obtain ⟨rfl, rfl⟩ := Prod.mk.inj (Option.some.inj hfind)
    rfl
  | some sid =>
    rw [hsid] at hfind
    have hsome : cleaned.findSession sid req.now = some (searched, found) := hfind
    simp only [hsome, Option.bind_some]
    rfl

/-- The chains answer every request as the map does. -/
theorem mwSession_refines (h : Refines self m now) (hnow : now ≤ req.now) :
    match m.step req with
    | none => self.mwSession req = none
    | some (m', o) => ∃ self', self.mwSession req = some (self', o) ∧ Refines self' m' req.now := by
  obtain ⟨cleaned, hclean, hcleaned⟩ := refines_clean h hnow
  obtain ⟨searched, hfind, hsearched⟩ := searched_of_clean hcleaned
  have hrest := mwSession_of_searched hclean hfind
  rw [hrest, IdMap.step]
  cases hsid : req.sid.bind fun sid => (m.find sid req.now).map fun e => (sid, e) with
  | some found =>
    obtain ⟨sid, e⟩ := found
    obtain ⟨sid', hsid', he⟩ := Option.bind_eq_some_iff.mp hsid
    obtain ⟨e', he', heq⟩ := Option.map_eq_some_iff.mp he
    obtain ⟨rfl, rfl⟩ := Prod.mk.inj heq
    obtain ⟨self', hnext, hrefines⟩ := refines_access hsearched he'
    refine ⟨self', ?_, hrefines⟩
    rw [hsid', Option.bind_some, he', Option.map_some]
    simp only [hnext]
    rfl
  | none =>
    have hnone : (req.sid.bind fun sid => (m.find sid req.now).map Entry.ref) = none := by
      cases hsid' : req.sid with
      | none => rfl
      | some sid =>
        rw [hsid', Option.bind_some, Option.map_eq_none_iff] at hsid
        rw [Option.bind_some, hsid]
        rfl
    rw [hnone]
    by_cases hlimited : req.limited = true
    · simp only [hlimited, if_true]
      exact ⟨searched, rfl, hsearched⟩
    · simp only [hlimited, if_false, Bool.false_eq_true]
      have hcreate := refines_create hsearched
      cases hdraw : req.draws.find? fun d => (m.find (rndStr d) req.now).isNone with
      | none =>
        rw [hdraw] at hcreate
        have hstuck : searched.createSession req.now req.draws = none := hcreate
        rw [hstuck]
        rfl
      | some d =>
        rw [hdraw] at hcreate
        obtain ⟨mid, self', s, hmid, hread, hid, hnext, hrefines⟩ := hcreate
        refine ⟨self', ?_, hrefines⟩
        rw [hmid, Option.bind_some, hread, Option.bind_some, hnext, Option.bind_some, hid]

end steps

/-! ### Histories -/

abbrev Trace (V D : Type) := List (Request V D × Outcome)

/-- The times at which an id was looked up. -/
def lookups (id : Str) (trace : Trace V D) : List ℤ :=
  (trace.filter fun l => l.1.sid == some id).map fun l => l.1.now

/-- Accesses of a session that are never too late, neither after its creation nor after
the access before. -/
def InTime (ctime : ℤ) : ℤ → List ℤ → Prop
  | _, [] => True
  | atime, t :: ts => (t - atime ≤ MAXIDLE ∧ t - ctime ≤ MAXAGE) ∧ InTime ctime t ts

/-- A session was created with this id, and this and every earlier lookup is in time. -/
def AliveAt (trace : Trace V D) (id : Str) (a : ℕ) (ctime now : ℤ) : Prop :=
  ∃ before l after, trace = before ++ l :: after ∧ l.2 = .created a id ∧ l.1.now = ctime ∧
    InTime ctime ctime (lookups id after ++ [now])

def Outcome.session : Outcome → Option ℕ
  | .refused => none
  | .found a => some a
  | .created a _ => some a

/-- The properties that were set in a session. -/
def propsOf (trace : Trace V D) (a : ℕ) : Str → Option V :=
  setAll ((trace.filter fun l => Outcome.session l.2 == some a).flatMap fun l => l.1.sets)
    fun _ => none

/-- No time of the history is later, and none is before the one before it. -/
def Timely (start : ℤ) (trace : Trace V D) (now : ℤ) : Prop :=
  (start :: trace.map (fun l => l.1.now) ++ [now]).Pairwise (· ≤ ·)

section histories

variable {trace : Trace V D} {l : Request V D × Outcome} {id : Str} {a : ℕ} {ctime now start : ℤ}
  {m m' : IdMap V} {self : Memory V D} {req : Request V D} {o : Outcome}

theorem inTime_snoc (atime : ℤ) (ts : List ℤ) (t : ℤ) :
    InTime ctime atime (ts ++ [t] ++ [now]) ↔
      InTime ctime atime (ts ++ [t]) ∧ now - t ≤ MAXIDLE ∧ now - ctime ≤ MAXAGE := by
  induction ts generalizing atime with
  | nil => simp [InTime]
  | cons s ts ih =>
    simp only [List.cons_append, InTime, ih, and_assoc]

theorem lookups_snoc :
    lookups id (trace ++ [l]) =
      if l.1.sid = some id then lookups id trace ++ [l.1.now] else lookups id trace := by
  unfold lookups
  by_cases h : l.1.sid = some id
  · simp [h]
  · simp [h]

theorem aliveAt_snoc :
    AliveAt (trace ++ [l]) id a ctime now ↔
      (l.2 = .created a id ∧ l.1.now = ctime ∧ now - ctime ≤ MAXIDLE ∧ now - ctime ≤ MAXAGE) ∨
        if l.1.sid = some id then
          AliveAt trace id a ctime l.1.now ∧ now - l.1.now ≤ MAXIDLE ∧ now - ctime ≤ MAXAGE
        else AliveAt trace id a ctime now := by
  constructor
  · rintro ⟨before, x, after, heq, hx, htime, hin⟩
    rcases List.eq_nil_or_concat' after with rfl | ⟨after, y, rfl⟩
    · obtain ⟨rfl, hlast⟩ := List.append_inj' heq rfl
      obtain rfl : l = x := by simpa using hlast
      refine .inl ⟨hx, htime, ?_⟩
      simpa [lookups, InTime] using hin
    · right
      rw [← List.cons_append, ← List.append_assoc] at heq
      obtain ⟨rfl, hlast⟩ := List.append_inj' heq rfl
      obtain rfl : l = y := by simpa using hlast
      rw [lookups_snoc] at hin
      by_cases hsid : l.1.sid = some id
      · rw [if_pos hsid] at hin ⊢
        obtain ⟨hin, hlate⟩ := (inTime_snoc _ _ _).mp hin
        exact ⟨⟨before, x, after, rfl, hx, htime, hin⟩, hlate⟩
      · rw [if_neg hsid] at hin ⊢
        exact ⟨before, x, after, rfl, hx, htime, hin⟩
  · rintro (⟨hx, htime, hin⟩ | hold)
    · refine ⟨trace, l, [], rfl, hx, htime, ?_⟩
      simpa [lookups, InTime] using hin
    · by_cases hsid : l.1.sid = some id
      · rw [if_pos hsid] at hold
        obtain ⟨⟨before, x, after, rfl, hx, htime, hin⟩, hlate⟩ := hold
        refine ⟨before, x, after ++ [l], by simp, hx, htime, ?_⟩
        rw [lookups_snoc, if_pos hsid]
        exact (inTime_snoc _ _ _).mpr ⟨hin, hlate⟩
      · rw [if_neg hsid] at hold
        obtain ⟨before, x, after, rfl, hx, htime, hin⟩ := hold
        refine ⟨before, x, after ++ [l], by simp, hx, htime, ?_⟩
        rwa [lookups_snoc, if_neg hsid]

/-- What one request does to the map. -/
theorem step_cases (h : m.step req = some (m', o)) :
    (∃ sid e, req.sid = some sid ∧ m.find sid req.now = some e ∧ o = .found e.ref ∧
      m' = m.access sid e req) ∨
    ((∀ sid, req.sid = some sid → m.find sid req.now = none) ∧
      ((o = .refused ∧ m' = m) ∨ ∃ d ∈ req.draws, m.find (rndStr d) req.now = none ∧
        o = .created m.created (rndStr d) ∧ m' = m.create (rndStr d) req)) := by
  unfold IdMap.step at h
  split at h
  · next sid e hfound =>
    obtain ⟨sid', hsid, he⟩ := Option.bind_eq_some_iff.mp hfound
    obtain ⟨e', he', heq⟩ := Option.map_eq_some_iff.mp he
    obtain ⟨rfl, rfl⟩ := Prod.mk.inj heq
    obtain ⟨rfl, rfl⟩ := Prod.mk.inj (Option.some.inj h)
    exact .inl ⟨sid', e', hsid, he', rfl, rfl⟩
  · next hnone =>
    right
    refine ⟨fun sid hsid => ?_, ?_⟩
    · rw [hsid, Option.bind_some, Option.map_eq_none_iff] at hnone
      exact hnone
    · split at h
      · obtain ⟨rfl, rfl⟩ := Prod.mk.inj (Option.some.inj h)
        exact .inl ⟨rfl, rfl⟩
      · obtain ⟨d, hd, heq⟩ := Option.map_eq_some_iff.mp h
        obtain ⟨rfl, rfl⟩ := Prod.mk.inj heq
        refine .inr ⟨d, List.mem_of_find?_eq_some hd, ?_, rfl, rfl⟩
        simpa using List.find?_some hd

theorem find_none_mono {t : ℤ} (h : m.find id now = none) (hnow : now ≤ t) : m.find id t = none := by
  rw [IdMap.find, ← filter_filter hnow]
  rw [IdMap.find] at h
  rw [h]
  rfl

theorem timely_snoc {t : ℤ} (h : Timely start (trace ++ [l]) t) :
    Timely start trace l.1.now ∧ l.1.now ≤ t ∧ Timely start trace t := by
  have hpairs : (start :: trace.map (fun l => l.1.now) ++ [l.1.now] ++ [t]).Pairwise (· ≤ ·) := by
    simpa [Timely] using h
  refine ⟨hpairs.sublist (List.sublist_append_left ..), ?_, hpairs.sublist ?_⟩
  · exact (List.pairwise_append.mp hpairs).2.2 l.1.now (by simp) t (by simp)
  · exact (List.sublist_append_left ..).append (List.Sublist.refl _)

/-- An entry that was accessed at a time is found while that is recent enough. -/
theorem filter_access {ref : ℕ} {ctime' t : ℤ} :
    (∃ atime, (some (⟨ref, ctime', t⟩ : Entry)).filter (!Expired · now) =
        some ⟨a, ctime, atime⟩) ↔
      ref = a ∧ ctime' = ctime ∧ now - t ≤ MAXIDLE ∧ now - ctime ≤ MAXAGE := by
  simp only [Option.filter_some, Expired]
  constructor
  · rintro ⟨atime, h⟩
    split at h
    · next hin =>
      simp only [Bool.not_eq_true', Bool.or_eq_false_iff, decide_eq_false_iff_not, not_lt] at hin
      obtain ⟨rfl, rfl, rfl⟩ := Entry.mk.inj (Option.some.inj h)
      exact ⟨rfl, rfl, by omega, by omega⟩
    · cases h
  · rintro ⟨rfl, rfl, hidle, hage⟩
    refine ⟨t, if_pos ?_⟩
    simp only [Bool.not_eq_true', Bool.or_eq_false_iff, decide_eq_false_iff_not, not_lt]
    omega

/-- At this time the map finds the sessions that are alive after the trace. -/
def Matches (m : IdMap V) (trace : Trace V D) (t : ℤ) : Prop :=
  ∀ id a ctime, (∃ atime, m.find id t = some ⟨a, ctime, atime⟩) ↔ AliveAt trace id a ctime t

/-- A session that is not found when the request comes is not alive behind it. -/
theorem not_alive_of_none (hnow : Matches m trace l.1.now) (hlater : Matches m trace now)
    (hle : l.1.now ≤ now) (hnone : m.find id l.1.now = none) :
    ¬ (if l.1.sid = some id then
      AliveAt trace id a ctime l.1.now ∧ now - l.1.now ≤ MAXIDLE ∧ now - ctime ≤ MAXAGE
    else AliveAt trace id a ctime now) := by
  intro hold
  split at hold
  · obtain ⟨_, hfind⟩ := (hnow id a ctime).mpr hold.1
    rw [hnone] at hfind
    cases hfind
  · obtain ⟨_, hfind⟩ := (hlater id a ctime).mpr hold
    rw [find_none_mono hnone hle] at hfind
    cases hfind

/-- A request that finds no session leaves the entries under other ids as they are. -/
theorem unfound_iff (hnow : Matches m trace l.1.now) (hlater : Matches m trace now)
    (hle : l.1.now ≤ now) (hnone : ∀ sid, l.1.sid = some sid → m.find sid l.1.now = none) :
    (∃ atime, m.find id now = some ⟨a, ctime, atime⟩) ↔
      if l.1.sid = some id then
        AliveAt trace id a ctime l.1.now ∧ now - l.1.now ≤ MAXIDLE ∧ now - ctime ≤ MAXAGE
      else AliveAt trace id a ctime now := by
  by_cases hid : l.1.sid = some id
  · refine iff_of_false ?_ (not_alive_of_none hnow hlater hle (hnone id hid))
    rintro ⟨_, h⟩
    rw [find_none_mono (hnone id hid) hle] at h
    cases h
  · rw [if_neg hid]
    exact hlater id a ctime

/-- A request for a session that is found. -/
theorem access_iff {sid : Str} {e : Entry} (hnow : Matches m trace l.1.now)
    (hlater : Matches m trace now) (hsid : l.1.sid = some sid)
    (hfind : m.find sid l.1.now = some e) :
    (∃ atime, (m.access sid e l.1).find id now = some ⟨a, ctime, atime⟩) ↔
      if l.1.sid = some id then
        AliveAt trace id a ctime l.1.now ∧ now - l.1.now ≤ MAXIDLE ∧ now - ctime ≤ MAXAGE
      else AliveAt trace id a ctime now := by
  rw [IdMap.find, IdMap.access, hsid]
  by_cases hid : id = sid
  · subst hid
    rw [if_pos rfl, AList.lookup_insert, ← hnow id a ctime, hfind, filter_access]
    constructor
    · rintro ⟨rfl, rfl, hidle, hage⟩
      exact ⟨⟨e.atime, rfl⟩, hidle, hage⟩
    · rintro ⟨⟨atime, h⟩, hidle, hage⟩
      obtain rfl := Option.some.inj h
      exact ⟨rfl, rfl, hidle, hage⟩
  · have hne : ¬ some sid = some id := fun heq => hid (Option.some.inj heq).symm
    rw [if_neg hne, AList.lookup_insert_ne hid]
    exact hlater id a ctime

/-- A request that makes a session. -/
theorem create_iff {d : List Byte} (hnow : Matches m trace l.1.now) (hlater : Matches m trace now)
    (hle : l.1.now ≤ now) (hnone : ∀ sid, l.1.sid = some sid → m.find sid l.1.now = none)
    (hfresh : m.find (rndStr d) l.1.now = none) (hout : l.2 = .created m.created (rndStr d)) :
    (∃ atime, (m.create (rndStr d) l.1).find id now = some ⟨a, ctime, atime⟩) ↔
      AliveAt (trace ++ [l]) id a ctime now := by
  rw [aliveAt_snoc]
  by_cases hid : id = rndStr d
  · subst hid
    rw [or_iff_left (not_alive_of_none hnow hlater hle hfresh), IdMap.find, IdMap.create,
      AList.lookup_insert, hout, filter_access]
    constructor
    · rintro ⟨rfl, rfl, hidle, hage⟩
      exact ⟨rfl, rfl, hidle, hage⟩
    · rintro ⟨h, rfl, hidle, hage⟩
      exact ⟨(Outcome.created.inj h).1, rfl, hidle, hage⟩
  · have hnot : ¬ l.2 = .created a id := by
      rw [hout]
      exact fun h => hid (Outcome.created.inj h).2.symm
    have hsame : (m.create (rndStr d) l.1).find id now = m.find id now := by
      rw [IdMap.find, IdMap.create, AList.lookup_insert_ne hid]
      rfl
    rw [or_iff_right fun h => hnot h.1, hsame]
    exact unfound_iff hnow hlater hle hnone

/-- The map finds a session exactly while every access to it was in time. -/
theorem find_iff_alive (hrun : Run (stepOf IdMap.step) (IdMap.init : IdMap V) trace m)
    (htimely : Timely start trace now) :
    (∃ atime, m.find id now = some ⟨a, ctime, atime⟩) ↔ AliveAt trace id a ctime now := by
  induction hrun generalizing id a ctime now with
  | nil =>
    refine iff_of_false ?_ ?_
    · rintro ⟨_, h⟩
      simp [IdMap.find, IdMap.init] at h
    · rintro ⟨before, l, after, heq, _⟩
      simp at heq
  | @snoc trace m m' l hrun hstep ih =>
    obtain ⟨htime, hle, hlast⟩ := timely_snoc htimely
    have hnow : Matches m trace l.1.now := fun id a ctime => ih htime
    have hlater : Matches m trace now := fun id a ctime => ih hlast
    rcases step_cases hstep with ⟨sid, e, hsid, hfind, hout, rfl⟩ |
      ⟨hnone, ⟨hout, rfl⟩ | ⟨d, _, hfresh, hout, rfl⟩⟩
    · have hnot : ¬ l.2 = .created a id := by simp [hout]
      rw [aliveAt_snoc, or_iff_right fun h => hnot h.1]
      exact access_iff hnow hlater hsid hfind
    · have hnot : ¬ l.2 = .created a id := by simp [hout]
      rw [aliveAt_snoc, or_iff_right fun h => hnot h.1]
      exact unfound_iff hnow hlater hle hnone
    · exact create_iff hnow hlater hle hnone hfresh hout

theorem find_none_iff (hrun : Run (stepOf IdMap.step) (IdMap.init : IdMap V) trace m)
    (htimely : Timely start trace now) :
    m.find id now = none ↔ ∀ a ctime, ¬ AliveAt trace id a ctime now := by
  constructor
  · intro hnone a ctime halive
    obtain ⟨atime, he⟩ := (find_iff_alive hrun htimely).mpr halive
    rw [hnone] at he
    cases he
  · intro hdead
    by_contra hsome
    obtain ⟨⟨a, ctime, atime⟩, he⟩ := Option.ne_none_iff_exists'.mp hsome
    exact hdead a ctime ((find_iff_alive hrun htimely).mp ⟨atime, he⟩)

theorem propsOf_snoc :
    propsOf (trace ++ [l]) a =
      if Outcome.session l.2 = some a then setAll l.1.sets (propsOf trace a)
      else propsOf trace a := by
  unfold propsOf setAll
  by_cases h : Outcome.session l.2 = some a
  · simp [h, List.foldl_append]
  · simp [h]

/-- The properties of every session are the ones that were set in it. -/
theorem props_eq (hrun : Run (stepOf IdMap.step) (IdMap.init : IdMap V) trace m) :
    (∀ a, m.props a = propsOf trace a) ∧ (∀ id e, m.entries.lookup id = some e → e.ref < m.created) ∧
      ∀ l ∈ trace, ∀ a, Outcome.session l.2 = some a → a < m.created := by
  induction hrun with
  | nil => exact ⟨fun _ => rfl, by simp [IdMap.init], by simp⟩
  | @snoc trace m m' l hrun hstep ih =>
    obtain ⟨hprops, hentries, hrefs⟩ := ih
    rcases step_cases hstep with ⟨sid, e, _, hfind, hout, rfl⟩ |
      ⟨_, ⟨hout, rfl⟩ | ⟨d, _, _, hout, rfl⟩⟩
    · have hlt : e.ref < m.created := hentries sid e (Option.filter_eq_some_iff.mp hfind).1
      refine ⟨fun a => ?_, fun id e' he' => ?_, fun k hk a ha => ?_⟩
      · rw [propsOf_snoc, hout, ← hprops]
        show Function.update m.props e.ref _ a = _
        by_cases ha : a = e.ref
        · subst ha
          rw [Function.update_self]
          exact (if_pos rfl).symm
        · rw [Function.update_of_ne ha]
          exact (if_neg fun h => ha (Option.some.inj h).symm).symm
      · by_cases hid : id = sid
        · subst hid
          rw [IdMap.access, AList.lookup_insert] at he'
          obtain rfl := Option.some.inj he'
          exact hlt
        · rw [IdMap.access, AList.lookup_insert_ne hid] at he'
          exact hentries id e' he'
      · rcases List.mem_append.mp hk with hk | hk
        · exact hrefs k hk a ha
        · obtain rfl : k = l := by simpa using hk
          rw [hout] at ha
          obtain rfl := Option.some.inj ha
          exact hlt
    · refine ⟨fun a => ?_, hentries, fun k hk a ha => ?_⟩
      · rw [propsOf_snoc, hout, hprops]
        rfl
      · rcases List.mem_append.mp hk with hk | hk
        · exact hrefs k hk a ha
        · obtain rfl : k = l := by simpa using hk
          rw [hout] at ha
          cases ha
    · refine ⟨fun a => ?_, fun id e' he' => ?_, fun k hk a ha => ?_⟩
      · rw [propsOf_snoc, hout]
        show Function.update m.props m.created _ a = _
        by_cases ha : a = m.created
        · subst ha
          have hfresh : propsOf trace m.created = fun _ => none := by
            have hnil : (trace.filter fun l => Outcome.session l.2 == some m.created) = [] := by
              rw [List.filter_eq_nil_iff]
              intro k hk hsession
              exact absurd (hrefs k hk _ (by simpa using hsession)) (Nat.lt_irrefl _)
            rw [propsOf, hnil]
            rfl
          rw [Function.update_self, hfresh]
          exact (if_pos rfl).symm
        · rw [Function.update_of_ne ha, hprops]
          exact (if_neg fun h => ha (Option.some.inj h).symm).symm
      · by_cases hid : id = rndStr d
        · subst hid
          rw [IdMap.create, AList.lookup_insert] at he'
          obtain rfl := Option.some.inj he'
          exact Nat.lt_succ_self _
        · rw [IdMap.create, AList.lookup_insert_ne hid] at he'
          exact Nat.lt_succ_of_lt (hentries id e' he')
      · rcases List.mem_append.mp hk with hk | hk
        · exact Nat.lt_succ_of_lt (hrefs k hk a ha)
        · obtain rfl : k = l := by simpa using hk
          rw [hout] at ha
          obtain rfl := Option.some.inj ha
          exact Nat.lt_succ_self _

theorem refines_mono {t : ℤ} (h : Refines self m now) (hnow : now ≤ t) : Refines self m t := by
  obtain ⟨S, P, hstored, hagree⟩ := h.stored
  exact ⟨⟨S, P, hstored, agree_mono hagree hnow⟩, h.created⟩

theorem refines_init : Refines (Memory.init start : Memory V D) (IdMap.init : IdMap V) now := by
  refine ⟨⟨fun _ => [], fun _ => [], ⟨⟨?_, ?_, ?_⟩, Chains.represents_empty,
    Chains.represents_empty⟩, fun id t _ => rfl, ?_⟩, rfl⟩
  · intro h c hc
    cases hc
  · exact fun _ => List.nodup_nil
  · exact fun k hk => absurd rfl hk
  · intro id c hc
    cases hc

/-- Every run of the chains is a run of the map. -/
theorem run_refines (hrun : Run (stepOf Memory.mwSession) (Memory.init start) trace self)
    (htimely : Timely start trace now) :
    ∃ m, Run (stepOf IdMap.step) (IdMap.init : IdMap V) trace m ∧ Refines self m now := by
  induction hrun generalizing now with
  | nil => exact ⟨_, Run.nil, refines_init⟩
  | @snoc trace self self' l hrun hstep ih =>
    obtain ⟨hnow, hle, _⟩ := timely_snoc htimely
    obtain ⟨m, hm, hrefines⟩ := ih hnow
    have hmatch := mwSession_refines hrefines (le_refl l.1.now)
    have hstep' : self.mwSession l.1 = some (self', l.2) := hstep
    cases hnext : m.step l.1 with
    | none =>
      rw [hnext] at hmatch
      rw [hstep'] at hmatch
      cases hmatch
    | some r =>
      obtain ⟨m', o⟩ := r
      rw [hnext] at hmatch
      obtain ⟨self'', hsome, hrefines'⟩ := hmatch
      rw [hstep'] at hsome
      obtain ⟨rfl, rfl⟩ := Prod.mk.inj (Option.some.inj hsome)
      have hlabel : stepOf IdMap.step m l m' := hnext
      exact ⟨m', Run.snoc hm hlabel, refines_mono hrefines' hle⟩

/-- Two tables that have what the map has give the same answers from then on. -/
theorem outcomes_eq {self' : Memory V D} (h : Refines self m now) (h' : Refines self' m now)
    (later : List (Request V D)) (htimes : (now :: later.map Request.now).Pairwise (· ≤ ·)) :
    (exec Memory.mwSession self later).map (fun r => r.2.map Prod.snd) =
      (exec Memory.mwSession self' later).map fun r => r.2.map Prod.snd := by
  induction later generalizing self self' m now with
  | nil => rfl
  | cons req later ih =>
    obtain ⟨hle, hrest⟩ := List.pairwise_cons.mp htimes
    have hnow : now ≤ req.now := hle _ (by simp)
    have hmatch := mwSession_refines h hnow
    have hmatch' := mwSession_refines h' hnow
    cases hnext : m.step req with
    | none =>
      rw [hnext] at hmatch hmatch'
      have hstuck : self.mwSession req = none := hmatch
      have hstuck' : self'.mwSession req = none := hmatch'
      rw [exec, exec, hstuck, hstuck']
    | some r =>
      obtain ⟨m', o⟩ := r
      rw [hnext] at hmatch hmatch'
      obtain ⟨next, hstep, hrefines⟩ := hmatch
      obtain ⟨next', hstep', hrefines'⟩ := hmatch'
      have htail := ih hrefines hrefines' hrest
      rw [exec, exec, hstep, hstep', Option.bind_some, Option.bind_some]
      have hcons : ∀ x : Memory V D, ((exec Memory.mwSession x later).map fun q =>
          (q.1, (req, o) :: q.2)).map (fun r => r.2.map Prod.snd) =
          ((exec Memory.mwSession x later).map fun r => r.2.map Prod.snd).map (o :: ·) := by
        intro x
        rw [Option.map_map, Option.map_map]
        rfl
      rw [hcons, hcons, htail]

theorem answer_iff (h : Refines self m req.now) :
    (∃ self', self.mwSession req = some (self', o)) ↔ ∃ m', m.step req = some (m', o) := by
  have hmatch := mwSession_refines h (le_refl req.now)
  cases hnext : m.step req with
  | none =>
    rw [hnext] at hmatch
    have hstuck : self.mwSession req = none := hmatch
    simp [hstuck]
  | some r =>
    obtain ⟨m', o'⟩ := r
    rw [hnext] at hmatch
    obtain ⟨self', hstep, _⟩ := hmatch
    simp [hstep]

theorem step_found_iff (hid : req.sid = some id) :
    (∃ m', m.step req = some (m', .found a)) ↔ ∃ e, m.find id req.now = some e ∧ e.ref = a := by
  constructor
  · rintro ⟨m', h⟩
    rcases step_cases h with ⟨sid, e, hsid, hfind, hout, _⟩ | ⟨_, ⟨hout, _⟩ | ⟨_, _, _, hout, _⟩⟩
    · obtain rfl : id = sid := Option.some.inj (hid.symm.trans hsid)
      exact ⟨e, hfind, (Outcome.found.inj hout).symm⟩
    · cases hout
    · cases hout
  · rintro ⟨e, hfind, rfl⟩
    exact ⟨m.access id e req, by rw [IdMap.step, hid, Option.bind_some, hfind]; rfl⟩

theorem step_isSome (h : req.limited = true ∨
    ∃ d ∈ req.draws, m.find (rndStr d) req.now = none) : ∃ m' o, m.step req = some (m', o) := by
  unfold IdMap.step
  split
  · exact ⟨_, _, rfl⟩
  · split
    · exact ⟨_, _, rfl⟩
    · next hlimited =>
      obtain ⟨d, hd, hfresh⟩ := h.resolve_left hlimited
      have hsome : (req.draws.find? fun d => (m.find (rndStr d) req.now).isNone).isSome := by
        rw [List.find?_isSome]
        exact ⟨d, hd, by rw [hfresh]; rfl⟩
      obtain ⟨d', hd'⟩ := Option.isSome_iff_exists.mp hsome
      exact ⟨_, _, by rw [hd']; rfl⟩

/-- A request that is not limited gets a session of its own if it has none. -/
theorem step_created (hlimited : req.limited = false)
    (hnone : ∀ sid, req.sid = some sid → m.find sid req.now = none)
    (hfresh : ∃ d ∈ req.draws, m.find (rndStr d) req.now = none) :
    ∃ m' d, d ∈ req.draws ∧ m.find (rndStr d) req.now = none ∧
      m.step req = some (m', .created m.created (rndStr d)) := by
  obtain ⟨m', o, hstep⟩ := step_isSome (.inr hfresh)
  rcases step_cases hstep with ⟨sid, e, hsid, hfind, -⟩ | ⟨-, ⟨rfl, -⟩ | ⟨d, hd, hfind, rfl, -⟩⟩
  · rw [hnone sid hsid] at hfind
    cases hfind
  · unfold IdMap.step at hstep
    rw [hlimited] at hstep
    split at hstep
    · cases hstep
    · obtain ⟨d, -, heq⟩ := Option.map_eq_some_iff.mp hstep
      cases heq
  · exact ⟨m', d, hd, hfind, hstep⟩

/-- The session of an id that is alive is found at one place in the chains. -/
theorem reached_of_alive (hrun : Run (stepOf IdMap.step) (IdMap.init : IdMap V) trace m)
    (htimely : Timely start trace now) {S : Sessions} {P : Props V D} (hstored : Stored self S P)
    (hagree : Agree S P m now) (halive : AliveAt trace id a ctime now) :
    ∃ s, entry S id = some (a, s) ∧ s.ctime = ctime ∧
      ∀ h, (addrs (S h)).count a = if h = hash id SHT_BITS then 1 else 0 := by
  obtain ⟨atime, hfind⟩ := (find_iff_alive hrun htimely).mpr halive
  rw [← hagree.1 id now le_rfl, Option.map_eq_some_iff] at hfind
  obtain ⟨⟨b, s⟩, hlive, hrecord⟩ := hfind
  obtain ⟨rfl, rfl, _⟩ := Entry.mk.inj hrecord
  obtain ⟨hentry, _⟩ := Option.filter_eq_some_iff.mp hlive
  have hmem := List.mem_map_of_mem (f := Prod.fst) (hash_of_entry hentry).1
  refine ⟨s, hentry, rfl, fun h => ?_⟩
  by_cases hh : h = hash id SHT_BITS
  · subst hh
    rw [if_pos rfl]
    exact List.count_eq_one_of_mem (hstored.sessions.nodup _) hmem
  · rw [if_neg hh, List.count_eq_zero]
    exact fun hother => hh (hstored.sessions.apart _ _ _ hother hmem)

/-- In every run at times that do not go back, a cookie finds a session exactly when it
was created with that id and every lookup was in time. It has the properties that were
set in it, it hangs in the chain of its id and nowhere else, and cleaning the table does
not change what is found from then on. A request that finds none gets a new one, with an id that
nothing has, unless it is limited. -/
theorem session_found_iff (hrun : Run (stepOf Memory.mwSession) (Memory.init start) trace self)
    (htimely : Timely start trace req.now) :
    (∀ id, req.sid = some id → ∀ a, (∃ self', self.mwSession req = some (self', .found a)) ↔
      ∃ ctime, AliveAt trace id a ctime req.now) ∧
    (∀ id a ctime, AliveAt trace id a ctime req.now →
      ∀ key, self.getProp a key = some (propsOf trace a key)) ∧
    (∃ S, self.sessions.Represents S ∧ ∀ id a ctime, AliveAt trace id a ctime req.now →
      ∃ s, (a, s) ∈ S (hash id SHT_BITS) ∧ s.id = id ∧ s.ctime = ctime ∧
        ∀ h, (addrs (S h)).count a = if h = hash id SHT_BITS then 1 else 0) ∧
    (∃ cleaned, self.clean req.now = some cleaned ∧ ∀ later : List (Request V D),
      (req.now :: later.map Request.now).Pairwise (· ≤ ·) →
        (exec Memory.mwSession cleaned later).map (fun r => r.2.map Prod.snd) =
          (exec Memory.mwSession self later).map fun r => r.2.map Prod.snd) ∧
    (req.limited = true ∨
      (∃ d ∈ req.draws, ∀ a ctime, ¬ AliveAt trace (rndStr d) a ctime req.now) →
        (self.mwSession req).isSome) ∧
    (req.limited = false →
      (∀ id, req.sid = some id → ∀ a ctime, ¬ AliveAt trace id a ctime req.now) →
      (∃ d ∈ req.draws, ∀ a ctime, ¬ AliveAt trace (rndStr d) a ctime req.now) →
      ∃ self' a d, self.mwSession req = some (self', .created a (rndStr d)) ∧ d ∈ req.draws ∧
        (∀ b ctime, ¬ AliveAt trace (rndStr d) b ctime req.now) ∧
          ∀ l ∈ trace, Outcome.session l.2 ≠ some a) := by
  obtain ⟨m, hm, hrefines⟩ := run_refines hrun htimely
  obtain ⟨S, P, hstored, hagree⟩ := hrefines.stored
  have hfind : ∀ {id a ctime}, (∃ atime, m.find id req.now = some ⟨a, ctime, atime⟩) ↔
      AliveAt trace id a ctime req.now := find_iff_alive hm htimely
  have hnone : ∀ {id}, m.find id req.now = none ↔ ∀ a ctime, ¬ AliveAt trace id a ctime req.now :=
    find_none_iff hm htimely
  refine ⟨fun id hid a => ?_, fun id a ctime halive key => ?_, ⟨S, hstored.sessions,
    fun id a ctime halive => ?_⟩, ?_, fun hfresh => ?_, fun hlimited hdead hfresh => ?_⟩
  · rw [answer_iff hrefines, step_found_iff hid]
    constructor
    · rintro ⟨⟨_, ctime, atime⟩, he, rfl⟩
      exact ⟨ctime, hfind.mp ⟨atime, he⟩⟩
    · rintro ⟨ctime, halive⟩
      obtain ⟨atime, he⟩ := hfind.mpr halive
      exact ⟨_, he, rfl⟩
  · obtain ⟨s, hentry, _⟩ := reached_of_alive hm htimely hstored hagree halive
    rw [getProp_spec hstored.props, hagree.2 id _ hentry, (props_eq hm).1]
  · obtain ⟨s, hentry, htime, hcount⟩ := reached_of_alive hm htimely hstored hagree halive
    exact ⟨s, (hash_of_entry hentry).1, (hash_of_entry hentry).2, htime, hcount⟩
  · obtain ⟨cleaned, hclean, hcleaned⟩ := refines_clean hrefines le_rfl
    exact ⟨cleaned, hclean, fun later => outcomes_eq hcleaned hrefines later⟩
  · have hfree : req.limited = true ∨ ∃ d ∈ req.draws, m.find (rndStr d) req.now = none := by
      exact hfresh.imp_right fun ⟨d, hd, hdead⟩ => ⟨d, hd, hnone.mpr hdead⟩
    obtain ⟨m', o, hstep⟩ := step_isSome hfree
    obtain ⟨self', hself⟩ := (answer_iff hrefines).mpr ⟨m', hstep⟩
    rw [hself]
    rfl
  · obtain ⟨m', d, hd, hfree, hstep⟩ := step_created hlimited
      (fun id hid => hnone.mpr (hdead id hid)) (hfresh.imp fun d h => ⟨h.1, hnone.mpr h.2⟩)
    obtain ⟨self', hself⟩ := (answer_iff hrefines).mpr ⟨m', hstep⟩
    refine ⟨self', m.created, d, hself, hd, hnone.mp hfree, fun l hl hsession => ?_⟩
    exact absurd ((props_eq hm).2.2 l hl _ hsession) (Nat.lt_irrefl _)

end histories

/-! ### Two sessions in one chain -/

def firstId : Str := rndStr (List.replicate 32 0)

def otherId : Str := rndStr (List.replicate 32 21)

def sampleFirst : Request ℕ Unit :=
  ⟨0, none, false, [List.replicate 32 0], [(str "k", some 7, none)], none⟩

/-- The first id that is drawn is taken. -/
def sampleOther : Request ℕ Unit :=
  ⟨10, none, false, [List.replicate 32 0, List.replicate 32 21], [(str "k", some 8, none)], none⟩

def sampleReturn : Request ℕ Unit := ⟨3600, some firstId, false, [], [], none⟩

/-- Two sessions whose ids have one hash are told apart, and one that was idle as long as it may be
still has its properties. -/
theorem session_found_iff_sample : ∃ (trace : Trace ℕ Unit) (self self' : Memory ℕ Unit) (a : ℕ),
    Run (stepOf Memory.mwSession) (Memory.init 0) trace self ∧
      hash firstId SHT_BITS = hash otherId SHT_BITS ∧
      self.mwSession sampleReturn = some (self', .found 0) ∧ a ≠ 0 ∧
      (∃ ctime, AliveAt trace firstId 0 ctime 3600) ∧
      (∃ ctime, AliveAt trace otherId a ctime 3600) ∧
      ∀ key, self.getProp 0 key = some (propsOf trace 0 key) ∧
        self.getProp a key = some (propsOf trace a key) := by
  have hexec : (exec Memory.mwSession (Memory.init 0)
      [sampleFirst, sampleOther, sampleReturn]).map (fun r => r.2.map Prod.snd) =
        some [.created 0 firstId, .created 1 otherId, .found 0] := by decide +kernel
  obtain ⟨⟨self', full⟩, hsome, houts⟩ := Option.map_eq_some_iff.mp hexec
  obtain ⟨first, o, _, hfirst, hrest, rfl⟩ := exec_cons hsome
  obtain ⟨self, o', _, hother, hrest', rfl⟩ := exec_cons hrest
  obtain ⟨last, o'', _, hreturn, hnil, rfl⟩ := exec_cons hrest'
  obtain ⟨rfl, rfl⟩ := Prod.mk.inj (Option.some.inj hnil)
  obtain ⟨rfl, rfl, rfl⟩ : o = .created 0 firstId ∧ o' = .created 1 otherId ∧ o'' = .found 0 := by
    simpa using houts
  have hlabel : stepOf Memory.mwSession (Memory.init 0) (sampleFirst, .created 0 firstId) first :=
    hfirst
  have hlabel' : stepOf Memory.mwSession first (sampleOther, .created 1 otherId) self := hother
  have hrun := Run.snoc (Run.single hlabel) hlabel'
  have halive : AliveAt [(sampleFirst, .created 0 firstId), (sampleOther, .created 1 otherId)]
      otherId 1 10 3600 := ⟨[_], _, [], rfl, rfl, rfl, ⟨by decide, by decide⟩, trivial⟩
  have htimely : Timely 0 [(sampleFirst, .created 0 firstId)] sampleOther.now := by
    simp [Timely, sampleFirst, sampleOther]
  have htimely' : Timely 0 [(sampleFirst, .created 0 firstId), (sampleOther, .created 1 otherId)]
      sampleReturn.now := by
    simp [Timely, sampleFirst, sampleOther, sampleReturn]
  obtain ⟨-, -, -, -, -, hnew⟩ := session_found_iff (Run.single hlabel) htimely
  obtain ⟨hfound, hprops, -⟩ := session_found_iff hrun htimely'
  obtain ⟨ctime, hctime⟩ := (hfound _ rfl 0).mp ⟨last, hreturn⟩
  have hdead : ∀ a ctime, ¬ AliveAt [(sampleFirst, Outcome.created 0 firstId)]
      (rndStr (List.replicate 32 21)) a ctime sampleOther.now := by
    rintro a ctime ⟨before, l, after, heq, hcreated, -⟩
    have hmem : l ∈ [(sampleFirst, Outcome.created 0 firstId)] := by
      rw [heq]
      exact List.mem_append_right _ List.mem_cons_self
    rw [List.mem_singleton.mp hmem] at hcreated
    exact absurd (Outcome.created.inj hcreated).2 (by decide +kernel)
  obtain ⟨next, a, d, hcreated, -, -, hunused⟩ := hnew rfl (fun id hid => by cases hid)
    ⟨List.replicate 32 21, by simp [sampleOther], hdead⟩
  obtain ⟨rfl, hout⟩ := Prod.mk.inj (Option.some.inj (hother.symm.trans hcreated))
  obtain ⟨rfl, -⟩ := Outcome.created.inj hout
  refine ⟨_, self, last, 1, hrun, by decide +kernel, hreturn, fun hzero => ?_, ⟨ctime, hctime⟩,
    ⟨10, halive⟩, fun key => ⟨hprops _ 0 ctime hctime key, hprops _ 1 10 halive key⟩⟩
  exact hunused _ (List.mem_singleton_self _) (congrArg some hzero.symm)

end Swad.SessionMap
