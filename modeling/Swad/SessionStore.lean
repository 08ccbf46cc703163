import Swad.Authenticator
import Swad.TextCodecs

/-!
The sessions of the server. They live in a hash table of chains, found by the id
that the client sends as a cookie; a session that is too old or was idle for too
long is removed when it is met, or when the table is cleaned. The number of a
session stands for its address and is never used twice.
-/
namespace Swad.SessionStore

open Bytes Util Authenticator Ratelimit TextCodecs

def MAXAGE : ℤ := 12 * 3600

def MAXIDLE : ℤ := 3600

def CLEANINTERVAL : ℤ := 900

/-- One field for each key under which a property is stored; a property that is set to
the null pointer is as good as none. -/
structure Session where
  ref : ℕ
  id : Str
  referrer : Option Str
  ctime : ℤ
  atime : ℤ
  loginForm : Option Str
  loginRdr : Option Str
  authRdr : Option Str
  loginRealm : Option Str
  authRealm : Option Str
  loginUser : Option Str
  loginError : Option Str
  csrfProtect : Option Str
  authInfos : AuthInfos

def sessionExpired (s : Session) (now : ℤ) : Bool :=
  decide (now - s.atime > MAXIDLE) || decide (now - s.ctime > MAXAGE)

def SHT_BITS : ℕ := 8

structure Store where
  buckets : Fin (2 ^ SHT_BITS) → List Session
  cleantime : ℤ
  created : ℕ

def Store.create (now : ℤ) : Store := ⟨fun _ => [], now, 0⟩

def Store.clean (self : Store) (now : ℤ) : Store :=
  if now - self.cleantime < CLEANINTERVAL then self
  else
    { self with
      buckets := fun h => (self.buckets h).filter fun s => !sessionExpired s now
      cleantime := now }

/-- The session with an id; if it has expired, it is removed instead. -/
def Store.find (self : Store) (id : Str) (now : ℤ) : Store × Option Session :=
  let h := hash id SHT_BITS
  match (self.buckets h).find? fun s => s.id == id with
  | none => (self, none)
  | some session =>
    if sessionExpired session now then
      ({ self with
        buckets := Function.update self.buckets h
          ((self.buckets h).eraseP fun s => s.id == id) }, none)
    else (self, some session)

/-- The text of a random string. -/
def rndStr (bytes : List Byte) : Str := base64enc bytes

/-- Draw ids until one is not in use. There is none if the draws do not suffice. -/
def Store.freshId (self : Store) (now : ℤ) : List (List Byte) → Option (Store × Str)
  | [] => none
  | draw :: draws =>
    match self.find (rndStr draw) now with
    | (self, some _) => self.freshId now draws
    | (self, none) => some (self, rndStr draw)

def newSession (ref : ℕ) (id : Str) (now : ℤ) : Session where
  ref := ref
  id := id
  referrer := none
  ctime := now
  atime := now
  loginForm := none
  loginRdr := none
  authRdr := none
  loginRealm := none
  authRealm := none
  loginUser := none
  loginError := none
  csrfProtect := none
  authInfos := ∅

def Store.append (self : Store) (session : Session) : Store :=
  { self with
    buckets := Function.update self.buckets (hash session.id SHT_BITS)
      (self.buckets (hash session.id SHT_BITS) ++ [session]) }

def Store.createSession (self : Store) (now : ℤ) (draws : List (List Byte)) :
    Option (Store × Session) := do
  let (self, id) ← self.freshId now draws
  let session := newSession self.created id now
  return ({ self.append session with created := self.created + 1 }, session)

/-- Write a session back to its place. -/
def Store.put (self : Store) (session : Session) : Store :=
  { self with
    buckets := fun h => (self.buckets h).map fun s =>
      if s.ref = session.ref then session else s }

def Store.Mem (self : Store) (s : Session) : Prop := ∃ h, s ∈ self.buckets h

variable {self : Store} {s : Session} {now : ℤ}

theorem mem_clean (h : (self.clean now).Mem s) : self.Mem s := by
  obtain ⟨b, hs⟩ := h
  unfold Store.clean at hs
  split at hs
  · exact ⟨b, hs⟩
  · exact ⟨b, List.mem_of_mem_filter hs⟩

theorem created_clean : (self.clean now).created = self.created := by
  unfold Store.clean
  split <;> rfl

theorem mem_find {id : Str} (h : (self.find id now).1.Mem s) : self.Mem s := by
  obtain ⟨b, hs⟩ := h
  simp only [Store.find] at hs
  split at hs
  · exact ⟨b, hs⟩
  · split at hs
    · by_cases hb : b = hash id SHT_BITS
      · subst hb
        simp only [Function.update_self] at hs
        exact ⟨_, List.mem_of_mem_eraseP hs⟩
      · simp only [Function.update_of_ne hb] at hs
        exact ⟨b, hs⟩
    · exact ⟨b, hs⟩

theorem created_find {id : Str} : (self.find id now).1.created = self.created := by
  simp only [Store.find]
  split
  · rfl
  · split <;> rfl

theorem find_mem {id : Str} (h : (self.find id now).2 = some s) : self.Mem s := by
  simp only [Store.find] at h
  split at h
  · simp at h
  · next session hfind =>
    split at h
    · simp at h
    · obtain rfl := Option.some.inj h
      exact ⟨_, List.mem_of_find?_eq_some hfind⟩

theorem freshId_spec {draws : List (List Byte)} {store : Store} {id : Str}
    (h : self.freshId now draws = some (store, id)) :
    (∀ x, store.Mem x → self.Mem x) ∧ store.created = self.created ∧
      ∃ draw ∈ draws, id = rndStr draw := by
  induction draws generalizing self with
  | nil => simp [Store.freshId] at h
  | cons draw draws ih =>
    simp only [Store.freshId] at h
    split at h
    · next store' found hfind =>
      obtain ⟨hmem, hcreated, d, hd, hid⟩ := ih h
      have hstore : store' = (self.find (rndStr draw) now).1 := by rw [hfind]
      subst hstore
      exact ⟨fun x hx => mem_find (hmem x hx), hcreated.trans created_find,
        d, List.mem_cons_of_mem _ hd, hid⟩
    · next store' hfind =>
      have hstore : store' = (self.find (rndStr draw) now).1 := by rw [hfind]
      subst hstore
      obtain ⟨rfl, rfl⟩ := Prod.mk.inj (Option.some.inj h)
      exact ⟨fun x hx => mem_find hx, created_find, draw, List.mem_cons_self .., rfl⟩

theorem mem_append {session : Session} (h : (self.append session).Mem s) :
    self.Mem s ∨ s = session := by
  obtain ⟨b, hs⟩ := h
  by_cases hb : b = hash session.id SHT_BITS
  · subst hb
    simp only [Store.append, Function.update_self, List.mem_append, List.mem_singleton] at hs
    rcases hs with hold | hnew
    · exact .inl ⟨_, hold⟩
    · exact .inr hnew
  · simp only [Store.append, Function.update_of_ne hb] at hs
    exact .inl ⟨b, hs⟩

/-- A created session is new and empty, and its id is the text of one of the draws. -/
theorem createSession_spec {draws : List (List Byte)} {store : Store} {session : Session}
    (h : self.createSession now draws = some (store, session)) :
    (∀ x, store.Mem x → self.Mem x ∨ x = session) ∧ store.created = self.created + 1 ∧
      ∃ draw ∈ draws, session = newSession self.created (rndStr draw) now := by
  simp only [Store.createSession, Option.bind_eq_bind, Option.bind_eq_some_iff, Option.pure_def,
    Option.some.injEq, Prod.mk.injEq] at h
  obtain ⟨⟨store', id⟩, hfresh, rfl, rfl⟩ := h
  obtain ⟨hmem, hcreated, draw, hdraw, rfl⟩ := freshId_spec hfresh
  refine ⟨fun x hx => ?_, by rw [hcreated], draw, hdraw, by rw [hcreated]⟩
  rcases mem_append hx with hold | hnew
  · exact .inl (hmem x hold)
  · exact .inr hnew

theorem mem_put {session : Session} (h : (self.put session).Mem s) :
    s = session ∨ (self.Mem s ∧ s.ref ≠ session.ref) := by
  obtain ⟨b, hs⟩ := h
  obtain ⟨x, hx, hmap⟩ := List.mem_map.mp hs
  split at hmap
  · exact .inl hmap.symm
  · next hne =>
    subst hmap
    exact .inr ⟨⟨b, hx⟩, hne⟩

end Swad.SessionStore
