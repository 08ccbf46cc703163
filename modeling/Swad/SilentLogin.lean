import Swad.Authenticator

/-!
Silent login. The users of a session are searched for one that a checker of the realm
has accepted, with one iterator of the checkers for all users: it starts over after
it has come to its end, so every search goes through all checkers. The user that is found
is copied, but only into a record that is already there.
-/
namespace Swad.SilentLogin

open Bytes Tables Authenticator

variable {W : Type}

/-- The inner loop over what is left of the checkers, and the iterator after it. -/
def moveToChecker (checkers : List Str) (checker : Str) : List Str → Bool × List Str
  | [] => (false, checkers)
  | name :: rest =>
    if checker = name then (true, rest) else moveToChecker checkers checker rest

/-- The outer loop over the records of the session. -/
def searchUser (checkers : List Str) : List (Sigma fun _ : Str => AuthInfo) → List Str →
    Option User
  | [], _ => none
  | other :: others, j =>
    match other.2.user with
    | none => searchUser checkers others j
    | some user =>
      let moved := moveToChecker checkers user.checker j
      if moved.1 then some user else searchUser checkers others moved.2

def silentLogin (registry : Registry W) (order : Iteration Str AuthInfo) (self : AuthInfos)
    (name : Str) : AuthInfos × Bool :=
  match AList.lookup name self with
  | none => (self, false)
  | some info =>
    if info.user.isSome then (self, true)
    else
      match registry.realms.lookup name with
      | none => (self, false)
      | some realm =>
        if realm.checkers = [] then (self, false)
        else
          match searchUser realm.checkers (order.visit self) realm.checkers with
          | none => (self, false)
          | some user => (AList.insert name { info with user := some user } self, true)

theorem moveToChecker_found (checkers : List Str) (checker : Str) (j : List Str) :
    (moveToChecker checkers checker j).1 = j.contains checker := by
  induction j with
  | nil => rfl
  | cons name rest ih =>
    unfold moveToChecker
    by_cases heq : checker = name
    · simp [heq]
    · rw [if_neg heq, ih]
      simp [heq]

/-- A search that finds nothing leaves the iterator at its start. -/
theorem moveToChecker_rest {checkers j : List Str} {checker : Str}
    (h : (moveToChecker checkers checker j).1 = false) :
    (moveToChecker checkers checker j).2 = checkers := by
  induction j with
  | nil => rfl
  | cons name rest ih =>
    unfold moveToChecker at h ⊢
    by_cases heq : checker = name
    · simp [heq] at h
    · rw [if_neg heq] at h ⊢
      exact ih h

theorem searchUser_eq (checkers : List Str) (others : List (Sigma fun _ : Str => AuthInfo)) :
    searchUser checkers others checkers = others.findSome? fun other =>
      other.2.user.filter fun user => checkers.contains user.checker := by
  induction others with
  | nil => rfl
  | cons other others ih =>
    rw [searchUser, List.findSome?_cons]
    cases other.2.user with
    | none => exact ih
    | some user =>
      have hfound := moveToChecker_found checkers user.checker checkers
      dsimp only
      by_cases hmem : checkers.contains user.checker = true
      · rw [if_pos (hfound.trans hmem), Option.filter_some, if_pos hmem]
      · have hmissed := hfound.trans (Bool.eq_false_iff.mpr hmem)
        rw [if_neg (by simp [hmissed]), moveToChecker_rest hmissed, Option.filter_some, if_neg hmem]
        exact ih

/-- The shared iterator does not matter. -/
theorem silentLogin_eq (registry : Registry W) (order : Iteration Str AuthInfo)
    (self : AuthInfos) (name : Str) :
    silentLogin registry order self name = Authenticator.silentLogin registry order self name := by
  unfold silentLogin Authenticator.silentLogin silentUser
  cases AList.lookup name self with
  | none => rfl
  | some info =>
    dsimp only
    split
    · rfl
    · cases registry.realms.lookup name with
      | none => rfl
      | some realm =>
        dsimp only
        rw [searchUser_eq]
        split
        · next hnil =>
          have hnobody : silentUser order self realm = none := by
            rw [silentUser, List.findSome?_eq_none_iff]
            intro other _
            rw [Option.filter_eq_none_iff]
            simp [hnil]
          rw [← silentUser, hnobody]
        · rfl

/-- The user of another realm, accepted by a checker of this realm. -/
def Shared (self : AuthInfos) (name : Str) (realm : Realm) (u : User) : Prop :=
  ∃ other, other ≠ name ∧ user self other = some u ∧ u.checker ∈ realm.checkers

/-- A silent login takes over a shared user whenever there is one, and changes nothing
else. -/
structure SignsOn (infos : AuthInfos) (name : Str) (realm : Realm) (result : AuthInfos × Bool) :
    Prop where
  succeeds : result.2 = true ↔ ∃ u, Shared infos name realm u
  copied : result.2 = true → ∃ u, Shared infos name realm u ∧ result.1 = AList.insert name
    { (AList.lookup name infos).getD AuthInfo.create with user := some u } infos
  unchanged : result.2 = false → result.1 = infos

section signsOn

variable {registry : Registry W} {order : Iteration Str AuthInfo} {self : AuthInfos} {name : Str}
  {realm : Realm}

theorem shared_of_silentUser (huser : user self name = none) {u : User}
    (h : silentUser order self realm = some u) : Shared self name realm u := by
  obtain ⟨entry, hentry, hfound⟩ := List.exists_of_findSome?_eq_some h
  obtain ⟨hu, hchecker⟩ := Option.filter_eq_some_iff.mp hfound
  have hlookup := (order.mem_visit self entry.1 entry.2).mp hentry
  have hother : user self entry.1 = some u := by
    rw [user, hlookup]
    exact hu
  refine ⟨entry.1, ?_, hother, by simpa using hchecker⟩
  intro heq
  rw [heq, huser] at hother
  cases hother

/-- Whoever is shared is found, or another one before. -/
theorem silentUser_isSome (order : Iteration Str AuthInfo) {u : User} (h : Shared self name realm u) :
    ∃ found, silentUser order self realm = some found := by
  obtain ⟨other, _, hu, hchecker⟩ := h
  obtain ⟨info, hlookup, hinfo⟩ := Option.bind_eq_some_iff.mp hu
  by_contra hnone
  have hnone' : silentUser order self realm = none := by
    cases hcase : silentUser order self realm with
    | none => rfl
    | some found => exact absurd ⟨found, hcase⟩ hnone
  have hentry := (order.mem_visit self other info).mpr hlookup
  have hmissed := List.findSome?_eq_none_iff.mp hnone' _ hentry
  simp [hinfo, Option.filter, hchecker] at hmissed

theorem signsOn_of_entry {info : AuthInfo} (hrealm : registry.realms.lookup name = some realm)
    (huser : user self name = none) (hinfo : AList.lookup name self = some info) :
    SignsOn self name realm (Authenticator.silentLogin registry order self name) := by
  have hnone : info.user = none := by
    rw [user, hinfo] at huser
    exact huser
  unfold Authenticator.silentLogin
  simp only [hinfo, hnone, hrealm, Option.isSome_none, Bool.false_eq_true, if_false]
  cases hsilent : silentUser order self realm with
  | none =>
    refine ⟨iff_of_false Bool.false_ne_true ?_, fun htrue => absurd htrue Bool.false_ne_true,
      fun _ => rfl⟩
    rintro ⟨u, hu⟩
    obtain ⟨found, hfound⟩ := silentUser_isSome order hu
    rw [hsilent] at hfound
    cases hfound
  | some u =>
    have hshared := shared_of_silentUser huser hsilent
    have hcopied : (AList.insert name { info with user := some u } self, true).1 =
        AList.insert name
          { (AList.lookup name self).getD AuthInfo.create with user := some u } self := by
      rw [hinfo]
      rfl
    exact ⟨iff_of_true rfl ⟨u, hshared⟩, fun _ => ⟨u, hshared, hcopied⟩,
      fun hfalse => absurd hfalse.symm Bool.false_ne_true⟩

/-- For a realm without a user a silent login does what it is for exactly if the session has a
record of the realm, or nobody to take over. -/
theorem signsOn_iff (hrealm : registry.realms.lookup name = some realm)
    (huser : user self name = none) :
    SignsOn self name realm (silentLogin registry order self name) ↔
      (AList.lookup name self).isSome ∨ ¬ ∃ u, Shared self name realm u := by
  rw [silentLogin_eq]
  cases hinfo : AList.lookup name self with
  | some info => exact iff_of_true (signsOn_of_entry hrealm huser hinfo) (Or.inl rfl)
  | none =>
    have hresult : Authenticator.silentLogin registry order self name = (self, false) := by
      unfold Authenticator.silentLogin
      rw [hinfo]
    rw [hresult]
    constructor
    · intro h
      right
      rw [← h.succeeds]
      exact Bool.false_ne_true
    · intro h
      have hnobody : ¬ ∃ u, Shared self name realm u :=
        h.resolve_left Bool.false_ne_true
      exact ⟨iff_of_false Bool.false_ne_true hnobody, (fun htrue => nomatch htrue), fun _ => rfl⟩

end signsOn

section samples

def sampleRealm : Realm := ⟨[str "pam"], none⟩

def sampleRegistry : Registry Unit where
  checkers := ∅
  realms := (AList.insert (str "a") sampleRealm ∅).insert (str "b") sampleRealm
  defaultLimitOpts := none

def sampleOrder : Iteration Str AuthInfo := Iteration.entries

def sampleUser : User := ⟨str "u", none, str "pam"⟩

/-- A session that has only seen the login for one realm. -/
def sampleInfos : AuthInfos := AList.insert (str "a") ⟨some sampleUser, none, none⟩ ∅

/-- The other realm accepts the same checker, and is not signed on. -/
theorem silentLogin_missed :
    sampleRegistry.realms.lookup (str "b") = some sampleRealm ∧
      user sampleInfos (str "b") = none ∧
      Shared sampleInfos (str "b") sampleRealm sampleUser ∧
      (silentLogin sampleRegistry sampleOrder sampleInfos (str "b")).2 = false := by
  refine ⟨?_, ?_, ⟨str "a", ?_, ?_, ?_⟩, ?_⟩
  · rfl
  · rfl
  · decide
  · rfl
  · decide
  · rfl

/-- Both realms were seen, the second one without a login. -/
def seenInfos : AuthInfos := AList.insert (str "b") AuthInfo.create sampleInfos

/-- The user of the first realm is signed on to the second one if that was seen before. -/
theorem signsOn_iff_sample :
    SignsOn seenInfos (str "b") sampleRealm
        (silentLogin sampleRegistry sampleOrder seenInfos (str "b")) ∧
      (silentLogin sampleRegistry sampleOrder seenInfos (str "b")).2 = true ∧
        ¬ SignsOn sampleInfos (str "b") sampleRealm
          (silentLogin sampleRegistry sampleOrder sampleInfos (str "b")) := by
  have hseen : SignsOn seenInfos (str "b") sampleRealm
      (silentLogin sampleRegistry sampleOrder seenInfos (str "b")) :=
    (signsOn_iff rfl rfl).mpr (Or.inl rfl)
  have hother : Shared seenInfos (str "b") sampleRealm sampleUser :=
    ⟨str "a", by decide, rfl, by decide⟩
  refine ⟨hseen, hseen.succeeds.mpr ⟨sampleUser, hother⟩, fun hmissed => ?_⟩
  rcases (signsOn_iff rfl rfl).mp hmissed with hrecord | hnobody
  · cases hrecord
  · exact hnobody ⟨sampleUser, str "a", by decide, rfl, by decide⟩

end samples

end Swad.SilentLogin
