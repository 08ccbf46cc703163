import Mathlib.Algebra.Order.Ring.Int
import Mathlib.Data.List.Basic

/-!
Settings of a user and of a group, in two phases. A user brings the group it belongs to as a
default. Flags always take effect, lines only while what they set is negative, and a default
only while no group is set. Which group is kept in the end depends on what stands before it,
and negative ids that are meant as such do not count as set.
-/
namespace Swad.IdPrecedence

inductive Setting
  | user (uid : ℤ) (primary : ℕ)
  | group (gid : ℤ)
  deriving DecidableEq

structure Ids where
  uid : ℤ
  gid : ℤ
  deriving DecidableEq

def unset : Ids := ⟨-1, -1⟩

def Ids.setUser (self : Ids) (uid : ℤ) (primary : ℕ) : Ids :=
  ⟨uid, if self.gid = -1 then primary else self.gid⟩

def Ids.setGroup (self : Ids) (gid : ℤ) : Ids := { self with gid }

def Ids.flag (self : Ids) : Setting → Ids
  | .user uid primary => self.setUser uid primary
  | .group gid => self.setGroup gid

def Ids.line (self : Ids) : Setting → Ids
  | .user uid primary => if self.uid < 0 then self.setUser uid primary else self
  | .group gid => if self.gid < 0 then self.setGroup gid else self

def resolve (flags lines : List Setting) : Ids :=
  lines.foldl Ids.line (flags.foldl Ids.flag unset)

/-! ### What is wanted -/

def Setting.asUser : Setting → Option (ℤ × ℕ)
  | .user uid primary => some (uid, primary)
  | .group _ => none

def Setting.asGroup : Setting → Option ℤ
  | .user .. => none
  | .group gid => some gid

def users (settings : List Setting) : List (ℤ × ℕ) := settings.filterMap Setting.asUser

def groups (settings : List Setting) : List ℤ := settings.filterMap Setting.asGroup

/-- The first user that is set, flags before lines. -/
def wantedUser (flags lines : List Setting) : Option (ℤ × ℕ) :=
  (users flags ++ users lines).head?

def wantedUid (flags lines : List Setting) : ℤ :=
  match wantedUser flags lines with
  | some (uid, _) => uid
  | none => -1

/-- The first group that is set, flags before lines, or else that of the user. -/
def wantedGid (flags lines : List Setting) : ℤ :=
  match (groups flags ++ groups lines).head?, wantedUser flags lines with
  | some gid, _ => gid
  | none, some (_, primary) => primary
  | none, none => -1

/-! ### When it is kept -/

def AllNegative (us : List (ℤ × ℕ)) : Prop := ∀ u ∈ us, u.1 < 0

/-- A negative id is kept if only negative ids follow, the last of which is the same. -/
def UidKept (settings : List Setting) : Prop :=
  ∀ u ∈ (users settings).head?, 0 ≤ u.1 ∨
    AllNegative (users settings) ∧ (users settings).getLast?.map Prod.fst = some u.1

/-- No user that is set puts its group in the place of a group `-1`. -/
def NoFill (settings : List Setting) : Prop :=
  ∀ before uid primary after, settings = before ++ .user uid primary :: after →
    AllNegative (users before) → (groups before).getLast? ≠ some (-1)

/-- A negative group is kept. -/
def StaysNegative (gid : ℤ) (settings : List Setting) : Prop :=
  (∀ g ∈ groups settings, g < 0) ∧ (groups settings).getLast? = some gid ∧ NoFill settings

def Setting.isUser : Setting → Bool
  | .user .. => true
  | .group _ => false

/-- The wanted group comes from a flag, or no user comes before it but one that belongs to
this group; and it counts as set, or stays although it does not. -/
def GidKept (flags lines : List Setting) : Prop :=
  match groups flags, groups lines with
  | gid :: _, _ => 0 ≤ gid ∨ StaysNegative gid (flags ++ lines)
  | [], [] => True
  | [], gid :: _ =>
    match users (flags ++ lines.takeWhile Setting.isUser) with
    | (_, primary) :: _ => (primary : ℤ) = gid
    | [] => 0 ≤ gid ∨ StaysNegative gid (flags ++ lines)

section runs

variable {s : Ids} {lines settings : List Setting} {uid gid g : ℤ} {primary : ℕ}

theorem users_cons_user (settings : List Setting) :
    users (.user uid primary :: settings) = (uid, primary) :: users settings := rfl

theorem users_cons_group (settings : List Setting) :
    users (.group gid :: settings) = users settings := rfl

theorem groups_cons_user (settings : List Setting) :
    groups (.user uid primary :: settings) = groups settings := rfl

theorem groups_cons_group (settings : List Setting) :
    groups (.group gid :: settings) = gid :: groups settings := rfl

theorem users_append (a b : List Setting) : users (a ++ b) = users a ++ users b :=
  List.filterMap_append

theorem groups_append (a b : List Setting) : groups (a ++ b) = groups a ++ groups b :=
  List.filterMap_append

theorem allNegative_append (a b : List Setting) :
    AllNegative (users (a ++ b)) ↔ AllNegative (users a) ∧ AllNegative (users b) := by
  unfold AllNegative
  rw [users_append]
  constructor
  · intro h
    exact ⟨fun u hu => h u (List.mem_append_left _ hu), fun u hu => h u (List.mem_append_right _ hu)⟩
  · intro h u hu
    rcases List.mem_append.mp hu with hu | hu
    · exact h.1 u hu
    · exact h.2 u hu

theorem allNegative_user : AllNegative (users [.user uid primary]) ↔ uid < 0 := by
  constructor
  · intro h
    exact h (uid, primary) List.mem_cons_self
  · intro h u hu
    rw [List.mem_singleton.mp hu]
    exact h

theorem noFill_nil : NoFill [] := by
  intro before uid primary after h
  exact absurd h.symm (List.append_ne_nil_of_right_ne_nil _ (List.cons_ne_nil _ _))

theorem noFill_group (h : NoFill settings) : NoFill (settings ++ [.group gid]) := by
  intro before uid primary after hsplit
  rcases List.eq_nil_or_concat' after with rfl | ⟨after, x, rfl⟩
  · have hlast := (List.append_inj' hsplit rfl).2
    cases hlast
  · apply h before uid primary after
    rw [← List.cons_append, ← List.append_assoc] at hsplit
    exact (List.append_inj' hsplit rfl).1

theorem noFill_user : NoFill (settings ++ [.user uid primary]) ↔
    NoFill settings ∧ (AllNegative (users settings) → (groups settings).getLast? ≠ some (-1)) := by
  constructor
  · intro h
    constructor
    · intro before uid' primary' after hsplit
      apply h before uid' primary' (after ++ [.user uid primary])
      rw [hsplit, List.append_assoc]
      rfl
    · exact h settings uid primary [] rfl
  · intro h before uid' primary' after hsplit
    rcases List.eq_nil_or_concat' after with rfl | ⟨after, x, rfl⟩
    · rw [← (List.append_inj' hsplit rfl).1]
      exact h.2
    · apply h.1 before uid' primary' after
      rw [← List.cons_append, ← List.append_assoc] at hsplit
      exact (List.append_inj' hsplit rfl).1

theorem noFill_left {a b : List Setting} (h : NoFill (a ++ b)) : NoFill a := by
  intro before uid primary after hsplit
  apply h before uid primary (after ++ b)
  rw [hsplit, List.append_assoc]
  rfl

/-! ### Lines -/

theorem line_group_uid (s : Ids) (gid : ℤ) : (s.line (.group gid)).uid = s.uid := by
  unfold Ids.line
  dsimp only
  split <;> rfl

theorem line_gid_fixed (h : 0 ≤ s.gid) (x : Setting) : (s.line x).gid = s.gid := by
  cases x with
  | user uid primary =>
    unfold Ids.line
    dsimp only
    split
    · exact if_neg (by omega)
    · rfl
  | group gid => exact congrArg Ids.gid (if_neg (by omega))

theorem run_gid_fixed (h : 0 ≤ s.gid) (lines : List Setting) :
    (lines.foldl Ids.line s).gid = s.gid := by
  induction lines generalizing s with
  | nil => rfl
  | cons x lines ih =>
    have hx := line_gid_fixed h x
    rw [List.foldl_cons, ih (by rwa [hx]), hx]

theorem line_uid_fixed (h : 0 ≤ s.uid) (x : Setting) : (s.line x).uid = s.uid := by
  cases x with
  | user uid primary => exact congrArg Ids.uid (if_neg (by omega))
  | group gid => exact line_group_uid s gid

theorem run_uid_fixed (h : 0 ≤ s.uid) (lines : List Setting) :
    (lines.foldl Ids.line s).uid = s.uid := by
  induction lines generalizing s with
  | nil => rfl
  | cons x lines ih =>
    have hx := line_uid_fixed h x
    rw [List.foldl_cons, ih (by rwa [hx]), hx]

/-- From a negative user on, the last user is kept if all are negative, and otherwise one
that is not. -/
theorem run_uid_negative (h : s.uid < 0) (lines : List Setting) :
    (lines.foldl Ids.line s).uid = g ∧ g < 0 ↔
      AllNegative (users lines) ∧ ((users lines).getLast?.map Prod.fst).getD s.uid = g := by
  induction lines generalizing s with
  | nil =>
    constructor
    · intro hg
      exact ⟨fun u hu => absurd hu List.not_mem_nil, hg.1⟩
    · intro hg
      have hg' : s.uid = g := hg.2
      exact ⟨hg', by omega⟩
  | cons x lines ih =>
    rw [List.foldl_cons]
    cases x with
    | group gid =>
      have huid := line_group_uid s gid
      have hrest := @ih (s.line (.group gid)) (by rwa [huid])
      rwa [huid] at hrest
    | user uid primary =>
      have hline : s.line (.user uid primary) = s.setUser uid primary := if_pos h
      have hall : AllNegative (users (.user uid primary :: lines)) ↔
          uid < 0 ∧ AllNegative (users lines) := by
        have happend := allNegative_append [.user uid primary] lines
        rwa [allNegative_user] at happend
      rw [hline, hall]
      by_cases huid : uid < 0
      · have hrest := @ih (s.setUser uid primary) huid
        have hlast : ((users (.user uid primary :: lines)).getLast?.map Prod.fst).getD s.uid =
            ((users lines).getLast?.map Prod.fst).getD uid := by
          show (((uid, primary) :: users lines).getLast?.map Prod.fst).getD s.uid = _
          rw [List.getLast?_cons]
          cases (users lines).getLast? <;> rfl
        rw [hrest, hlast]
        constructor
        · exact fun hg => ⟨⟨huid, hg.1⟩, hg.2⟩
        · exact fun hg => ⟨hg.1.2, hg.2⟩
      · have hfixed := run_uid_fixed (s := s.setUser uid primary) (not_lt.mp huid) lines
        constructor
        · intro hg
          have heq : g = uid := hg.1.symm.trans hfixed
          omega
        · exact fun hg => absurd hg.1.1 huid

/-- What precedes the lines from which a group that is negative is still set. -/
structure Pending (s : Ids) (before : List Setting) : Prop where
  gid : s.gid < 0
  groups : ∀ g ∈ groups before, g < 0
  last : (IdPrecedence.groups before).getLast? = some s.gid
  uid : s.uid < 0 ↔ AllNegative (users before)
  noFill : NoFill before

theorem Pending.group {before : List Setting} (h : Pending s before) (hgid : gid < 0) :
    Pending (s.setGroup gid) (before ++ [.group gid]) := by
  have hgroups : IdPrecedence.groups (before ++ [.group gid]) =
      IdPrecedence.groups before ++ [gid] := groups_append ..
  refine ⟨hgid, ?_, ?_, ?_, noFill_group h.noFill⟩
  · rw [hgroups]
    intro g hg
    rcases List.mem_append.mp hg with hg | hg
    · exact h.groups g hg
    · rwa [List.mem_singleton.mp hg]
  · rw [hgroups, List.getLast?_concat]
    rfl
  · have husers : users (before ++ [.group gid]) = users before := by
      rw [users_append]
      exact List.append_nil _
    rw [husers]
    exact h.uid

/-- A user leaves the group that is set, unless it is `-1` and the user is set. -/
theorem Pending.user {before : List Setting} (h : Pending s before)
    (hkept : (s.line (.user uid primary)).gid = s.gid) :
    Pending (s.line (.user uid primary)) (before ++ [.user uid primary]) := by
  have hgroups : IdPrecedence.groups (before ++ [.user uid primary]) =
      IdPrecedence.groups before := by
    rw [groups_append]
    exact List.append_nil _
  have hall : AllNegative (users (before ++ [.user uid primary])) ↔
      AllNegative (users before) ∧ uid < 0 := by
    rw [allNegative_append, allNegative_user]
  refine ⟨by rw [hkept]; exact h.gid, by rw [hgroups]; exact h.groups,
    by rw [hgroups, hkept]; exact h.last, ?_, noFill_user.mpr ⟨h.noFill, fun hneg => ?_⟩⟩
  · rw [hall]
    by_cases huid : s.uid < 0
    · have hline : s.line (.user uid primary) = s.setUser uid primary := if_pos huid
      rw [hline]
      exact ⟨fun hneg => ⟨h.uid.mp huid, hneg⟩, fun hneg => hneg.2⟩
    · have hline : s.line (.user uid primary) = s := if_neg huid
      rw [hline]
      exact ⟨fun hneg => absurd hneg huid, fun hneg => absurd (h.uid.mpr hneg.1) huid⟩
  · have hline : s.line (.user uid primary) = s.setUser uid primary := if_pos (h.uid.mpr hneg)
    rw [hline] at hkept
    rw [h.last]
    intro heq
    have hfill : s.gid = -1 := Option.some.inj heq
    have hprimary : (s.setUser uid primary).gid = primary := if_pos hfill
    omega

/-- A negative group is kept in exactly this case. -/
theorem run_gid_negative {before : List Setting} (h : Pending s before) (hg : g < 0)
    (lines : List Setting) :
    (lines.foldl Ids.line s).gid = g ↔ StaysNegative g (before ++ lines) := by
  induction lines generalizing s before with
  | nil =>
    rw [List.append_nil]
    constructor
    · intro hgid
      have hgid' : s.gid = g := hgid
      exact ⟨h.groups, by rw [h.last, hgid'], h.noFill⟩
    · intro hstays
      exact Option.some.inj (h.last.symm.trans hstays.2.1)
  | cons x lines ih =>
    rw [List.foldl_cons, List.append_cons]
    cases x with
    | group gid =>
      have hline : s.line (.group gid) = s.setGroup gid := if_pos h.gid
      rw [hline]
      by_cases hgid : gid < 0
      · exact ih (h.group hgid)
      · have hfixed := run_gid_fixed (s := s.setGroup gid) (not_lt.mp hgid) lines
        constructor
        · intro hrun
          have heq : g = gid := hrun.symm.trans hfixed
          omega
        · intro hstays
          refine absurd (hstays.1 gid ?_) hgid
          rw [groups_append, groups_append]
          exact List.mem_append_left _ (List.mem_append_right _ List.mem_cons_self)
    | user uid primary =>
      by_cases huid : s.uid < 0
      · have hline : s.line (.user uid primary) = s.setUser uid primary := if_pos huid
        by_cases hfill : s.gid = -1
        · have hprimary : (s.setUser uid primary).gid = primary := if_pos hfill
          have hfixed := run_gid_fixed (s := s.setUser uid primary) (by omega) lines
          rw [hline]
          constructor
          · intro hrun
            have heq : g = primary := by rw [← hrun, hfixed, hprimary]
            omega
          · intro hstays
            have hnot := (noFill_user.mp (noFill_left hstays.2.2)).2 (h.uid.mp huid)
            rw [h.last, hfill] at hnot
            exact absurd rfl hnot
        · apply ih
          apply h.user
          rw [hline]
          exact if_neg hfill
      · apply ih
        apply h.user
        exact congrArg Ids.gid (if_neg huid)

/-! ### Both phases -/

/-- Each flag is given at most once. -/
def Once (flags : List Setting) : Prop := (users flags).length ≤ 1 ∧ (groups flags).length ≤ 1

theorem once_cases {flags : List Setting} (h : Once flags) :
    flags = [] ∨ (∃ uid primary, flags = [.user uid primary]) ∨ (∃ gid, flags = [.group gid]) ∨
      (∃ uid primary gid, flags = [.user uid primary, .group gid]) ∨
        ∃ uid primary gid, flags = [.group gid, .user uid primary] := by
  obtain ⟨husers, hgroups⟩ := h
  match flags with
  | [] => exact Or.inl rfl
  | [.user uid primary] => exact Or.inr (Or.inl ⟨uid, primary, rfl⟩)
  | [.group gid] => exact Or.inr (Or.inr (Or.inl ⟨gid, rfl⟩))
  | [.user uid primary, .group gid] =>
    exact Or.inr (Or.inr (Or.inr (Or.inl ⟨uid, primary, gid, rfl⟩)))
  | [.group gid, .user uid primary] =>
    exact Or.inr (Or.inr (Or.inr (Or.inr ⟨uid, primary, gid, rfl⟩)))
  | .user .. :: .user .. :: _ =>
    exact absurd husers (Nat.not_le.mpr (Nat.succ_lt_succ (Nat.succ_pos _)))
  | .group _ :: .group _ :: _ =>
    exact absurd hgroups (Nat.not_le.mpr (Nat.succ_lt_succ (Nat.succ_pos _)))
  | .user .. :: .group _ :: .user .. :: _ =>
    exact absurd husers (Nat.not_le.mpr (Nat.succ_lt_succ (Nat.succ_pos _)))
  | .user .. :: .group _ :: .group _ :: _ =>
    exact absurd hgroups (Nat.not_le.mpr (Nat.succ_lt_succ (Nat.succ_pos _)))
  | .group _ :: .user .. :: .user .. :: _ =>
    exact absurd husers (Nat.not_le.mpr (Nat.succ_lt_succ (Nat.succ_pos _)))
  | .group _ :: .user .. :: .group _ :: _ =>
    exact absurd hgroups (Nat.not_le.mpr (Nat.succ_lt_succ (Nat.succ_pos _)))

theorem run_uid_congr {t : Ids} (h : s.uid = t.uid) (lines : List Setting) :
    (lines.foldl Ids.line s).uid = (lines.foldl Ids.line t).uid := by
  induction lines generalizing s t with
  | nil => exact h
  | cons x lines ih =>
    apply ih
    cases x with
    | group gid => rw [line_group_uid, line_group_uid, h]
    | user uid primary =>
      unfold Ids.line
      dsimp only
      rw [h]
      split
      · rfl
      · exact h

/-- The user is the same as if the flags were lines. -/
theorem resolve_uid {flags : List Setting} (h : Once flags) (lines : List Setting) :
    (resolve flags lines).uid = ((flags ++ lines).foldl Ids.line unset).uid := by
  rw [List.foldl_append]
  apply run_uid_congr
  rcases once_cases h with rfl | ⟨_, _, rfl⟩ | ⟨_, rfl⟩ | ⟨uid, primary, gid, rfl⟩ |
    ⟨_, _, _, rfl⟩
  · rfl
  · rfl
  · rfl
  · show uid = (((unset.setUser uid primary).line (.group gid))).uid
    rw [line_group_uid]
    rfl
  · rfl

theorem run_uid_first {u : ℤ × ℕ} (h : s.uid < 0) (hfirst : (users lines).head? = some u)
    (hu : 0 ≤ u.1) : (lines.foldl Ids.line s).uid = u.1 := by
  induction lines generalizing s with
  | nil => cases hfirst
  | cons x lines ih =>
    rw [List.foldl_cons]
    cases x with
    | group gid => exact ih (by rwa [line_group_uid]) hfirst
    | user uid primary =>
      obtain rfl := Option.some.inj hfirst
      have hline : s.line (.user uid primary) = s.setUser uid primary := if_pos h
      rw [hline]
      exact run_uid_fixed (s := s.setUser uid primary) hu lines

/-- The first user is kept in exactly this case. -/
theorem uid_kept {flags : List Setting} (h : Once flags) (lines : List Setting) :
    (resolve flags lines).uid = wantedUid flags lines ↔ UidKept (flags ++ lines) := by
  have hneg : unset.uid < 0 := by decide
  have hrun := fun g => @run_uid_negative unset g hneg (flags ++ lines)
  rw [resolve_uid h]
  unfold wantedUid wantedUser UidKept
  rw [← users_append]
  cases hfirst : (users (flags ++ lines)).head? with
  | none =>
    have hnil : users (flags ++ lines) = [] := List.head?_eq_none_iff.mp hfirst
    constructor
    · intro _ u hu
      cases hu
    · intro _
      refine ((hrun (-1)).mpr ⟨?_, ?_⟩).1
      · rw [hnil]
        exact fun u hu => absurd hu List.not_mem_nil
      · rw [hnil]
        rfl
  | some u =>
    dsimp only
    by_cases hu : 0 ≤ u.1
    · constructor
      · intro _ v hv
        rw [← Option.some.inj hv]
        exact Or.inl hu
      · intro _
        exact run_uid_first hneg hfirst hu
    · have hlast : ((users (flags ++ lines)).getLast?.map Prod.fst).getD unset.uid = u.1 ↔
          (users (flags ++ lines)).getLast?.map Prod.fst = some u.1 := by
        cases hget : (users (flags ++ lines)).getLast? with
        | none =>
          rw [List.getLast?_eq_none_iff.mp hget] at hfirst
          cases hfirst
        | some w => exact ⟨fun heq => congrArg some heq, fun heq => Option.some.inj heq⟩
      have hiff := hrun u.1
      rw [hlast] at hiff
      constructor
      · intro heq v hv
        rw [← Option.some.inj hv]
        exact Or.inr (hiff.mp ⟨heq, not_le.mp hu⟩)
      · intro hkept
        exact (hiff.mpr ((hkept u rfl).resolve_left hu)).1

theorem pending_group (hgid : gid < 0) (huid : uid < 0) : Pending ⟨uid, gid⟩ [.group gid] where
  gid := hgid
  groups g hg := by rwa [List.mem_singleton.mp hg]
  last := rfl
  uid := ⟨fun _ _ hu => absurd hu List.not_mem_nil, fun _ => huid⟩
  noFill := noFill_group noFill_nil

/-- A group that may be negative is kept in exactly this case. -/
theorem run_gid_kept {before : List Setting} (h : s.gid < 0 → Pending s before)
    (lines : List Setting) :
    (lines.foldl Ids.line s).gid = s.gid ↔
      0 ≤ s.gid ∨ StaysNegative s.gid (before ++ lines) := by
  by_cases hneg : s.gid < 0
  · rw [run_gid_negative (h hneg) hneg]
    exact ⟨Or.inr, fun hor => hor.resolve_left (by omega)⟩
  · exact ⟨fun _ => Or.inl (not_lt.mp hneg), fun _ => run_gid_fixed (not_lt.mp hneg) lines⟩

/-- The group of a user that comes first is wanted if no other group is set. -/
theorem kept_default {flags : List Setting} {rest : List (ℤ × ℕ)} (hflags : groups flags = [])
    (hwanted : wantedUser flags lines = some (uid, primary))
    (hfirst : users (flags ++ lines.takeWhile Setting.isUser) = (uid, primary) :: rest) :
    (primary : ℤ) = wantedGid flags lines ↔ GidKept flags lines := by
  unfold wantedGid GidKept
  rw [hflags, hwanted, hfirst, List.nil_append]
  cases groups lines with
  | nil => exact ⟨fun _ => trivial, fun _ => rfl⟩
  | cons gid rest => exact Iff.rfl

/-- The first group is kept in exactly this case. -/
theorem gid_kept {flags : List Setting} (h : Once flags) (lines : List Setting) :
    (resolve flags lines).gid = wantedGid flags lines ↔ GidKept flags lines := by
  unfold resolve
  rcases once_cases h with rfl | ⟨uid, primary, rfl⟩ | ⟨gid, rfl⟩ | ⟨uid, primary, gid, rfl⟩ |
    ⟨uid, primary, gid, rfl⟩
  · cases lines with
    | nil => exact ⟨fun _ => trivial, fun _ => rfl⟩
    | cons x lines =>
      cases x with
      | user uid primary =>
        have hfixed := run_gid_fixed (s := unset.setUser uid primary) (Int.natCast_nonneg primary)
          lines
        show (lines.foldl Ids.line (unset.setUser uid primary)).gid = _ ↔ _
        rw [hfixed]
        exact kept_default rfl rfl rfl
      | group gid =>
        exact run_gid_kept (s := ⟨-1, gid⟩) (fun hgid => pending_group hgid (by decide)) lines
  · have hfixed := run_gid_fixed (s := unset.setUser uid primary) (Int.natCast_nonneg primary) lines
    show (lines.foldl Ids.line (unset.setUser uid primary)).gid = _ ↔ _
    rw [hfixed]
    exact kept_default rfl rfl rfl
  · exact run_gid_kept (s := ⟨-1, gid⟩) (fun hgid => pending_group hgid (by decide)) lines
  · refine @run_gid_kept ⟨uid, gid⟩ [.user uid primary, .group gid] ?_ lines
    intro hgid
    have hnone : (groups []).getLast? ≠ some (-1) := nofun
    exact ⟨hgid, fun g hg => by rwa [List.mem_singleton.mp hg], rfl, allNegative_user.symm,
      noFill_group (noFill_user.mpr ⟨noFill_nil, fun _ => hnone⟩)⟩
  · show (lines.foldl Ids.line ((Ids.mk (-1) gid).setUser uid primary)).gid = gid ↔
      0 ≤ gid ∨ StaysNegative gid ([.group gid, .user uid primary] ++ lines)
    by_cases hfill : gid = -1
    · have hset : (Ids.mk (-1) gid).setUser uid primary = ⟨uid, primary⟩ := by
        unfold Ids.setUser
        rw [if_pos hfill]
      have hfixed := run_gid_fixed (s := ⟨uid, primary⟩) (Int.natCast_nonneg primary) lines
      rw [hset, hfixed]
      constructor
      · intro heq
        have heq' : (primary : ℤ) = gid := heq
        omega
      · intro hor
        rcases hor with hor | hor
        · omega
        · have hnot := hor.2.2 [.group gid] uid primary lines rfl
            (fun _ hu => absurd hu List.not_mem_nil)
          rw [hfill] at hnot
          exact absurd rfl hnot
    · have hset : (Ids.mk (-1) gid).setUser uid primary = ⟨uid, gid⟩ := by
        unfold Ids.setUser
        rw [if_neg hfill]
      rw [hset]
      refine @run_gid_kept ⟨uid, gid⟩ [.group gid, .user uid primary] ?_ lines
      intro hgid
      have hlast : (groups [.group gid]).getLast? ≠ some (-1) :=
        fun heq => hfill (Option.some.inj heq)
      exact ⟨hgid, fun g hg => by rwa [List.mem_singleton.mp hg], rfl, allNegative_user.symm,
        noFill_user.mpr ⟨noFill_group noFill_nil, fun _ => hlast⟩⟩

end runs

end Swad.IdPrecedence
