import Swad.GrowingBuffer
import Swad.Util

/-!
The real name of a user who was let in. The entry of the user database is read into a buffer of
fixed size, so an entry that does not fit gives no name. The field is cut at its first comma,
and the user name takes the place of the first ampersand in a block that was sized for the whole
text. The loop that copies there stops at the NUL and does not copy it, so the last byte of such
a block is never written. A name without an ampersand is a copy of the field.
-/
namespace Swad.RealNames

open Bytes Util GrowingBuffer GrowingBuffer.Buffer

/-- An entry of the user database; its field is a string of C. -/
structure Passwd where
  pw_gecos : Option Str
  ended : ∀ gecos, pw_gecos = some gecos → (0 : Byte) ∉ gecos

/-- How the lookup of an entry fails; `ERANGE` is for an entry that does not fit in the buffer. -/
inductive Errno
  | ERANGE
  | EINTR
  | EIO
  | EMFILE
  | ENFILE

/-- The user database and the lookup in it with a buffer of some size. A lookup that does not
fail gives the entry, or none if there is none. -/
structure UserDatabase where
  entry : Str → Option Passwd
  getpwnam_r : Str → ℕ → Except Errno (Option Passwd)
  reads : ∀ {user size pwd}, getpwnam_r user size = .ok pwd → pwd = entry user

/-- The size of the buffer for an entry. -/
def bufSize : ℕ := 1024

def islower (c : Byte) : Bool := chr 'a' ≤ c && c ≤ chr 'z'

def toupper (c : Byte) : Byte := if islower c then c - 32 else c

/-- The place of the first such byte. -/
def strchr (s : Str) (c : Byte) : Option ℕ :=
  if c ∈ s then some (s.takeWhile (· != c)).length else none

/-- The memory of the field after a NUL was put at its first comma. -/
def cutComma (gecos : Str) : List Byte :=
  match strchr gecos (chr ',') with
  | some comma => (gecos ++ [0]).set comma 0
  | none => gecos ++ [0]

/-- Copy the user name with its first letter changed. There is nothing to read behind the NUL
of an empty one. -/
def copyUser (user : Str) (buf : Buffer Byte) : Option (Buffer Byte) :=
  match user with
  | [] => none
  | first :: up => (buf.write [toupper first]).bind fun buf =>
    up.foldlM (fun buf c => buf.write [c]) buf

/-- The loop over the field from a place on. -/
def expand (user : Str) (amp : ℕ) : ℕ → Str → Buffer Byte → Option (Buffer Byte)
  | _, [], buf => some buf
  | gp, c :: rest, buf =>
    (if gp = amp then copyUser user buf else buf.write [c]).bind (expand user amp (gp + 1) rest)

/-- The block with the real name. -/
def realName (user gecos : Str) : Option (List (Option Byte)) :=
  let name := cstr (cutComma gecos)
  match strchr name (chr '&') with
  | some amp => (expand user amp 0 name (alloc (name.length + user.length))).map (·.cells)
  | none => some ((name ++ [0]).map some)

/-- What `check` returns and what it leaves in `realname`, if PAM answered `ok`. -/
def check (getpwnam_r : Str → ℕ → Except Errno (Option Passwd)) (ok : Bool) (user : Str) :
    Option (Bool × Option (List (Option Byte))) :=
  if ok then
    match getpwnam_r user bufSize with
    | .error _ => some (ok, none)
    | .ok pwd =>
      match pwd.bind Passwd.pw_gecos with
      | none => some (ok, none)
      | some gecos =>
        if gecos = [] then some (ok, none)
        else (realName user gecos).map fun block => (ok, some block)
  else some (ok, none)

/-! ### What the name should be -/

def capitalised : Str → Str
  | [] => []
  | first :: rest => toupper first :: rest

/-- The field up to its first comma. -/
def shownField (gecos : Str) : Str := gecos.takeWhile (· != chr ',')

/-- The user name stands for the first ampersand. -/
def withUser (user field : Str) : Str :=
  field.takeWhile (· != chr '&') ++
    match field.dropWhile (· != chr '&') with
    | [] => []
    | _ :: rest => capitalised user ++ rest

def nameOf (user : Str) : Option Str → Option Str
  | none => none
  | some gecos => if gecos = [] then none else some (withUser user (shownField gecos))

/-- A successful check leaves the right name in a block that ends it, or none if there is
none. -/
def Named (db : UserDatabase) (user : Str) : Prop :=
  ∃ realname, check db.getpwnam_r true user = some (true, realname) ∧
    realname.map (readUntil 0) = (nameOf user ((db.entry user).bind Passwd.pw_gecos)).map some

/-! ### What is copied -/

variable {user gecos : Str}

theorem split_at {s : Str} {c : Byte} (h : c ∈ s) :
    ∃ rest, s = s.takeWhile (· != c) ++ c :: rest ∧ s.dropWhile (· != c) = c :: rest := by
  cases hdrop : s.dropWhile (· != c) with
  | nil =>
    have hne := List.dropWhile_eq_nil_iff.mp hdrop c h
    simp at hne
  | cons b rest =>
    obtain ⟨hsplit, hstop⟩ := split_of_dropWhile hdrop
    obtain rfl : b = c := by simpa using hstop
    exact ⟨rest, hsplit, rfl⟩

theorem notMem_takeWhile (s : Str) (c : Byte) : c ∉ s.takeWhile (· != c) := by
  intro h
  have hne := List.mem_takeWhile_imp h
  simp at hne

theorem cstr_cutComma (h0 : (0 : Byte) ∉ gecos) : cstr (cutComma gecos) = shownField gecos := by
  have hfield : (0 : Byte) ∉ shownField gecos :=
    fun h => h0 ((List.takeWhile_prefix _).subset h)
  unfold cutComma strchr
  by_cases hcomma : chr ',' ∈ gecos
  · rw [if_pos hcomma]
    obtain ⟨rest, hsplit, _⟩ := split_at hcomma
    dsimp only
    have hcut : (gecos ++ [0]).set (gecos.takeWhile (· != chr ',')).length 0 =
        shownField gecos ++ 0 :: (rest ++ [0]) := by
      conv_lhs => rw [hsplit, List.append_assoc, List.cons_append]
      rw [takeWhile_until (notMem_takeWhile gecos _), List.set_append_right _ _ (Nat.le_refl _),
        Nat.sub_self]
      rfl
    rw [hcut]
    exact takeWhile_until hfield _
  · rw [if_neg hcomma, shownField, takeWhile_of_notMem hcomma]
    exact takeWhile_until h0 []

theorem copyUser_eq (hne : user ≠ []) (buf : Buffer Byte) :
    copyUser user buf = buf.write (capitalised user) := by
  cases user with
  | nil => exact absurd rfl hne
  | cons first up =>
    rw [copyUser, capitalised, write_cons (toupper first) up]
    cases hstep : buf.write [toupper first] with
    | none => rfl
    | some after => exact foldlM_write up (write_pos_le hstep)

/-- Behind the ampersand the loop only copies. -/
theorem expand_after {amp gp : ℕ} (hgp : amp < gp) (s : Str) {buf : Buffer Byte}
    (h : buf.pos ≤ buf.cells.length) : expand user amp gp s buf = buf.write s := by
  induction s generalizing gp buf with
  | nil => exact (write_nil h).symm
  | cons c s ih =>
    rw [expand, if_neg (Nat.ne_of_gt hgp), write_cons c s]
    cases hstep : buf.write [c] with
    | none => rfl
    | some after => exact ih (Nat.lt_succ_of_lt hgp) (write_pos_le hstep)

/-- The loop puts the user name between what stands before the ampersand and behind it. -/
theorem expand_eq (hne : user ≠ []) (pre post : Str) {amp gp : ℕ} (hamp : gp + pre.length = amp)
    {buf : Buffer Byte} (h : buf.pos ≤ buf.cells.length) :
    expand user amp gp (pre ++ chr '&' :: post) buf =
      buf.write (pre ++ (capitalised user ++ post)) := by
  induction pre generalizing gp buf with
  | nil =>
    rw [List.length_nil, Nat.add_zero] at hamp
    rw [List.nil_append, List.nil_append, expand, if_pos hamp, copyUser_eq hne, ← write_write]
    cases hstep : buf.write (capitalised user) with
    | none => rfl
    | some after => exact expand_after (by omega) post (write_pos_le hstep)
  | cons c pre ih =>
    rw [List.length_cons] at hamp
    rw [List.cons_append, expand, if_neg (by omega), List.cons_append, write_cons c (pre ++ _)]
    cases hstep : buf.write [c] with
    | none => rfl
    | some after => exact ih (by omega) (write_pos_le hstep)

/-- One cell of a block stays unwritten if the text is one byte shorter. -/
theorem write_short (text : Str) :
    ((alloc (text.length + 1)).write text).map (·.cells) = some (text.map some ++ [none]) := by
  have hroom : (alloc (text.length + 1) : Buffer Byte).pos + text.length ≤
      (alloc (text.length + 1) : Buffer Byte).cells.length := by
    rw [alloc, List.length_replicate, Nat.zero_add]
    exact Nat.le_succ _
  rw [Buffer.write, if_pos hroom]
  simp [alloc]

theorem length_capitalised (s : Str) : (capitalised s).length = s.length := by
  cases s <;> rfl

/-- With an ampersand the block holds the name and a byte that was never written. -/
theorem realName_ampersand (hne : user ≠ []) (h0 : (0 : Byte) ∉ gecos)
    (hamp : chr '&' ∈ shownField gecos) :
    realName user gecos = some ((withUser user (shownField gecos)).map some ++ [none]) := by
  unfold realName withUser strchr
  dsimp only
  rw [cstr_cutComma h0, if_pos hamp]
  obtain ⟨post, hsplit, hdrop⟩ := split_at hamp
  rw [hdrop]
  generalize hpre : (shownField gecos).takeWhile (· != chr '&') = pre at hsplit
  dsimp only
  rw [hsplit, expand_eq hne pre post (Nat.zero_add _) (Nat.zero_le _), ← write_short]
  congr 3
  simp only [List.length_append, List.length_cons, length_capitalised]
  omega

theorem realName_plain (h0 : (0 : Byte) ∉ gecos) (hamp : chr '&' ∉ shownField gecos) :
    realName user gecos = some ((withUser user (shownField gecos) ++ [0]).map some) := by
  have hnone : (shownField gecos).dropWhile (· != chr '&') = [] :=
    List.dropWhile_eq_nil_iff.mpr fun b hb => bne_of_notMem hamp b hb
  unfold realName withUser strchr
  dsimp only
  rw [cstr_cutComma h0, if_neg hamp, takeWhile_of_notMem hamp, hnone, List.append_nil]

theorem toupper_ne_zero {c : Byte} (h : c ≠ 0) : toupper c ≠ 0 := by
  unfold toupper
  split
  · next hlower =>
    intro hzero
    have hc : c = 32 := by
      rw [← UInt8.sub_add_cancel c 32, hzero]
      rfl
    rw [hc] at hlower
    exact absurd hlower (by decide)
  · exact h

theorem zero_notMem_withUser (huser : (0 : Byte) ∉ user) {field : Str} (h0 : (0 : Byte) ∉ field) :
    (0 : Byte) ∉ withUser user field := by
  have hcapital : (0 : Byte) ∉ capitalised user := by
    cases user with
    | nil => exact huser
    | cons first rest =>
      rw [List.mem_cons, not_or] at huser
      rw [capitalised, List.mem_cons, not_or]
      exact ⟨Ne.symm (toupper_ne_zero (Ne.symm huser.1)), huser.2⟩
  unfold withUser
  rw [List.mem_append, not_or]
  refine ⟨fun h => h0 ((List.takeWhile_prefix _).subset h), ?_⟩
  cases hdrop : field.dropWhile (· != chr '&') with
  | nil => exact List.not_mem_nil
  | cons c rest =>
    rw [List.mem_append, not_or]
    refine ⟨hcapital, fun h => h0 ((List.dropWhile_suffix (· != chr '&')).subset ?_)⟩
    rw [hdrop]
    exact List.mem_cons_of_mem c h

/-- The block of the name reads as the right one if and only if no ampersand stands before the
first comma. -/
theorem realName_reads (hne : user ≠ []) (huser : (0 : Byte) ∉ user) (h0 : (0 : Byte) ∉ gecos) :
    (∃ block, realName user gecos = some block ∧
      readUntil 0 block = some (withUser user (shownField gecos))) ↔
      chr '&' ∉ shownField gecos := by
  have hname : (0 : Byte) ∉ withUser user (shownField gecos) :=
    zero_notMem_withUser huser fun h => h0 ((List.takeWhile_prefix _).subset h)
  by_cases hamp : chr '&' ∈ shownField gecos
  · rw [realName_ampersand hne h0 hamp]
    refine iff_of_false ?_ fun hnot => hnot hamp
    rintro ⟨block, hblock, hread⟩
    rw [← Option.some.inj hblock, readUntil_unended hname] at hread
    cases hread
  · rw [realName_plain h0 hamp]
    refine iff_of_true ⟨_, rfl, ?_⟩ hamp
    rw [List.map_append, List.map_singleton, readUntil_append hname]

section lookup

variable {db : UserDatabase} {pwd : Option Passwd} {e : Errno}

/-- A lookup that fails gives no name, whatever the entry is. -/
theorem named_of_error (hlookup : db.getpwnam_r user bufSize = .error e) :
    Named db user ↔ nameOf user ((db.entry user).bind Passwd.pw_gecos) = none := by
  unfold Named check
  rw [if_pos rfl, hlookup]
  constructor
  · rintro ⟨realname, hcheck, hname⟩
    obtain ⟨_, rfl⟩ := Prod.mk.inj (Option.some.inj hcheck)
    exact Option.map_eq_none_iff.mp hname.symm
  · intro hnone
    rw [hnone]
    exact ⟨none, rfl, rfl⟩

/-- A lookup that does not fail gives the right name, and ends it within its block, if and only
if no ampersand stands before the first comma of the field. -/
theorem named_of_ok (hne : user ≠ []) (huser : (0 : Byte) ∉ user)
    (hlookup : db.getpwnam_r user bufSize = .ok pwd) :
    Named db user ↔ ∀ gecos, (db.entry user).bind Passwd.pw_gecos = some gecos →
      chr '&' ∉ shownField gecos := by
  unfold Named check
  rw [if_pos rfl, hlookup, db.reads hlookup]
  dsimp only
  cases hentry : (db.entry user).bind Passwd.pw_gecos with
  | none =>
    constructor
    · rintro _ gecos h
      cases h
    · intro _
      exact ⟨none, rfl, rfl⟩
  | some gecos =>
    have h0 : (0 : Byte) ∉ gecos := by
      obtain ⟨pwd, _, hgecos⟩ := Option.bind_eq_some_iff.mp hentry
      exact pwd.ended gecos hgecos
    dsimp only [nameOf]
    by_cases hempty : gecos = []
    · subst hempty
      rw [if_pos rfl, if_pos rfl]
      constructor
      · rintro _ gecos h
        obtain rfl := Option.some.inj h
        exact List.not_mem_nil
      · intro _
        exact ⟨none, rfl, rfl⟩
    · rw [if_neg hempty, if_neg hempty]
      have hreads := realName_reads hne huser h0
      constructor
      · rintro ⟨realname, hcheck, hread⟩ gecos' h
        obtain rfl := Option.some.inj h
        obtain ⟨block, hblock, heq⟩ := Option.map_eq_some_iff.mp hcheck
        obtain ⟨-, rfl⟩ := Prod.mk.inj heq
        exact hreads.mp ⟨block, hblock, Option.some.inj hread⟩
      · intro hamp
        obtain ⟨block, hblock, hread⟩ := hreads.mpr (hamp gecos rfl)
        rw [hblock]
        exact ⟨some block, rfl, congrArg some hread⟩

/-- The name is right, and ended within its block, if and only if a field that is not empty comes
from an entry that is read into the buffer, and no ampersand stands before its first comma. -/
theorem named_iff (db : UserDatabase) (user : Str) (hne : user ≠ []) (huser : (0 : Byte) ∉ user) :
    Named db user ↔ ∀ gecos, (db.entry user).bind Passwd.pw_gecos = some gecos → gecos ≠ [] →
      (∃ pwd, db.getpwnam_r user 1024 = .ok pwd) ∧ chr '&' ∉ gecos.takeWhile (· != chr ',') := by
  cases hlookup : db.getpwnam_r user bufSize with
  | error e =>
    rw [named_of_error hlookup]
    constructor
    · intro hnone gecos hentry hsome
      rw [hentry, nameOf, if_neg hsome] at hnone
      cases hnone
    · intro h
      cases hentry : (db.entry user).bind Passwd.pw_gecos with
      | none => rfl
      | some gecos =>
        by_cases hempty : gecos = []
        · rw [nameOf, if_pos hempty]
        · obtain ⟨⟨pwd, hok⟩, -⟩ := h gecos hentry hempty
          cases hlookup.symm.trans hok
  | ok pwd =>
    rw [named_of_ok hne huser hlookup]
    refine forall_congr' fun gecos => forall_congr' fun _ => ?_
    constructor
    · exact fun hamp _ => ⟨⟨pwd, hlookup⟩, hamp⟩
    · intro h
      by_cases hempty : gecos = []
      · rw [hempty]
        exact List.not_mem_nil
      · exact (h hempty).2

end lookup

/-! ### Entries -/

/-- The bytes that the field takes in the buffer. -/
def Passwd.size (self : Passwd) : ℕ := (self.pw_gecos.elim 0 fun gecos => gecos.length + 1)

/-- A database with one user. -/
def databaseOf (pwd : Passwd) : UserDatabase where
  entry user := if user = str "root" then some pwd else none
  getpwnam_r user size :=
    if user = str "root" then if pwd.size ≤ size then .ok (some pwd) else .error .ERANGE
    else .ok none
  reads := by
    intro user size found h
    split at h
    · next huser =>
      rw [if_pos huser]
      split at h
      · exact (Except.ok.inj h).symm
      · cases h
    · next huser =>
      rw [if_neg huser]
      exact (Except.ok.inj h).symm

theorem databaseOf_error {pwd : Passwd} {size : ℕ} (h : size < pwd.size) :
    (databaseOf pwd).getpwnam_r (str "root") size = .error .ERANGE := by
  unfold databaseOf
  dsimp only
  rw [if_pos rfl, if_neg (Nat.not_le.mpr h)]

def adminField : Str := str "& Admin,Room 1"

theorem zero_notMem_adminField : (0 : Byte) ∉ adminField := by decide

def adminEntry : Passwd :=
  ⟨some adminField, fun _ h => Option.some.inj h ▸ zero_notMem_adminField⟩

/-- The name is stored, but nothing ends it. -/
theorem terminator_lost :
    check (databaseOf adminEntry).getpwnam_r true (str "root") =
        some (true, some ((str "Root Admin").map some ++ [none])) ∧
      nameOf (str "root") adminEntry.pw_gecos = some (str "Root Admin") ∧
      ¬ Named (databaseOf adminEntry) (str "root") := by
  have hcheck : check (databaseOf adminEntry).getpwnam_r true (str "root") =
      some (true, some ((str "Root Admin").map some ++ [none])) := by decide
  refine ⟨hcheck, by decide, ?_⟩
  rintro ⟨realname, hname, hread⟩
  rw [hcheck] at hname
  obtain ⟨_, rfl⟩ := Prod.mk.inj (Option.some.inj hname)
  rw [Option.map_some, readUntil_unended (by decide)] at hread
  cases hread

def plainField : Str := str "Charlie Root,Room 1 & 2"

theorem zero_notMem_plainField : (0 : Byte) ∉ plainField := by decide

def plainEntry : Passwd :=
  ⟨some plainField, fun _ h => Option.some.inj h ▸ zero_notMem_plainField⟩

def longField : Str := List.replicate 1024 (chr 'x')

theorem zero_notMem_longField : (0 : Byte) ∉ longField :=
  fun h => absurd (List.eq_of_mem_replicate h) (by decide)

def longEntry : Passwd :=
  ⟨some longField, fun _ h => Option.some.inj h ▸ zero_notMem_longField⟩

/-- A field that fits is shown up to its comma; one that does not is not shown. -/
theorem named_iff_plain : nameOf (str "root") plainEntry.pw_gecos = some (str "Charlie Root") ∧
    Named (databaseOf plainEntry) (str "root") ∧ ¬ Named (databaseOf longEntry) (str "root") := by
  refine ⟨by decide, (named_iff _ (str "root") (by decide) (by decide)).mpr ?_, ?_⟩
  · intro gecos hgecos _
    obtain rfl := Option.some.inj hgecos
    exact ⟨⟨some plainEntry, rfl⟩, by decide⟩
  · rw [named_iff _ (str "root") (by decide) (by decide)]
    intro h
    have hlength : longField.length = 1024 := List.length_replicate
    have hsize : 1024 < longEntry.size := by
      show 1024 < longField.length + 1
      omega
    have hsome : longField ≠ [] := List.ne_nil_of_length_pos (by omega)
    obtain ⟨⟨pwd, hok⟩, -⟩ := h longField rfl hsome
    cases (databaseOf_error hsize).symm.trans hok

end Swad.RealNames
