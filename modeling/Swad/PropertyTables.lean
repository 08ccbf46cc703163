import Swad.OwnedTables
import Swad.SessionMap
import Swad.TemplateEngine

/-!
The three tables that own what is put into them: the objects that middlewares attach to a
request, the variables of a template, and the properties of the sessions. Their chains follow
no dangling link, they find what was put in last, and in every run each thing that they own
is released once: when another takes its place, or with the table.
-/
namespace Swad.PropertyTables

open Bytes Util LinkedChains OwnedTables LabelledRuns

/-! ### The objects of a request -/

section contexts

variable {O D : Type}

def CPHT_BITS : ℕ := 6

structure HttpCtxProp (O D : Type) where
  obj : Option O
  deleter : Option D

/-- A deleter is called with the object, also with a null one. -/
def HttpCtxProp.owns (prop : HttpCtxProp O D) : Option (D × Option O) :=
  prop.deleter.map fun d => (d, prop.obj)

abbrev HttpContext (O D : Type) :=
  Table (Fin (2 ^ CPHT_BITS)) Str (HttpCtxProp O D) (D × Option O)

abbrev keyHash (key : Str) : Fin (2 ^ CPHT_BITS) := hash key CPHT_BITS

namespace HttpContext

def get (self : HttpContext O D) (key : Str) : Option (Option O) :=
  (Table.get keyHash self key).map fun prop => prop.bind HttpCtxProp.obj

def set (self : HttpContext O D) (key : Str) (obj : Option O) (deleter : Option D) :
    Option (HttpContext O D) :=
  Table.set keyHash HttpCtxProp.owns self ⟨none, none⟩ key ⟨obj, deleter⟩

def destroy (self : HttpContext O D) : Option (HttpContext O D) :=
  Table.destroy HttpCtxProp.owns self (List.finRange _)

end HttpContext

inductive Call (O D : Type)
  | get (key : Str)
  | set (key : Str) (obj : Option O) (deleter : Option D)

/-- What the deleter of a set object will be called with. -/
def Call.gives : Call O D → Option (D × Option O)
  | .get _ => none
  | .set _ obj deleter => deleter.map fun d => (d, obj)

def call (self : HttpContext O D) : Call O D → Option (HttpContext O D × Option O)
  | .get key => (HttpContext.get self key).map fun obj => (self, obj)
  | .set key obj deleter => (HttpContext.set self key obj deleter).map fun self => (self, none)

def idealCall (self : Ideal Str (HttpCtxProp O D) (D × Option O)) :
    Call O D → Ideal Str (HttpCtxProp O D) (D × Option O) × Option O
  | .get key => (self, (self.value key).bind HttpCtxProp.obj)
  | .set key obj deleter => (self.set HttpCtxProp.owns key ⟨obj, deleter⟩, none)

abbrev RefinesContext (self : HttpContext O D) (ideal : Ideal Str (HttpCtxProp O D) (D × Option O))
    (given : Multiset (D × Option O)) : Prop :=
  Refines keyHash HttpCtxProp.owns self ideal given

variable {self : HttpContext O D} {ideal : Ideal Str (HttpCtxProp O D) (D × Option O)}
  {given : Multiset (D × Option O)}

theorem call_refines (h : RefinesContext self ideal given) (c : Call O D) :
    ∃ self', call self c = some (self', (idealCall ideal c).2) ∧
      RefinesContext self' (idealCall ideal c).1 (given + (c.gives.toList : Multiset (D × Option O))) := by
  cases c with
  | get key =>
    refine ⟨self, ?_, by simpa [Call.gives, idealCall] using h⟩
    rw [call, HttpContext.get, h.get key]
    rfl
  | set key obj deleter =>
    obtain ⟨self', hset, hrefines⟩ := h.set ⟨none, none⟩ key ⟨obj, deleter⟩
    refine ⟨self', ?_, hrefines⟩
    rw [call, HttpContext.set, hset]
    rfl

/-- The answers of a table that is a function, and what it releases. -/
def idealCalls (ideal : Ideal Str (HttpCtxProp O D) (D × Option O)) :
    List (Call O D) → Ideal Str (HttpCtxProp O D) (D × Option O) × List (Option O)
  | [] => (ideal, [])
  | c :: calls =>
    let next := idealCall ideal c
    let rest := idealCalls next.1 calls
    (rest.1, next.2 :: rest.2)

theorem calls_refine (h : RefinesContext self ideal given) (calls : List (Call O D)) :
    ∃ self' trace, exec call self calls = some (self', trace) ∧
      trace.map Prod.snd = (idealCalls ideal calls).2 ∧
      RefinesContext self' (idealCalls ideal calls).1
        (given + (calls.filterMap Call.gives : List (D × Option O))) := by
  induction calls generalizing self ideal given with
  | nil => exact ⟨self, [], rfl, rfl, by simpa [idealCalls] using h⟩
  | cons c calls ih =>
    obtain ⟨mid, hcall, hmid⟩ := call_refines h c
    obtain ⟨self', trace, hexec, hanswers, hrefines⟩ := ih hmid
    refine ⟨self', (c, (idealCall ideal c).2) :: trace, ?_, ?_, ?_⟩
    · rw [exec, hcall, Option.bind_some, hexec]
      rfl
    · rw [List.map_cons, hanswers]
      rfl
    · rw [coe_filterMap_cons, ← add_assoc]
      exact hrefines

/-- Whatever middlewares attach to a request and ask for, they get what was attached last under
the key. An object is released when another is attached under its key, in that order, and the
rest with the request: every object that came with a deleter once, and nothing is left. -/
theorem context_calls (calls : List (Call O D)) :
    ∃ self trace, exec call (Table.create : HttpContext O D) calls = some (self, trace) ∧
      trace.map Prod.snd = (idealCalls .empty calls).2 ∧
      self.released = (idealCalls .empty calls).1.released ∧
      ∃ done, HttpContext.destroy self = some done ∧ (∀ a, done.chains.node a = none) ∧
        done.released.Perm (calls.filterMap Call.gives) := by
  have hcreate : RefinesContext (Table.create : HttpContext O D) .empty 0 := refines_create
  obtain ⟨self, trace, hexec, hanswers, hrefines⟩ := calls_refine hcreate calls
  obtain ⟨done, hdestroy, hnone, hreleased⟩ := hrefines.destroy
    List.mem_finRange
  refine ⟨self, trace, hexec, hanswers, hrefines.released, done, hdestroy, hnone, ?_⟩
  rwa [zero_add, Multiset.coe_eq_coe] at hreleased

example : (idealCalls .empty [.set (str "k") (some 1) (some ()), .get (str "k"),
    .set (str "k") (some 2) none, .get (str "k"), .get (str "l")] :
      Ideal Str (HttpCtxProp ℕ Unit) (Unit × Option ℕ) × List (Option ℕ)).2 =
    [none, some 1, none, some 2, none] := by decide +kernel

end contexts

/-! ### The variables of a template -/

section templates

open TemplateEngine GrowingBuffer Httprequest
open TextOutput (appendchr)
open Template (TmplFilter)

variable {B : Type}

/-- The value of a variable is a string in a block of memory. -/
structure Value (B : Type) where
  block : B
  var : TmplVar

def Value.owns (value : Value B) : Option B := if value.var.owned then some value.block else none

abbrev varHash (name : Str) : Fin (2 ^ TVHT_BITS) := hash name TVHT_BITS

structure TemplateMemory (B : Type) where
  tmpl : Str
  vars : Table (Fin (2 ^ TVHT_BITS)) Str (Value B) B

namespace TemplateMemory

def create (tmpl : Str) : TemplateMemory B := ⟨tmpl, .create⟩

def findVar (self : TemplateMemory B) (name : Str) : Option (Option TmplVar) :=
  (self.vars.get varHash name).map fun value => value.map Value.var

/-- A variable that is new owns nothing before its value is written. -/
def setVar (self : TemplateMemory B) (name val : CString) (filter : TmplFilter) (block : B) :
    Option (TemplateMemory B) :=
  (self.vars.set varHash Value.owns ⟨block, ⟨name, val, filter, false⟩⟩ name.1
    ⟨block, ⟨name, val, filter, true⟩⟩).map fun vars => { self with vars }

def passVar (self : TemplateMemory B) (name val : CString) (filter : TmplFilter) (block : B) :
    Option (TemplateMemory B) :=
  (self.vars.set varHash Value.owns ⟨block, ⟨name, val, filter, false⟩⟩ name.1
    ⟨block, ⟨name, val, filter, true⟩⟩).map fun vars => { self with vars }

def setStaticVar (self : TemplateMemory B) (name val : CString) (filter : TmplFilter) (block : B) :
    Option (TemplateMemory B) :=
  (self.vars.set varHash Value.owns ⟨block, ⟨name, val, filter, false⟩⟩ name.1
    ⟨block, ⟨name, val, filter, false⟩⟩).map fun vars => { self with vars }

def destroy (self : TemplateMemory B) : Option (TemplateMemory B) :=
  (self.vars.destroy Value.owns (List.finRange _)).map fun vars => { self with vars }

def processLoop (self : TemplateMemory B) : ℕ → ℕ → Buffer Byte → Option (Buffer Byte)
  | rounds + 1, pos, out =>
    if pos < self.tmpl.length then
      if opensAt self.tmpl pos then
        match nameEnd self.tmpl 63 (pos + 2) with
        | some endpos =>
          (Buf.copy 64 ((self.tmpl.drop (pos + 2)).take (endpos - (pos + 2)))).bind fun varnm =>
            (self.findVar (cstr varnm.text)).bind fun found =>
              (found.elim (some out) fun var => processVar var out).bind
                (self.processLoop rounds (endpos + 2))
        | none =>
          ((appendchr OUTCHUNK (chr '%') out).bind (appendchr OUTCHUNK (chr '%'))).bind
            (self.processLoop rounds (pos + 2))
      else
        self.tmpl[pos]?.bind fun c =>
          (appendchr OUTCHUNK c out).bind (self.processLoop rounds (pos + 1))
    else some out
  | 0, pos, out => if pos < self.tmpl.length then none else some out

def process (self : TemplateMemory B) : Option Str :=
  ((self.processLoop self.tmpl.length 0 ⟨[], 0, 0⟩).bind (appendchr 1 0)).bind fun out =>
    readUntil 0 (out.realloc out.size).cells

end TemplateMemory

/-- A variable is set to a string in a block. -/
def setting (self : TemplateMemory B) (s : B × Setting) : Option (TemplateMemory B) :=
  match s.2.setter with
  | .setVar => self.setVar s.2.name s.2.val s.2.filter s.1
  | .passVar => self.passVar s.2.name s.2.val s.2.filter s.1
  | .setStaticVar => self.setStaticVar s.2.name s.2.val s.2.filter s.1

/-- The copies and the strings that are handed over are the template's own. -/
def ownBlock (s : B × Setting) : Option B :=
  match s.2.setter with
  | .setVar | .passVar => some s.1
  | .setStaticVar => none

/-- The memory has the variables of the lists, and accounts for these blocks. -/
structure RefinesTemplate (memory : TemplateMemory B) (template : TemplateEngine.Template)
    (given : Multiset B) : Prop where
  tmpl : memory.tmpl = template.tmpl
  vars : ∃ ideal, Refines varHash Value.owns memory.vars ideal given ∧
    ∀ name, (ideal.value name).map Value.var = template.findVar name

variable {memory : TemplateMemory B} {template : TemplateEngine.Template} {given : Multiset B}

theorem refines_insert (h : RefinesTemplate memory template given) (init : Value B) (block : B)
    (var : TmplVar) :
    ∃ vars, memory.vars.set varHash Value.owns init var.name.1 ⟨block, var⟩ = some vars ∧
      RefinesTemplate { memory with vars } (template.insertOrUpdate var)
        (given + owned Value.owns ⟨block, var⟩) := by
  obtain ⟨ideal, hrefines, hvars⟩ := h.vars
  obtain ⟨vars, hset, hnext⟩ := hrefines.set init var.name.1 ⟨block, var⟩
  refine ⟨vars, hset, h.tmpl, _, hnext, fun name => ?_⟩
  show Option.map Value.var (Function.update ideal.value var.name.1 (some ⟨block, var⟩) name) = _
  rw [findVar_insertOrUpdate, ← hvars]
  by_cases hname : var.name.1 = name
  · rw [if_pos hname, hname, Function.update_self]
    rfl
  · rw [if_neg hname, Function.update_of_ne (Ne.symm hname)]

theorem setting_refines (h : RefinesTemplate memory template given) (s : B × Setting) :
    ∃ memory', setting memory s = some memory' ∧
      RefinesTemplate memory' (s.2.apply template) (given + ((ownBlock s).toList : Multiset B)) := by
  obtain ⟨block, setter, name, val, filter⟩ := s
  obtain ⟨vars, hset, hrefines⟩ := refines_insert h ⟨block, ⟨name, val, filter, false⟩⟩ block
    ⟨name, val, filter, true⟩
  obtain ⟨static, hstatic, hrefinesStatic⟩ := refines_insert h ⟨block, ⟨name, val, filter, false⟩⟩
    block ⟨name, val, filter, false⟩
  cases setter with
  | setVar => exact ⟨_, by rw [setting, TemplateMemory.setVar, hset]; rfl, hrefines⟩
  | passVar => exact ⟨_, by rw [setting, TemplateMemory.passVar, hset]; rfl, hrefines⟩
  | setStaticVar =>
    exact ⟨_, by rw [setting, TemplateMemory.setStaticVar, hstatic]; rfl, hrefinesStatic⟩

theorem settings_refine (h : RefinesTemplate memory template given) (settings : List (B × Setting)) :
    ∃ memory', settings.foldlM setting memory = some memory' ∧
      RefinesTemplate memory' ((settings.map Prod.snd).foldl Setting.apply template)
        (given + (settings.filterMap ownBlock : List B)) := by
  induction settings generalizing memory template given with
  | nil => exact ⟨memory, rfl, by simpa using h⟩
  | cons s settings ih =>
    obtain ⟨mid, hsetting, hmid⟩ := setting_refines h s
    obtain ⟨memory', hfold, hrefines⟩ := ih hmid
    refine ⟨memory', by rw [List.foldlM_cons, hsetting]; exact hfold, ?_⟩
    rw [coe_filterMap_cons, ← add_assoc]
    exact hrefines

theorem processLoop_refines (h : RefinesTemplate memory template given) (rounds pos : ℕ)
    (out : Buffer Byte) :
    memory.processLoop rounds pos out = template.processLoop rounds pos out := by
  have hfind : ∀ name, memory.findVar name = some (template.findVar name) := by
    obtain ⟨ideal, hrefines, hvars⟩ := h.vars
    intro name
    rw [TemplateMemory.findVar, hrefines.get, Option.map_some, hvars]
  induction rounds generalizing pos out with
  | zero => rw [TemplateMemory.processLoop, TemplateEngine.Template.processLoop, h.tmpl]
  | succ rounds ih =>
    have hloop : memory.processLoop rounds = template.processLoop rounds := funext₂ ih
    rw [TemplateMemory.processLoop, TemplateEngine.Template.processLoop, h.tmpl]
    refine ite_congr rfl (fun _ => ite_congr rfl (fun _ => ?_) fun _ => by rw [hloop]) fun _ => rfl
    cases nameEnd template.tmpl 63 (pos + 2) with
    | none =>
      dsimp only
      rw [hloop]
    | some endpos =>
      refine Option.bind_congr fun varnm _ => ?_
      rw [hfind, Option.bind_some, hloop]

/-- Whatever variables of a template are set, the chains in memory give the page that the lists
of variables give. Every copy and every string that was handed over is released once, when its
variable is set again or with the template, a static string never, and nothing is left. -/
theorem template_settings (tmpl : Str) (settings : List (B × Setting)) :
    ∃ memory, settings.foldlM setting (TemplateMemory.create tmpl) = some memory ∧
      memory.process = ((settings.map Prod.snd).foldl Setting.apply
        (TemplateEngine.Template.create tmpl)).process ∧
      ∃ done, memory.destroy = some done ∧ (∀ a, done.vars.chains.node a = none) ∧
        done.vars.released.Perm (settings.filterMap ownBlock) := by
  have hcreate : RefinesTemplate (TemplateMemory.create tmpl : TemplateMemory B)
      (TemplateEngine.Template.create tmpl) 0 :=
    ⟨rfl, .empty, refines_create, fun _ => rfl⟩
  obtain ⟨memory, hfold, hrefines⟩ := settings_refine hcreate settings
  refine ⟨memory, hfold, ?_, ?_⟩
  · rw [TemplateMemory.process, TemplateEngine.Template.process, processLoop_refines hrefines,
      hrefines.tmpl]
  · obtain ⟨ideal, hvars, _⟩ := hrefines.vars
    obtain ⟨vars, hdestroy, hnone, hreleased⟩ := hvars.destroy
      List.mem_finRange
    refine ⟨{ memory with vars }, by rw [TemplateMemory.destroy, hdestroy]; rfl, hnone, ?_⟩
    rwa [zero_add, Multiset.coe_eq_coe] at hreleased

end templates

/-! ### The properties of sessions -/

section sessions

open SessionChains SessionMap
open SessionStore (SHT_BITS CLEANINTERVAL)

variable {V D : Type}

def propOwns (prop : SessionProp V D) : Option (D × Option V) :=
  prop.deleter.map fun d => (d, prop.value)

/-- What the deleters were called with, and what the stored properties still have for them. -/
structure Accounts (memory : Memory V D) (given : Multiset (D × Option V)) : Prop where
  props : ∃ P, memory.props.Represents P
  sum : (memory.deleted : Multiset (D × Option V)) + held propOwns memory.props = given

/-- What a request hands over to its session. -/
def handed (l : Request V D × Outcome) : List (D × Option V) :=
  if l.2 = .refused then [] else l.1.sets.filterMap fun q => q.2.2.map fun d => (d, q.2.1)

variable {self self' : Memory V D} {S : Sessions} {P : Props V D} {given : Multiset (D × Option V)}
  {now : ℤ} {a : Addr}

theorem foldlM_invariant {A M : Type} {I : M → Prop} {step : M → A → Option M} {l : List A}
    {m m' : M} (hstep : ∀ m x m', I m → step m x = some m' → I m')
    (hfold : l.foldlM step m = some m') (h : I m) : I m' := by
  induction l generalizing m with
  | nil =>
    obtain rfl := Option.some.inj hfold
    exact h
  | cons x l ih =>
    rw [List.foldlM_cons] at hfold
    obtain ⟨mid, hmid, hrest⟩ := Option.bind_eq_some_iff.mp hfold
    exact ih hrest (hstep m x mid h hmid)

theorem accounts_deleteSession (h : Accounts self given) (hdelete : self.deleteSession a = some self') :
    Accounts self' given := by
  refine foldlM_invariant (I := fun memory => Accounts memory given) ?_ hdelete h
  intro memory p memory' hmemory hstep
  obtain ⟨P, hP⟩ := hmemory.props
  obtain ⟨props, hdiscard, _, hrep⟩ := hP.discard (a, p)
  rw [hdiscard] at hstep
  obtain rfl := Option.some.inj hstep
  refine ⟨⟨_, hrep⟩, ?_⟩
  have hsum := hmemory.sum
  rw [held_discard hP hdiscard, sum_owned, ← add_assoc, Multiset.coe_add] at hsum
  exact hsum

/-- Sessions are not what is accounted for. -/
theorem Accounts.congr (h : Accounts self given) (hdeleted : self'.deleted = self.deleted)
    (hprops : self'.props = self.props) : Accounts self' given := by
  obtain ⟨hrep, hsum⟩ := h
  rw [← hprops] at hrep hsum
  rw [← hdeleted] at hsum
  exact ⟨hrep, hsum⟩

theorem accounts_findSession {id : Str} {found : Option Addr} (h : Accounts self given)
    (hfind : self.findSession id now = some (self', found)) : Accounts self' given := by
  simp only [Memory.findSession, Option.bind_eq_bind, Option.bind_eq_some_iff] at hfind
  obtain ⟨⟨parent, target⟩, _, hfind⟩ := hfind
  cases target with
  | none =>
    obtain ⟨rfl, _⟩ := Prod.mk.inj (Option.some.inj hfind)
    exact h
  | some a =>
    simp only [Option.bind_eq_some_iff] at hfind
    obtain ⟨session, _, hfind⟩ := hfind
    split at hfind
    · obtain ⟨sessions, _, hfind⟩ := Option.bind_eq_some_iff.mp hfind
      obtain ⟨deleted, hdelete, hfind⟩ := Option.bind_eq_some_iff.mp hfind
      obtain ⟨rfl, _⟩ := Prod.mk.inj (Option.some.inj hfind)
      have hkept : Accounts { self with sessions } given := h.congr rfl rfl
      exact accounts_deleteSession hkept hdelete
    · obtain ⟨rfl, _⟩ := Prod.mk.inj (Option.some.inj hfind)
      exact h

theorem accounts_clean (h : Accounts self given) (hclean : self.clean now = some self') :
    Accounts self' given := by
  unfold Memory.clean at hclean
  split at hclean
  · obtain rfl := Option.some.inj hclean
    exact h
  · have hstart : Accounts { self with cleantime := now } given := h.congr rfl rfl
    refine foldlM_invariant (I := fun memory => Accounts memory given) ?_ hclean hstart
    intro memory b memory' hmemory hstep
    obtain ⟨⟨sessions, removed⟩, _, hstep⟩ := Option.bind_eq_some_iff.mp hstep
    have hkept : Accounts { memory with sessions } given := hmemory.congr rfl rfl
    exact foldlM_invariant (I := fun memory => Accounts memory given)
      (fun _ _ _ => accounts_deleteSession) hstep hkept

theorem accounts_freshId {draws : List (List Byte)} {id : Str} (h : Accounts self given)
    (hfresh : self.freshId now draws = some (self', id)) : Accounts self' given := by
  induction draws generalizing self with
  | nil => cases hfresh
  | cons draw draws ih =>
    rw [Memory.freshId] at hfresh
    obtain ⟨⟨mid, found⟩, hfind, hfresh⟩ := Option.bind_eq_some_iff.mp hfresh
    have hmid := accounts_findSession h hfind
    cases found with
    | some a => exact ih hmid hfresh
    | none =>
      obtain ⟨rfl, _⟩ := Prod.mk.inj (Option.some.inj hfresh)
      exact hmid

/-- A new session has no properties yet. -/
theorem accounts_createSession {draws : List (List Byte)} (hstored : Stored self S P)
    (h : Accounts self given) (hcreate : self.createSession now draws = some (self', a)) :
    Accounts self' given ∧ (∃ S' P', Stored self' S' P' ∧ ∃ b, a ∈ addrs (S' b)) := by
  have hspec := createSession_spec hstored now draws
  cases hdraw : draws.find? fun d => (live S (SessionStore.rndStr d) now).isNone with
  | none =>
    rw [hdraw, hcreate] at hspec
    cases hspec
  | some d =>
    rw [hdraw] at hspec
    obtain ⟨created, hcreated, _, _, hstored'⟩ := hspec
    rw [hcreate] at hcreated
    obtain ⟨rfl, rfl⟩ := Prod.mk.inj (Option.some.inj hcreated)
    have hmem : self.sessions.allocated ∈ addrs (appendS (findS S (SessionStore.rndStr d) now)
        self.sessions.allocated ⟨SessionStore.rndStr d, none, now, now⟩
          (hash (SessionStore.rndStr d) SHT_BITS)) := by
      rw [appendS, Function.update_self]
      simp
    refine ⟨⟨⟨_, hstored'.props⟩, ?_⟩, _, _, hstored', _, hmem⟩
    simp only [Memory.createSession, Option.bind_eq_bind, Option.bind_eq_some_iff] at hcreate
    obtain ⟨⟨mid, id⟩, hfresh, sessions, _, heq⟩ := hcreate
    obtain ⟨rfl, _⟩ := Prod.mk.inj (Option.some.inj heq)
    exact (accounts_freshId h hfresh).sum

theorem accounts_setProp {key : Str} {obj : Option V} {deleter : Option D} (h : Accounts self given)
    (hset : self.setProp a key obj deleter = some self') :
    Accounts self' (given + ((deleter.map fun d => (d, obj)).toList : Multiset (D × Option V))) := by
  obtain ⟨P, hP⟩ := h.props
  have hsum := h.sum
  obtain ⟨⟨mid, p⟩, hinsert, heq⟩ := Option.bind_eq_some_iff.mp hset
  obtain rfl := Option.some.inj heq
  obtain ⟨found, hfound, hinsert⟩ := Option.bind_eq_some_iff.mp hinsert
  rw [findProp_spec hP] at hfound
  obtain ⟨hmid, q, hread, hlt, hdeleted⟩ : (∃ P, mid.props.Represents P) ∧ ∃ q,
      mid.props.read p = some q ∧ p < mid.props.allocated ∧
      (mid.deleted : Multiset (D × Option V)) + held propOwns mid.props =
        given + owned propOwns q := by
    cases hcell : (P (a, hash key SPHT_BITS)).find? fun c => c.2.name == key with
    | some c =>
      obtain ⟨b, q⟩ := c
      have hmem := List.mem_of_find?_eq_some hcell
      have hread := hP.read_eq hmem
      rw [hcell] at hfound
      obtain rfl := Option.some.inj hfound
      simp only [Option.map_some, Option.bind_eq_bind, Option.bind_eq_some_iff] at hinsert
      obtain ⟨q', hq', heq⟩ := hinsert
      obtain ⟨rfl, rfl⟩ := Prod.mk.inj (Option.some.inj heq)
      rw [hread] at hq'
      obtain rfl := Option.some.inj hq'
      refine ⟨⟨P, hP⟩, q, hread, hP.bound _ _ (List.mem_map_of_mem hmem), ?_⟩
      rw [← hsum, ← Multiset.coe_add, owned, propOwns]
      exact add_right_comm ..
    | none =>
      rw [hcell] at hfound
      obtain rfl := Option.some.inj hfound
      simp only [Option.map_none, Option.bind_eq_bind, Option.bind_eq_some_iff] at hinsert
      obtain ⟨props, happend, heq⟩ := hinsert
      obtain ⟨rfl, rfl⟩ := Prod.mk.inj (Option.some.inj heq)
      obtain ⟨props', happend', halloc, hrep⟩ :=
        hP.append (a, hash key SPHT_BITS) (⟨key, none, none⟩ : SessionProp V D)
      rw [happend] at happend'
      obtain rfl := Option.some.inj happend'
      have hnew : (self.props.allocated, (⟨key, none, none⟩ : SessionProp V D)) ∈
          Function.update P (a, hash key SPHT_BITS)
            (P (a, hash key SPHT_BITS) ++ [(self.props.allocated, ⟨key, none, none⟩)])
              (a, hash key SPHT_BITS) := by
        rw [Function.update_self]
        simp
      refine ⟨⟨_, hrep⟩, _, hrep.read_eq hnew, ?_, ?_⟩
      · rw [halloc]
        exact Nat.lt_succ_self _
      · rw [← hsum, held_append happend, ← add_assoc]
  obtain ⟨P', hP'⟩ := hmid
  refine ⟨⟨_, hP'.modify p fun q => ⟨q.name, obj, deleter⟩⟩, ?_⟩
  have hmodify : held propOwns (mid.props.modify p fun q => ⟨q.name, obj, deleter⟩) +
      owned propOwns q = held propOwns mid.props + owned propOwns ⟨q.name, obj, deleter⟩ :=
    held_modify hlt hread fun q => ⟨q.name, obj, deleter⟩
  have htotal : (mid.deleted : Multiset (D × Option V)) +
      held propOwns (mid.props.modify p fun q => ⟨q.name, obj, deleter⟩) + owned propOwns q =
        given + owned propOwns ⟨q.name, obj, deleter⟩ + owned propOwns q := by
    rw [add_assoc, hmodify, ← add_assoc, hdeleted, add_right_comm]
  exact add_right_cancel htotal

theorem accounts_setProps (sets : List (Str × Option V × Option D)) (h : Accounts self given)
    (hfold : sets.foldlM (fun (self : Memory V D) q => self.setProp a q.1 q.2.1 q.2.2) self =
      some self') :
    Accounts self' (given + (sets.filterMap fun q => q.2.2.map fun d => (d, q.2.1) :
      List (D × Option V))) := by
  induction sets generalizing self given with
  | nil =>
    obtain rfl := Option.some.inj hfold
    simpa using h
  | cons q sets ih =>
    rw [List.foldlM_cons] at hfold
    obtain ⟨mid, hset, hrest⟩ := Option.bind_eq_some_iff.mp hfold
    rw [coe_filterMap_cons, ← add_assoc]
    exact ih (accounts_setProp h hset) hrest

theorem accounts_callNext {req : Request V D} (h : Accounts self given)
    (hcall : self.callNext a req = some self') :
    Accounts self' (given + (req.sets.filterMap fun q => q.2.2.map fun d => (d, q.2.1) :
      List (D × Option V))) := by
  obtain ⟨mid, hsets, hcall⟩ := Option.bind_eq_some_iff.mp hcall
  have hmid := accounts_setProps req.sets h hsets
  split at hcall
  · obtain rfl := Option.some.inj hcall
    exact hmid
  · obtain rfl := Option.some.inj hcall
    exact hmid.congr rfl rfl

theorem stored_clean (h : Stored self S P) (hclean : self.clean now = some self') :
    ∃ S' P', Stored self' S' P' := by
  obtain ⟨cleaned, hcleaned, _, hcase⟩ := clean_spec h now
  rw [hclean] at hcleaned
  obtain rfl := Option.some.inj hcleaned
  rcases hcase with ⟨_, rfl⟩ | ⟨_, _, hstored⟩
  · exact ⟨S, P, h⟩
  · exact ⟨_, _, hstored⟩

/-- A session that is found is in its chain. -/
theorem stored_findSession {id : Str} {found : Option Addr} (h : Stored self S P)
    (hfind : self.findSession id now = some (self', found)) :
    ∃ S' P', Stored self' S' P' ∧ ∀ a, found = some a → ∃ b, a ∈ addrs (S' b) := by
  obtain ⟨searched, hsearched, _, _, hstored⟩ := findSession_spec h id now
  rw [hfind] at hsearched
  obtain ⟨rfl, rfl⟩ := Prod.mk.inj (Option.some.inj hsearched)
  refine ⟨_, _, hstored, fun a ha => ?_⟩
  obtain ⟨⟨b, s⟩, hlive, rfl⟩ := Option.map_eq_some_iff.mp ha
  obtain ⟨hentry, hfresh⟩ := Option.filter_eq_some_iff.mp hlive
  have hsame := (find_unchanged (P := P) id now fun c hc => by
    rw [hentry] at hc
    obtain rfl := Option.some.inj hc
    simpa using hfresh).1
  rw [hsame]
  exact ⟨_, List.mem_map_of_mem (hash_of_entry hentry).1⟩

/-- A request accounts for what it hands over. -/
theorem accounts_mwSession {req : Request V D} {o : Outcome} (hstored : ∃ S P, Stored self S P)
    (h : Accounts self given) (hstep : self.mwSession req = some (self', o)) :
    (∃ S' P', Stored self' S' P') ∧
      Accounts self' (given + (handed (req, o) : List (D × Option V))) := by
  obtain ⟨S, P, hstored⟩ := hstored
  obtain ⟨cleaned, hclean, _⟩ := clean_spec hstored req.now
  have haccounts := accounts_clean h hclean
  obtain ⟨S₁, P₁, hcleaned⟩ := stored_clean hstored hclean
  obtain ⟨searched, found, hfind, ⟨S₂, P₂, hsearched, hfound⟩, hsum⟩ : ∃ searched found,
      (req.sid.elim (some (cleaned, none)) fun sid => cleaned.findSession sid req.now) =
        some (searched, found) ∧
      (∃ S' P', Stored searched S' P' ∧ ∀ a, found = some a → ∃ b, a ∈ addrs (S' b)) ∧
      Accounts searched given := by
    cases req.sid with
    | none => exact ⟨cleaned, none, rfl, ⟨S₁, P₁, hcleaned, fun a ha => by cases ha⟩, haccounts⟩
    | some sid =>
      obtain ⟨searched, hfind, _⟩ := findSession_spec hcleaned sid req.now
      exact ⟨searched, _, hfind, stored_findSession hcleaned hfind, accounts_findSession haccounts hfind⟩
  rw [mwSession_of_searched hclean hfind] at hstep
  cases found with
  | some a =>
    obtain ⟨next, hcall, heq⟩ := Option.bind_eq_some_iff.mp hstep
    obtain ⟨rfl, rfl⟩ := Prod.mk.inj (Option.some.inj heq)
    obtain ⟨b, hb⟩ := hfound a rfl
    have hkeeps : ∀ s : Session, ({ s with atime := req.now } : Session).id = s.id := fun _ => rfl
    have hmodified := stored_modify (a := a) hsearched hkeeps
    rw [← addrs_modifyS (a := a) (g := fun s => { s with atime := req.now }) b] at hb
    obtain ⟨next', S', P', hnext, _, _, hstored', _⟩ := callNext_spec hmodified hb req
    rw [hcall] at hnext
    obtain rfl := Option.some.inj hnext
    have hmodifiedSum : Accounts { searched with
        sessions := searched.sessions.modify a fun s => { s with atime := req.now } } given :=
      hsum.congr rfl rfl
    exact ⟨⟨S', P', hstored'⟩, accounts_callNext hmodifiedSum hcall⟩
  | none =>
    dsimp only at hstep
    split at hstep
    · obtain ⟨rfl, rfl⟩ := Prod.mk.inj (Option.some.inj hstep)
      exact ⟨⟨S₂, P₂, hsearched⟩, by simpa [handed] using hsum⟩
    · obtain ⟨⟨mid, a⟩, hcreate, hstep⟩ := Option.bind_eq_some_iff.mp hstep
      obtain ⟨session, _, hstep⟩ := Option.bind_eq_some_iff.mp hstep
      obtain ⟨next, hcall, heq⟩ := Option.bind_eq_some_iff.mp hstep
      obtain ⟨rfl, rfl⟩ := Prod.mk.inj (Option.some.inj heq)
      obtain ⟨hmid, S', P', hstored', b, hb⟩ := accounts_createSession hsearched hsum hcreate
      obtain ⟨next', S'', P'', hnext, _, _, hstored'', _⟩ := callNext_spec hstored' hb req
      rw [hcall] at hnext
      obtain rfl := Option.some.inj hnext
      exact ⟨⟨S'', P'', hstored''⟩, accounts_callNext hmid hcall⟩

theorem accounts_run {trace : SessionMap.Trace V D} {start : ℤ}
    (hrun : Run (stepOf Memory.mwSession) (Memory.init start) trace self) :
    (∃ S P, Stored self S P) ∧ Accounts self (trace.flatMap handed : List (D × Option V)) := by
  induction hrun with
  | nil =>
    obtain ⟨S, P, hstored, _⟩ :=
      (refines_init : SessionMap.Refines (Memory.init start : Memory V D) _ start).stored
    refine ⟨⟨S, P, hstored⟩, ⟨P, hstored.props⟩, ?_⟩
    exact (zero_add _).trans (held_empty _)
  | @snoc trace self self' l hrun hstep ih =>
    obtain ⟨hstored, hsum⟩ := accounts_mwSession ih.1 ih.2 hstep
    refine ⟨hstored, ?_⟩
    rw [List.flatMap_append, List.flatMap_singleton, ← Multiset.coe_add]
    exact hsum

/-- In every run of requests, whatever expires and is cleaned away or overwritten, the values
that were handed to sessions with a deleter are the deleted ones and the ones still stored,
each as often as it was handed over. If none was handed over twice, none is deleted twice, and
none that is still stored is deleted. -/
theorem session_values {trace : SessionMap.Trace V D} {start : ℤ}
    (hrun : Run (stepOf Memory.mwSession) (Memory.init start) trace self) :
    (self.deleted : Multiset (D × Option V)) + held propOwns self.props =
        (trace.flatMap handed : List (D × Option V)) ∧
      ((trace.flatMap handed).Nodup → self.deleted.Nodup ∧
        ∀ a q d, self.props.read a = some q → q.deleter = some d → (d, q.value) ∉ self.deleted) := by
  obtain ⟨⟨S, P, hstored⟩, hsum⟩ := accounts_run hrun
  refine ⟨hsum.sum, fun hnodup => ?_⟩
  have hboth : ((self.deleted : Multiset (D × Option V)) + held propOwns self.props).Nodup := by
    rw [hsum.sum]
    exact hnodup
  obtain ⟨hdeleted, _, hdisjoint⟩ := Multiset.nodup_add.mp hboth
  refine ⟨hdeleted, fun a q d hread hdeleter hmem => ?_⟩
  have hlt : a < self.props.allocated := by
    refine bounded_of_represents hstored.props a ?_
    obtain ⟨n, hn, _⟩ := Option.map_eq_some_iff.mp hread
    rw [hn]
    rfl
  have hheld : (d, q.value) ∈ held propOwns self.props := by
    rw [held_split hlt hread, owned, propOwns, hdeleter]
    simp
  exact Multiset.disjoint_left.mp hdisjoint hmem hheld

def sampleSet : Request ℕ Unit :=
  ⟨0, none, false, [List.replicate 32 0], [(str "k", some 7, some ())], none⟩

def sampleReplace : Request ℕ Unit :=
  ⟨1, some (SessionStore.rndStr (List.replicate 32 0)), false, [], [(str "k", some 8, some ())], none⟩

/-- The value that a later request replaces is deleted. -/
theorem session_values_sample : ∃ (trace : SessionMap.Trace ℕ Unit) (self : Memory ℕ Unit),
    Run (stepOf Memory.mwSession) (Memory.init 0) trace self ∧ self.deleted = [((), some 7)] ∧
      (self.deleted : Multiset (Unit × Option ℕ)) + held propOwns self.props =
        (trace.flatMap handed : List (Unit × Option ℕ)) := by
  have hexec : (exec Memory.mwSession (Memory.init 0) [sampleSet, sampleReplace]).map
      (fun r => r.1.deleted) = some [((), some 7)] := by decide +kernel
  obtain ⟨⟨self, trace⟩, hsome, hdeleted⟩ := Option.map_eq_some_iff.mp hexec
  obtain ⟨hrun, _⟩ := run_of_exec _ hsome
  exact ⟨trace, self, hrun, hdeleted, (session_values hrun).1⟩

end sessions

end Swad.PropertyTables
