import Mathlib.Algebra.Order.Ring.Int
import Mathlib.Data.List.AList

/-!
Hash tables of a library, seen through their operations: a table is an
association list without duplicate keys. The order in which an iterator visits
the entries is not specified, so it is a parameter.
-/
namespace Swad.Tables

variable {K V : Type*}

abbrev Table (K V : Type*) := AList (fun _ : K => V)

namespace Table

/-- Remove every entry whose key and value satisfy the predicate. -/
def deleteAll (t : Table K V) (p : K → V → Bool) : Table K V :=
  ⟨t.entries.filter (fun e => !p e.1 e.2), t.nodupKeys.sublist List.filter_sublist⟩

variable [DecidableEq K]

theorem lookup_deleteAll (t : Table K V) (p : K → V → Bool) (k : K) :
    (deleteAll t p).lookup k = (t.lookup k).filter (fun v => !p k v) := by
  apply Option.ext
  intro v
  rw [Option.filter_eq_some_iff, ← Option.mem_def, ← Option.mem_def,
    AList.mem_lookup_iff, AList.mem_lookup_iff]
  simp [deleteAll]

end Table

/-- An iterator of a table: it visits every entry exactly once, in some order. -/
structure Iteration (K V : Type*) where
  visit : Table K V → List (Sigma fun _ : K => V)
  perm : ∀ t, (visit t).Perm t.entries

/-- The entries one after the other. -/
def Iteration.entries : Iteration K V where
  visit t := t.entries
  perm _ := List.Perm.refl _

theorem Iteration.mem_visit [DecidableEq K] (it : Iteration K V) (t : Table K V) (k : K) (v : V) :
    ⟨k, v⟩ ∈ it.visit t ↔ t.lookup k = some v := by
  rw [(it.perm t).mem_iff]
  exact AList.mem_lookup_iff.symm

end Swad.Tables
