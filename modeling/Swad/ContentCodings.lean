import Mathlib.Algebra.Order.Ring.Int
import Mathlib.Data.List.DropRight
import Swad.Util

/-!
Content codings. A coder writes into as much space as it is given; what it leaves unused shows
that its output is complete, and a cut output is not taken for a complete one of something
else. A value that lists codings has elements between commas, each with a name and maybe a
weight, and blanks may stand around both. A coding is wanted if one of the elements names it
without a weight of zero.
-/
namespace Swad.ContentCodings

open Bytes Util

/-! ### Coders -/

/-- What is written for a text if there is so much space, and how it is read. -/
structure Codec where
  deflate : Str → ℕ → Str
  inflate : Str → Option Str

/-- The output fits, it is complete if it leaves space, and it is read as nothing else. -/
structure Codec.Documented (codec : Codec) : Prop where
  fits : ∀ text room, (codec.deflate text room).length ≤ room
  complete : ∀ text room, (codec.deflate text room).length < room →
    codec.inflate (codec.deflate text room) = some text
  faithful : ∀ text room read, codec.inflate (codec.deflate text room) = some read → read = text

/-! ### Lists of codings -/

def isOws (c : Byte) : Bool := c == chr ' ' || c == chr '\t'

def trim (s : Str) : Str := (s.dropWhile isOws).rdropWhile isOws

/-- At most three digits behind a point, if there is something. -/
def isFraction (digit : Byte → Bool) (s : Str) : Bool :=
  s == [] || (s.head? == some (chr '.') && decide (s.length ≤ 4) && s.tail.all digit)

/-- A weight between 0 and 1 that is not zero. -/
def isPositive (weight : Str) : Bool :=
  (weight.head? == some (chr '1') && isFraction (· == chr '0') weight.tail) ||
    (weight.head? == some (chr '0') && isFraction isdigit weight.tail &&
      weight.tail.tail.any (· != chr '0'))

/-- The part of an element behind its name. -/
def wanted : Str → Bool
  | [] => true
  | _ :: weight =>
    lowerstr ((trim weight).take 2) == str "q=" && isPositive ((trim weight).drop 2)

def elementNames (coding element : Str) : Bool :=
  lowerstr (trim (element.takeWhile (· != chr ';'))) == coding &&
    wanted (element.dropWhile (· != chr ';'))

/-- An element of the value names the coding, and not with a weight of zero. -/
def lists (value coding : Str) : Bool := (value.splitOn (chr ',')).any (elementNames coding)

example : lists (str "deflate;q=0, gzip ; q=0.5") (str "gzip") = true ∧
    lists (str "deflate;q=0, gzip ; q=0.5") (str "deflate") = false := by decide +kernel

end Swad.ContentCodings
