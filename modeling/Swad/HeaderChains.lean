import Swad.Headerset
import Swad.LinkedChains
import Swad.Multimaps

/-!
The hash table of headers in memory. Entries with their keys hang in chains from the
buckets; they are put at the end of a chain and taken out of the middle by following links,
and two counters are kept beside. What an iterator visits, and what is found first or alone,
is read off the links too. No loop meets a dangling link.
-/
namespace Swad.HeaderChains

open Bytes Util Headerset LinkedChains Multimaps

structure HeaderSetEntry where
  key : Str
  header : Header

/-- The set of headers as it is in memory. -/
structure Memory where
  count : ℕ
  buckets : Chains (Fin (2 ^ HSHT_BITS)) HeaderSetEntry
  size : UInt16

/-- An iterator over the entries with a key, or over all. -/
structure HeaderIterator where
  key : Option Str
  entry : Option Addr
  hash : UInt8

namespace Memory

def create : Memory := ⟨0, .empty, 0⟩

def removeEntry (self : Memory) (hash : Fin (2 ^ HSHT_BITS)) (parent : Option Addr)
    (entry : Addr) : Option Memory := do
  let removed ← self.buckets.read entry
  let buckets ← self.buckets.unlink hash parent entry
  return ⟨self.count - 1, buckets, self.size - removed.header.size⟩

def add (self : Memory) (header : Header) : Option Memory := do
  let key := lowerstr header.name
  let buckets ← self.buckets.append (hash key HSHT_BITS) ⟨key, header⟩
  return ⟨self.count + 1, buckets, self.size + header.size⟩

def remove (self : Memory) (header : Header) : Option (Memory × ℕ) := do
  let key := lowerstr header.name
  match ← self.buckets.search (fun e => e.key == key && e.header.value == header.value)
      (hash key HSHT_BITS) with
  | (_, none) => return (self, 0)
  | (parent, some current) =>
    let self ← self.removeEntry (hash key HSHT_BITS) parent current
    return (self, 1)

/-- Take all entries with the key out of what is left of a chain: how many there were. -/
def removeAllFrom (key : Str) :
    ℕ → Memory → Option Addr → Option Addr → Option (Memory × ℕ)
  | _, self, _, none => some (self, 0)
  | 0, _, _, some _ => none
  | fuel + 1, self, parent, some current =>
    match self.buckets.node current with
    | none => none
    | some node =>
      if node.val.key == key then do
        let self ← self.removeEntry (hash key HSHT_BITS) parent current
        let (self, rc) ← removeAllFrom key fuel self parent node.next
        return (self, rc + 1)
      else removeAllFrom key fuel self (some current) node.next

def removeAll (self : Memory) (headerName : Str) : Option (Memory × ℕ) :=
  let key := lowerstr headerName
  removeAllFrom key self.buckets.allocated self none (self.buckets.head (hash key HSHT_BITS))

def set (self : Memory) (header : Header) : Option Memory := do
  let (self, _) ← self.removeAll header.name
  self.add header

def first (self : Memory) (headerName : Str) : Option (Option Header) := do
  let key := lowerstr headerName
  let (_, found) ← self.buckets.search (fun e => e.key == key) (hash key HSHT_BITS)
  match found with
  | none => return none
  | some entry => (self.buckets.read entry).map fun e => some e.header

/-- The header that was met, unless there is another one. -/
def singleFrom (self : Memory) (key : Str) :
    ℕ → Option Header → Option Addr → Option (Option Header)
  | _, header, none => some header
  | 0, _, some _ => none
  | fuel + 1, header, some entry =>
    match self.buckets.node entry with
    | none => none
    | some node =>
      if node.val.key == key then
        match header with
        | none => self.singleFrom key fuel (some node.val.header) node.next
        | some _ => some none
      else self.singleFrom key fuel header node.next

def single (self : Memory) (headerName : Str) : Option (Option Header) :=
  let key := lowerstr headerName
  self.singleFrom key self.buckets.allocated none (self.buckets.head (hash key HSHT_BITS))

/-! ### Iterators -/

def all : HeaderIterator := ⟨none, none, 0xff⟩

def any (headerName : Str) : HeaderIterator :=
  let key := lowerstr headerName
  ⟨some key, none, UInt8.ofNat (hash key HSHT_BITS)⟩

/-- There is nothing to read behind the buckets. -/
def bucketAt (self : Memory) (hashval : UInt8) : Option (Option Addr) :=
  if h : hashval.toNat < 2 ^ HSHT_BITS then some (self.buckets.head ⟨hashval.toNat, h⟩) else none

/-- The next bucket that is not empty, up to the last one. -/
def laterBucket (self : Memory) : ℕ → UInt8 → Option (HeaderIterator × Bool)
  | 0, _ => none
  | fuel + 1, hashval =>
    if hashval.toNat < 2 ^ HSHT_BITS - 1 then do
      match ← self.bucketAt (hashval + 1) with
      | none => self.laterBucket fuel (hashval + 1)
      | some entry => return (⟨none, some entry, hashval + 1⟩, true)
    else some (⟨none, none, 0xff⟩, false)

/-- The first bucket that is not empty; the bound is only looked at behind a bucket. -/
def firstBucket (self : Memory) : ℕ → UInt8 → Option (HeaderIterator × Bool)
  | 0, _ => none
  | fuel + 1, hashval => do
    match ← self.bucketAt (hashval + 1) with
    | some entry => return (⟨none, some entry, hashval + 1⟩, true)
    | none =>
      if (hashval + 1).toNat < 2 ^ HSHT_BITS then self.firstBucket fuel (hashval + 1)
      else return (⟨none, none, 0xff⟩, false)

def moveNext (self : Memory) (it : HeaderIterator) : Option (HeaderIterator × Bool) :=
  match it.key, it.entry with
  | some key, some entry => do
    let node ← self.buckets.node entry
    let (_, found) ← Chains.walk (fun e => e.key == key) self.buckets.node self.buckets.allocated
      (some entry) node.next
    return ({ it with entry := found }, found.isSome)
  | some key, none => do
    let start ← self.bucketAt it.hash
    let (_, found) ← Chains.walk (fun e => e.key == key) self.buckets.node self.buckets.allocated
      none start
    return ({ it with entry := found }, found.isSome)
  | none, some entry => do
    let node ← self.buckets.node entry
    match node.next with
    | some next => return ({ it with entry := some next }, true)
    | none => self.laterBucket (2 ^ HSHT_BITS) it.hash
  | none, none => self.firstBucket (2 ^ HSHT_BITS + 1) it.hash

def current (self : Memory) (it : HeaderIterator) : Option (Option Header) :=
  match it.entry with
  | none => some none
  | some entry => (self.buckets.read entry).map fun e => some e.header

/-- What is current each time the iterator could be moved on. -/
def visited (self : Memory) : ℕ → HeaderIterator → Option (List Header)
  | 0, _ => none
  | fuel + 1, it => do
    let (it, moved) ← self.moveNext it
    if moved then
      let header ← self.current it
      let headers ← self.visited fuel it
      return header.toList ++ headers
    else return []

end Memory

/-! ### Runs -/

inductive Op
  | add (header : Header)
  | set (header : Header)
  | remove (header : Header)
  | removeAll (headerName : Str)

/-- The set after an operation, and what the operation returned. -/
def Memory.step (self : Memory) : Op → Option (Memory × ℕ)
  | .add header => (self.add header).map (·, 0)
  | .set header => (self.set header).map (·, 0)
  | .remove header => self.remove header
  | .removeAll headerName => self.removeAll headerName

def Memory.run : Memory → List Op → Option (Memory × List ℕ)
  | self, [] => some (self, [])
  | self, op :: ops => do
    let (self, rc) ← self.step op
    let (self, rcs) ← self.run ops
    return (self, rc :: rcs)

end Swad.HeaderChains
