import Seron.Types
import Mathlib.Algebra.GroupWithZero.Nat

/-! # Hash tables

`hashtable.c`: separate chaining, keys copied into an array of `MAX_IDENT_LEN` characters. -/

namespace Seron

inductive SymbolKind where
  | invalid | none | variable | parameter | procedure | table
  deriving DecidableEq, Repr

structure Symbol where
  kind : SymbolKind
  type : Ty
  offset : Int := 0

/-- The characters of `key` up to its NUL; an array that is full has none. -/
structure HashtableEntry where
  key : List Char
  value : Symbol

/-- `parent` names a table by its index among all tables. -/
structure Hashtable where
  buckets : List (List HashtableEntry)
  parent : Option Nat

namespace Hashtable

def size (ht : Hashtable) : Nat := ht.buckets.length

end Hashtable

/-- `(size_t) key[i]`: a `char` is signed, and so is its extension. -/
def charToSize (c : Char) : Nat := ((BitVec.ofNat 8 c.toNat).signExtend 64).toNat

/-- Sums up the characters, each weighted with its position. -/
def hash (size : Nat) (key : List Char) : Nat :=
  ((key.zipIdx.map fun (c, i) => charToSize c * i).sum % 2 ^ 64) % size

/-- `new_entry`: `strncpy` leaves no NUL behind a key that fills the array. -/
def newEntry (key : List Char) (value : Symbol) : HashtableEntry :=
  { key := key.take maxIdentLen, value }

/-- `!strcmp(entry->key, key)`. Comparing all characters of a full array with equal ones goes
on to read behind the array. -/
def strcmpKey (entry : HashtableEntry) (key : List Char) : Except Failure Bool :=
  if entry.key.length < maxIdentLen then .ok (entry.key == key)
  else if key.take maxIdentLen = entry.key then .error (.undefined "read behind a key")
  else .ok false

/-- A table with `size` empty buckets. -/
def hashtableInit (size : Nat) : Hashtable :=
  { buckets := List.replicate size [], parent := none }

/-- The walk along one chain of `hashtable_insert`; `none` if the key is there already. -/
def insertChain (key : List Char) (value : Symbol) :
    List HashtableEntry → Except Failure (Option (List HashtableEntry))
  | [] => .ok (some [newEntry key value])
  | current :: chain => do
    if ← strcmpKey current key then pure none
    else
      let chain ← insertChain key value chain
      pure (chain.map (current :: ·))

/-- Returns the table and -1 if the key already exists, else 0. -/
def hashtableInsert (ht : Hashtable) (key : String) (value : Symbol) :
    Except Failure (Hashtable × Int) := do
  let index := hash ht.size key.toList
  match ← insertChain key.toList value (ht.buckets.getD index []) with
  | none => pure (ht, -1)
  | some chain => pure ({ ht with buckets := ht.buckets.set index chain }, 0)

/-- The walk along one chain of `hashtable_get`. -/
def getChain (key : List Char) : List HashtableEntry → Except Failure (Option Symbol)
  | [] => .ok none
  | current :: chain => do
    if ← strcmpKey current key then pure (some current.value) else getChain key chain

/-- Returns NULL if the key does not exist. -/
def hashtableGet (ht : Hashtable) (key : String) : Except Failure (Option Symbol) :=
  getChain key.toList (ht.buckets.getD (hash ht.size key.toList) [])

end Seron
