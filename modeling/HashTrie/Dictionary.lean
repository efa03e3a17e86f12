import HashTrie.Hash.Equivalence
import HashTrie.Trie.Slice
import Mathlib.Data.List.Lex
import Mathlib.Order.Fin.Basic

/-!
# Dictionaries

The plainest form of a map: a list of entries in the order in which their keys came. An insertion
changes the value of the first entry with an equivalent key, or else puts the entry at the end; a
removal takes out the first entry that is accepted. `inSliceOrder` sorts the entries by the slices
of their keys' hashes, and keeps the order of those with one hash.
-/

namespace HashTrie

/-- A list of entries in the order in which their keys came. -/
abbrev Dictionary (K V : Type) : Type := List (Entry K V)

namespace Dictionary

variable {K V : Type}

/-- The first entry that a probe accepts. -/
def find? (d : Dictionary K V) (probe : Probe K) : Option (Entry K V) :=
  List.find? (fun e => probe.accepts e.key) d

/-- Bind a key to a value. The stored key stays, and so does a value that equals the new one. -/
def insert [HashEquiv K] [BEq V] (e : Entry K V) : Dictionary K V → Dictionary K V
  | [] => [e]
  | old :: rest =>
    if equiv e.key old.key then
      (if e.value == old.value then old else { old with value := e.value }) :: rest
    else
      old :: insert e rest

/-- Bind the keys of a list of entries, one after the other. -/
def insertAll [HashEquiv K] [BEq V] (d : Dictionary K V) : List (Entry K V) → Dictionary K V
  | [] => d
  | e :: es => insertAll (insert e d) es

/-- Take out the first entry that a probe accepts. -/
def erase (probe : Probe K) (d : Dictionary K V) : Dictionary K V :=
  d.eraseP fun e => probe.accepts e.key

/-- Whether the slices of one hash come before those of another, or are the same. -/
def sliceLE (a b : UInt32) : Bool := slices a ≤ slices b

/-- The entries by the slices of their keys' hashes, the first slice counting most. -/
def inSliceOrder [HashEquiv K] (d : Dictionary K V) : List (Entry K V) :=
  d.mergeSort fun a b => sliceLE (HashEquiv.hash a.key) (HashEquiv.hash b.key)

@[simp] theorem insert_nil [HashEquiv K] [BEq V] (e : Entry K V) :
    insert e ([] : Dictionary K V) = [e] := rfl

@[simp] theorem erase_nil (probe : Probe K) : erase probe ([] : Dictionary K V) = [] := rfl

end Dictionary

end HashTrie
