import HashTrie.Map.Iteration

/-!
# Maps as streams of entries

What a format sees of a map: first how many entries follow, then the entries one by one. A map is
made of a stream in the same way, each entry inserted when it comes. An entry that cannot be read
ends the reading, and no map is made then.
-/

namespace HashTrie

/-- What a format is told of a map. -/
structure EntryStream (K V : Type) where
  /-- The number of entries to come, if it is announced. -/
  announced : Option Nat
  entries : List (Entry K V)

namespace Map

variable {K V ε : Type}

/-- The stream of a map. -/
def stream (m : Map K V) : EntryStream K V := ⟨some m.count, m.toList⟩

variable [HashEquiv K] [BEq V]

/-- Insert the entries of a stream into a map, up to one that cannot be read. -/
def absorb (m : Map K V) : List (Except ε (Entry K V)) → Build (Except ε (Map K V))
  | [] => pure (.ok m)
  | .error err :: _ => pure (.error err)
  | .ok e :: items => do (← m.insertEntry e).absorb items

/-- The map that is read from a stream. -/
def ofStream (items : List (Except ε (Entry K V))) : Build (Except ε (Map K V)) :=
  empty.absorb items

end Map

end HashTrie
