import HashTrie.Map.Iteration

/-!
# Adding collections to a map

A list adds one entry when it holds exactly a key and a value. A map adds all of its entries, and a
sequence adds those from its current one on; entries of the receiver with an equivalent key keep
their key and take the new value.
-/

namespace HashTrie.Map

/-- The map with the key and the value of a list of two. -/
def adjoinList {T : Type} [HashEquiv T] [BEq T] (m : Map T T) :
    List T → Build (Except MapError (Map T T))
  | [key, value] => Except.ok <$> m.insert key value
  | elements => pure (.error (.notAPair elements.length))

variable {K V : Type} [HashEquiv K] [BEq V]

/-- The map with the entries of another one. -/
def adjoinMap (m o : Map K V) : Build (Map K V) := m.insertAll o.toList

/-- The map with the entries of a sequence. -/
def adjoinSeq (m : Map K V) (s : Seq K V) : Build (Map K V) := m.insertAll s.toList

end HashTrie.Map
