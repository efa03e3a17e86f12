import HashTrie.Map.Equality

/-!
# Metadata

A map carries another map as metadata, through every update. Attaching metadata keeps the trie and
the remembered hashes.
-/

namespace HashTrie.Map

variable {K V : Type}

/-- Whether metadata is what a map has already. -/
def hasMetadata [HashEquiv K] [BEq V] (m : Map K V) (metadata : Option (Map K V)) : Bool :=
  match m.metadata, metadata with
  | none, none => true
  | some current, some new => current == new
  | _, _ => false

/-- The map with other metadata; metadata equal to the current one leaves the map as it is. -/
def withMetadata [HashEquiv K] [BEq V] (m : Map K V) (metadata : Option (Map K V)) : Map K V :=
  if m.hasMetadata metadata then m else { m with metadata }

end HashTrie.Map
