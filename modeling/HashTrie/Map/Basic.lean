import HashTrie.Error
import HashTrie.Trie.Erase
import HashTrie.Trie.Find
import HashTrie.Trie.Insert

/-!
# Persistent maps

A map is a root, absent when the map is empty, with the number of entries, metadata (another map),
and two remembered hashes. Roots are stamped: an update that changes the entries makes a root with a
fresh stamp, and any other update hands on the root it found. So two maps have one stamp exactly
when one of them came from the other without a change of entries.

Every update comes in two forms. The one that tries reports what would go wrong in a malformed trie;
the plain one is total, and leaves the map as it is in that case.
-/

namespace HashTrie

/-- A trie with the stamp that tells it apart. -/
structure Root (K V : Type) where
  stamp : Nat
  node : Node K V

/-- A persistent map. -/
structure Map (K V : Type) where
  /-- The metadata, itself a map. -/
  metadata : Option (Map K V)
  /-- The number of entries. -/
  count : Nat
  /-- The trie; an empty map has none. -/
  root : Option (Root K V)
  /-- The map's hash, once it has been asked for. -/
  hashCache : Option UInt32
  /-- The map's pairwise hash, once it has been asked for. -/
  pairHashCache : Option UInt32

namespace Map

variable {K V : Type}

/-- The map without entries and metadata. -/
def empty : Map K V := ⟨none, 0, none, none, none⟩

/-- Whether the map has no entries. -/
def isEmpty (m : Map K V) : Bool := m.count == 0

/-- The trie of the map, without its stamp. -/
def node? (m : Map K V) : Option (Node K V) := m.root.map Root.node

/-- The map without entries that keeps the metadata. -/
def cleared (m : Map K V) : Map K V := { (empty : Map K V) with metadata := m.metadata }

/-- Whether two maps have one trie, or are both empty. -/
def sharesRoot (m o : Map K V) : Bool := m.root.map Root.stamp == o.root.map Root.stamp

/-- The map with another trie and count; the remembered hashes are forgotten. -/
def withRoot (m : Map K V) (root : Option (Root K V)) (count : Nat) : Map K V :=
  { metadata := m.metadata, count, root, hashCache := none, pairHashCache := none }

/-- The map with a new trie and this count. -/
def rebuilt (m : Map K V) (node : Node K V) (count : Nat) : Build (Map K V) := do
  let stamp ← Build.freshStamp
  return m.withRoot (some ⟨stamp, node⟩) count

/-! ### Lookup -/

/-- The entry that a probe finds, or the fault that it meets. -/
def tryFind (m : Map K V) (probe : Probe K) : Except Fault (Option (Entry K V)) :=
  match m.root with
  | none => .ok none
  | some root => root.node.find probe rootHeight

/-- The stored entry that a probe finds. -/
def find? (m : Map K V) (probe : Probe K) : Option (Entry K V) :=
  match m.tryFind probe with
  | .ok found => found
  | .error _ => none

/-- The value that a probe finds. -/
def get? (m : Map K V) (probe : Probe K) : Option V := (m.find? probe).map Entry.value

/-- The value that a probe finds, or else the default. -/
def getD (m : Map K V) (probe : Probe K) (default : V) : V := (m.get? probe).getD default

/-- Whether a probe finds an entry. -/
def contains (m : Map K V) (probe : Probe K) : Bool := (m.find? probe).isSome

/-! ### Insertion -/

/-- What inserting an entry makes of the trie, or the fault that it meets. -/
def tryInsert [HashEquiv K] [BEq V] (m : Map K V) (e : Entry K V) :
    Except Fault (Traced (Insertion (Node K V))) :=
  let hash := HashEquiv.hash e.key
  match m.root with
  | none => .ok (.silent (.added (Node.leaf (sliceAt rootHeight hash) e)))
  | some root => root.node.insert hash e rootHeight

/-- The map with the entry inserted. A stored key stays; its value is replaced unless it is
equal. -/
def insertEntry [HashEquiv K] [BEq V] (m : Map K V) (e : Entry K V) : Build (Map K V) :=
  match m.tryInsert e with
  | .error _ => pure m
  | .ok ⟨change, events⟩ => do
    Build.record events
    match change with
    | .kept => pure m
    | .overwrote node => m.rebuilt node m.count
    | .added node => m.rebuilt node (m.count + 1)

/-- The map with a key bound to a value. -/
def insert [HashEquiv K] [BEq V] (m : Map K V) (key : K) (value : V) : Build (Map K V) :=
  m.insertEntry ⟨key, value⟩

/-- The map with a key bound to a value, refused when the map contains the key. -/
def insertNew [HashEquiv K] [BEq V] (m : Map K V) (key : K) (value : V) :
    Build (Except MapError (Map K V)) :=
  if m.contains (Probe.ofKey key) then pure (.error .keyPresent)
  else Except.ok <$> m.insert key value

/-- The map with the entries of a list inserted one after the other. -/
def insertAll [HashEquiv K] [BEq V] (m : Map K V) : List (Entry K V) → Build (Map K V)
  | [] => pure m
  | e :: es => do (← m.insertEntry e).insertAll es

/-- The map with one entry. -/
def singleton [HashEquiv K] [BEq V] (key : K) (value : V) : Build (Map K V) :=
  empty.insert key value

/-- The map of a list of entries; of equivalent keys the first is kept, with the last value. -/
def ofEntries [HashEquiv K] [BEq V] (es : List (Entry K V)) : Build (Map K V) :=
  empty.insertAll es

/-! ### Removal -/

/-- What removing the found entry makes of the trie, or the fault that it meets. -/
def tryErase (m : Map K V) (probe : Probe K) : Except Fault (Traced (Erasure (Node K V))) :=
  match m.root with
  | none => .ok (.silent .absent)
  | some root => do
    let change ← root.node.erase probe rootHeight
    match change.outcome, m.count with
    | .absent, _ => .ok change
    | _, 0 => .error .countUnderflow
    | _, _ => .ok change

/-- The map without the entry that a probe finds. -/
def erase (m : Map K V) (probe : Probe K) : Build (Map K V) :=
  match m.tryErase probe with
  | .error _ => pure m
  | .ok ⟨change, events⟩ => do
    Build.record events
    match change with
    | .absent => pure m
    | .emptied => pure (m.withRoot none (m.count - 1))
    | .removed node => m.rebuilt node (m.count - 1)

end Map

end HashTrie
