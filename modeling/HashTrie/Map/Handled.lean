import HashTrie.Map.History
import HashTrie.Trie.Cell

/-!
# Maps with handles

The count and the trie of a map, with a handle for every node, and the updates that learn from the
handle of the root whether anything has changed.
-/

namespace HashTrie

/-- The count and the trie of a map, with handles. -/
structure Handled (K V : Type) where
  count : Nat
  root : Option (Cell K V)

namespace Handled

variable {K V : Type}

/-- Whether two maps have one root, or are both empty. -/
def sharesRoot (m o : Handled K V) : Bool := m.root.map Cell.handle == o.root.map Cell.handle

/-- The map with an entry inserted. -/
def insertEntry [HashEquiv K] [BEq V] (m : Handled K V) (e : Entry K V) :
    Supply (Traced (Handled K V)) :=
  let hash := HashEquiv.hash e.key
  match m.root with
  | none => do
    let root ← Cell.create (Node.leaf (sliceAt rootHeight hash) e)
    return .silent ⟨1, some root⟩
  | some root => do
    let back ← root.insert hash e rootHeight
    if root.same back.outcome.1 then return back.map fun _ => m
    else return back.map fun outcome => ⟨m.count + outcome.2.toNat, some outcome.1⟩

/-- The map with a new root and an entry less. -/
def shrunk (m : Handled K V) (root : Option (Cell K V)) : Supply (Handled K V) :=
  match m.count with
  | 0 => throw .countUnderflow
  | rest + 1 => pure ⟨rest, root⟩

/-- The map without the entry that a probe finds. -/
def erase (m : Handled K V) (probe : Probe K) : Supply (Traced (Handled K V)) :=
  match m.root with
  | none => return .silent m
  | some root => do
    let back ← root.erase probe rootHeight
    match back.outcome with
    | none => do return ⟨← m.shrunk none, back.events⟩
    | some new =>
      if root.same new then return ⟨m, back.events⟩
      else do return ⟨← m.shrunk (some new), back.events⟩

/-- The map after a step of a run. -/
def step [HashEquiv K] [BEq V] (m : Handled K V) : Map.Step K V → Supply (Traced (Handled K V))
  | .insert e => m.insertEntry e
  | .erase probe => m.erase probe

/-- The map after a list of steps, with the events of all of them. -/
def steps [HashEquiv K] [BEq V] (m : Handled K V) :
    List (Map.Step K V) → Supply (Traced (Handled K V))
  | [] => return .silent m
  | s :: rest => do
    let first ← m.step s
    let last ← first.outcome.steps rest
    return ⟨last.outcome, first.events ++ last.events⟩

end Handled

end HashTrie
