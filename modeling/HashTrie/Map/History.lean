import HashTrie.Dictionary
import HashTrie.Map.Metadata
import HashTrie.Trie.WellFormed

/-!
# Histories of maps

`Population` holds of the maps that were made together: each is the empty map, or was made by an
update from maps made before. All of them share one supply of stamps, so their stamps can be
compared. Other runs may draw on the supply in between.

`Map.edit` is a single change of entries, and a list of edits makes a linear history. A `Map.Step`
is an edit of one entry, and `Map.run` is the history of a list of steps.
-/

namespace HashTrie

variable {K V : Type}

/-- The maps made so far with a ledger. -/
inductive Population [HashEquiv K] [BEq V] [HashEquiv V] : Ledger → List (Map K V) → Prop where
  | start : Population Ledger.empty []
  | elsewhere {l l' : Ledger} {ms : List (Map K V)} :
    Population l ms → l.nextStamp ≤ l'.nextStamp → Population l' ms
  | empty {l : Ledger} {ms : List (Map K V)} : Population l ms → Population l (Map.empty :: ms)
  | insert {l : Ledger} {ms : List (Map K V)} {m : Map K V} (e : Entry K V) :
    Population l ms → m ∈ ms → Population (m.insertEntry e l).2 ((m.insertEntry e l).1 :: ms)
  | erase {l : Ledger} {ms : List (Map K V)} {m : Map K V} (probe : Probe K) :
    Population l ms → m ∈ ms → Population (m.erase probe l).2 ((m.erase probe l).1 :: ms)
  | cleared {l : Ledger} {ms : List (Map K V)} {m : Map K V} :
    Population l ms → m ∈ ms → Population l (m.cleared :: ms)
  | withMetadata {l : Ledger} {ms : List (Map K V)} {m d : Map K V} :
    Population l ms → m ∈ ms → d ∈ ms → Population l (m.withMetadata (some d) :: ms)
  | withoutMetadata {l : Ledger} {ms : List (Map K V)} {m : Map K V} :
    Population l ms → m ∈ ms → Population l (m.withMetadata none :: ms)
  | rememberHash {l : Ledger} {ms : List (Map K V)} {m : Map K V} :
    Population l ms → m ∈ ms → Population l (m.rememberHash :: ms)
  | rememberPairHash {l : Ledger} {ms : List (Map K V)} {m : Map K V} :
    Population l ms → m ∈ ms → Population l (m.rememberPairHash :: ms)

namespace Map

/-- Whether a map can be made. -/
def Reachable [HashEquiv K] [BEq V] [HashEquiv V] (m : Map K V) : Prop :=
  ∃ l ms, Population l ms ∧ m ∈ ms

/-- Whether count and root of a map fit together, and its trie is well formed. -/
def WellFormed [HashEquiv K] (m : Map K V) : Prop :=
  match m.node? with
  | none => m.count = 0
  | some node =>
    m.count = node.toList.length ∧ 0 < m.count ∧ Node.WellFormed rootHeight node

/-- A single change of entries; `ofEntries` starts over with the map of a list of entries. -/
inductive Edit (K V : Type) where
  | insert (e : Entry K V)
  | insertNew (e : Entry K V)
  | erase (probe : Probe K)
  | insertAll (es : List (Entry K V))
  | ofEntries (es : List (Entry K V))

/-- The map after an edit; a refused one changes nothing. -/
def edit [HashEquiv K] [BEq V] (m : Map K V) : Edit K V → Build (Map K V)
  | .insert e => m.insertEntry e
  | .insertNew e => do
    match ← m.insertNew e.key e.value with
    | .ok m => pure m
    | .error _ => pure m
  | .erase probe => m.erase probe
  | .insertAll es => m.insertAll es
  | .ofEntries es => ofEntries es

/-- The map after a list of edits. -/
def edits [HashEquiv K] [BEq V] (m : Map K V) : List (Edit K V) → Build (Map K V)
  | [] => pure m
  | e :: es => do (← m.edit e).edits es

/-- A step of a run: an entry is inserted, or the entry that a probe finds is removed. -/
inductive Step (K V : Type) where
  | insert (e : Entry K V)
  | erase (probe : Probe K)

/-- A step is a single edit. -/
def Step.edit {K V : Type} : Step K V → Edit K V
  | insert e => .insert e
  | erase probe => .erase probe

/-- The map after a list of steps from the empty map, with the ledger of the run. -/
def run [HashEquiv K] [BEq V] (steps : List (Step K V)) : Map K V × Ledger :=
  (empty : Map K V).edits (steps.map Step.edit) Ledger.empty

end Map

namespace Dictionary

/-- The dictionary after an edit. -/
def edit [HashEquiv K] [BEq V] (d : Dictionary K V) : Map.Edit K V → Dictionary K V
  | .insert e => insert e d
  | .insertNew e => if (d.find? (Probe.ofKey e.key)).isSome then d else insert e d
  | .erase probe => d.erase probe
  | .insertAll es => d.insertAll es
  | .ofEntries es => insertAll [] es

/-- The dictionary after a list of edits. -/
def edits [HashEquiv K] [BEq V] (d : Dictionary K V) : List (Map.Edit K V) → Dictionary K V
  | [] => d
  | e :: es => (d.edit e).edits es

end Dictionary

end HashTrie
