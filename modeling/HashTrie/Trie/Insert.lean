import HashTrie.Ledger
import HashTrie.Trie.Node

/-!
# Insertion

Inserting an entry keeps the node, overwrites the value of one stored entry, or adds the entry. An
entry that is added may change the kind of one node, and that is recorded as an event:

* an entry that meets another with the same full hash shares a new collision node with it;
* an entry that meets another, or a collision node, with a different hash is put beside it below as
  many one-slot nodes as their hashes agree in further slices;
* an entry that would be the 17th of a bitmap node makes it an array node.
-/

namespace HashTrie

/-- What inserting an entry makes of a node. -/
inductive Insertion (N : Type) where
  /-- The key was there with an equal value: the node stays as it is. -/
  | kept
  /-- The key was there: its value is replaced. -/
  | overwrote (node : N)
  /-- The key was not there: the entry is added. -/
  | added (node : N)

/-- Rebuild the node above a changed one. -/
def Insertion.map {N M : Type} (f : N → M) : Insertion N → Insertion M
  | kept => kept
  | overwrote node => overwrote (f node)
  | added node => added (f node)

namespace Node

variable {K V : Type}

/-- The node at this height that holds two slots whose hashes differ. -/
def join (hash₁ : UInt32) (slot₁ : Slot K V (Node K V)) (hash₂ : UInt32)
    (slot₂ : Slot K V (Node K V)) : Nat → Except Fault (Node K V)
  | 0 => .error .hashExhausted
  | h + 1 =>
    let i := sliceAt (h + 1) hash₁
    let j := sliceAt (h + 1) hash₂
    if i = j then do
      let node ← join hash₁ slot₁ hash₂ slot₂ h
      .ok (.bitmap (Bitmap.single i) [.child node])
    else
      .ok (.bitmap ((Bitmap.single i).insert j) (if i < j then [slot₁, slot₂] else [slot₂, slot₁]))

/-- The node at this height that holds an old entry and a new one. -/
def pair [HashEquiv K] (old : Entry K V) (hash : UInt32) (new : Entry K V) (height : Nat) :
    Except Fault (Traced (Node K V)) :=
  let oldHash := HashEquiv.hash old.key
  if oldHash = hash then
    .ok ⟨.collision hash [old, new], [.collided hash]⟩
  else
    (join oldHash (.entry old) hash (.entry new) height).map Traced.silent

/-- Spread slots over one place per slice: each occupied slice takes the next slot. -/
def spread (occupied : Bitmap) (place : Slot K V (Node K V) → Node K V) :
    List (Fin 32) → List (Slot K V (Node K V)) → List (Option (Node K V))
  | [], _ => []
  | i :: is, slots =>
    if occupied.has i then
      (slots.head?.map place) :: spread occupied place is slots.tail
    else
      none :: spread occupied place is slots

/-- The subtree at this height that a slot becomes in an array node. -/
def ofSlot [HashEquiv K] (height : Nat) : Slot K V (Node K V) → Node K V
  | .entry e => leaf (sliceAt height (HashEquiv.hash e.key)) e
  | .child node => node

/-- The array node that a full bitmap node becomes; its children are at height `height`. -/
def promote [HashEquiv K] (occupied : Bitmap) (slots : List (Slot K V (Node K V))) (i : Fin 32)
    (hash : UInt32) (e : Entry K V) (height : Nat) : Node K V :=
  let children := spread occupied (ofSlot height) (List.finRange 32) slots
  .array (slots.length + 1) (children.set i (some (leaf (sliceAt height hash) e)))

/-- Insert an entry among those of its full hash. -/
def insertColliding [HashEquiv K] [BEq V] (hash : UInt32) (entries : List (Entry K V))
    (e : Entry K V) : Insertion (Node K V) :=
  match entries.findIdx? fun old => equiv e.key old.key with
  | none => .added (.collision hash (entries ++ [e]))
  | some i =>
    match entries[i]? with
    | none => .kept
    | some old =>
      if old.value == e.value then .kept
      else .overwrote (.collision hash (entries.set i { old with value := e.value }))

/-- Insert an entry with this hash below a node at this height. -/
def insert [HashEquiv K] [BEq V] (hash : UInt32) (e : Entry K V) :
    Nat → Node K V → Except Fault (Traced (Insertion (Node K V)))
  | height, .collision hash' entries =>
    if hash = hash' then
      .ok (.silent (insertColliding hash' entries e))
    else do
      let node ← join hash' (.child (.collision hash' entries)) hash (.entry e) height
      .ok (.silent (.added node))
  | 0, .bitmap .. => .error .hashExhausted
  | 0, .array .. => .error .hashExhausted
  | h + 1, .bitmap occupied slots =>
    let i := sliceAt (h + 1) hash
    let rank := occupied.rank i
    let replace (slot : Slot K V (Node K V)) : Node K V := .bitmap occupied (slots.set rank slot)
    if occupied.has i then
      match slots[rank]? with
      | none => .error .slotOutOfRange
      | some (.child node) => do
        let change ← insert hash e h node
        .ok (change.map (Insertion.map fun node => replace (.child node)))
      | some (.entry old) =>
        if equiv e.key old.key then
          if e.value == old.value then .ok (.silent .kept)
          else .ok (.silent (.overwrote (replace (.entry { old with value := e.value }))))
        else do
          let both ← pair old hash e h
          .ok (both.map fun node => .added (replace (.child node)))
    else if slots.length ≥ maxSlots then
      match h with
      | 0 => .error .hashExhausted
      | h + 1 =>
        .ok ⟨.added (promote occupied slots i hash e (h + 1)),
          [.promoted (shiftAt (h + 2)) (slots.length + 1)]⟩
    else if rank ≤ slots.length then
      .ok (.silent (.added (.bitmap (occupied.insert i) (slots.insertIdx rank (.entry e)))))
    else
      .error .slotOutOfRange
  | h + 1, .array count children =>
    let i := sliceAt (h + 1) hash
    match children[i.val]? with
    | none => .error .slotOutOfRange
    | some none =>
      match h with
      | 0 => .error .hashExhausted
      | h + 1 =>
        .ok (.silent (.added
          (.array (count + 1) (children.set i (some (leaf (sliceAt (h + 1) hash) e))))))
    | some (some node) => do
      let change ← insert hash e h node
      .ok (change.map (Insertion.map fun node => .array count (children.set i (some node))))

end Node

end HashTrie
