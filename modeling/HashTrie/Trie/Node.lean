import HashTrie.Entry
import HashTrie.Hash.Equivalence
import HashTrie.Trie.Bitmap
import HashTrie.Trie.Slice

/-!
# Trie nodes

A node maps the slice of a hash that it reads to what is stored there. There are three kinds:

* a bitmap node keeps one slot, an entry or a subtree, per occupied slice, in the order of the
  slices, and holds at most `maxSlots` of them;
* an array node has 32 places, each empty or a subtree, and keeps the number of subtrees;
* a collision node keeps the entries of one full hash, in the order of their insertion.

Nodes are plain data: what a well-formed trie is, and that updates keep it, is said apart from them.
Operations on nodes run at a height, the number of slices still unread, and report a `Fault` where
the node is not what that height calls for.
-/

namespace HashTrie

/-- One place of a bitmap node: an entry or a subtree. -/
inductive Slot (K V N : Type) where
  | entry (e : Entry K V)
  | child (node : N)

/-- A node of a trie. -/
inductive Node (K V : Type) where
  /-- One slot per occupied slice, in the order of the slices. -/
  | bitmap (occupied : Bitmap) (slots : List (Slot K V (Node K V)))
  /-- One place per slice, with the number of places that hold a subtree. -/
  | array (count : Nat) (children : List (Option (Node K V)))
  /-- The entries whose keys have this full hash, oldest first. -/
  | collision (hash : UInt32) (entries : List (Entry K V))

/-- What a malformed node would make go wrong. -/
inductive Fault where
  /-- A slice is needed below the last one. -/
  | hashExhausted
  /-- An occupied slice has no slot, or an array no place for a slice. -/
  | slotOutOfRange
  /-- The last entry of an empty map or the last child of an empty array is to be removed. -/
  | countUnderflow
  /-- A sequence stands where there is no entry. -/
  | offEntry
  deriving DecidableEq

/-- The number of slots at which a bitmap node is full. -/
def maxSlots : Nat := 16

/-- The number of children down to which a shrinking array node is packed. -/
def minChildren : Nat := 8

namespace Node

variable {K V : Type}

/-- The bitmap node with one entry. -/
def leaf (i : Fin 32) (e : Entry K V) : Node K V :=
  .bitmap (Bitmap.single i) [.entry e]

/-- Whether the node is an array node. -/
def isArray : Node K V → Bool
  | .array .. => true
  | _ => false

mutual

/-- The entries below a node, slice by slice and oldest first within a collision. -/
def toList : Node K V → List (Entry K V)
  | .bitmap _ slots => slotEntries slots
  | .array _ children => childEntries children
  | .collision _ entries => entries

/-- The entries in and below a list of slots. -/
def slotEntries : List (Slot K V (Node K V)) → List (Entry K V)
  | [] => []
  | .entry e :: rest => e :: slotEntries rest
  | .child node :: rest => node.toList ++ slotEntries rest

/-- The entries below a list of children. -/
def childEntries : List (Option (Node K V)) → List (Entry K V)
  | [] => []
  | none :: rest => childEntries rest
  | some node :: rest => node.toList ++ childEntries rest

end

/-- A leaf holds its entry. -/
@[simp] theorem toList_leaf (i : Fin 32) (e : Entry K V) : (leaf i e).toList = [e] := by
  simp [leaf, toList, slotEntries]

end Node

end HashTrie
