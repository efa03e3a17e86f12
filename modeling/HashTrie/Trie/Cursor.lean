import HashTrie.Error
import HashTrie.Trie.Node

/-!
# Cursors

A cursor walks the entries of a trie once, from the front. It keeps what is left of every node on
the path to its place, and at most one entry that it has reached and not handed out yet. Asking
whether an entry is left may move the cursor up to that entry, and never past it.
-/

namespace HashTrie

/-- What is left to walk of one node. -/
inductive Frame (K V : Type) where
  | slots (rest : List (Slot K V (Node K V)))
  | children (rest : List (Option (Node K V)))
  | entries (rest : List (Entry K V))

/-- All of a node, still to be walked. -/
def Node.frame {K V : Type} : Node K V → Frame K V
  | .bitmap _ slots => .slots slots
  | .array _ children => .children children
  | .collision _ entries => .entries entries

/-- A walk over the entries of a trie: an entry reached but not handed out, and the rest. -/
structure Cursor (K V : Type) where
  pending : Option (Entry K V)
  stack : List (Frame K V)

namespace Cursor

variable {K V : Type}

/-- The cursor before the first entry of a trie. -/
def ofRoot (root : Option (Node K V)) : Cursor K V :=
  ⟨none, (root.map Node.frame).toList⟩

theorem sizeOf_frame_le (node : Node K V) : sizeOf node.frame ≤ sizeOf node := by
  cases node <;> simp [Node.frame]

/-- The next entry and what is left after it. -/
def advance : List (Frame K V) → Option (Entry K V × List (Frame K V))
  | [] => none
  | .slots [] :: stack => advance stack
  | .slots (.entry e :: rest) :: stack => some (e, .slots rest :: stack)
  | .slots (.child node :: rest) :: stack => advance (node.frame :: .slots rest :: stack)
  | .children [] :: stack => advance stack
  | .children (none :: rest) :: stack => advance (.children rest :: stack)
  | .children (some node :: rest) :: stack => advance (node.frame :: .children rest :: stack)
  | .entries [] :: stack => advance stack
  | .entries (e :: rest) :: stack => some (e, .entries rest :: stack)
termination_by stack => sizeOf stack
decreasing_by
  all_goals simp only [List.cons.sizeOf_spec, Frame.slots.sizeOf_spec, Frame.children.sizeOf_spec,
    Frame.entries.sizeOf_spec, Slot.child.sizeOf_spec, Option.some.sizeOf_spec,
    Option.none.sizeOf_spec, List.nil.sizeOf_spec]
  all_goals try have := sizeOf_frame_le node
  all_goals omega

/-- Whether an entry is left, and the cursor moved up to it. -/
def hasNext (c : Cursor K V) : Bool × Cursor K V :=
  match c.pending with
  | some _ => (true, c)
  | none =>
    match advance c.stack with
    | none => (false, ⟨none, []⟩)
    | some (e, stack) => (true, ⟨some e, stack⟩)

/-- The next entry, and the cursor behind it. -/
def next (c : Cursor K V) : Except MapError (Entry K V) × Cursor K V :=
  let c := c.hasNext.2
  match c.pending with
  | none => (.error .exhausted, c)
  | some e => (.ok e, ⟨none, c.stack⟩)

/-- What a cursor can be asked. -/
inductive Call where
  | hasNext
  | next
  deriving DecidableEq

/-- What a cursor answers. -/
inductive Reply (K V : Type) where
  | more (some : Bool)
  | entry (result : Except MapError (Entry K V))

/-- The answer to a call, and the cursor after it. -/
def reply (c : Cursor K V) : Call → Reply K V × Cursor K V
  | .hasNext => let (more, c) := c.hasNext; (.more more, c)
  | .next => let (result, c) := c.next; (.entry result, c)

/-- The answers to calls made one after the other. -/
def replies (c : Cursor K V) : List Call → List (Reply K V)
  | [] => []
  | call :: calls => let (answer, c) := c.reply call; answer :: c.replies calls

/-- What the stack of a cursor still holds. -/
def stackEntries : List (Frame K V) → List (Entry K V)
  | [] => []
  | .slots rest :: stack => Node.slotEntries rest ++ stackEntries stack
  | .children rest :: stack => Node.childEntries rest ++ stackEntries stack
  | .entries rest :: stack => rest ++ stackEntries stack

theorem stackEntries_frame (node : Node K V) (stack : List (Frame K V)) :
    stackEntries (node.frame :: stack) = node.toList ++ stackEntries stack := by
  cases node <;> simp [Node.frame, stackEntries, Node.toList]

/-- Advancing takes the first entry off the stack. -/
theorem stackEntries_eq_of_advance (stack : List (Frame K V)) :
    stackEntries stack =
      match advance stack with
      | none => []
      | some (e, stack) => e :: stackEntries stack := by
  fun_induction advance stack <;>
    simp_all [stackEntries, Node.slotEntries, Node.childEntries, stackEntries_frame]

/-- The entries that a cursor hands out when it is run to its end. -/
def drain (stack : List (Frame K V)) : List (Entry K V) :=
  match _h : advance stack with
  | none => []
  | some (e, rest) => e :: drain rest
termination_by (stackEntries stack).length
decreasing_by simp [stackEntries_eq_of_advance stack, _h]

/-- A cursor that is run to its end hands out what its stack holds. -/
theorem drain_eq_stackEntries (stack : List (Frame K V)) : drain stack = stackEntries stack := by
  fun_induction drain stack with
  | case1 stack h => rw [stackEntries_eq_of_advance stack, h]
  | case2 stack e rest h ih => rw [stackEntries_eq_of_advance stack, h, ih]

end Cursor

end HashTrie
