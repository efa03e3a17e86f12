import HashTrie.Trie.Erase
import HashTrie.Trie.Insert

/-!
# Nodes with handles

A cell is a node that is told apart by its handle. Here updates are carried out on cells: every node
that an update makes takes a fresh handle from a supply, a node that it leaves as it is keeps its
handle, and an update learns whether anything has changed below a node from nothing but a comparison
of handles: the child that comes back is the one that was there, or it is not.

A collision node with another hash is first put below a new bitmap node of its own, and that node is
then asked to insert the entry.
-/

namespace HashTrie

/-- A node of a trie, with its handle. -/
inductive Cell (K V : Type) where
  | bitmap (handle : Nat) (occupied : Bitmap) (slots : List (Slot K V (Cell K V)))
  | array (handle : Nat) (count : Nat) (children : List (Option (Cell K V)))
  | collision (handle : Nat) (hash : UInt32) (entries : List (Entry K V))

/-- A computation that may take handles from a supply; the state is the next free handle. -/
abbrev Supply (α : Type) : Type := StateT Nat (Except Fault) α

/-- A handle that was never handed out before. -/
def freshHandle : Supply Nat := fun next => .ok (next, next + 1)

namespace Cell

variable {K V : Type}

/-- The handle of a cell. -/
def handle : Cell K V → Nat
  | bitmap handle .. => handle
  | array handle .. => handle
  | collision handle .. => handle

/-- Whether two cells have one handle. -/
def same (c c' : Cell K V) : Bool := c.handle == c'.handle

mutual

/-- The node of a cell, without the handles. -/
def node : Cell K V → Node K V
  | bitmap _ occupied slots => .bitmap occupied (slotNodes slots)
  | array _ count children => .array count (childNodes children)
  | collision _ hash entries => .collision hash entries

/-- The slots without the handles. -/
def slotNodes : List (Slot K V (Cell K V)) → List (Slot K V (Node K V))
  | [] => []
  | .entry e :: rest => .entry e :: slotNodes rest
  | .child c :: rest => .child c.node :: slotNodes rest

/-- The children without the handles. -/
def childNodes : List (Option (Cell K V)) → List (Option (Node K V))
  | [] => []
  | none :: rest => none :: childNodes rest
  | some c :: rest => some c.node :: childNodes rest

end

mutual

/-- The cell of a new node: it and the nodes below it take handles from the supply. -/
def label : Node K V → StateM Nat (Cell K V)
  | .bitmap occupied slots, next =>
    let labelled := labelSlots slots (next + 1)
    (bitmap next occupied labelled.1, labelled.2)
  | .array count children, next =>
    let labelled := labelChildren children (next + 1)
    (array next count labelled.1, labelled.2)
  | .collision hash entries, next => (collision next hash entries, next + 1)

/-- The slots of a new node. -/
def labelSlots : List (Slot K V (Node K V)) → StateM Nat (List (Slot K V (Cell K V)))
  | [], next => ([], next)
  | .entry e :: rest, next =>
    let labelled := labelSlots rest next
    (.entry e :: labelled.1, labelled.2)
  | .child node :: rest, next =>
    let c := label node next
    let labelled := labelSlots rest c.2
    (.child c.1 :: labelled.1, labelled.2)

/-- The children of a new node. -/
def labelChildren : List (Option (Node K V)) → StateM Nat (List (Option (Cell K V)))
  | [], next => ([], next)
  | none :: rest, next =>
    let labelled := labelChildren rest next
    (none :: labelled.1, labelled.2)
  | some node :: rest, next =>
    let c := label node next
    let labelled := labelChildren rest c.2
    (some c.1 :: labelled.1, labelled.2)

end

/-- A new node with fresh handles. -/
def create (node : Node K V) : Supply (Cell K V) := fun next => .ok (label node next)

/-! ### Insertion -/

section Insertion

variable [HashEquiv K]

/-- The subtree at this height that a slot becomes in an array node: an entry gets a new node, and a
subtree moves over as it is. -/
def ofSlot (height : Nat) : Slot K V (Cell K V) → Supply (Cell K V)
  | .entry e => create (Node.leaf (sliceAt height (HashEquiv.hash e.key)) e)
  | .child c => pure c

/-- Spread slots over one place per slice: each occupied slice takes the next slot. -/
def spread (occupied : Bitmap) (height : Nat) :
    List (Fin 32) → List (Slot K V (Cell K V)) → Supply (List (Option (Cell K V)))
  | [], _ => pure []
  | i :: is, slots =>
    if occupied.has i then do
      let child ← slots.head?.mapM (ofSlot height)
      return child :: (← spread occupied height is slots.tail)
    else do
      return none :: (← spread occupied height is slots)

/-- The array node that a full bitmap node becomes. -/
def promote (occupied : Bitmap) (slots : List (Slot K V (Cell K V))) (i : Fin 32) (hash : UInt32)
    (e : Entry K V) (height : Nat) : Supply (Cell K V) := do
  let new ← create (Node.leaf (sliceAt height hash) e)
  let children ← spread occupied height (List.finRange 32) slots
  return array (← freshHandle) (slots.length + 1) (children.set i (some new))

variable [BEq V]

/-- Insert an entry among those of its full hash. What comes back is a cell, and whether the entry
was added. -/
def insertColliding (this : Cell K V) (hash : UInt32) (entries : List (Entry K V)) (e : Entry K V) :
    Supply (Cell K V × Bool) :=
  match entries.findIdx? fun old => equiv e.key old.key with
  | none => do return (collision (← freshHandle) hash (entries ++ [e]), true)
  | some i =>
    match entries[i]? with
    | none => pure (this, false)
    | some old =>
      if old.value == e.value then pure (this, false)
      else do
        return (collision (← freshHandle) hash (entries.set i { old with value := e.value }), false)

/-- Rebuild the node above a child that an insertion went through: when what comes back has the
handle of the child, the node stays as it is. -/
def afterInsert (this child : Cell K V) (build : Nat → Cell K V → Cell K V)
    (back : Traced (Cell K V × Bool)) : Supply (Traced (Cell K V × Bool)) :=
  if child.same back.outcome.1 then pure (back.map fun _ => (this, false))
  else do
    let new := build (← freshHandle) back.outcome.1
    return back.map fun outcome => (new, outcome.2)

/-- Insert an entry below a bitmap node, given how it is inserted one level below. -/
def insertBitmap (below : Cell K V → Supply (Traced (Cell K V × Bool))) (hash : UInt32)
    (e : Entry K V) (h : Nat) (this : Cell K V) (occupied : Bitmap)
    (slots : List (Slot K V (Cell K V))) : Supply (Traced (Cell K V × Bool)) :=
  let i := sliceAt (h + 1) hash
  let rank := occupied.rank i
  let replace (slot : Slot K V (Cell K V)) (handle : Nat) : Cell K V :=
    bitmap handle occupied (slots.set rank slot)
  if occupied.has i then
    match slots[rank]? with
    | none => throw .slotOutOfRange
    | some (.child child) =>
      below child >>= afterInsert this child fun handle new => replace (.child new) handle
    | some (.entry old) =>
      if equiv e.key old.key then
        if e.value == old.value then return .silent (this, false)
        else do
          let new := replace (.entry { old with value := e.value }) (← freshHandle)
          return .silent (new, false)
      else do
        let both ← Node.pair old hash e h
        let child ← create both.outcome
        let new := replace (.child child) (← freshHandle)
        return ⟨(new, true), both.events⟩
  else if slots.length ≥ maxSlots then
    match h with
    | 0 => throw .hashExhausted
    | h + 1 => do
      let new ← promote occupied slots i hash e (h + 1)
      return ⟨(new, true), [.promoted (shiftAt (h + 2)) (slots.length + 1)]⟩
  else if rank ≤ slots.length then do
    let new := bitmap (← freshHandle) (occupied.insert i) (slots.insertIdx rank (.entry e))
    return .silent (new, true)
  else
    throw .slotOutOfRange

/-- Insert an entry below an array node, given how it is inserted one level below. -/
def insertArray (below : Cell K V → Supply (Traced (Cell K V × Bool))) (hash : UInt32)
    (e : Entry K V) (h : Nat) (this : Cell K V) (count : Nat)
    (children : List (Option (Cell K V))) : Supply (Traced (Cell K V × Bool)) :=
  let i := sliceAt (h + 1) hash
  match children[i.val]? with
  | none => throw .slotOutOfRange
  | some none =>
    match h with
    | 0 => throw .hashExhausted
    | h + 1 => do
      let child ← create (Node.leaf (sliceAt (h + 1) hash) e)
      let new := array (← freshHandle) (count + 1) (children.set i (some child))
      return .silent (new, true)
  | some (some child) =>
    below child >>= afterInsert this child fun handle new =>
      array handle count (children.set i (some new))

/-- Insert an entry with this hash below a cell at this height. -/
def insert (hash : UInt32) (e : Entry K V) : Nat → Cell K V → Supply (Traced (Cell K V × Bool))
  | 0, .collision handle hash' entries =>
    if hash = hash' then
      Traced.silent <$> insertColliding (.collision handle hash' entries) hash' entries e
    else throw .hashExhausted
  | 0, .bitmap .. => throw .hashExhausted
  | 0, .array .. => throw .hashExhausted
  | h + 1, .collision handle hash' entries =>
    if hash = hash' then
      Traced.silent <$> insertColliding (.collision handle hash' entries) hash' entries e
    else do
      let occupied := Bitmap.single (sliceAt (h + 1) hash')
      let slots := [.child (.collision handle hash' entries)]
      let wrapper := bitmap (← freshHandle) occupied slots
      insertBitmap (insert hash e h) hash e h wrapper occupied slots
  | h + 1, .bitmap handle occupied slots =>
    insertBitmap (insert hash e h) hash e h (.bitmap handle occupied slots) occupied slots
  | h + 1, .array handle count children =>
    insertArray (insert hash e h) hash e h (.array handle count children) count children

end Insertion

/-! ### Removal -/

/-- Drop the slot of an occupied slice; an emptied node disappears. -/
def dropSlot (occupied : Bitmap) (slots : List (Slot K V (Cell K V))) (i : Fin 32) :
    Supply (Option (Cell K V)) :=
  if occupied = Bitmap.single i then pure none
  else do
    return some (bitmap (← freshHandle) (occupied.toggle i) (slots.eraseIdx (occupied.rank i)))

/-- The occupied places of an array node, with their slices. -/
def occupiedChildren (children : List (Option (Cell K V))) : List (Fin 32 × Cell K V) :=
  ((List.finRange 32).zip children).filterMap fun place => place.2.map fun c => (place.1, c)

/-- The bitmap node that has the children of an array node in its slots. -/
def pack (children : List (Option (Cell K V))) : Supply (Cell K V) := do
  let places := occupiedChildren children
  return bitmap (← freshHandle) (Bitmap.ofSlices (places.map (·.1)))
    (places.map fun place => .child place.2)

/-- Clear an occupied place of an array node, packing the node when few enough children are left. -/
def dropChild (count : Nat) (children : List (Option (Cell K V))) (i : Fin 32) :
    Supply (Traced (Option (Cell K V))) :=
  match count with
  | 0 => throw .countUnderflow
  | rest + 1 =>
    let left := children.set i none
    if rest ≤ minChildren then do
      return ⟨some (← pack left), [.packed (occupiedChildren left).length]⟩
    else do
      return .silent (some (array (← freshHandle) rest left))

/-- Remove the entry that a probe finds among those of one full hash. -/
def eraseColliding (probe : Probe K) (this : Cell K V) (hash : UInt32)
    (entries : List (Entry K V)) : Supply (Option (Cell K V)) :=
  match entries.findIdx? fun e => probe.accepts e.key with
  | none => pure (some this)
  | some i =>
    if entries.length = 1 then pure none
    else do return some (collision (← freshHandle) hash (entries.eraseIdx i))

/-- Rebuild the node above a child that a removal went through: when what comes back has the handle
of the child, the node stays as it is. -/
def afterErase (this child : Cell K V) (build : Nat → Cell K V → Cell K V)
    (drop : Supply (Traced (Option (Cell K V)))) (back : Traced (Option (Cell K V))) :
    Supply (Traced (Option (Cell K V))) :=
  match back.outcome with
  | none => do
    let dropped ← drop
    return ⟨dropped.outcome, back.events ++ dropped.events⟩
  | some new =>
    if child.same new then return ⟨some this, back.events⟩
    else do return ⟨some (build (← freshHandle) new), back.events⟩

/-- Remove the entry that a probe finds below a cell at this height. What comes back is a cell, or
nothing when no entry is left. -/
def erase (probe : Probe K) : Nat → Cell K V → Supply (Traced (Option (Cell K V)))
  | _, .collision handle hash entries =>
    Traced.silent <$> eraseColliding probe (.collision handle hash entries) hash entries
  | 0, .bitmap .. => throw .hashExhausted
  | 0, .array .. => throw .hashExhausted
  | h + 1, .bitmap handle occupied slots =>
    let i := sliceAt (h + 1) probe.hash
    let rank := occupied.rank i
    let this := bitmap handle occupied slots
    if occupied.has i then
      match slots[rank]? with
      | none => throw .slotOutOfRange
      | some (.entry e) =>
        if probe.accepts e.key then Traced.silent <$> dropSlot occupied slots i
        else return .silent (some this)
      | some (.child child) =>
        erase probe h child >>= afterErase this child
          (fun handle new => bitmap handle occupied (slots.set rank (.child new)))
          (Traced.silent <$> dropSlot occupied slots i)
    else
      return .silent (some this)
  | h + 1, .array handle count children =>
    let i := sliceAt (h + 1) probe.hash
    let this := array handle count children
    match children[i.val]? with
    | none => throw .slotOutOfRange
    | some none => return .silent (some this)
    | some (some child) =>
      erase probe h child >>= afterErase this child
        (fun handle new => array handle count (children.set i (some new)))
        (dropChild count children i)

end Cell

end HashTrie
