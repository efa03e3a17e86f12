import HashTrie.Proofs.Insertion
import HashTrie.Trie.Cell
import Mathlib.Data.List.InsertIdx

/-!
# Handles tell what has changed

An update that is carried out on cells, and learns from the handles alone whether something has
changed, does what the update of the nodes does (`inserts_insert`, `erases_erase`): a node that is
kept comes back as the very same cell, and any other comes back with a handle that is new. This
rests on one invariant: all handles below a cell were handed out before (`Cell.Below`).
-/

namespace HashTrie

variable {K V : Type}

/-! ## Supplies -/

section Supply

variable {α β : Type}

theorem bind_supply_of_ok {x : Supply α} {f : α → Supply β} {next after : Nat} {a : α}
    (hx : x next = .ok (a, after)) : (x >>= f) next = f a after := by
  show (x next >>= fun p => f p.1 p.2) = _
  rw [hx]
  rfl

theorem bind_supply_of_error {x : Supply α} {f : α → Supply β} {next : Nat} {fault : Fault}
    (hx : x next = .error fault) : (x >>= f) next = .error fault := by
  show (x next >>= fun p => f p.1 p.2) = _
  rw [hx]
  rfl

theorem map_supply_of_ok {x : Supply α} {f : α → β} {next after : Nat} {a : α}
    (hx : x next = .ok (a, after)) : (f <$> x) next = .ok (f a, after) := by
  rw [map_eq_pure_bind, bind_supply_of_ok hx]
  rfl

end Supply

/-! ## Forgetting the handles -/

/-- The slot with its subtree changed. -/
def Slot.map {N M : Type} (f : N → M) : Slot K V N → Slot K V M
  | .entry e => .entry e
  | .child n => .child (f n)

namespace Cell

theorem slotNodes_eq_map (slots : List (Slot K V (Cell K V))) :
    slotNodes slots = slots.map (Slot.map node) := by
  induction slots with
  | nil => rfl
  | cons slot rest ih => cases slot <;> rw [slotNodes, ih] <;> rfl

theorem childNodes_eq_map (children : List (Option (Cell K V))) :
    childNodes children = children.map (Option.map node) := by
  induction children with
  | nil => rfl
  | cons child rest ih => cases child <;> rw [childNodes, ih] <;> rfl

/-! ## Handles that were handed out -/

/-- Whether all handles in a cell are below a number. -/
inductive Below (next : Nat) : Cell K V → Prop where
  | bitmap {handle : Nat} {occupied : Bitmap} {slots : List (Slot K V (Cell K V))} :
    handle < next → (∀ c, Slot.child c ∈ slots → Below next c) →
      Below next (.bitmap handle occupied slots)
  | array {handle count : Nat} {children : List (Option (Cell K V))} :
    handle < next → (∀ c, some c ∈ children → Below next c) →
      Below next (.array handle count children)
  | collision {handle : Nat} {hash : UInt32} {entries : List (Entry K V)} :
    handle < next → Below next (.collision handle hash entries)

variable {next after : Nat} {c : Cell K V}

theorem Below.handle_lt (h : c.Below next) : c.handle < next := by
  cases h <;> assumption

theorem Below.mono (h : c.Below next) (hle : next ≤ after) : c.Below after := by
  induction h with
  | bitmap hlt _ ih => exact .bitmap (lt_of_lt_of_le hlt hle) ih
  | array hlt _ ih => exact .array (lt_of_lt_of_le hlt hle) ih
  | collision hlt => exact .collision (lt_of_lt_of_le hlt hle)

/-- Whether a cell is a node that was made while the supply went from one number to another. -/
structure Made (next after : Nat) (node : Node K V) (c : Cell K V) : Prop where
  node_eq : c.node = node
  le_handle : next ≤ c.handle
  below : c.Below after

variable {node : Node K V}

theorem Made.lt (h : Made next after node c) : next < after :=
  lt_of_le_of_lt h.le_handle h.below.handle_lt

theorem Made.of_le {next' : Nat} (h : Made next after node c) (hle : next' ≤ next) :
    Made next' after node c :=
  ⟨h.node_eq, le_trans hle h.le_handle, h.below⟩

/-- A cell that was there before is told apart from one that was made since. -/
theorem Made.same_eq_false (h : Made next after node c) {child : Cell K V}
    (hchild : child.Below next) : child.same c = false := by
  have hlt := hchild.handle_lt
  have hle := h.le_handle
  rw [same, beq_eq_false_iff_ne]
  omega

theorem same_self (c : Cell K V) : c.same c = true := beq_self_eq_true c.handle

/-! ### New nodes -/

mutual

theorem made_label (node : Node K V) (next : Nat) :
    Made next (label node next).2 node (label node next).1 := by
  cases node with
  | bitmap occupied slots =>
    obtain ⟨hnodes, hbelow, hle⟩ := labelSlots_spec slots (next + 1)
    refine ⟨?_, le_refl _, .bitmap (Nat.lt_of_succ_le hle) hbelow⟩
    simpa [label, Cell.node] using hnodes
  | array count children =>
    obtain ⟨hnodes, hbelow, hle⟩ := labelChildren_spec children (next + 1)
    refine ⟨?_, le_refl _, .array (Nat.lt_of_succ_le hle) hbelow⟩
    simpa [label, Cell.node] using hnodes
  | collision hash entries => exact ⟨rfl, le_refl _, .collision (Nat.lt_succ_self next)⟩

theorem labelSlots_spec (slots : List (Slot K V (Node K V))) (next : Nat) :
    slotNodes (labelSlots slots next).1 = slots ∧
      (∀ c, Slot.child c ∈ (labelSlots slots next).1 → c.Below (labelSlots slots next).2) ∧
      next ≤ (labelSlots slots next).2 := by
  cases slots with
  | nil => exact ⟨rfl, fun _ hc => absurd hc List.not_mem_nil, le_refl _⟩
  | cons slot rest =>
    cases slot with
    | entry e =>
      obtain ⟨hnodes, hbelow, hle⟩ := labelSlots_spec rest next
      refine ⟨?_, fun c hc => ?_, hle⟩
      · simpa [labelSlots, slotNodes] using hnodes
      · exact hbelow c (by simpa [labelSlots] using hc)
    | child node =>
      have hmade := made_label node next
      obtain ⟨hnodes, hbelow, hle⟩ := labelSlots_spec rest (label node next).2
      refine ⟨?_, fun c hc => ?_, le_trans (le_of_lt hmade.lt) hle⟩
      · simpa [labelSlots, slotNodes] using ⟨hmade.node_eq, hnodes⟩
      · rw [labelSlots, List.mem_cons, Slot.child.injEq] at hc
        rcases hc with rfl | hc
        · exact hmade.below.mono hle
        · exact hbelow c hc

theorem labelChildren_spec (children : List (Option (Node K V))) (next : Nat) :
    childNodes (labelChildren children next).1 = children ∧
      (∀ c, some c ∈ (labelChildren children next).1 → c.Below (labelChildren children next).2) ∧
      next ≤ (labelChildren children next).2 := by
  cases children with
  | nil => exact ⟨rfl, fun _ hc => absurd hc List.not_mem_nil, le_refl _⟩
  | cons child rest =>
    cases child with
    | none =>
      obtain ⟨hnodes, hbelow, hle⟩ := labelChildren_spec rest next
      refine ⟨?_, fun c hc => ?_, hle⟩
      · simpa [labelChildren, childNodes] using hnodes
      · exact hbelow c (by simpa [labelChildren] using hc)
    | some node =>
      have hmade := made_label node next
      obtain ⟨hnodes, hbelow, hle⟩ := labelChildren_spec rest (label node next).2
      refine ⟨?_, fun c hc => ?_, le_trans (le_of_lt hmade.lt) hle⟩
      · simpa [labelChildren, childNodes] using ⟨hmade.node_eq, hnodes⟩
      · rw [labelChildren, List.mem_cons, Option.some.injEq] at hc
        rcases hc with rfl | hc
        · exact hmade.below.mono hle
        · exact hbelow c hc

end

theorem create_eq (node : Node K V) (next : Nat) :
    ∃ c after, create node next = .ok (c, after) ∧ Made next after node c :=
  ⟨_, _, rfl, made_label node next⟩

/-- A new bitmap node above cells that were there before. -/
theorem made_bitmap (occupied : Bitmap) {slots : List (Slot K V (Cell K V))} (hle : next ≤ after)
    (hslots : ∀ c, Slot.child c ∈ slots → c.Below after) :
    Made next (after + 1) (.bitmap occupied (slots.map (Slot.map Cell.node)))
      (bitmap after occupied slots) where
  node_eq := by rw [Cell.node, slotNodes_eq_map]
  le_handle := hle
  below := .bitmap (Nat.lt_succ_self after) fun c hc => (hslots c hc).mono (Nat.le_succ after)

/-- A new array node above cells that were there before. -/
theorem made_array (count : Nat) {children : List (Option (Cell K V))} (hle : next ≤ after)
    (hchildren : ∀ c, some c ∈ children → c.Below after) :
    Made next (after + 1) (.array count (children.map (Option.map Cell.node)))
      (array after count children) where
  node_eq := by rw [Cell.node, childNodes_eq_map]
  le_handle := hle
  below := .array (Nat.lt_succ_self after) fun c hc => (hchildren c hc).mono (Nat.le_succ after)

theorem made_collision {hash : UInt32} {entries : List (Entry K V)} (hle : next ≤ after) :
    Made next (after + 1) (.collision hash entries) (collision after hash entries) where
  node_eq := rfl
  le_handle := hle
  below := .collision (Nat.lt_succ_self after)

theorem forall_some_set {children : List (Option (Cell K V))} (n : Nat) {child : Option (Cell K V)}
    (hchildren : ∀ c, some c ∈ children → c.Below next)
    (hchild : ∀ c, child = some c → c.Below next) :
    ∀ c, some c ∈ children.set n child → c.Below next := by
  intro c hc
  rcases List.mem_or_eq_of_mem_set hc with hc | hc
  · exact hchildren c hc
  · exact hchild c hc.symm

/-- A new bitmap node in which one slot is replaced. -/
theorem made_set_slot (occupied : Bitmap) {slots : List (Slot K V (Cell K V))} (n : Nat)
    (hslots : ∀ c, Slot.child c ∈ slots → c.Below next) (hle : next ≤ after)
    (slot : Slot K V (Cell K V)) (hslot : ∀ c, slot = .child c → c.Below after) :
    Made next (after + 1)
      (.bitmap occupied ((slots.map (Slot.map Cell.node)).set n (slot.map Cell.node)))
      (bitmap after occupied (slots.set n slot)) := by
  rw [← List.map_set]
  refine made_bitmap occupied hle fun c hc => ?_
  rcases List.mem_or_eq_of_mem_set hc with hc | hc
  · exact (hslots c hc).mono hle
  · exact hslot c hc.symm

/-- A new bitmap node in which a slot is replaced by a new subtree. -/
theorem made_set_subtree (occupied : Bitmap) {slots : List (Slot K V (Cell K V))} (n : Nat)
    (hslots : ∀ c, Slot.child c ∈ slots → c.Below next) (hmade : Made next after node c) :
    Made next (after + 1)
      (.bitmap occupied ((slots.map (Slot.map Cell.node)).set n (.child node)))
      (bitmap after occupied (slots.set n (.child c))) := by
  have hset := made_set_slot occupied n hslots (le_of_lt hmade.lt) (.child c)
    fun d hd => Slot.child.inj hd ▸ hmade.below
  rwa [Slot.map, hmade.node_eq] at hset

/-- A new array node in which a child is replaced by a new subtree. -/
theorem made_set_child (count : Nat) {children : List (Option (Cell K V))} (n : Nat)
    (hchildren : ∀ c, some c ∈ children → c.Below next) (hmade : Made next after node c) :
    Made next (after + 1)
      (.array count ((children.map (Option.map Cell.node)).set n (some node)))
      (array after count (children.set n (some c))) := by
  have hle := le_of_lt hmade.lt
  have hset := made_array count hle (forall_some_set n (fun c hc => (hchildren c hc).mono hle)
    fun d hd => Option.some.inj hd ▸ hmade.below)
  rwa [List.map_set, Option.map_some, hmade.node_eq] at hset

/-! ## Insertion -/

section Insertion

variable [HashEquiv K]

theorem mapM_ofSlot_eq (h : Nat) (slot? : Option (Slot K V (Cell K V)))
    (hslot : ∀ c, slot? = some (.child c) → c.Below next) :
    ∃ child after, slot?.mapM (ofSlot h) next = .ok (child, after) ∧ next ≤ after ∧
      (∀ c, child = some c → c.Below after) ∧
      child.map Cell.node = (slot?.map (Slot.map Cell.node)).map (Node.ofSlot h) := by
  rcases slot? with _ | e | c
  · exact ⟨none, next, rfl, le_refl _, fun _ hc => absurd hc (Option.some_ne_none _).symm, rfl⟩
  · obtain ⟨c, after, hcreate, hmade⟩ :=
      create_eq (Node.leaf (sliceAt h (HashEquiv.hash e.key)) e) next
    refine ⟨some c, after, map_supply_of_ok hcreate, le_of_lt hmade.lt, fun d hd => ?_, ?_⟩
    · obtain rfl := Option.some.inj hd
      exact hmade.below
    · exact congrArg some hmade.node_eq
  · refine ⟨some c, next, map_supply_of_ok rfl, le_refl _, fun d hd => ?_, rfl⟩
    obtain rfl := Option.some.inj hd
    exact hslot c rfl

/-- Spreading slots makes the nodes for the entries, and keeps all subtrees. -/
theorem spread_eq (occupied : Bitmap) (h : Nat) (is : List (Fin 32))
    (slots : List (Slot K V (Cell K V))) (hslots : ∀ c, Slot.child c ∈ slots → c.Below next) :
    ∃ children after, spread occupied h is slots next = .ok (children, after) ∧ next ≤ after ∧
      (∀ c, some c ∈ children → c.Below after) ∧
      children.map (Option.map Cell.node) =
        Node.spread occupied (Node.ofSlot h) is (slots.map (Slot.map Cell.node)) := by
  induction is generalizing slots next with
  | nil => exact ⟨[], next, rfl, le_refl _, fun _ hc => absurd hc List.not_mem_nil, rfl⟩
  | cons i is ih =>
    rw [spread, Node.spread]
    cases hi : occupied.has i with
    | false =>
      rw [if_neg Bool.false_ne_true, if_neg Bool.false_ne_true]
      obtain ⟨children, after, hspread, hle, hbelow, hnodes⟩ := ih slots hslots
      exact ⟨none :: children, after, bind_supply_of_ok hspread, hle,
        fun c hc => hbelow c (by simpa using hc), by simp [hnodes]⟩
    | true =>
      rw [if_pos rfl, if_pos rfl]
      obtain ⟨child, between, hhead, hle, hchild, hnode⟩ := mapM_ofSlot_eq h slots.head?
        fun c hc => hslots c (List.mem_of_head? hc)
      obtain ⟨children, after, hspread, hle', hbelow, hnodes⟩ := ih slots.tail
        fun c hc => (hslots c (List.mem_of_mem_tail hc)).mono hle
      refine ⟨child :: children, after, ?_, le_trans hle hle', fun c hc => ?_, ?_⟩
      · exact (bind_supply_of_ok hhead).trans (bind_supply_of_ok hspread)
      · rcases List.mem_cons.mp hc with hc | hc
        · exact (hchild c hc.symm).mono hle'
        · exact hbelow c hc
      · rw [List.map_cons, hnode, hnodes, List.head?_map, List.map_tail]

theorem promote_eq (occupied : Bitmap) {slots : List (Slot K V (Cell K V))} (i : Fin 32)
    (hash : UInt32) (e : Entry K V) (h : Nat) (hslots : ∀ c, Slot.child c ∈ slots → c.Below next) :
    ∃ c after, promote occupied slots i hash e h next = .ok (c, after) ∧
      Made next after (Node.promote occupied (slots.map (Slot.map Cell.node)) i hash e h) c := by
  obtain ⟨new, between, hcreate, hmade⟩ := create_eq (Node.leaf (sliceAt h hash) e) next
  obtain ⟨children, after, hspread, hle, hbelow, hnodes⟩ :=
    spread_eq occupied h (List.finRange 32) slots fun c hc => (hslots c hc).mono (le_of_lt hmade.lt)
  have hall : ∀ c, some c ∈ children.set i (some new) → c.Below after := by
    intro c hc
    rcases List.mem_or_eq_of_mem_set hc with hc | hc
    · exact hbelow c hc
    · obtain rfl := Option.some.inj hc
      exact hmade.below.mono hle
  refine ⟨array after (slots.length + 1) (children.set i (some new)), after + 1, ?_, ?_⟩
  · exact (bind_supply_of_ok hcreate).trans (bind_supply_of_ok hspread)
  · have harray := made_array (slots.length + 1) (le_trans (le_of_lt hmade.lt) hle)
      hall
    rw [List.map_set, hnodes, Option.map_some, hmade.node_eq] at harray
    rw [Node.promote, List.length_map]
    exact harray

variable [BEq V]

/-- What an insertion below a cell owes, given what it makes of the node. -/
def Inserts (next : Nat) (this : Cell K V)
    (result : Except Fault (Traced (Cell K V × Bool) × Nat)) :
    Except Fault (Traced (Insertion (Node K V))) → Prop
  | .error fault => result = .error fault
  | .ok ⟨.kept, events⟩ => ∃ after, next ≤ after ∧ result = .ok (⟨(this, false), events⟩, after)
  | .ok ⟨.overwrote node, events⟩ =>
    ∃ c after, Made next after node c ∧ result = .ok (⟨(c, false), events⟩, after)
  | .ok ⟨.added node, events⟩ =>
    ∃ c after, Made next after node c ∧ result = .ok (⟨(c, true), events⟩, after)

theorem inserts_insertColliding {hash : UInt32} {entries : List (Entry K V)} {e : Entry K V}
    (this : Cell K V) (next : Nat) :
    Inserts next this ((Traced.silent <$> insertColliding this hash entries e) next)
      (.ok (.silent (Node.insertColliding hash entries e))) := by
  unfold insertColliding Node.insertColliding
  cases entries.findIdx? fun old => equiv e.key old.key with
  | none => exact ⟨_, _, made_collision (le_refl next), rfl⟩
  | some n =>
    dsimp only
    cases entries[n]? with
    | none => exact ⟨next, le_refl next, rfl⟩
    | some old =>
      dsimp only
      split
      · exact ⟨next, le_refl next, rfl⟩
      · exact ⟨_, _, made_collision (le_refl next), rfl⟩

omit [HashEquiv K] [BEq V] in
/-- The comparison of handles tells what an insertion below a child has made of it. -/
theorem inserts_afterInsert (this : Cell K V) {child : Cell K V} {build : Nat → Cell K V → Cell K V}
    {f : Node K V → Node K V} {below : Cell K V → Supply (Traced (Cell K V × Bool))}
    {model : Except Fault (Traced (Insertion (Node K V)))} (hchild : child.Below next)
    (hbelow : Inserts next child (below child next) model)
    (hbuild : ∀ c after node, Made next after node c →
      Made next (after + 1) (f node) (build after c)) :
    Inserts next this ((below child >>= afterInsert this child build) next)
      (model.map (Traced.map (Insertion.map f))) := by
  have hnew : ∀ c after node added events, Made next after node c →
      below child next = .ok (⟨(c, added), events⟩, after) →
      (below child >>= afterInsert this child build) next =
        .ok (⟨(build after c, added), events⟩, after + 1) := by
    intro c after node added events hmade hresult
    rw [bind_supply_of_ok hresult, afterInsert, hmade.same_eq_false hchild,
      if_neg Bool.false_ne_true]
    rfl
  match model with
  | .error fault => exact bind_supply_of_error hbelow
  | .ok ⟨.kept, events⟩ =>
    obtain ⟨after, hle, hresult⟩ := hbelow
    refine ⟨after, hle, ?_⟩
    rw [bind_supply_of_ok hresult, afterInsert, same_self, if_pos rfl]
    rfl
  | .ok ⟨.overwrote node, events⟩ =>
    obtain ⟨c, after, hmade, hresult⟩ := hbelow
    exact ⟨_, _, hbuild c after node hmade, hnew c after node _ events hmade hresult⟩
  | .ok ⟨.added node, events⟩ =>
    obtain ⟨c, after, hmade, hresult⟩ := hbelow
    exact ⟨_, _, hbuild c after node hmade, hnew c after node _ events hmade hresult⟩

variable {hash : UInt32} {e : Entry K V} {h : Nat}
  {below : Cell K V → Supply (Traced (Cell K V × Bool))}

/-- An entry is inserted below a child, beside or over another entry at an occupied slice. -/
theorem inserts_insertBitmap_of_has (handle : Nat) {occupied : Bitmap}
    {slots : List (Slot K V (Cell K V))} (hslots : ∀ c, Slot.child c ∈ slots → c.Below next)
    (hi : occupied.has (sliceAt (h + 1) hash) = true)
    (ih : ∀ c : Cell K V, c.Below next →
      Inserts next c (below c next) (Node.insert hash e h c.node)) :
    Inserts next (bitmap handle occupied slots)
      (insertBitmap below hash e h (bitmap handle occupied slots) occupied slots next)
      (Node.insert hash e (h + 1) (bitmap handle occupied slots).node) := by
  rw [node, slotNodes_eq_map]
  unfold insertBitmap Node.insert
  dsimp only
  rw [hi, if_pos rfl, if_pos rfl, List.getElem?_map]
  cases hget : slots[occupied.rank (sliceAt (h + 1) hash)]? with
  | none => exact rfl
  | some slot =>
    cases slot with
    | child child =>
      dsimp only [Option.map_some, Slot.map]
      have hchild := hslots child (List.mem_of_getElem? hget)
      have hmade := inserts_afterInsert (bitmap handle occupied slots) hchild
        (ih child hchild) fun c after node hmade => made_set_subtree occupied
          (occupied.rank (sliceAt (h + 1) hash)) hslots hmade
      convert hmade using 1
      cases Node.insert hash e h child.node <;> rfl
    | entry old =>
      dsimp only [Option.map_some, Slot.map]
      cases equiv e.key old.key with
      | true =>
        rw [if_pos rfl, if_pos rfl]
        cases e.value == old.value with
        | true => exact ⟨next, le_refl next, rfl⟩
        | false =>
          exact ⟨_, _, made_set_slot occupied _ hslots (le_refl next)
            (.entry { old with value := e.value }) (fun c hc => by cases hc), rfl⟩
      | false =>
        rw [if_neg Bool.false_ne_true, if_neg Bool.false_ne_true]
        cases hpair : Node.pair old hash e h with
        | error fault => exact rfl
        | ok both =>
          obtain ⟨both, events⟩ := both
          obtain ⟨c, after, hcreate, hmade⟩ := create_eq both next
          refine ⟨_, _, made_set_subtree occupied _ hslots hmade, ?_⟩
          exact (bind_supply_of_ok rfl).trans (bind_supply_of_ok hcreate)

/-- An entry gets a slot of its own at a free slice. -/
theorem inserts_insertBitmap_of_free (handle : Nat) {occupied : Bitmap}
    {slots : List (Slot K V (Cell K V))} (hslots : ∀ c, Slot.child c ∈ slots → c.Below next)
    (hi : occupied.has (sliceAt (h + 1) hash) = false) :
    Inserts next (bitmap handle occupied slots)
      (insertBitmap below hash e h (bitmap handle occupied slots) occupied slots next)
      (Node.insert hash e (h + 1) (bitmap handle occupied slots).node) := by
  rw [node, slotNodes_eq_map]
  unfold insertBitmap Node.insert
  dsimp only
  rw [hi, if_neg Bool.false_ne_true, if_neg Bool.false_ne_true, List.length_map]
  by_cases hfull : slots.length ≥ maxSlots
  · rw [if_pos hfull, if_pos hfull]
    cases h with
    | zero => exact rfl
    | succ h =>
      obtain ⟨c, after, hpromote, hmade⟩ := promote_eq occupied
        (sliceAt (h + 2) hash) hash e (h + 1) hslots
      exact ⟨c, after, hmade, bind_supply_of_ok hpromote⟩
  · rw [if_neg hfull, if_neg hfull]
    by_cases hrank : occupied.rank (sliceAt (h + 1) hash) ≤ slots.length
    · rw [if_pos hrank, if_pos hrank]
      have hstays : ∀ c, Slot.child c ∈
          slots.insertIdx (occupied.rank (sliceAt (h + 1) hash)) (.entry e) → c.Below next :=
        fun c hc => hslots c (by simpa [List.mem_insertIdx hrank] using hc)
      have hmade := made_bitmap (occupied.insert (sliceAt (h + 1) hash)) (le_refl next) hstays
      rw [List.map_insertIdx] at hmade
      exact ⟨_, _, hmade, rfl⟩
    · rw [if_neg hrank, if_neg hrank]
      exact rfl

theorem inserts_insertBitmap (handle : Nat) (occupied : Bitmap) {slots : List (Slot K V (Cell K V))}
    (hslots : ∀ c, Slot.child c ∈ slots → c.Below next)
    (ih : ∀ c : Cell K V, c.Below next →
      Inserts next c (below c next) (Node.insert hash e h c.node)) :
    Inserts next (bitmap handle occupied slots)
      (insertBitmap below hash e h (bitmap handle occupied slots) occupied slots next)
      (Node.insert hash e (h + 1) (bitmap handle occupied slots).node) := by
  cases hi : occupied.has (sliceAt (h + 1) hash) with
  | true => exact inserts_insertBitmap_of_has handle hslots hi ih
  | false => exact inserts_insertBitmap_of_free handle hslots hi

theorem inserts_insertArray (handle count : Nat) {children : List (Option (Cell K V))}
    (hchildren : ∀ c, some c ∈ children → c.Below next)
    (ih : ∀ c : Cell K V, c.Below next →
      Inserts next c (below c next) (Node.insert hash e h c.node)) :
    Inserts next (array handle count children)
      (insertArray below hash e h (array handle count children) count children next)
      (Node.insert hash e (h + 1) (array handle count children).node) := by
  rw [node, childNodes_eq_map]
  unfold insertArray Node.insert
  dsimp only
  rw [List.getElem?_map]
  cases hget : children[(sliceAt (h + 1) hash).val]? with
  | none => exact rfl
  | some child =>
    cases child with
    | none =>
      cases h with
      | zero => exact rfl
      | succ h =>
        obtain ⟨c, after, hcreate, hmade⟩ :=
          create_eq (Node.leaf (sliceAt (h + 1) hash) e) next
        exact ⟨_, _, made_set_child (count + 1) _ hchildren hmade, bind_supply_of_ok hcreate⟩
    | some child =>
      dsimp only [Option.map_some]
      have hchild := hchildren child (List.mem_of_getElem? hget)
      have hmade := inserts_afterInsert (array handle count children) hchild
        (ih child hchild) fun c after node hmade => made_set_child count
          (sliceAt (h + 1) hash).val hchildren hmade
      convert hmade using 1
      cases Node.insert hash e h child.node <;> rfl

/-- A bitmap node above a collision node with another hash makes of an entry what the collision node
makes of it: the two are joined. -/
theorem insert_wrapper {hash' : UInt32} (e : Entry K V) (entries : List (Entry K V))
    (hne : hash ≠ hash') (h : Nat) :
    Node.insert hash e (h + 1)
        (.bitmap (Bitmap.single (sliceAt (h + 1) hash')) [.child (.collision hash' entries)]) =
      Node.insert hash e (h + 1) (.collision hash' entries) := by
  rw [Node.insert_collision_of_ne hne]
  conv_lhs => unfold Node.insert
  dsimp only
  rw [Bitmap.has_single, Bitmap.rank_single]
  by_cases hs : sliceAt (h + 1) hash' = sliceAt (h + 1) hash
  · rw [Node.join, if_pos hs, hs, decide_eq_true rfl, if_pos rfl, if_neg (lt_irrefl _)]
    dsimp only [List.getElem?_cons_zero]
    rw [Node.insert_collision_of_ne hne]
    cases Node.join hash' (.child (.collision hash' entries)) hash (.entry e) h <;> rfl
  · rw [Node.join, if_neg hs, decide_eq_false hs, if_neg Bool.false_ne_true]
    have hroom : ¬ [(Slot.child (.collision hash' entries) : Slot K V (Node K V))].length ≥
        maxSlots := by simp [maxSlots]
    rw [if_neg hroom]
    by_cases hlt : sliceAt (h + 1) hash' < sliceAt (h + 1) hash
    · rw [if_pos hlt, if_pos hlt]
      rfl
    · rw [if_neg hlt, if_neg hlt]
      rfl

omit [HashEquiv K] [BEq V] in
/-- What an insertion owes to an older supply and another cell, when it keeps nothing. -/
theorem Inserts.of_join {this this' : Cell K V} {next' : Nat} {x : Except Fault (Node K V)}
    {result : Except Fault (Traced (Cell K V × Bool) × Nat)}
    (h : Inserts next this result (x.map fun node => .silent (.added node))) (hle : next' ≤ next) :
    Inserts next' this' result (x.map fun node => .silent (.added node)) := by
  cases x with
  | error fault => exact h
  | ok node =>
    obtain ⟨c, after, hmade, hresult⟩ := h
    exact ⟨c, after, hmade.of_le hle, hresult⟩

/-- **An insertion that compares handles does what the insertion into the node does.** A node that
is kept comes back as the same cell, and any other with a new handle. -/
theorem inserts_insert (h : Nat) (c : Cell K V) (hc : c.Below next) :
    Inserts next c (insert hash e h c next) (Node.insert hash e h c.node) := by
  induction h generalizing c next with
  | zero =>
    cases c with
    | bitmap handle occupied slots => exact rfl
    | array handle count children => exact rfl
    | collision handle hash' entries =>
      rw [insert, node, Node.insert]
      split
      · exact inserts_insertColliding _ next
      · exact rfl
  | succ h ih =>
    cases hc with
    | bitmap _ hslots => exact inserts_insertBitmap _ _ hslots fun c hc => ih c hc
    | array _ hchildren => exact inserts_insertArray _ _ hchildren fun c hc => ih c hc
    | @collision handle hash' entries hlt =>
      rw [insert]
      by_cases hone : hash = hash'
      · rw [if_pos hone, node, Node.insert, if_pos hone]
        exact inserts_insertColliding _ next
      · -- the collision node is put below a bitmap node with a new handle
        rw [if_neg hone]
        have hslots : ∀ c : Cell K V, (Slot.child c : Slot K V (Cell K V)) ∈
            [Slot.child (collision handle hash' entries)] → c.Below (next + 1) := by
          intro c hc
          obtain rfl := Slot.child.inj (List.mem_singleton.mp hc)
          exact .collision (Nat.lt_succ_of_lt hlt)
        have hwrapper := inserts_insertBitmap next (Bitmap.single (sliceAt (h + 1) hash')) hslots
          fun c hc => ih c hc
        have hmodel := insert_wrapper e entries hone h
        rw [node, slotNodes, slotNodes, node, hmodel, Node.insert_collision_of_ne hone] at hwrapper
        rw [node, Node.insert_collision_of_ne hone]
        exact hwrapper.of_join (Nat.le_succ next)

end Insertion

/-! ## Removal -/

/-- What a removal below a cell owes, given what it makes of the node. -/
def Erases (next : Nat) (this : Cell K V)
    (result : Except Fault (Traced (Option (Cell K V)) × Nat)) :
    Except Fault (Traced (Erasure (Node K V))) → Prop
  | .error fault => result = .error fault
  | .ok ⟨.absent, events⟩ => ∃ after, next ≤ after ∧ result = .ok (⟨some this, events⟩, after)
  | .ok ⟨.emptied, events⟩ => ∃ after, next ≤ after ∧ result = .ok (⟨none, events⟩, after)
  | .ok ⟨.removed node, events⟩ =>
    ∃ c after, Made next after node c ∧ result = .ok (⟨some c, events⟩, after)

variable {this : Cell K V}

theorem Erases.of_le {next' : Nat} {result : Except Fault (Traced (Option (Cell K V)) × Nat)}
    {model : Except Fault (Traced (Erasure (Node K V)))} (h : Erases next this result model)
    (hle : next' ≤ next) : Erases next' this result model := by
  match model with
  | .error fault => exact h
  | .ok ⟨.absent, events⟩ =>
    obtain ⟨after, hle', hresult⟩ := h
    exact ⟨after, le_trans hle hle', hresult⟩
  | .ok ⟨.emptied, events⟩ =>
    obtain ⟨after, hle', hresult⟩ := h
    exact ⟨after, le_trans hle hle', hresult⟩
  | .ok ⟨.removed node, events⟩ =>
    obtain ⟨c, after, hmade, hresult⟩ := h
    exact ⟨c, after, hmade.of_le hle, hresult⟩

/-- Earlier events change nothing else about what a removal owes. -/
theorem Erases.append {x : Supply (Traced (Option (Cell K V)))}
    {model : Except Fault (Traced (Erasure (Node K V)))} (h : Erases next this (x next) model)
    (events : List Event) :
    Erases next this ((do let t ← x; return ⟨t.outcome, events ++ t.events⟩ : Supply _) next)
      (model.map fun t => ⟨t.outcome, events ++ t.events⟩) := by
  match model with
  | .error fault => exact bind_supply_of_error h
  | .ok ⟨.absent, _⟩ =>
    obtain ⟨after, hle, hresult⟩ := h
    exact ⟨after, hle, bind_supply_of_ok hresult⟩
  | .ok ⟨.emptied, _⟩ =>
    obtain ⟨after, hle, hresult⟩ := h
    exact ⟨after, hle, bind_supply_of_ok hresult⟩
  | .ok ⟨.removed node, _⟩ =>
    obtain ⟨c, after, hmade, hresult⟩ := h
    exact ⟨c, after, hmade, bind_supply_of_ok hresult⟩

theorem erases_eraseColliding (probe : Probe K) (hash : UInt32) (entries : List (Entry K V))
    (this : Cell K V) (next : Nat) :
    Erases next this ((Traced.silent <$> eraseColliding probe this hash entries) next)
      (.ok (.silent (Node.eraseColliding probe hash entries))) := by
  unfold eraseColliding Node.eraseColliding
  cases entries.findIdx? fun e => probe.accepts e.key with
  | none => exact ⟨next, le_refl next, rfl⟩
  | some n =>
    dsimp only
    split
    · exact ⟨next, le_refl next, rfl⟩
    · exact ⟨_, _, made_collision (le_refl next), rfl⟩

theorem erases_dropSlot (occupied : Bitmap) {slots : List (Slot K V (Cell K V))} (i : Fin 32)
    (hslots : ∀ c, Slot.child c ∈ slots → c.Below next) :
    Erases next this ((Traced.silent <$> dropSlot occupied slots i) next)
      (.ok (.silent (Node.dropSlot occupied (slots.map (Slot.map Cell.node)) i))) := by
  unfold dropSlot Node.dropSlot
  split
  · exact ⟨next, le_refl next, rfl⟩
  · have hstays : ∀ c, Slot.child c ∈ slots.eraseIdx (occupied.rank i) → c.Below next :=
      fun c hc => hslots c (List.mem_of_mem_eraseIdx hc)
    have hmade := made_bitmap (occupied.toggle i) (le_refl next) hstays
    rw [← List.eraseIdx_map] at hmade
    exact ⟨_, _, hmade, rfl⟩

theorem occupiedChildren_map_node (children : List (Option (Cell K V))) :
    Node.occupiedChildren (children.map (Option.map Cell.node)) =
      (occupiedChildren children).map fun place => (place.1, place.2.node) := by
  unfold Node.occupiedChildren occupiedChildren
  rw [List.zip_map_right, List.filterMap_map, List.map_filterMap]
  congr 1
  funext ⟨i, child⟩
  cases child <;> rfl

theorem pack_eq {children : List (Option (Cell K V))}
    (hchildren : ∀ c, some c ∈ children → c.Below next) :
    ∃ c after, pack children next = .ok (c, after) ∧
      Made next after (Node.pack (children.map (Option.map Cell.node))) c := by
  have hstays : ∀ c, Slot.child c ∈
      (occupiedChildren children).map (fun place => (Slot.child place.2 : Slot K V (Cell K V))) →
      c.Below next := by
    intro c hc
    obtain ⟨⟨i, d⟩, hplace, heq⟩ := List.mem_map.mp hc
    obtain rfl := Slot.child.inj heq
    obtain ⟨⟨j, child⟩, hzip, hchild⟩ := List.mem_filterMap.mp hplace
    obtain ⟨d', rfl, heq⟩ := Option.map_eq_some_iff.mp hchild
    obtain ⟨-, rfl⟩ := Prod.mk.inj heq
    exact hchildren d' (List.of_mem_zip hzip).2
  have hmade := made_bitmap
    (Bitmap.ofSlices ((occupiedChildren children).map (·.1))) (le_refl next) hstays
  refine ⟨_, _, rfl, ?_⟩
  rw [Node.pack, occupiedChildren_map_node, List.map_map, List.map_map]
  rwa [List.map_map] at hmade

theorem erases_dropChild (count : Nat) {children : List (Option (Cell K V))} (i : Fin 32)
    (hchildren : ∀ c, some c ∈ children → c.Below next) :
    Erases next this (dropChild count children i next)
      (Node.dropChild count (children.map (Option.map Cell.node)) i) := by
  cases count with
  | zero => exact rfl
  | succ rest =>
    have hleft : ∀ c, some c ∈ children.set i none → c.Below next :=
      forall_some_set i.val hchildren fun c hc => by cases hc
    have hset : (children.map (Option.map Cell.node)).set i none =
        (children.set i none).map (Option.map Cell.node) := by
      rw [List.map_set, Option.map_none]
    rw [dropChild, Node.dropChild, hset]
    split
    · obtain ⟨c, after, hpack, hmade⟩ := pack_eq hleft
      rw [occupiedChildren_map_node, List.length_map]
      exact ⟨c, after, hmade, bind_supply_of_ok hpack⟩
    · exact ⟨_, _, made_array rest (le_refl next) hleft, rfl⟩

/-- The comparison of handles tells what a removal below a child has made of it. -/
theorem erases_afterErase (this : Cell K V) {child : Cell K V} {build : Nat → Cell K V → Cell K V}
    {f : Node K V → Node K V} {x drop : Supply (Traced (Option (Cell K V)))}
    {model dropped : Except Fault (Traced (Erasure (Node K V)))} (hchild : child.Below next)
    (hx : Erases next child (x next) model)
    (hbuild : ∀ c after node, Made next after node c →
      Made next (after + 1) (f node) (build after c))
    (hdrop : ∀ after, next ≤ after → Erases after this (drop after) dropped) :
    Erases next this ((x >>= afterErase this child build drop) next)
      (model.bind fun change =>
        match change.outcome with
        | .absent => .ok ⟨.absent, change.events⟩
        | .emptied => dropped.map fun t => ⟨t.outcome, change.events ++ t.events⟩
        | .removed node => .ok ⟨.removed (f node), change.events⟩) := by
  match model with
  | .error fault => exact bind_supply_of_error hx
  | .ok ⟨.absent, events⟩ =>
    obtain ⟨after, hle, hresult⟩ := hx
    refine ⟨after, hle, ?_⟩
    rw [bind_supply_of_ok hresult, afterErase]
    dsimp only
    rw [same_self, if_pos rfl]
    rfl
  | .ok ⟨.emptied, events⟩ =>
    obtain ⟨after, hle, hresult⟩ := hx
    rw [bind_supply_of_ok hresult]
    exact ((hdrop after hle).append events).of_le hle
  | .ok ⟨.removed node, events⟩ =>
    obtain ⟨c, after, hmade, hresult⟩ := hx
    refine ⟨_, _, hbuild c after node hmade, ?_⟩
    rw [bind_supply_of_ok hresult, afterErase]
    dsimp only
    rw [hmade.same_eq_false hchild, if_neg Bool.false_ne_true]
    rfl

section Step

variable {probe : Probe K} {h : Nat} (ih : ∀ c : Cell K V, c.Below next →
  Erases next c (erase probe h c next) (Node.erase probe h c.node))

include ih

theorem erases_bitmap (handle : Nat) (occupied : Bitmap) {slots : List (Slot K V (Cell K V))}
    (hslots : ∀ c, Slot.child c ∈ slots → c.Below next) :
    Erases next (bitmap handle occupied slots)
      (erase probe (h + 1) (bitmap handle occupied slots) next)
      (Node.erase probe (h + 1) (bitmap handle occupied slots).node) := by
  rw [node, slotNodes_eq_map]
  unfold erase Node.erase
  dsimp only
  cases hi : occupied.has (sliceAt (h + 1) probe.hash) with
  | false => exact ⟨next, le_refl next, rfl⟩
  | true =>
    rw [if_pos rfl, if_pos rfl, List.getElem?_map]
    cases hget : slots[occupied.rank (sliceAt (h + 1) probe.hash)]? with
    | none => exact rfl
    | some slot =>
      cases slot with
      | entry e =>
        dsimp only [Option.map_some, Slot.map]
        cases probe.accepts e.key with
        | true => exact erases_dropSlot occupied _ hslots
        | false => exact ⟨next, le_refl next, rfl⟩
      | child child =>
        dsimp only [Option.map_some, Slot.map]
        have hchild := hslots child (List.mem_of_getElem? hget)
        have hmade := erases_afterErase (bitmap handle occupied slots) hchild (ih child hchild)
          (fun c after node hmade => made_set_subtree occupied
            (occupied.rank (sliceAt (h + 1) probe.hash)) hslots hmade)
          (fun after hle => erases_dropSlot occupied (sliceAt (h + 1) probe.hash)
            fun c hc => (hslots c hc).mono hle)
        convert hmade using 1
        rcases Node.erase probe h child.node with fault | ⟨change, events⟩
        · rfl
        · cases change <;> simp [bind, Except.bind, Except.map, Traced.map, Traced.silent]

theorem erases_array (handle count : Nat) {children : List (Option (Cell K V))}
    (hchildren : ∀ c, some c ∈ children → c.Below next) :
    Erases next (array handle count children)
      (erase probe (h + 1) (array handle count children) next)
      (Node.erase probe (h + 1) (array handle count children).node) := by
  rw [node, childNodes_eq_map]
  unfold erase Node.erase
  dsimp only
  rw [List.getElem?_map]
  cases hget : children[(sliceAt (h + 1) probe.hash).val]? with
  | none => exact rfl
  | some child =>
    cases child with
    | none => exact ⟨next, le_refl next, rfl⟩
    | some child =>
      dsimp only [Option.map_some]
      have hchild := hchildren child (List.mem_of_getElem? hget)
      have hmade := erases_afterErase (array handle count children) hchild (ih child hchild)
        (fun c after node hmade => made_set_child count (sliceAt (h + 1) probe.hash).val
          hchildren hmade)
        (fun after hle => erases_dropChild count (sliceAt (h + 1) probe.hash)
          fun c hc => (hchildren c hc).mono hle)
      convert hmade using 1
      rcases Node.erase probe h child.node with fault | ⟨change, events⟩
      · rfl
      · cases change <;> rfl

end Step

/-- **A removal that compares handles does what the removal from the node does.** A node that is
left as it is comes back as the same cell, and any other with a new handle. -/
theorem erases_erase (probe : Probe K) (h : Nat) (c : Cell K V) (hc : c.Below next) :
    Erases next c (erase probe h c next) (Node.erase probe h c.node) := by
  induction h generalizing c next with
  | zero =>
    cases hc with
    | bitmap => exact rfl
    | array => exact rfl
    | collision => exact erases_eraseColliding probe _ _ _ next
  | succ h ih =>
    cases hc with
    | collision => exact erases_eraseColliding probe _ _ _ next
    | bitmap _ hslots => exact erases_bitmap (fun c hc => ih c hc) _ _ hslots
    | array _ hchildren => exact erases_array (fun c hc => ih c hc) _ _ hchildren

end Cell

end HashTrie
