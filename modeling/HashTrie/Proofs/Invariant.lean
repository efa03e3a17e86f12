import HashTrie.Proofs.Runs
import HashTrie.Proofs.Updates
import HashTrie.Value.Scalar

/-!
# The trie of a map

What holds of every subtree of every map that can be made, whatever the keys' hash and equivalence
are (`trieInvariant_of_reachable`). A subtree is given by the path of slices that leads to it, and
the length of the path is its depth: a node at depth `d` reads the five bits from bit `5 * d` on.
-/

namespace HashTrie

variable {K V : Type}

/-- The entry in a slot. -/
def Slot.entry? : Slot K V (Node K V) → Option (Entry K V)
  | .entry e => some e
  | .child _ => none

namespace Node

/-- The subtree that a path of slices leads to. -/
def descend? : Node K V → List (Fin 32) → Option (Node K V)
  | node, [] => some node
  | node, i :: path =>
    match node.slotAt i with
    | some (.child child) => child.descend? path
    | _ => none

/-- The entries that stand in a node itself. -/
def ownEntries : Node K V → List (Entry K V)
  | .bitmap _ slots => slots.filterMap Slot.entry?
  | .array .. => []
  | .collision _ entries => entries

/-- What a node is at a depth. -/
def Shape [HashEquiv K] (depth : Nat) : Node K V → Prop
  | .bitmap occupied slots =>
    depth ≤ 6 ∧ 1 ≤ slots.length ∧ slots.length ≤ 16 ∧ slots.length = occupied.popCount
  | .array count children =>
    depth ≤ 5 ∧ children.length = 32 ∧ count = (children.filter Option.isSome).length ∧
      9 ≤ count ∧ count ≤ 32
  | .collision hash entries =>
    1 ≤ depth ∧ depth ≤ 7 ∧ entries ≠ [] ∧ ∀ e ∈ entries, HashEquiv.hash e.key = hash

end Node

/-- The subtree of a map that a path of slices leads to. -/
def Map.subtree? (m : Map K V) (path : List (Fin 32)) : Option (Node K V) :=
  m.node?.bind fun root => root.descend? path

/-- What the trie of a map, and its count, owe. -/
structure TrieInvariant [HashEquiv K] (m : Map K V) : Prop where
  /-- The count is the number of entries below the root. -/
  count_eq : m.count = (m.node?.elim [] Node.toList).length
  /-- A map without entries has no root. -/
  root_eq_none_iff : m.root = none ↔ m.count = 0
  /-- Each node has the shape of its kind. -/
  shape : ∀ path node, m.subtree? path = some node → node.Shape path.length
  /-- No subtree is empty. -/
  nonempty : ∀ path node, m.subtree? path = some node → node.toList ≠ []
  /-- What is stored at a slice of a node at depth `d` has this slice from bit `5 * d` on. -/
  routed : ∀ path node i s, m.subtree? path = some node → node.slotAt i = some s →
    ∀ e ∈ s.toList, ((HashEquiv.hash e.key).toNat >>> (5 * path.length)) % 32 = i.val
  /-- Entries with one hash stand in one node. -/
  together : ∀ path path' node node' e e',
    m.subtree? path = some node → m.subtree? path' = some node' →
    e ∈ node.ownEntries → e' ∈ node'.ownEntries →
    HashEquiv.hash e.key = HashEquiv.hash e'.key → path = path'

namespace Node

variable {node n : Node K V} {path : List (Fin 32)} {i : Fin 32} {h : Nat}

/-! ## Descending -/

theorem descend?_cons :
    node.descend? (i :: path) = some n ↔
      ∃ child, node.slotAt i = some (.child child) ∧ child.descend? path = some n := by
  rw [descend?]
  split
  · next child hs => simp [hs]
  · next hne =>
    constructor
    · intro hnone
      cases hnone
    · rintro ⟨child, hs, -⟩
      exact absurd hs (hne child)

theorem branches_of_slotAt {s : Slot K V (Node K V)} (hs : node.slotAt i = some s) :
    node.Branches := by
  cases node with
  | collision => cases hs
  | _ => trivial

theorem mem_toList_of_mem_ownEntries {e : Entry K V} (he : e ∈ node.ownEntries) :
    e ∈ node.toList := by
  cases node with
  | bitmap occupied slots =>
    obtain ⟨s, hs, hse⟩ := List.mem_filterMap.mp he
    rw [toList, slotEntries_eq_flatMap]
    refine List.mem_flatMap.mpr ⟨s, hs, ?_⟩
    cases s with
    | entry e' => exact List.mem_singleton.mpr (Option.some.inj hse).symm
    | child => cases hse
  | array => cases he
  | collision hash entries => rwa [toList]

variable [HashEquiv K]

/-- A subtree is well formed at the height that is left. -/
theorem wellFormed_descend? (hw : node.WellFormed h) (hd : node.descend? path = some n) :
    path.length ≤ h ∧ n.WellFormed (h - path.length) := by
  induction path generalizing node h with
  | nil =>
    obtain rfl := Option.some.inj hd
    exact ⟨Nat.zero_le h, hw⟩
  | cons i path ih =>
    obtain ⟨child, hs, hd⟩ := descend?_cons.mp hd
    obtain ⟨h, rfl⟩ := hw.exists_height_eq (branches_of_slotAt hs)
    obtain ⟨hle, hw'⟩ := ih (hw.fits hs).1 hd
    rw [List.length_cons, Nat.add_sub_add_right]
    exact ⟨Nat.succ_le_succ hle, hw'⟩

theorem shape_of_wellFormed {depth : Nat} (hd : depth ≤ rootHeight)
    (hw : node.WellFormed (rootHeight - depth)) : node.Shape depth := by
  cases hh : rootHeight - depth with
  | zero =>
    rw [hh] at hw
    cases node with
    | collision hash entries =>
      obtain ⟨-, hne, hhash⟩ := hw.collision_parts
      have hdepth : depth = 7 := by unfold rootHeight at *; omega
      exact ⟨by omega, by omega, hne, hhash⟩
    | _ => exact absurd trivial (not_wellFormed_zero hw)
  | succ h =>
    rw [hh] at hw
    unfold rootHeight at hd hh
    cases node with
    | bitmap occupied slots =>
      obtain ⟨-, hne, hmax, hlen, -⟩ := hw.bitmap_parts
      exact ⟨by omega, List.length_pos_of_ne_nil hne, hmax, hlen⟩
    | array count children =>
      obtain ⟨-, hpos, hlen, hmin, hnum, -⟩ := hw.array_parts
      have hle := List.length_filter_le Option.isSome children
      unfold minChildren at hmin
      exact ⟨by omega, hlen, hnum, by omega, by omega⟩
    | collision hash entries =>
      obtain ⟨hlt, hne, hhash⟩ := hw.collision_parts
      unfold rootHeight at hlt
      exact ⟨by omega, by omega, hne, hhash⟩

theorem mem_toList_of_descend? (hw : node.WellFormed h) (hd : node.descend? path = some n)
    {e : Entry K V} (he : e ∈ n.toList) : e ∈ node.toList := by
  induction path generalizing node h with
  | nil =>
    obtain rfl := Option.some.inj hd
    exact he
  | cons i path ih =>
    obtain ⟨child, hs, hd⟩ := descend?_cons.mp hd
    have hb := branches_of_slotAt hs
    obtain ⟨h, rfl⟩ := hw.exists_height_eq hb
    exact hw.mem_toList_of_slotAt hb hs (ih (hw.fits hs).1 hd)

/-! ## The node of a hash -/

/-- The path along which a hash is followed. -/
def way {K V : Type} (hash : UInt32) : Nat → Node K V → List (Fin 32)
  | 0, _ => []
  | h + 1, node =>
    match node.slotAt (sliceAt (h + 1) hash) with
    | some (.child child) => sliceAt (h + 1) hash :: way hash h child
    | _ => []

/-- An entry in a branching node itself stands at its slice. -/
theorem slotAt_of_mem_ownEntries (hw : node.WellFormed (h + 1)) (hb : node.Branches)
    {e : Entry K V} (he : e ∈ node.ownEntries) :
    node.slotAt (sliceAt (h + 1) (HashEquiv.hash e.key)) = some (.entry e) := by
  cases node with
  | bitmap occupied slots =>
    obtain ⟨s, hs, hse⟩ := List.mem_filterMap.mp he
    cases s with
    | child => cases hse
    | entry e' =>
      obtain rfl := Option.some.inj hse
      rw [← Bitmap.filterMap_lookup hw.length_slots] at hs
      obtain ⟨i, -, hi⟩ := List.mem_filterMap.mp hs
      have hfits : sliceAt (h + 1) (HashEquiv.hash e'.key) = i := hw.fits (i := i) hi
      rw [hfits]
      exact hi
  | array => cases he
  | collision => exact absurd hb id

/-- **The hash of an entry says in which node it stands.** -/
theorem eq_way_of_mem_ownEntries (hw : node.WellFormed h) (hd : node.descend? path = some n)
    {e : Entry K V} (he : e ∈ n.ownEntries) : path = way (HashEquiv.hash e.key) h node := by
  induction path generalizing node h with
  | nil =>
    obtain rfl := Option.some.inj hd
    cases h with
    | zero => rfl
    | succ h =>
      cases node with
      | collision => rfl
      | _ => simp [way, slotAt_of_mem_ownEntries hw trivial he]
  | cons i path ih =>
    obtain ⟨child, hs, hd⟩ := descend?_cons.mp hd
    obtain ⟨h, rfl⟩ := hw.exists_height_eq (branches_of_slotAt hs)
    obtain ⟨hwchild, hrouted⟩ := hw.fits hs
    have hin : e ∈ child.toList :=
      mem_toList_of_descend? hwchild hd (mem_toList_of_mem_ownEntries he)
    have hslice : sliceAt (h + 1) (HashEquiv.hash e.key) = i := hrouted e hin
    rw [way, hslice, hs]
    exact congrArg (i :: ·) (ih hwchild hd)

end Node

namespace Map

variable [HashEquiv K] {m : Map K V} {path : List (Fin 32)} {node : Node K V}

theorem WellFormed.subtree? (hw : m.WellFormed) (hs : m.subtree? path = some node) :
    ∃ root, m.node? = some root ∧ root.WellFormed rootHeight ∧ root.descend? path = some node := by
  unfold Map.subtree? node? at *
  cases hr : m.root with
  | none => simp [hr] at hs
  | some root =>
    rw [hr] at hs
    exact ⟨root.node, rfl, hw.root_node hr, hs⟩

end Map

theorem trieInvariant_of_wellFormed [HashEquiv K] {m : Map K V} (hw : m.WellFormed) :
    TrieInvariant m where
  count_eq := by
    rw [hw.count_eq, Map.toList_eq]
    cases m.node? <;> rfl
  root_eq_none_iff := hw.root_eq_none_iff
  shape path node hs := by
    obtain ⟨root, -, hroot, hd⟩ := hw.subtree? hs
    obtain ⟨hle, hnode⟩ := Node.wellFormed_descend? hroot hd
    exact Node.shape_of_wellFormed hle hnode
  nonempty path node hs := by
    obtain ⟨root, -, hroot, hd⟩ := hw.subtree? hs
    exact (Node.wellFormed_descend? hroot hd).2.toList_ne_nil
  routed path node i s hs hslot e he := by
    obtain ⟨root, -, hroot, hd⟩ := hw.subtree? hs
    obtain ⟨hle, hnode⟩ := Node.wellFormed_descend? hroot hd
    obtain ⟨h, hh⟩ := hnode.exists_height_eq (Node.branches_of_slotAt hslot)
    rw [hh] at hnode
    have hslice := (hnode.fits hslot).routed e he
    have hshift : shiftAt (h + 1) = 5 * path.length := by
      unfold shiftAt rootHeight at *
      omega
    rw [← hshift, ← hslice]
    rfl
  together path path' node node' e e' hs hs' he he' hhash := by
    obtain ⟨root, hr, hroot, hd⟩ := hw.subtree? hs
    obtain ⟨root', hr', -, hd'⟩ := hw.subtree? hs'
    obtain rfl := Option.some.inj (hr.symm.trans hr')
    rw [Node.eq_way_of_mem_ownEntries hroot hd he, Node.eq_way_of_mem_ownEntries hroot hd' he',
      hhash]

/-- **The trie invariant.** Whatever the hash and the equivalence of the keys are, it holds of every
map that can be made. -/
theorem trieInvariant_of_reachable [HashEquiv K] [BEq V] [HashEquiv V] {m : Map K V}
    (hm : m.Reachable) : TrieInvariant m :=
  trieInvariant_of_wellFormed hm.wellFormed

/-- A map with two keys of one hash, and a third key whose hash differs in the last slice only. -/
def deepMap : Map Scalar Scalar :=
  Map.ofEdits [.insert ⟨.pinned 1 0 0, .nil⟩, .insert ⟨.pinned 2 0 0, .nil⟩,
    .insert ⟨.pinned 3 0xc0000000 0, .nil⟩]

/-- The last branching node of the deep map reads the two top bits, and has below it, where no slice
is left, the node of the two keys with one hash. -/
theorem trieInvariant_deepMap :
    deepMap.Reachable ∧ TrieInvariant deepMap ∧
      deepMap.subtree? (List.replicate 6 0) = some (.bitmap 9
        [.child (.collision 0 [⟨.pinned 1 0 0, .nil⟩, ⟨.pinned 2 0 0, .nil⟩]),
          .entry ⟨.pinned 3 0xc0000000 0, .nil⟩]) ∧
      deepMap.subtree? (List.replicate 7 0) =
        some (.collision 0 [⟨.pinned 1 0 0, .nil⟩, ⟨.pinned 2 0 0, .nil⟩]) :=
  ⟨Map.reachable_ofEdits _, trieInvariant_of_reachable (Map.reachable_ofEdits _), rfl, rfl⟩

end HashTrie
