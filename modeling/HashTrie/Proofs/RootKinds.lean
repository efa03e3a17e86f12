import HashTrie.Proofs.Ledgers
import Mathlib.Data.Finset.Card

/-!
# The kind of the root

The slots or children of a root are as many as the slices that the stored keys have there
(`WellFormed.card_rootSlices`). With up to 8 of them the root is a bitmap node, and with 17 or more
an array node. In between it is what it was before: a bitmap node becomes an array node only when it
gets a 17th slot, and an array node a bitmap node only when it is left with 8 children (`RootKind`).
-/

namespace HashTrie

variable {K V : Type} [HashEquiv K]

/-- The slices that the stored keys have at the root. -/
def Map.rootSlices (m : Map K V) : Finset UInt32 :=
  (m.toList.map fun e => HashEquiv.hash e.key &&& 31).toFinset

/-- The slice at the root is the lowest five bits of the hash. -/
theorem and_31_eq (hash : UInt32) : hash &&& 31 = UInt32.ofNat (sliceAt rootHeight hash).val := by
  apply UInt32.toNat_inj.mp
  have hlt : hash.toNat % 32 < 2 ^ 32 := lt_trans (Nat.mod_lt _ (by decide)) (by decide)
  have hslice : (sliceAt rootHeight hash).val = hash.toNat % 32 := rfl
  rw [hslice, UInt32.toNat_ofNat_of_lt' hlt, UInt32.toNat_and]
  exact Nat.and_two_pow_sub_one_eq_mod hash.toNat 5

theorem ofNat_val_injective : Function.Injective fun i : Fin 32 => UInt32.ofNat i.val := by
  intro i j hij
  have hval := congrArg UInt32.toNat hij
  simp only [UInt32.toNat_ofNat'] at hval
  omega

/-! ## Slots by slice -/

namespace Node

variable {h : Nat} {node : Node K V}

/-- A well-formed node has as many slots or children as slices at which something stands. -/
theorem WellFormed.arity_eq_countP (hw : node.WellFormed (h + 1)) (hb : node.Branches) :
    node.arity = (List.finRange 32).countP fun i => (node.slotAt i).isSome := by
  cases node with
  | bitmap occupied slots =>
    rw [arity, hw.length_slots, Bitmap.popCount_eq_countP]
    exact List.countP_congr fun i _ => by rw [hw.has_eq_isSome i]
  | array count children =>
    obtain ⟨-, -, hlen, -, hcount, -⟩ := hw.array_parts
    exact hcount.trans ((length_filterMap_slotAt hlen).symm.trans List.length_filterMap_eq_countP)
  | collision => exact absurd hb id

/-- Something stands at a slice when some key has it. -/
theorem WellFormed.isSome_slotAt_iff (hw : node.WellFormed (h + 1)) (hb : node.Branches)
    (i : Fin 32) :
    (node.slotAt i).isSome ↔ ∃ e ∈ node.toList, sliceAt (h + 1) (HashEquiv.hash e.key) = i := by
  constructor
  · intro hi
    obtain ⟨s, hs⟩ := Option.isSome_iff_exists.mp hi
    obtain ⟨e, he⟩ := hw.exists_mem_toList hs
    exact ⟨e, hw.mem_toList_of_slotAt hb hs he, (hw.fits hs).routed e he⟩
  · rintro ⟨e, he, rfl⟩
    rw [hw.toList_eq hb] at he
    obtain ⟨j, -, hj⟩ := List.mem_flatMap.mp he
    rw [hw.routed_entriesAt j e hj]
    rw [entriesAt] at hj
    cases hs : node.slotAt j with
    | none =>
      rw [hs] at hj
      cases hj
    | some s => rfl

/-- A well-formed bitmap node has 1 to 16 slots. -/
theorem WellFormed.arity_of_not_isArray (hw : node.WellFormed (h + 1)) (hb : node.Branches)
    (hkind : node.isArray = false) : 1 ≤ node.arity ∧ node.arity ≤ 16 := by
  cases node with
  | bitmap occupied slots =>
    obtain ⟨-, hne, hmax, -⟩ := hw.bitmap_parts
    exact ⟨List.length_pos_of_ne_nil hne, hmax⟩
  | array => cases hkind
  | collision => exact absurd hb id

/-- A well-formed array node has more than 8 children. -/
theorem WellFormed.arity_of_isArray (hw : node.WellFormed (h + 1)) (hkind : node.isArray = true) :
    8 < node.arity := by
  cases node with
  | array => exact hw.minChildren_lt
  | bitmap => cases hkind
  | collision => cases hkind

/-- The lowest five bits of the hashes in a root are the slices at which something stands. -/
theorem WellFormed.toFinset_map_and_31 (hw : node.WellFormed rootHeight) (hb : node.Branches) :
    (node.toList.map fun e => HashEquiv.hash e.key &&& 31).toFinset =
      (((List.finRange 32).filter fun i => (node.slotAt i).isSome).map
        fun i => UInt32.ofNat i.val).toFinset := by
  ext x
  simp only [List.mem_toFinset, List.mem_map, List.mem_filter, and_31_eq]
  constructor
  · rintro ⟨e, he, rfl⟩
    exact ⟨_, ⟨List.mem_finRange _, (hw.isSome_slotAt_iff hb _).mpr ⟨e, he, rfl⟩⟩, rfl⟩
  · rintro ⟨i, ⟨-, hi⟩, rfl⟩
    obtain ⟨e, he, rfl⟩ := (hw.isSome_slotAt_iff hb i).mp hi
    exact ⟨e, he, rfl⟩

theorem WellFormed.branches_root (hw : node.WellFormed rootHeight) : node.Branches := by
  cases node with
  | collision => exact absurd hw.collision_parts.1 (lt_irrefl _)
  | bitmap => trivial
  | array => trivial

end Node

/-! ## Maps -/

/-- How many slots or children a root of a kind may have. -/
def Shape.Allows : Shape → Nat → Prop
  | .empty, n => n = 0
  | .node, n => 1 ≤ n ∧ n ≤ 16
  | .array, n => 8 < n

section Allows

variable {kind : Shape} {n : Nat}

theorem Shape.Allows.eq_empty (h : kind.Allows n) (hzero : n = 0) : kind = .empty := by
  cases kind with
  | empty => rfl
  | node => exact absurd h.1 (by omega)
  | array => exact absurd h (by simp [Allows, hzero])

theorem Shape.Allows.eq_node (h : kind.Allows n) (hmin : 1 ≤ n) (hmax : n ≤ 8) : kind = .node := by
  cases kind with
  | node => rfl
  | empty => exact absurd h (Nat.ne_of_gt hmin)
  | array => exact absurd h (Nat.not_lt_of_le hmax)

theorem Shape.Allows.eq_array (h : kind.Allows n) (hmin : 17 ≤ n) : kind = .array := by
  cases kind with
  | array => rfl
  | empty => exact absurd h (Nat.ne_of_gt (by omega))
  | node => exact absurd h.2 (by omega)

end Allows

namespace Map

variable {m m' : Map K V}

/-- **The slices of the keys at the root are the slots or children of the root.** -/
theorem WellFormed.card_rootSlices (hw : m.WellFormed) : m.rootSlices.card = m.arity := by
  rw [rootSlices]
  cases hr : m.root with
  | none =>
    rw [toList_of_root_eq_none hr, arity_of_root_eq_none hr]
    rfl
  | some root =>
    have hnode := hw.root_node hr
    have hb := hnode.branches_root
    have hnodup : (((List.finRange 32).filter fun i => (root.node.slotAt i).isSome).map
        fun i => UInt32.ofNat i.val).Nodup :=
      ((List.nodup_finRange 32).filter _).map ofNat_val_injective
    rw [toList_of_root_eq_some hr, arity_of_root_eq_some hr, hnode.toFinset_map_and_31 hb,
      List.toFinset_card_of_nodup hnodup, List.length_map, hnode.arity_eq_countP hb,
      List.countP_eq_length_filter]

theorem WellFormed.allows_shape (hw : m.WellFormed) : m.shape.Allows m.rootSlices.card := by
  have hcard := hw.card_rootSlices
  cases hr : m.root with
  | none =>
    rw [shape_of_root_eq_none hr, hcard, arity_of_root_eq_none hr]
    rfl
  | some root =>
    have hnode := hw.root_node hr
    rw [hcard, arity_of_root_eq_some hr]
    cases hkind : root.node.isArray with
    | false =>
      rw [shape_eq_node hr hkind]
      exact hnode.arity_of_not_isArray hnode.branches_root hkind
    | true =>
      rw [shape_eq_array hr hkind]
      exact hnode.arity_of_isArray hkind

/-- What the kind of the root is after a step, by the number of slices that the keys have there, and
what the step records. -/
structure RootKind (m m' : Map K V) (events : List Event) : Prop where
  empty : m'.rootSlices.card = 0 → m'.nestedIter.shape = .empty
  node : 1 ≤ m'.rootSlices.card → m'.rootSlices.card ≤ 8 → m'.nestedIter.shape = .node
  stays : 9 ≤ m'.rootSlices.card → m'.rootSlices.card ≤ 16 →
    m'.nestedIter.shape = m.nestedIter.shape
  array : 17 ≤ m'.rootSlices.card → m'.nestedIter.shape = .array
  /-- A promotion of the root is recorded when it turns from a bitmap node to an array node. -/
  promoted_iff : (∃ children, .promoted 0 children ∈ events) ↔
    m.nestedIter.shape = .node ∧ m'.nestedIter.shape = .array

theorem shiftAt_pos {k : Nat} (hk : k < rootHeight) : 0 < shiftAt k := by
  simp only [shiftAt, rootHeight] at hk ⊢
  omega

/-- With 9 to 16 slices at the root a step leaves its kind as it is. -/
theorem Stepped.shape_eq {s : Step K V} {events : List Event} (hs : Stepped m m' s events)
    (hw : m'.WellFormed) (hmin : 9 ≤ m'.rootSlices.card) (hmax : m'.rootSlices.card ≤ 16) :
    m'.shape = m.shape := by
  rw [hw.card_rootSlices] at hmin hmax
  cases hs with
  | silent hshape => exact hshape
  | first _ harity => omega
  | last hroot => rw [arity_of_root_eq_none hroot] at hmin; omega
  | collided hshape => exact hshape
  | promoted _ _ harity => simp only [maxSlots] at harity; omega
  | promotedBelow _ _ hshape => exact hshape
  | packed _ _ harity => simp only [minChildren] at harity; omega
  | packedBelow hshape => exact hshape

/-- A step records a promotion of the root when it turns the root from a bitmap node to an array
node. -/
theorem Stepped.promoted_iff {s : Step K V} {events : List Event} (hs : Stepped m m' s events) :
    (∃ children, .promoted 0 children ∈ events) ↔ m.shape = .node ∧ m'.shape = .array := by
  have hstays (hshape : m'.shape = m.shape) : ¬ (m.shape = .node ∧ m'.shape = .array) := by
    rintro ⟨hbefore, hafter⟩
    rw [hshape, hbefore] at hafter
    cases hafter
  cases hs with
  | silent hshape => simpa using hstays hshape
  | first hshape => simp [hshape]
  | last hroot => simp [shape_of_root_eq_none hroot]
  | collided hshape => simpa using hstays hshape
  | promoted hbefore hafter => simp [hbefore, hafter, shiftAt]
  | promotedBelow _ hlt hshape =>
    have hne : 0 ≠ shiftAt _ := ne_of_lt (shiftAt_pos hlt)
    simpa [hne] using hstays hshape
  | packed _ hafter => simp [hafter]
  | packedBelow hshape => simpa using hstays hshape

theorem Stepped.rootKind {s : Step K V} {events : List Event} (hs : Stepped m m' s events)
    (hw : m'.WellFormed) : RootKind m m' events where
  empty hzero := (shape_nestedIter m').trans (hw.allows_shape.eq_empty hzero)
  node hmin hmax := (shape_nestedIter m').trans (hw.allows_shape.eq_node hmin hmax)
  stays hmin hmax := by
    rw [shape_nestedIter, shape_nestedIter]
    exact hs.shape_eq hw hmin hmax
  array hmin := (shape_nestedIter m').trans (hw.allows_shape.eq_array hmin)
  promoted_iff := by
    rw [shape_nestedIter, shape_nestedIter]
    exact hs.promoted_iff

end Map

/-- **The kind of the root along a run.** -/
theorem rootKind_run [BEq V] (steps : List (Map.Step K V)) (s : Map.Step K V) :
    ∃ events, (Map.run (steps ++ [s])).2.events = (Map.run steps).2.events ++ events ∧
      Map.RootKind (Map.run steps).1 (Map.run (steps ++ [s])).1 events := by
  obtain ⟨events, hevents, hs⟩ := Map.exists_stepped_run steps s
  exact ⟨events, hevents, hs.rootKind (Map.wellFormed_balanced_run (steps ++ [s])).1⟩

end HashTrie
