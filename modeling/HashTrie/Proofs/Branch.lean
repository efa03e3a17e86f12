import HashTrie.Proofs.Occupancy
import HashTrie.Proofs.Slices
import HashTrie.Trie.WellFormed

/-!
# Branching nodes by slice

Bitmap and array nodes both assign at most one slot to each of the 32 slices: `Node.slotAt`, with
`Node.entriesAt` for the entries in and below that slot. A well-formed branching node is the list of
its `entriesAt` in the order of the slices (`WellFormed.toList_eq`), and each of its slots fits its
slice (`WellFormed.fits`). What the two kinds store and how they store it is used here and by the
edits of a node, and nowhere above.
-/

namespace HashTrie

variable {K V : Type}

/-- The entries in and below a slot. -/
def Slot.toList : Slot K V (Node K V) → List (Entry K V)
  | .entry e => [e]
  | .child node => node.toList

@[simp] theorem Slot.toList_entry (e : Entry K V) : (Slot.entry e).toList = [e] := rfl

@[simp] theorem Slot.toList_child (node : Node K V) : (Slot.child node).toList = node.toList := rfl

/-- Whether a slot may stand at a slice of a node whose children are at this height. -/
def Slot.Fits [HashEquiv K] (height : Nat) (i : Fin 32) : Slot K V (Node K V) → Prop
  | .entry e => sliceAt (height + 1) (HashEquiv.hash e.key) = i
  | .child node => node.WellFormed height ∧ Node.Routed (height + 1) i node.toList

theorem Slot.Fits.routed [HashEquiv K] {height : Nat} {i : Fin 32} {s : Slot K V (Node K V)}
    (hs : s.Fits height i) : Node.Routed (height + 1) i s.toList := by
  cases s with
  | entry e =>
    intro x hx
    obtain rfl := List.mem_singleton.mp hx
    exact hs
  | child node => exact hs.2

namespace Node

/-! ## Slots and their entries -/

/-- Whether a node reads a slice: every node that holds no collision does. -/
def Branches : Node K V → Prop
  | .collision .. => False
  | _ => True

/-- What stands at a slice of a node. -/
def slotAt : Node K V → Fin 32 → Option (Slot K V (Node K V))
  | .bitmap occupied slots, i => occupied.lookup slots i
  | .array _ children, i => children[i.val]?.join.map .child
  | .collision .., _ => none

/-- The entries in and below an optional slot. -/
def entriesOf (slot? : Option (Slot K V (Node K V))) : List (Entry K V) := slot?.elim [] Slot.toList

@[simp] theorem entriesOf_none : entriesOf (none : Option (Slot K V (Node K V))) = [] := rfl

@[simp] theorem entriesOf_some (s : Slot K V (Node K V)) : entriesOf (some s) = s.toList := rfl

/-- The entries in and below what stands at a slice of a node. -/
def entriesAt (node : Node K V) (i : Fin 32) : List (Entry K V) := entriesOf (node.slotAt i)

theorem slotEntries_eq_flatMap (slots : List (Slot K V (Node K V))) :
    slotEntries slots = slots.flatMap Slot.toList := by
  induction slots with
  | nil => simp [slotEntries]
  | cons slot slots ih => cases slot <;> simp [slotEntries, ih]

theorem childEntries_eq_flatMap (children : List (Option (Node K V))) :
    childEntries children = children.flatMap fun child => entriesOf (child.map .child) := by
  induction children with
  | nil => simp [childEntries]
  | cons child children ih => cases child <;> simp [childEntries, ih]

theorem flatMap_entriesOf (f : Fin 32 → Option (Slot K V (Node K V))) (is : List (Fin 32)) :
    (is.flatMap fun i => entriesOf (f i)) = slotEntries (is.filterMap f) := by
  rw [slotEntries_eq_flatMap]
  induction is with
  | nil => rfl
  | cons i is ih => cases h : f i <;> simp [h, ih]

theorem slotAt_bitmap_eq_some {occupied : Bitmap} {slots : List (Slot K V (Node K V))} {i : Fin 32}
    {s : Slot K V (Node K V)} :
    (bitmap occupied slots).slotAt i = some s ↔
      occupied.has i = true ∧ slots[occupied.rank i]? = some s :=
  Bitmap.lookup_eq_some_iff

theorem slotAt_array_eq_some {count : Nat} {children : List (Option (Node K V))} {i : Fin 32}
    {s : Slot K V (Node K V)} :
    (array count children).slotAt i = some s ↔
      ∃ n, children[i.val]? = some (some n) ∧ s = .child n := by
  simp only [slotAt, Option.map_eq_some_iff, Option.join_eq_some_iff, eq_comm (a := Slot.child _)]

/-- An aligned bitmap node holds the entries of its slices. -/
theorem toList_bitmap {occupied : Bitmap} {slots : List (Slot K V (Node K V))}
    (hlen : slots.length = occupied.popCount) :
    (bitmap occupied slots).toList =
      (List.finRange 32).flatMap (bitmap occupied slots).entriesAt := by
  have hflat := flatMap_entriesOf (occupied.lookup slots) (List.finRange 32)
  rw [Bitmap.filterMap_lookup hlen] at hflat
  rw [toList, ← hflat]
  rfl

/-- The children of an array node, slice by slice. -/
theorem children_eq_map {children : List (Option (Node K V))} (hlen : children.length = 32) :
    children = (List.finRange 32).map fun i => children[i.val]?.join := by
  apply List.ext_getElem (by simpa using hlen)
  intro n h₁ h₂
  simp [List.getElem?_eq_getElem h₁]

/-- An array node with a place for each slice holds the entries of its slices. -/
theorem toList_array {count : Nat} {children : List (Option (Node K V))}
    (hlen : children.length = 32) :
    (array count children).toList =
      (List.finRange 32).flatMap (array count children).entriesAt := by
  rw [toList, childEntries_eq_flatMap]
  conv_lhs => rw [children_eq_map hlen, List.flatMap_map]
  rfl

/-! ## Well-formed branching nodes -/

variable [HashEquiv K]

theorem not_wellFormed_zero {node : Node K V} (hw : node.WellFormed 0) : ¬ node.Branches := by
  cases node with
  | bitmap => exact absurd hw (by simp [WellFormed])
  | array => exact absurd hw (by simp [WellFormed])
  | collision => exact id

/-- A well-formed bitmap node, by its slots. -/
theorem wellFormed_bitmap {h : Nat} {occupied : Bitmap} {slots : List (Slot K V (Node K V))} :
    (bitmap occupied slots).WellFormed (h + 1) ↔
      h + 1 ≤ rootHeight ∧ slots ≠ [] ∧ slots.length ≤ maxSlots ∧
        slots.length = occupied.popCount ∧
        ∀ i s, (bitmap occupied slots).slotAt i = some s → s.Fits h i := by
  rw [WellFormed]
  refine and_congr_right fun _ => and_congr_right fun _ => and_congr_right fun _ =>
    and_congr_right fun hlen => forall_congr' fun i => ?_
  have hsome := Bitmap.isSome_lookup hlen i
  cases hi : occupied.has i with
  | false => simp [slotAt, Bitmap.lookup_of_not_has hi]
  | true =>
    rw [hi] at hsome
    rw [slotAt, Bitmap.lookup_of_has hi] at *
    obtain ⟨s, hs⟩ := Option.isSome_iff_exists.mp hsome
    cases s <;> simp [hs, Slot.Fits]

/-- A well-formed array node, by its slots. -/
theorem wellFormed_array {h count : Nat} {children : List (Option (Node K V))} :
    (array count children).WellFormed (h + 1) ↔
      h + 1 ≤ rootHeight ∧ 1 ≤ h ∧ children.length = 32 ∧ minChildren < count ∧
        count = (children.filter Option.isSome).length ∧
        ∀ i s, (array count children).slotAt i = some s → s.Fits h i := by
  rw [WellFormed]
  refine and_congr_right fun _ => and_congr_right fun _ => and_congr_right fun hlen =>
    and_congr_right fun _ => and_congr_right fun _ => forall_congr' fun i => ?_
  have hi : i.val < children.length := by omega
  rw [slotAt, List.getElem?_eq_getElem hi]
  cases children[i.val] <;> simp [Slot.Fits]

namespace WellFormed

variable {h : Nat} {node : Node K V}

/-- A branching node does not stand at the lowest height. -/
theorem exists_height_eq (hw : node.WellFormed h) (hb : node.Branches) : ∃ k, h = k + 1 :=
  Nat.exists_eq_succ_of_ne_zero fun hzero => not_wellFormed_zero (hzero ▸ hw) hb

theorem collision_parts {hash : UInt32} {entries : List (Entry K V)}
    (hw : (collision hash entries).WellFormed h) :
    h < rootHeight ∧ entries ≠ [] ∧ ∀ e ∈ entries, HashEquiv.hash e.key = hash :=
  (wellFormed_collision).mp hw

theorem bitmap_parts {occupied : Bitmap} {slots : List (Slot K V (Node K V))}
    (hw : (bitmap occupied slots).WellFormed (h + 1)) :
    h + 1 ≤ rootHeight ∧ slots ≠ [] ∧ slots.length ≤ maxSlots ∧
      slots.length = occupied.popCount ∧
      ∀ i s, (bitmap occupied slots).slotAt i = some s → s.Fits h i :=
  (wellFormed_bitmap).mp hw

theorem array_parts {count : Nat} {children : List (Option (Node K V))}
    (hw : (array count children).WellFormed (h + 1)) :
    h + 1 ≤ rootHeight ∧ 1 ≤ h ∧ children.length = 32 ∧ minChildren < count ∧
      count = (children.filter Option.isSome).length ∧
      ∀ i s, (array count children).slotAt i = some s → s.Fits h i :=
  (wellFormed_array).mp hw

theorem length_slots {occupied : Bitmap} {slots : List (Slot K V (Node K V))}
    (hw : (bitmap occupied slots).WellFormed (h + 1)) : slots.length = occupied.popCount :=
  hw.bitmap_parts.2.2.2.1

theorem length_children {count : Nat} {children : List (Option (Node K V))}
    (hw : (array count children).WellFormed (h + 1)) : children.length = 32 :=
  hw.array_parts.2.2.1

theorem minChildren_lt {count : Nat} {children : List (Option (Node K V))}
    (hw : (array count children).WellFormed (h + 1)) : minChildren < count :=
  hw.array_parts.2.2.2.1

theorem height_le (hw : node.WellFormed h) : h ≤ rootHeight := by
  cases node with
  | collision hash entries => exact le_of_lt hw.collision_parts.1
  | bitmap =>
    cases h with
    | zero => exact Nat.zero_le _
    | succ h => exact hw.bitmap_parts.1
  | array =>
    cases h with
    | zero => exact Nat.zero_le _
    | succ h => exact hw.array_parts.1

theorem hash_eq {hash : UInt32} {entries : List (Entry K V)}
    (hw : (collision hash entries).WellFormed h) : ∀ e ∈ entries, HashEquiv.hash e.key = hash :=
  hw.collision_parts.2.2

/-- A slot of a well-formed node fits its slice. -/
theorem fits (hw : node.WellFormed (h + 1)) {i : Fin 32} {s : Slot K V (Node K V)}
    (hs : node.slotAt i = some s) : s.Fits h i := by
  cases node with
  | bitmap => exact hw.bitmap_parts.2.2.2.2 i s hs
  | array => exact hw.array_parts.2.2.2.2.2 i s hs
  | collision => cases hs

/-- **Induction over the children.** -/
@[elab_as_elim]
theorem climb {motive : (h : Nat) → (node : Node K V) → node.WellFormed h → Prop}
    (collision : ∀ h hash entries (hw : (collision hash entries).WellFormed h),
      motive h (.collision hash entries) hw)
    (branch : ∀ h (node : Node K V) (hw : node.WellFormed (h + 1)), node.Branches →
      (∀ i child (hs : node.slotAt i = some (.child child)), motive h child (hw.fits hs).1) →
      motive (h + 1) node hw)
    {h : Nat} {node : Node K V} (hw : node.WellFormed h) : motive h node hw := by
  induction h generalizing node with
  | zero =>
    cases node with
    | collision hash entries => exact collision 0 hash entries hw
    | _ => exact absurd trivial (not_wellFormed_zero hw)
  | succ h ih =>
    by_cases hb : node.Branches
    · exact branch h node hw hb fun i child hs => ih (hw.fits hs).1
    · cases node with
      | collision hash entries => exact collision (h + 1) hash entries hw
      | _ => exact absurd trivial hb

theorem has_eq_isSome {occupied : Bitmap} {slots : List (Slot K V (Node K V))}
    (hw : (bitmap occupied slots).WellFormed (h + 1)) (i : Fin 32) :
    occupied.has i = ((bitmap occupied slots).slotAt i).isSome :=
  (Bitmap.isSome_lookup hw.length_slots i).symm

theorem getElem?_eq_of_slotAt_eq_none {count : Nat} {children : List (Option (Node K V))}
    (hw : (array count children).WellFormed (h + 1)) {i : Fin 32}
    (hs : (array count children).slotAt i = none) : children[i.val]? = some none := by
  have hi : i.val < children.length := by have := hw.length_children; omega
  rw [slotAt, List.getElem?_eq_getElem hi] at hs
  rw [List.getElem?_eq_getElem hi]
  cases hc : children[i.val] <;> simp_all

/-- What is stored at a slice of a well-formed node has that slice. -/
theorem routed_entriesAt (hw : node.WellFormed (h + 1)) (i : Fin 32) :
    Routed (h + 1) i (node.entriesAt i) := by
  rw [entriesAt]
  cases hs : node.slotAt i with
  | none => exact fun x hx => absurd hx (List.not_mem_nil)
  | some s => exact (hw.fits hs).routed

/-- **A well-formed branching node holds the entries of its slices, in the order of the slices.** -/
theorem toList_eq (hw : node.WellFormed (h + 1)) (hb : node.Branches) :
    node.toList = (List.finRange 32).flatMap node.entriesAt := by
  cases node with
  | bitmap => exact toList_bitmap hw.length_slots
  | array => exact toList_array hw.length_children
  | collision => exact absurd hb id

theorem mem_toList_of_slotAt (hw : node.WellFormed (h + 1)) (hb : node.Branches) {i : Fin 32}
    {s : Slot K V (Node K V)} (hs : node.slotAt i = some s) {x : Entry K V} (hx : x ∈ s.toList) :
    x ∈ node.toList := by
  rw [hw.toList_eq hb]
  exact List.mem_flatMap.mpr ⟨i, List.mem_finRange i, by rwa [entriesAt, hs]⟩

theorem exists_slotAt_eq_some (hw : node.WellFormed (h + 1)) (hb : node.Branches) :
    ∃ i s, node.slotAt i = some s := by
  by_contra hnone
  have hall : ∀ i, node.slotAt i = none := fun i =>
    Option.eq_none_iff_forall_ne_some.mpr fun s hs => hnone ⟨i, s, hs⟩
  cases node with
  | bitmap occupied slots =>
    obtain ⟨-, hne, -, hlen, -⟩ := hw.bitmap_parts
    have hzero : occupied.popCount = 0 := by
      rw [Bitmap.popCount_eq_countP, List.countP_eq_zero]
      intro i _
      simp [hw.has_eq_isSome i, hall i]
    exact hne (List.eq_nil_of_length_eq_zero (hlen.trans hzero))
  | array count children =>
    obtain ⟨-, -, hlen, hmin, hnum, -⟩ := hw.array_parts
    have hzero : (children.filter Option.isSome).length = 0 := by
      rw [List.length_eq_zero_iff, List.filter_eq_nil_iff]
      intro c hc
      obtain ⟨n, hn, rfl⟩ := List.getElem_of_mem hc
      have hget := hw.getElem?_eq_of_slotAt_eq_none (hall ⟨n, by omega⟩)
      rw [List.getElem?_eq_getElem hn] at hget
      simp [Option.some.inj hget]
    omega
  | collision => exact absurd hb id

/-- **No well-formed node is empty.** -/
theorem toList_ne_nil (hw : node.WellFormed h) : node.toList ≠ [] := by
  induction hw using climb with
  | collision h hash entries hw => exact hw.collision_parts.2.1
  | branch h node hw hb ih =>
    obtain ⟨i, s, hs⟩ := hw.exists_slotAt_eq_some hb
    have hne : node.entriesAt i ≠ [] := by
      rw [entriesAt, hs, entriesOf_some]
      cases s with
      | entry e => simp
      | child n => exact ih i n hs
    rw [hw.toList_eq hb]
    intro hnil
    exact hne (List.flatMap_eq_nil_iff.mp hnil i (List.mem_finRange i))

/-- No slot of a well-formed node is empty. -/
theorem exists_mem_toList (hw : node.WellFormed (h + 1)) {i : Fin 32} {s : Slot K V (Node K V)}
    (hs : node.slotAt i = some s) : ∃ e, e ∈ s.toList := by
  apply List.exists_mem_of_ne_nil
  cases s with
  | entry e => simp
  | child n => exact (hw.fits hs).1.toList_ne_nil

/-- The last slice has two bits, so a node that reads it has room for any slice. -/
theorem length_lt_maxSlots {occupied : Bitmap} {slots : List (Slot K V (Node K V))}
    (hw : (bitmap occupied slots).WellFormed 1) : slots.length < maxSlots := by
  have hlt : ∀ i, occupied.has i = true → decide (i < 4) = true := by
    intro i hi
    rw [hw.has_eq_isSome i] at hi
    obtain ⟨s, hs⟩ := Option.isSome_iff_exists.mp hi
    obtain ⟨x, hx⟩ := hw.exists_mem_toList hs
    rw [← (hw.fits hs).routed x hx]
    exact decide_eq_true (sliceAt_one_lt _)
  have hle : occupied.popCount ≤ (List.finRange 32).countP fun i => decide (i < 4) := by
    rw [Bitmap.popCount_eq_countP]
    exact List.countP_mono_left fun i _ => hlt i
  have hfour : ((List.finRange 32).countP fun i => decide (i < 4)) = 4 := by decide
  have hlen := hw.length_slots
  unfold maxSlots
  omega

/-- **Induction along the way of a hash.** It ends at a collision node, at a free slice or at a
single entry, or goes on below a child. -/
@[elab_as_elim]
theorem walk (hash : UInt32) {motive : (h : Nat) → (node : Node K V) → node.WellFormed h → Prop}
    (collision : ∀ h hash' entries (hw : (collision hash' entries).WellFormed h),
      motive h (.collision hash' entries) hw)
    (free : ∀ h node (hw : node.WellFormed (h + 1)), node.Branches →
      node.slotAt (sliceAt (h + 1) hash) = none → motive (h + 1) node hw)
    (entry : ∀ h node e (hw : node.WellFormed (h + 1)), node.Branches →
      node.slotAt (sliceAt (h + 1) hash) = some (.entry e) → motive (h + 1) node hw)
    (child : ∀ h node child (hw : node.WellFormed (h + 1)) (_ : node.Branches)
      (hs : node.slotAt (sliceAt (h + 1) hash) = some (.child child)),
      motive h child (hw.fits hs).1 → motive (h + 1) node hw)
    {h : Nat} {node : Node K V} (hw : node.WellFormed h) : motive h node hw := by
  induction hw using climb with
  | collision h hash' entries hw => exact collision h hash' entries hw
  | branch h node hw hb ih =>
    cases hs : node.slotAt (sliceAt (h + 1) hash) with
    | none => exact free h node hw hb hs
    | some s =>
      cases s with
      | entry e => exact entry h node e hw hb hs
      | child n => exact child h node n hw hb hs (ih _ n hs)

end WellFormed

end Node

end HashTrie
