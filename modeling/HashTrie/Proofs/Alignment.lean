import HashTrie.Proofs.Edits
import Mathlib.Data.Set.Function
import Mathlib.Order.Interval.Set.Defs

/-!
# Bitmaps and the lists they index

A bitmap node finds the slot of a slice at the rank of the slice, so an edit of the list has to come
with the matching edit of the bitmap. The ranks of the occupied slices are the positions of the
list, in the order of the slices (`rank_strictMonoOn`, `rank_bijOn`). `EditedAt` says that an edit
at one slice leaves all others paired with what they were paired with, although those above it may
have moved by one position. It holds of each edit of a bitmap node, a promotion puts each slot at
the place of its slice, and packing keeps each child that is left at its slice
(`staysAligned_of_length_eq`).
-/

namespace HashTrie

namespace Bitmap

/-! ## The positions of the occupied slices -/

/-- Ranks grow with the occupied slices. -/
theorem rank_strictMonoOn (b : Bitmap) : StrictMonoOn (rank b) {i | has b i} :=
  fun _ hi _ _ hij => rank_lt_rank hi hij

/-- Each number below the number of set bits is a rank: it is found in the list of these numbers. -/
theorem exists_rank_eq {b : Bitmap} {n : Nat} (hn : n < popCount b) :
    ∃ i, has b i = true ∧ rank b i = n := by
  have hmem : n ∈ (List.finRange 32).filterMap (lookup b (List.range (popCount b))) := by
    rw [filterMap_lookup List.length_range]
    exact List.mem_range.mpr hn
  obtain ⟨i, -, hlookup⟩ := List.mem_filterMap.mp hmem
  obtain ⟨hi, hget⟩ := lookup_eq_some_iff.mp hlookup
  rw [List.getElem?_range (rank_lt_popCount hi)] at hget
  exact ⟨i, hi, Option.some.inj hget⟩

/-- **The ranks of the occupied slices are the numbers below the number of set bits, each once.** -/
theorem rank_bijOn (b : Bitmap) : Set.BijOn (rank b) {i | has b i} (Set.Iio (popCount b)) :=
  ⟨fun _ hi => rank_lt_popCount hi, (rank_strictMonoOn b).injOn, fun _ hn => exists_rank_eq hn⟩

/-! ## Edits at one slice -/

variable {α : Type} {b b' : Bitmap} {xs xs' : List α} {i : Fin 32} {x? : Option α}

/-- Whether a bitmap and its list are edited at one slice, which has the element `x?` then: the list
has one element for each set bit again, and every other slice that is occupied is paired with the
element it was paired with. -/
structure EditedAt (b : Bitmap) (xs : List α) (i : Fin 32) (x? : Option α) (b' : Bitmap)
    (xs' : List α) : Prop where
  length_eq : xs'.length = popCount b'
  has_self : has b' i = x?.isSome
  getElem?_self : ∀ x, x? = some x → xs'[rank b' i]? = some x
  has_other : ∀ j, j ≠ i → has b' j = has b j
  getElem?_other : ∀ j, j ≠ i → has b j → xs'[rank b' j]? = xs[rank b j]?

/-- An edit that changes what is looked up at one slice only. -/
theorem EditedAt.of_lookup (hlen : xs.length = popCount b) (hlen' : xs'.length = popCount b')
    (hup : lookup b' xs' = Function.update (lookup b xs) i x?) : EditedAt b xs i x? b' xs' := by
  have hself : lookup b' xs' i = x? := by rw [hup, Function.update_self]
  have hother : ∀ j, j ≠ i → lookup b' xs' j = lookup b xs j := fun j hj => by
    rw [hup, Function.update_of_ne hj]
  have hhas : ∀ j, j ≠ i → has b' j = has b j := fun j hj => by
    rw [← isSome_lookup hlen' j, ← isSome_lookup hlen j, hother j hj]
  refine ⟨hlen', ?_, fun x hx => ?_, hhas, fun j hj hb => ?_⟩
  · rw [← isSome_lookup hlen' i, hself]
  · exact (lookup_eq_some_iff.mp (hself.trans hx)).2
  · rw [← lookup_of_has hb, ← hother j hj, lookup_of_has ((hhas j hj).trans hb)]

theorem editedAt_insertIdx (hlen : xs.length = popCount b) (hi : has b i = false) (x : α) :
    EditedAt b xs i (some x) (insert b i) (xs.insertIdx (rank b i) x) :=
  EditedAt.of_lookup hlen (length_insertIdx_rank hlen hi x) (lookup_insertIdx hlen hi x)

theorem editedAt_set (hlen : xs.length = popCount b) (hi : has b i) (x : α) :
    EditedAt b xs i (some x) b (xs.set (rank b i) x) :=
  EditedAt.of_lookup hlen (List.length_set.trans hlen) (lookup_set hlen hi x)

theorem editedAt_eraseIdx (hlen : xs.length = popCount b) (hi : has b i) :
    EditedAt b xs i none (toggle b i) (xs.eraseIdx (rank b i)) :=
  EditedAt.of_lookup hlen (length_eraseIdx_rank hlen hi) (lookup_eraseIdx hlen hi)

end Bitmap

namespace Node

variable {K V : Type}

/-! ## Slots that are put in and taken out -/

section Slots

variable {occupied : Bitmap} {slots : List (Slot K V (Node K V))} {i : Fin 32}

/-- An entry with a free slice is put into a bitmap node that has room. -/
theorem exists_insert_editedAt [HashEquiv K] [BEq V] (hlen : slots.length = occupied.popCount)
    {h : Nat} {hash : UInt32} (e : Entry K V) (hfree : occupied.has (sliceAt (h + 1) hash) = false)
    (hroom : slots.length < maxSlots) :
    ∃ occupied' slots', insert hash e (h + 1) (.bitmap occupied slots) =
        .ok (.silent (.added (.bitmap occupied' slots'))) ∧
      occupied.EditedAt slots (sliceAt (h + 1) hash) (some (.entry e)) occupied' slots' := by
  have hle : occupied.rank (sliceAt (h + 1) hash) ≤ slots.length :=
    hlen ▸ Bitmap.rank_le_popCount occupied _
  refine ⟨_, _, ?_, Bitmap.editedAt_insertIdx hlen hfree (.entry e)⟩
  simp only [insert, hfree, Bool.false_eq_true, if_false]
  rw [if_neg (by omega), if_pos hle]

/-- A bitmap node loses the slot of a slice while others are left. -/
theorem exists_dropSlot_editedAt (hlen : slots.length = occupied.popCount) (hi : occupied.has i)
    (hother : ∃ j, j ≠ i ∧ occupied.has j = true) :
    ∃ occupied' slots', dropSlot occupied slots i = .removed (.bitmap occupied' slots') ∧
      occupied.EditedAt slots i none occupied' slots' := by
  obtain ⟨j, hji, hj⟩ := hother
  have hne : occupied ≠ Bitmap.single i := fun heq =>
    hji ((Bitmap.eq_single_iff hi).mp heq j hj)
  exact ⟨_, _, if_neg hne, Bitmap.editedAt_eraseIdx hlen hi⟩

/-- A bitmap node disappears with its last slot. -/
theorem dropSlot_eq_emptied (hi : occupied.has i) (hlast : ∀ j, occupied.has j → j = i) :
    dropSlot occupied slots i = .emptied :=
  if_pos ((Bitmap.eq_single_iff hi).mpr hlast)

end Slots

/-! ## Promotion -/

section Promotion

variable [HashEquiv K] {occupied : Bitmap} {slots : List (Slot K V (Node K V))}
  {h height : Nat} {i : Fin 32} {hash : UInt32} {e : Entry K V}

/-- Whether the children of an array node are the slots of a bitmap node, each at the place of its
slice, and a new node at a place that was free. -/
structure SpreadOver (occupied : Bitmap) (slots : List (Slot K V (Node K V))) (height : Nat)
    (i : Fin 32) (new : Node K V) (children : List (Option (Node K V))) : Prop where
  length_eq : children.length = 32
  getElem?_new : children[i.val]? = some (some new)
  getElem?_slot : ∀ j s, occupied.has j → slots[occupied.rank j]? = some s →
    children[j.val]? = some (some (ofSlot height s))
  getElem?_free : ∀ j, j ≠ i → occupied.has j = false → children[j.val]? = some none
  /-- The new node has taken the place of none of the slots. -/
  length_filter_eq : (children.filter Option.isSome).length = slots.length + 1

/-- Putting a new child at a free place of the spread slots. -/
theorem spreadOver_set (hlen : slots.length = occupied.popCount) (hfree : occupied.has i = false)
    (new : Node K V) :
    SpreadOver occupied slots height i new
      ((spreadChildren height occupied slots).set i (some new)) := by
  have hlength := length_spreadChildren (h := height) hlen
  have hi : i.val < (spreadChildren height occupied slots).length := by omega
  have hnone : (spreadChildren height occupied slots)[i.val] = none := by
    have hget := getElem?_spreadChildren (h := height) hlen i
    rw [Bitmap.lookup_of_not_has hfree, List.getElem?_eq_getElem hi] at hget
    exact Option.some.inj hget
  have hother : ∀ j, j ≠ i → ((spreadChildren height occupied slots).set i (some new))[j.val]? =
      some ((occupied.lookup slots j).map (ofSlot height)) := fun j hj => by
    rw [List.getElem?_set_ne (fun h => hj (Fin.ext h.symm)), getElem?_spreadChildren hlen]
  -- the place was empty, so one child more is there
  have hcount := length_filter_isSome_set hi (some new)
  rw [hnone, length_filter_isSome_spreadChildren hlen] at hcount
  exact {
    length_eq := by rw [List.length_set, hlength]
    getElem?_new := List.getElem?_set_self hi
    getElem?_slot := fun j s hj hs => by
      have hji : j ≠ i := fun heq => by simp [heq, hfree] at hj
      rw [hother j hji, Bitmap.lookup_eq_some_iff.mpr ⟨hj, hs⟩]
      rfl
    getElem?_free := fun j hji hj => by
      rw [hother j hji, Bitmap.lookup_of_not_has hj]
      rfl
    length_filter_eq := hcount }

/-- A node without room is promoted for an entry with a free slice. -/
theorem insert_eq_promote [BEq V] (hfree : occupied.has (sliceAt (h + 2) hash) = false)
    (hfull : maxSlots ≤ slots.length) :
    insert hash e (h + 2) (.bitmap occupied slots) =
      .ok ⟨.added (promote occupied slots (sliceAt (h + 2) hash) hash e (h + 1)),
        [.promoted (shiftAt (h + 2)) (slots.length + 1)]⟩ := by
  simp only [insert, hfree, Bool.false_eq_true, if_false]
  rw [if_pos hfull]

end Promotion

/-! ## Packing -/

section Packing

variable {children : List (Option (Node K V))} {i : Fin 32}

/-- Whether a bitmap and its list hold the children of an array node but for one place. -/
structure PackedWithout (children : List (Option (Node K V))) (i : Fin 32) (occupied : Bitmap)
    (slots : List (Slot K V (Node K V))) : Prop where
  length_eq : slots.length = occupied.popCount
  has_iff : ∀ j, occupied.has j ↔ j ≠ i ∧ ∃ child, children[j.val]? = some (some child)
  getElem?_eq : ∀ j child, j ≠ i → children[j.val]? = some (some child) →
    slots[occupied.rank j]? = some (.child child)

/-- The node that an array node without one of its children is packed into. -/
theorem exists_pack_eq (hlen : children.length = 32) (i : Fin 32) :
    ∃ occupied slots, pack (children.set i none) = .bitmap occupied slots ∧
      PackedWithout children i occupied slots := by
  have hlen' : (children.set i none).length = 32 := by rw [List.length_set, hlen]
  have hup := slotAt_set_child (i := i) 0 0 hlen none
  have hother : ∀ j, j ≠ i → (array 0 (children.set i none)).slotAt j =
      (array 0 children).slotAt j := fun j hj => by rw [hup, Function.update_of_ne hj]
  obtain ⟨occupied, hocc, hpack⟩ := pack_eq 0 hlen'
  have hdomain := fun j => (hocc j).symm
  refine ⟨occupied, _, hpack, {
    length_eq := Bitmap.length_filterMap_eq_popCount hdomain
    has_iff := fun j => ?_
    getElem?_eq := fun j child hj hchild => ?_ }⟩
  · by_cases hj : j = i
    · subst hj
      simp [hocc, hup]
    · rw [hocc, hother j hj, Option.isSome_iff_exists]
      simp [slotAt_array_eq_some, hj]
  · have hslot : (array 0 children).slotAt j = some (.child child) :=
      slotAt_array_eq_some.mpr ⟨child, hchild, rfl⟩
    rw [← hother j hj, ← Bitmap.lookup_filterMap hdomain] at hslot
    exact (Bitmap.lookup_eq_some_iff.mp hslot).2

/-- An array node with few children left is packed. -/
theorem dropChild_eq_pack {occupied : Bitmap} {slots : List (Slot K V (Node K V))} {rest : Nat}
    (hpack : pack (children.set i none) = .bitmap occupied slots) (hfew : rest ≤ minChildren) :
    dropChild (rest + 1) children i =
      .ok ⟨.removed (.bitmap occupied slots), [.packed slots.length]⟩ := by
  have hlen : (occupiedChildren (children.set i none)).length = slots.length := by
    rw [pack] at hpack
    obtain ⟨-, hslots⟩ := Node.bitmap.inj hpack
    rw [← hslots, List.length_map]
  simp only [dropChild]
  rw [if_pos hfew, hpack, hlen]

end Packing

end Node

/-! ## All edits of a node -/

section Nodes

variable {K V : Type}

/-- What is kept by the edits of a bitmap node with these slots. -/
structure StaysAligned [HashEquiv K] [BEq V] (occupied : Bitmap)
    (slots : List (Slot K V (Node K V))) : Prop where
  /-- The occupied slices are found in the order of the slices. -/
  rank_strictMonoOn : StrictMonoOn occupied.rank {i | occupied.has i}
  /-- Each position is that of exactly one occupied slice. -/
  rank_bijOn : Set.BijOn occupied.rank {i | occupied.has i} (Set.Iio slots.length)
  /-- A slot is put in for a free slice. -/
  insertIdx : ∀ i s, occupied.has i = false →
    occupied.EditedAt slots i (some s) (occupied.insert i) (slots.insertIdx (occupied.rank i) s)
  /-- The slot of an occupied slice is taken out. -/
  eraseIdx : ∀ i, occupied.has i →
    occupied.EditedAt slots i none (occupied.toggle i) (slots.eraseIdx (occupied.rank i))
  /-- The slot of an occupied slice is replaced. -/
  set : ∀ i s, occupied.has i →
    occupied.EditedAt slots i (some s) occupied (slots.set (occupied.rank i) s)
  /-- A node with room gets a slot for an entry with a free slice. -/
  insert : ∀ h hash e, occupied.has (sliceAt (h + 1) hash) = false → slots.length < maxSlots →
    ∃ occupied' slots', Node.insert hash e (h + 1) (.bitmap occupied slots) =
        .ok (.silent (.added (.bitmap occupied' slots'))) ∧
      occupied.EditedAt slots (sliceAt (h + 1) hash) (some (.entry e)) occupied' slots'
  /-- A node loses the slot of a slice. -/
  dropSlot : ∀ i, occupied.has i → (∃ j, j ≠ i ∧ occupied.has j = true) →
    ∃ occupied' slots', Node.dropSlot occupied slots i = .removed (.bitmap occupied' slots') ∧
      occupied.EditedAt slots i none occupied' slots'
  /-- A node disappears only when no other slice is occupied. -/
  dropSlot_last : ∀ i, occupied.has i → (∀ j, occupied.has j → j = i) →
    Node.dropSlot occupied slots i = .emptied
  /-- A promotion puts each slot at the place of its slice, and a new leaf at a free place. -/
  promote : ∀ i hash e height, occupied.has i = false →
    ∃ children, Node.promote occupied slots i hash e height = .array (slots.length + 1) children ∧
      Node.SpreadOver occupied slots height i (Node.leaf (sliceAt height hash) e) children
  /-- A node without room is promoted for an entry with a free slice. -/
  insert_full : ∀ h hash e, occupied.has (sliceAt (h + 2) hash) = false →
    maxSlots ≤ slots.length → Node.insert hash e (h + 2) (.bitmap occupied slots) =
      .ok ⟨.added (Node.promote occupied slots (sliceAt (h + 2) hash) hash e (h + 1)),
        [.promoted (shiftAt (h + 2)) (slots.length + 1)]⟩

/-- **Slices and slots stay paired.** A bitmap and a list with one slot for each set bit stay
aligned under every edit. Packing, whatever the 32 children are and whichever is left out, pairs the
slices of the others with them, and is what removing a child does when few enough are left. -/
theorem staysAligned_of_length_eq [HashEquiv K] [BEq V] {occupied : Bitmap}
    {slots : List (Slot K V (Node K V))} (hlen : slots.length = occupied.popCount) :
    StaysAligned occupied slots ∧
      ∀ (children : List (Option (Node K V))) (i : Fin 32), children.length = 32 →
        ∃ occupied' slots', Node.pack (children.set i none) = .bitmap occupied' slots' ∧
          Node.PackedWithout children i occupied' slots' ∧
          ∀ rest ≤ minChildren, Node.dropChild (rest + 1) children i =
            .ok ⟨.removed (.bitmap occupied' slots'), [.packed slots'.length]⟩ := by
  refine ⟨?_, fun children i hchildren => ?_⟩
  · exact {
      rank_strictMonoOn := occupied.rank_strictMonoOn
      rank_bijOn := hlen ▸ occupied.rank_bijOn
      insertIdx := fun i s hi => Bitmap.editedAt_insertIdx hlen hi s
      eraseIdx := fun i hi => Bitmap.editedAt_eraseIdx hlen hi
      set := fun i s hi => Bitmap.editedAt_set hlen hi s
      insert := fun h hash e hfree hroom => Node.exists_insert_editedAt hlen e hfree hroom
      dropSlot := fun i hi hother => Node.exists_dropSlot_editedAt hlen hi hother
      dropSlot_last := fun i hi hlast => Node.dropSlot_eq_emptied hi hlast
      promote := fun i hash e height hfree => ⟨_, rfl, Node.spreadOver_set hlen hfree _⟩
      insert_full := fun h hash e hfree hfull => Node.insert_eq_promote hfree hfull }
  · obtain ⟨occupied', slots', hpack, hwithout⟩ := Node.exists_pack_eq hchildren i
    exact ⟨occupied', slots', hpack, hwithout, fun rest hfew => Node.dropChild_eq_pack hpack hfew⟩

/-- A bitmap of the slices 3, 17 and 31. -/
def threeBits : Bitmap := Bitmap.ofSlices [3, 17, 31]

/-- A subtree of one entry. -/
def oneLeaf : Node Int64 Int64 := Node.leaf 9 ⟨3, 30⟩

/-- Two entries and a subtree. -/
def threeSlots : List (Slot Int64 Int64 (Node Int64 Int64)) :=
  [.entry ⟨1, 10⟩, .entry ⟨2, 20⟩, .child oneLeaf]

/-- Children at the places 4 and 20. -/
def twoChildren : List (Option (Node Int64 Int64)) :=
  ((List.replicate 32 none).set 4 (some (Node.leaf 5 ⟨4, 40⟩))).set 20 (some oneLeaf)

/-- The subtree stays with slice 31 when a slice below gets a slot or loses its own, and with place
20 when the child at place 4 is cleared. -/
theorem staysAligned_threeSlots :
    threeSlots.length = threeBits.popCount ∧ threeBits.has 5 = false ∧ threeBits.has 17 = true ∧
      twoChildren.length = 32 ∧ StaysAligned threeBits threeSlots ∧
      (threeSlots.insertIdx (threeBits.rank 5) (.entry ⟨5, 50⟩))[(threeBits.insert 5).rank 31]? =
        some (.child oneLeaf) ∧
      (threeSlots.eraseIdx (threeBits.rank 17))[(threeBits.toggle 17).rank 31]? =
        some (.child oneLeaf) ∧
      ∃ occupied slots, Node.pack (twoChildren.set 4 none) = .bitmap occupied slots ∧
        slots[occupied.rank 20]? = some (.child oneLeaf) := by
  have hlen : threeSlots.length = threeBits.popCount := by decide
  have hfree : threeBits.has 5 = false := by decide
  have hocc : threeBits.has 17 = true := by decide
  have hlast : threeBits.has 31 = true := by decide
  have hget : threeSlots[threeBits.rank 31]? = some (.child oneLeaf) := rfl
  obtain ⟨haligned, hpacked⟩ := staysAligned_of_length_eq hlen
  have hput := (haligned.insertIdx 5 (.entry ⟨5, 50⟩) hfree).getElem?_other 31 (by decide) hlast
  have htaken := (haligned.eraseIdx 17 hocc).getElem?_other 31 (by decide) hlast
  obtain ⟨occupied, slots, hpack, hwithout, -⟩ := hpacked twoChildren 4 rfl
  have hkept := hwithout.getElem?_eq 20 oneLeaf (by decide) rfl
  exact ⟨hlen, hfree, hocc, rfl, haligned, hput.trans hget, htaken.trans hget, occupied, slots,
    hpack, hkept⟩

end Nodes

end HashTrie
