import HashTrie.Proofs.Branch
import HashTrie.Trie.Erase
import HashTrie.Trie.Insert

/-!
# Edits of branching nodes

An update changes a branching node at one slice. `ChangedAt h i slot? node node'` says what every
edit owes to the layers above: the new node is well formed, holds `slot?` at slice `i`, and holds
the entries of the old node at any other slice. There is one lemma for each edit: a slot of a bitmap
node is replaced, put in or taken out; a child of an array node is; a full bitmap node is promoted;
and an array node is packed.
-/

namespace HashTrie.Node

variable {K V : Type} [HashEquiv K]

/-- Whether a node is a well-formed branching node with this slot at a slice and the entries of
another node at the other slices. -/
structure ChangedAt (h : Nat) (i : Fin 32) (slot? : Option (Slot K V (Node K V)))
    (node node' : Node K V) : Prop where
  wellFormed : node'.WellFormed (h + 1)
  branches : node'.Branches
  slotAt_eq : node'.slotAt i = slot?
  entriesAt_eq : ∀ j, j ≠ i → node'.entriesAt j = node.entriesAt j

variable {h : Nat} {i : Fin 32} {node node' : Node K V} {slot? : Option (Slot K V (Node K V))}

/-- The slots of a node that differs from a well-formed one at one slice fit, when that slot
does. -/
theorem fits_of_update (hw : node.WellFormed (h + 1))
    (hup : node'.slotAt = Function.update node.slotAt i slot?)
    (hs : ∀ s, slot? = some s → s.Fits h i) (j : Fin 32) (s : Slot K V (Node K V))
    (hj : node'.slotAt j = some s) : s.Fits h j := by
  rw [hup] at hj
  by_cases hji : j = i
  · subst hji
    rw [Function.update_self] at hj
    exact hs s hj
  · rw [Function.update_of_ne hji] at hj
    exact hw.fits hj

/-- A well-formed node whose slots are those of another one but for one slice. -/
theorem ChangedAt.of_update (hw : node'.WellFormed (h + 1)) (hb : node'.Branches)
    (hup : node'.slotAt = Function.update node.slotAt i slot?) :
    ChangedAt h i slot? node node' where
  wellFormed := hw
  branches := hb
  slotAt_eq := by rw [hup, Function.update_self]
  entriesAt_eq j hj := by rw [entriesAt, hup, Function.update_of_ne hj, entriesAt]

/-! ## Bitmap nodes -/

section Bitmap

variable {occupied : Bitmap} {slots : List (Slot K V (Node K V))} {s : Slot K V (Node K V)}

theorem changedAt_set_slot (hw : (bitmap occupied slots).WellFormed (h + 1))
    (hi : occupied.has i) (hs : s.Fits h i) :
    ChangedAt h i (some s) (bitmap occupied slots)
      (bitmap occupied (slots.set (occupied.rank i) s)) := by
  obtain ⟨hh, hne, hmax, hlen, -⟩ := hw.bitmap_parts
  have hup := Bitmap.lookup_set hlen hi s
  refine ChangedAt.of_update (wellFormed_bitmap.mpr ⟨hh, ?_, ?_, ?_, ?_⟩) trivial hup
  · simpa using hne
  · simpa using hmax
  · simpa using hlen
  · exact fits_of_update hw hup fun _ h => Option.some.inj h ▸ hs

theorem changedAt_insert_slot (hw : (bitmap occupied slots).WellFormed (h + 1))
    (hi : occupied.has i = false) (hlt : slots.length < maxSlots) (hs : s.Fits h i) :
    ChangedAt h i (some s) (bitmap occupied slots)
      (bitmap (occupied.insert i) (slots.insertIdx (occupied.rank i) s)) := by
  obtain ⟨hh, -, -, hlen, -⟩ := hw.bitmap_parts
  have hup := Bitmap.lookup_insertIdx hlen hi s
  have hlen' := Bitmap.length_insertIdx_rank hlen hi s
  have hpop := Bitmap.popCount_insert hi
  refine ChangedAt.of_update (wellFormed_bitmap.mpr ⟨hh, ?_, ?_, hlen', ?_⟩) trivial hup
  · exact List.ne_nil_of_length_pos (by omega)
  · omega
  · exact fits_of_update hw hup fun _ h => Option.some.inj h ▸ hs

theorem changedAt_erase_slot (hw : (bitmap occupied slots).WellFormed (h + 1))
    (hi : occupied.has i) (hne : occupied ≠ Bitmap.single i) :
    ChangedAt h i none (bitmap occupied slots)
      (bitmap (occupied.toggle i) (slots.eraseIdx (occupied.rank i))) := by
  obtain ⟨hh, -, hmax, hlen, -⟩ := hw.bitmap_parts
  have hup := Bitmap.lookup_eraseIdx hlen hi
  have hlen' := Bitmap.length_eraseIdx_rank hlen hi
  have hpop := Bitmap.popCount_toggle hi
  refine ChangedAt.of_update (wellFormed_bitmap.mpr ⟨hh, ?_, ?_, hlen', ?_⟩) trivial hup
  · -- some other slice is occupied, or the bitmap would be that of slice `i`
    obtain ⟨j, hj, hji⟩ : ∃ j, occupied.has j = true ∧ j ≠ i := by
      simpa [Bitmap.eq_single_iff hi] using hne
    have hleft : (occupied.toggle i).has j := by simp [Bitmap.has_toggle, hj, Ne.symm hji]
    have := Bitmap.rank_lt_popCount hleft
    exact List.ne_nil_of_length_pos (by omega)
  · omega
  · exact fits_of_update hw hup fun _ h => by cases h

/-! ## New bitmap nodes -/

omit [HashEquiv K] in
theorem slotAt_singleton (j : Fin 32) :
    (bitmap (Bitmap.single i) [s]).slotAt j = if j = i then some s else none := by
  have hlen : ([] : List (Slot K V (Node K V))).length = Bitmap.empty.popCount := rfl
  have hup := Bitmap.lookup_insertIdx hlen (Bitmap.has_empty i) s
  have hrank : Bitmap.empty.rank i = 0 := Nat.le_zero.mp (Bitmap.rank_le_popCount _ _)
  rw [hrank, List.insertIdx_zero, ← Bitmap.single_eq_insert_empty] at hup
  rw [slotAt, hup]
  by_cases hji : j = i <;> simp [hji, Bitmap.lookup]

theorem wellFormed_singleton (hh : h + 1 ≤ rootHeight) (hs : s.Fits h i) :
    (bitmap (Bitmap.single i) [s]).WellFormed (h + 1) := by
  refine wellFormed_bitmap.mpr ⟨hh, by simp, by simp [maxSlots], ?_, fun j t ht => ?_⟩
  · rw [Bitmap.single_eq_insert_empty, Bitmap.popCount_insert (Bitmap.has_empty i),
      Bitmap.popCount_empty]
    rfl
  · rw [slotAt_singleton] at ht
    split at ht
    · next hji =>
      cases ht
      exact hji ▸ hs
    · cases ht

theorem wellFormed_leaf (hh : h + 1 ≤ rootHeight) (e : Entry K V) :
    (leaf (sliceAt (h + 1) (HashEquiv.hash e.key)) e).WellFormed (h + 1) :=
  wellFormed_singleton hh rfl

end Bitmap

/-! ## Array nodes -/

section Array

variable {count count' : Nat} {children : List (Option (Node K V))}

omit [HashEquiv K] in
theorem slotAt_set_child (count count' : Nat) (hlen : children.length = 32)
    (child? : Option (Node K V)) :
    (array count' (children.set i child?)).slotAt =
      Function.update (array count children).slotAt i (child?.map .child) := by
  funext j
  by_cases hji : j = i
  · subst hji
    have hj : j.val < children.length := by omega
    simp [slotAt, hj]
  · have hne : i.val ≠ j.val := fun h => hji (Fin.ext h.symm)
    rw [Function.update_of_ne hji, slotAt, slotAt, List.getElem?_set_ne hne]

omit [HashEquiv K] in
/-- A change of one child changes the number of children by what was and what is there. -/
theorem length_filter_isSome_set {n : Nat} (hn : n < children.length)
    (child? : Option (Node K V)) :
    ((children.set n child?).filter Option.isSome).length + children[n].isSome.toNat =
      (children.filter Option.isSome).length + child?.isSome.toNat := by
  have hle : children[n].isSome.toNat ≤ children.countP Option.isSome := by
    cases hsome : children[n].isSome with
    | false => exact Nat.zero_le _
    | true => exact List.countP_pos_iff.mpr ⟨_, List.getElem_mem hn, hsome⟩
  rw [← List.countP_eq_length_filter, ← List.countP_eq_length_filter, List.countP_set hn]
  cases hold : children[n].isSome <;> cases hnew : child?.isSome <;> simp_all

/-- Changing the child at one place; the count follows the number of children. -/
theorem changedAt_set_child (hw : (array count children).WellFormed (h + 1))
    (child? : Option (Node K V)) (hmin : minChildren < count')
    (hcount : count' + ((array count children).slotAt i).isSome.toNat =
      count + child?.isSome.toNat)
    (hfits : ∀ n, child? = some n → (Slot.child n).Fits h i) :
    ChangedAt h i (child?.map .child) (array count children)
      (array count' (children.set i child?)) := by
  obtain ⟨hh, hpos, hlen, -, hnum, -⟩ := hw.array_parts
  have hup := slotAt_set_child (i := i) count count' hlen child?
  have hi : i.val < children.length := by omega
  refine ChangedAt.of_update (wellFormed_array.mpr ⟨hh, hpos, ?_, hmin, ?_, ?_⟩) trivial hup
  · simpa using hlen
  · have hget : ((array count children).slotAt i).isSome = children[i.val].isSome := by
      rw [slotAt, List.getElem?_eq_getElem hi]
      cases children[i.val] <;> rfl
    have hset := length_filter_isSome_set hi child?
    rw [hget] at hcount
    omega
  · refine fits_of_update hw hup fun s hs => ?_
    obtain ⟨n, hn, rfl⟩ := Option.map_eq_some_iff.mp hs
    exact hfits n hn

end Array

/-! ## Children of either kind of node -/

/-- Put a child at a slice of a branching node. -/
def withChild {K V : Type} (node : Node K V) (i : Fin 32) (child : Node K V) : Node K V :=
  match node with
  | .bitmap occupied slots => .bitmap occupied (slots.set (occupied.rank i) (.child child))
  | .array count children => .array count (children.set i (some child))
  | .collision hash entries => .collision hash entries

theorem changedAt_withChild (hw : node.WellFormed (h + 1)) {old child : Node K V}
    (hs : node.slotAt i = some (.child old)) (hfits : (Slot.child child).Fits h i) :
    ChangedAt h i (some (.child child)) node (node.withChild i child) := by
  cases node with
  | bitmap occupied slots => exact changedAt_set_slot hw (slotAt_bitmap_eq_some.mp hs).1 hfits
  | array count children =>
    have hmin := hw.minChildren_lt
    exact changedAt_set_child hw (some child) hmin (by rw [hs]; rfl)
      fun n hn => Option.some.inj hn ▸ hfits
  | collision => cases hs

/-! ## Promotion -/

section Promote

variable {occupied : Bitmap} {slots : List (Slot K V (Node K V))}

omit [HashEquiv K] in
/-- Spreading the values of a partial function puts each at its slice. -/
theorem spread_filterMap (place : Slot K V (Node K V) → Node K V)
    {f : Fin 32 → Option (Slot K V (Node K V))} (hf : ∀ j, (f j).isSome = occupied.has j)
    (is : List (Fin 32)) :
    spread occupied place is (is.filterMap f) = is.map fun j => (f j).map place := by
  induction is with
  | nil => rfl
  | cons j is ih =>
    rw [spread, ← hf j]
    cases hj : f j <;> simp [hj, ih]

theorem toList_ofSlot (s : Slot K V (Node K V)) : (ofSlot h s).toList = s.toList := by
  cases s <;> simp [ofSlot]

theorem fits_ofSlot (hh : h + 1 ≤ rootHeight) {s : Slot K V (Node K V)} {j : Fin 32}
    (hs : s.Fits (h + 1) j) : (Slot.child (ofSlot (h + 1) s)).Fits (h + 1) j := by
  have hrouted : Routed (h + 2) j (ofSlot (h + 1) s).toList := by
    rw [toList_ofSlot]
    exact hs.routed
  cases s with
  | entry e => exact ⟨wellFormed_leaf hh e, hrouted⟩
  | child n => exact ⟨hs.1, hrouted⟩

/-- The children over which a bitmap node is spread. -/
def spreadChildren (height : Nat) (occupied : Bitmap) (slots : List (Slot K V (Node K V))) :
    List (Option (Node K V)) :=
  spread occupied (ofSlot height) (List.finRange 32) slots

theorem spreadChildren_eq_map (hlen : slots.length = occupied.popCount) :
    spreadChildren h occupied slots =
      (List.finRange 32).map fun j => (occupied.lookup slots j).map (ofSlot h) := by
  have hspread := spread_filterMap (ofSlot h) (Bitmap.isSome_lookup hlen) (List.finRange 32)
  rwa [Bitmap.filterMap_lookup hlen] at hspread

theorem length_spreadChildren (hlen : slots.length = occupied.popCount) :
    (spreadChildren h occupied slots).length = 32 := by
  rw [spreadChildren_eq_map hlen, List.length_map, List.length_finRange]

/-- Each place gets the slot of its slice. -/
theorem getElem?_spreadChildren (hlen : slots.length = occupied.popCount) (j : Fin 32) :
    (spreadChildren h occupied slots)[j.val]? =
      some ((occupied.lookup slots j).map (ofSlot h)) := by
  rw [spreadChildren_eq_map hlen, List.getElem?_map, List.getElem?_eq_getElem (by simp),
    List.getElem_finRange]
  rfl

/-- There are as many children as there were slots. -/
theorem length_filter_isSome_spreadChildren (hlen : slots.length = occupied.popCount) :
    ((spreadChildren h occupied slots).filter Option.isSome).length = slots.length := by
  rw [spreadChildren_eq_map hlen, ← List.countP_eq_length_filter, List.countP_map, hlen,
    Bitmap.popCount_eq_countP]
  apply List.countP_congr
  intro j _
  simp [← Bitmap.isSome_lookup hlen j]

theorem slotAt_spreadChildren (hlen : slots.length = occupied.popCount) (count : Nat) (j : Fin 32) :
    (array count (spreadChildren h occupied slots)).slotAt j =
      ((bitmap occupied slots).slotAt j).map fun s => .child (ofSlot h s) := by
  rw [slotAt, slotAt, getElem?_spreadChildren hlen]
  cases hs : occupied.lookup slots j <;> simp

theorem entriesAt_spreadChildren (hlen : slots.length = occupied.popCount) (count : Nat)
    (j : Fin 32) :
    (array count (spreadChildren h occupied slots)).entriesAt j =
      (bitmap occupied slots).entriesAt j := by
  rw [entriesAt, entriesAt, slotAt_spreadChildren hlen]
  cases (bitmap occupied slots).slotAt j <;> simp [toList_ofSlot]

/-- A bitmap node with more than `minChildren` slots is spread over a well-formed array node. -/
theorem wellFormed_spreadChildren (hw : (bitmap occupied slots).WellFormed (h + 2))
    (hmin : minChildren < slots.length) :
    (array slots.length (spreadChildren (h + 1) occupied slots)).WellFormed (h + 2) := by
  obtain ⟨hh, -, -, hlen, -⟩ := hw.bitmap_parts
  refine wellFormed_array.mpr ⟨hh, by omega, length_spreadChildren hlen, hmin,
    (length_filter_isSome_spreadChildren hlen).symm, fun j s hs => ?_⟩
  rw [slotAt_spreadChildren hlen] at hs
  obtain ⟨t, ht, rfl⟩ := Option.map_eq_some_iff.mp hs
  exact fits_ofSlot (by omega) (hw.fits ht)

/-- **Promoting a full bitmap node adds one leaf at a free slice.** -/
theorem changedAt_promote (hw : (bitmap occupied slots).WellFormed (h + 2))
    (hmin : minChildren < slots.length) (e : Entry K V)
    (hi : i = sliceAt (h + 2) (HashEquiv.hash e.key)) (hfree : occupied.has i = false) :
    ChangedAt (h + 1) i (some (.child (leaf (sliceAt (h + 1) (HashEquiv.hash e.key)) e)))
      (bitmap occupied slots) (promote occupied slots i (HashEquiv.hash e.key) e (h + 1)) := by
  obtain ⟨hh, -, -, hlen, -⟩ := hw.bitmap_parts
  have hnone : (array slots.length (spreadChildren (h + 1) occupied slots)).slotAt i = none := by
    rw [slotAt_spreadChildren hlen, slotAt, Bitmap.lookup_of_not_has hfree]
    rfl
  have hcount : slots.length + 1 +
      ((array slots.length (spreadChildren (h + 1) occupied slots)).slotAt i).isSome.toNat =
        slots.length + 1 := by
    rw [hnone]
    rfl
  have hset := changedAt_set_child (wellFormed_spreadChildren hw hmin)
    (some (leaf (sliceAt (h + 1) (HashEquiv.hash e.key)) e)) (by omega) hcount
    (fun n hn => by
      cases hn
      refine ⟨wellFormed_leaf (by omega) e, ?_⟩
      rw [toList_leaf]
      exact List.forall_mem_singleton.mpr hi.symm)
  exact ⟨hset.wellFormed, trivial, hset.slotAt_eq, fun j hj => by
    rw [promote, ← entriesAt_spreadChildren (h := h + 1) hlen slots.length j]
    exact hset.entriesAt_eq j hj⟩

end Promote

/-! ## Packing -/

section Pack

variable {count : Nat} {children : List (Option (Node K V))}

omit [HashEquiv K] in
theorem occupiedChildren_eq (hlen : children.length = 32) :
    occupiedChildren children =
      (List.finRange 32).filterMap fun j => children[j.val]?.join.map fun n => (j, n) := by
  have hzip : (List.finRange 32).zip children =
      (List.finRange 32).map fun j => (j, children[j.val]?.join) := by
    conv_lhs => rw [children_eq_map hlen]
    exact List.map_prod_left_eq_zip.symm
  rw [occupiedChildren, hzip, List.filterMap_map]
  rfl

omit [HashEquiv K] in
/-- The slots of a packed node, and its bitmap. -/
theorem pack_eq (count : Nat) (hlen : children.length = 32) :
    ∃ occupied : Bitmap, (∀ j, occupied.has j = ((array count children).slotAt j).isSome) ∧
      pack children =
        bitmap occupied ((List.finRange 32).filterMap (array count children).slotAt) := by
  refine ⟨Bitmap.ofSlices ((occupiedChildren children).map (·.1)), fun j => ?_, ?_⟩
  · rw [Bitmap.has_ofSlices, occupiedChildren_eq hlen, slotAt]
    cases hj : children[j.val]?.join <;> simp [hj]
  · rw [pack]
    congr 1
    rw [occupiedChildren_eq hlen, List.map_filterMap]
    congr 1
    funext j
    rw [slotAt, Option.map_map]
    rfl

omit [HashEquiv K] in
theorem length_filterMap_slotAt (hlen : children.length = 32) :
    ((List.finRange 32).filterMap (array count children).slotAt).length =
      (children.filter Option.isSome).length := by
  conv_rhs => rw [children_eq_map hlen, ← List.countP_eq_length_filter, List.countP_map]
  rw [List.length_filterMap_eq_countP]
  apply List.countP_congr
  intro j _
  rw [slotAt, Option.isSome_map]
  rfl

/-- When an array node with few children loses one, exactly `minChildren` are left. -/
theorem length_filter_isSome_left (hw : (array count children).WellFormed (h + 1))
    (hi : ((array count children).slotAt i).isSome) (hcount : count ≤ minChildren + 1) :
    ((children.set i none).filter Option.isSome).length = minChildren := by
  obtain ⟨-, -, hlen, hmin, hnum, -⟩ := hw.array_parts
  have hin : i.val < children.length := by omega
  have hset := length_filter_isSome_set hin none
  have hold : children[i.val].isSome.toNat = 1 := by
    rw [slotAt, List.getElem?_eq_getElem hin] at hi
    cases hc : children[i.val] <;> simp_all
  have hnone : (none : Option (Node K V)).isSome.toNat = 0 := rfl
  omega

/-- **Packing an array node with few children left keeps them at their slices.** -/
theorem changedAt_pack (hw : (array count children).WellFormed (h + 1))
    (hi : ((array count children).slotAt i).isSome) (hcount : count ≤ minChildren + 1) :
    ChangedAt h i none (array count children) (pack (children.set i none)) := by
  obtain ⟨hh, -, hlen, hmin, hnum, -⟩ := hw.array_parts
  have hlen' : (children.set i none).length = 32 := by simpa using hlen
  obtain ⟨occupied, hocc, hpack⟩ := pack_eq count hlen'
  have hup : (pack (children.set i none)).slotAt =
      Function.update (array count children).slotAt i none := by
    rw [hpack]
    exact (Bitmap.lookup_filterMap fun j => (hocc j).symm).trans
      (slotAt_set_child count count hlen none)
  have hpop := Bitmap.length_filterMap_eq_popCount fun j => (hocc j).symm
  have hleft : ((List.finRange 32).filterMap
      (array count (children.set i none)).slotAt).length = minChildren := by
    rw [length_filterMap_slotAt hlen', length_filter_isSome_left hw hi hcount]
  have hwf : (pack (children.set i none)).WellFormed (h + 1) := by
    have hfits := fits_of_update hw hup fun s hs => by cases hs
    rw [hpack] at hfits ⊢
    refine wellFormed_bitmap.mpr ⟨hh, ?_, ?_, hpop, hfits⟩
    · exact List.ne_nil_of_length_pos (by rw [hleft]; decide)
    · rw [hleft]
      decide
  exact ChangedAt.of_update hwf (by rw [hpack]; trivial) hup

end Pack

end HashTrie.Node
