import HashTrie.Proofs.Edits
import Mathlib.Algebra.GroupWithZero.Nat
import Mathlib.Data.List.Perm.Basic

/-!
# Array nodes under edits

The array nodes of a bitmap or array node are those of its slots, and the node itself if it is an
array node. So a change of one slot changes their number by what was and what is in that slot, a
promotion makes one more, and packing one fewer. None of this needs a well-formed trie, only one in
which slots and slices match.
-/

namespace HashTrie

variable {K V : Type}

/-- The number of array nodes in and below a slot. -/
def Slot.arrayNodes : Slot K V (Node K V) → Nat
  | .entry _ => 0
  | .child node => node.arrayNodes

@[simp] theorem Slot.arrayNodes_entry (e : Entry K V) : (Slot.entry e).arrayNodes = 0 := rfl

@[simp] theorem Slot.arrayNodes_child (node : Node K V) :
    (Slot.child node).arrayNodes = node.arrayNodes := rfl

theorem sum_map_set {α : Type} (f : α → Nat) {l : List α} {n : Nat} {a : α} (hn : l[n]? = some a)
    (b : α) : ((l.set n b).map f).sum + f a = (l.map f).sum + f b := by
  obtain ⟨hlt, rfl⟩ := List.getElem?_eq_some_iff.mp hn
  have hset := ((List.set_perm_cons_eraseIdx hlt b).map f).sum_nat
  have hold := ((List.getElem_cons_eraseIdx_perm hlt).map f).sum_nat
  simp only [List.map_cons, List.sum_cons] at hset hold
  omega

theorem sum_map_elim {ι α : Type} (f : ι → Option α) (g : α → Nat) (is : List ι) :
    (is.map fun i => (f i).elim 0 g).sum = ((is.filterMap f).map g).sum := by
  induction is with
  | nil => rfl
  | cons i is ih => cases hi : f i <;> simp [hi, ih]

namespace Node

@[simp] theorem arrayNodes_collision (hash : UInt32) (entries : List (Entry K V)) :
    (collision hash entries).arrayNodes = 0 := by
  rw [arrayNodes]

theorem arrayNodes_bitmap (occupied : Bitmap) (slots : List (Slot K V (Node K V))) :
    (bitmap occupied slots).arrayNodes = (slots.map Slot.arrayNodes).sum := by
  rw [arrayNodes]
  induction slots with
  | nil => simp [slotArrayNodes]
  | cons slot slots ih => cases slot <;> simp [slotArrayNodes, ih]

theorem arrayNodes_array (count : Nat) (children : List (Option (Node K V))) :
    (array count children).arrayNodes = (children.map fun c => c.elim 0 arrayNodes).sum + 1 := by
  rw [arrayNodes]
  congr 1
  induction children with
  | nil => simp [childArrayNodes]
  | cons child children ih => cases child <;> simp [childArrayNodes, ih]

@[simp] theorem arrayNodes_leaf (i : Fin 32) (e : Entry K V) : (leaf i e).arrayNodes = 0 := by
  simp [leaf, arrayNodes_bitmap]

/-! ## Edits -/

section Edits

variable {occupied : Bitmap} {slots : List (Slot K V (Node K V))}
  {children : List (Option (Node K V))}

theorem arrayNodes_set_slot (occupied : Bitmap) {n : Nat} {old : Slot K V (Node K V)}
    (hn : slots[n]? = some old) (s : Slot K V (Node K V)) :
    (bitmap occupied (slots.set n s)).arrayNodes + old.arrayNodes =
      (bitmap occupied slots).arrayNodes + s.arrayNodes := by
  rw [arrayNodes_bitmap, arrayNodes_bitmap]
  exact sum_map_set Slot.arrayNodes hn s

theorem arrayNodes_insertIdx (occupied occupied' : Bitmap) {n : Nat} (hn : n ≤ slots.length)
    (s : Slot K V (Node K V)) :
    (bitmap occupied' (slots.insertIdx n s)).arrayNodes =
      s.arrayNodes + (bitmap occupied slots).arrayNodes := by
  have hperm := ((List.perm_insertIdx s slots hn).map Slot.arrayNodes).sum_nat
  rw [arrayNodes_bitmap, arrayNodes_bitmap, hperm, List.map_cons, List.sum_cons]

theorem arrayNodes_eraseIdx (occupied occupied' : Bitmap) {n : Nat} {old : Slot K V (Node K V)}
    (hn : slots[n]? = some old) :
    old.arrayNodes + (bitmap occupied' (slots.eraseIdx n)).arrayNodes =
      (bitmap occupied slots).arrayNodes := by
  obtain ⟨hlt, rfl⟩ := List.getElem?_eq_some_iff.mp hn
  have hperm := ((List.getElem_cons_eraseIdx_perm hlt).map Slot.arrayNodes).sum_nat
  rw [arrayNodes_bitmap, arrayNodes_bitmap, ← hperm, List.map_cons, List.sum_cons]

theorem arrayNodes_set_child (count count' : Nat) {n : Nat} {old? : Option (Node K V)}
    (hn : children[n]? = some old?) (child? : Option (Node K V)) :
    (array count' (children.set n child?)).arrayNodes + old?.elim 0 arrayNodes =
      (array count children).arrayNodes + child?.elim 0 arrayNodes := by
  have hset := sum_map_set (fun c : Option (Node K V) => c.elim 0 arrayNodes) hn child?
  rw [arrayNodes_array, arrayNodes_array]
  omega

theorem arrayNodes_withChild {node old : Node K V} {i : Fin 32}
    (hs : node.slotAt i = some (.child old)) (child : Node K V) :
    (node.withChild i child).arrayNodes + old.arrayNodes = node.arrayNodes + child.arrayNodes := by
  cases node with
  | bitmap occupied slots => exact arrayNodes_set_slot occupied (slotAt_bitmap_eq_some.mp hs).2 _
  | array count children =>
    obtain ⟨n, hget, hn⟩ := slotAt_array_eq_some.mp hs
    obtain rfl := Slot.child.inj hn
    exact arrayNodes_set_child count count hget (some child)
  | collision => cases hs

theorem isArray_withChild (node : Node K V) (i : Fin 32) (child : Node K V) :
    (node.withChild i child).isArray = node.isArray := by
  cases node <;> rfl

/-- The children over which a bitmap node is spread hold the array nodes of its slots. -/
theorem sum_arrayNodes_spreadChildren [HashEquiv K] (hlen : slots.length = occupied.popCount)
    (h : Nat) :
    ((spreadChildren h occupied slots).map fun c => c.elim 0 arrayNodes).sum =
      (bitmap occupied slots).arrayNodes := by
  have hplace : ∀ s : Slot K V (Node K V), (ofSlot h s).arrayNodes = s.arrayNodes := by
    intro s
    cases s <;> simp [ofSlot]
  have helim : ∀ j, (((occupied.lookup slots j).map (ofSlot h)).elim 0 arrayNodes) =
      (occupied.lookup slots j).elim 0 Slot.arrayNodes := by
    intro j
    cases occupied.lookup slots j <;> simp [hplace]
  rw [spreadChildren_eq_map hlen, List.map_map, arrayNodes_bitmap,
    ← Bitmap.filterMap_lookup hlen, ← sum_map_elim, Bitmap.filterMap_lookup hlen]
  simp only [Function.comp_def, helim]

/-- A promotion makes one array node, with a leaf for the new entry. -/
theorem arrayNodes_promote [HashEquiv K] (hlen : slots.length = occupied.popCount) {i : Fin 32}
    (hfree : occupied.has i = false) (hash : UInt32) (e : Entry K V) (h : Nat) :
    (promote occupied slots i hash e h).arrayNodes = (bitmap occupied slots).arrayNodes + 1 := by
  have hplace : (spreadChildren h occupied slots)[i.val]? = some none := by
    rw [spreadChildren_eq_map hlen, List.getElem?_map, List.getElem?_eq_getElem (by simp),
      List.getElem_finRange]
    simp [Bitmap.lookup_of_not_has hfree]
  have hset := arrayNodes_set_child slots.length (slots.length + 1) hplace
    (some (leaf (sliceAt h hash) e))
  have hsum := sum_arrayNodes_spreadChildren hlen h
  rw [arrayNodes_array slots.length] at hset
  simp only [Option.elim_none, Option.elim_some, arrayNodes_leaf] at hset
  rw [promote]
  exact hset.trans (by rw [hsum, Nat.add_zero])

/-- Packing loses no array node but the packed one. -/
theorem arrayNodes_pack (hlen : children.length = 32) (count : Nat) :
    (pack children).arrayNodes + 1 = (array count children).arrayNodes := by
  obtain ⟨occupied, -, hpack⟩ := pack_eq count hlen
  have helim : ∀ j, ((array count children).slotAt j).elim 0 Slot.arrayNodes =
      (children[j.val]?.join).elim 0 arrayNodes := by
    intro j
    rw [slotAt]
    cases children[j.val]?.join <;> rfl
  rw [hpack, arrayNodes_bitmap, arrayNodes_array, ← sum_map_elim]
  conv_rhs => rw [children_eq_map hlen, List.map_map]
  simp only [Function.comp_def, helim]

end Edits

end Node

end HashTrie
