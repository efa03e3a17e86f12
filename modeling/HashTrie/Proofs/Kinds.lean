import HashTrie.Proofs.ArrayNodes
import HashTrie.Proofs.Insertion
import HashTrie.Proofs.Removal

/-!
# Kinds of nodes and events

An update changes the kind of one node at most, and records an event when it does. `Grows` lists
what adding an entry may do to the kinds of nodes, with the events that go with it: nothing, a
collision node for two entries with one hash, or a promotion of this node or of one below it.
`Shrinks` does so for taking an entry out: nothing, or a packing of this node or of one below it.

An array node goes in no other way than by packing: a node that is emptied holds none.
-/

namespace HashTrie

/-! ## Computations that may fault -/

theorem exists_of_map_eq_ok {A B : Type} {x : Except Fault A} {f : A → B} {b : B}
    (h : x.map f = .ok b) : ∃ a, x = .ok a ∧ f a = b := by
  cases x with
  | error fault => cases h
  | ok a => exact ⟨a, rfl, Except.ok.inj h⟩

theorem exists_of_bind_eq_ok {A B : Type} {x : Except Fault A} {f : A → Except Fault B} {b : B}
    (h : x >>= f = .ok b) : ∃ a, x = .ok a ∧ f a = .ok b := by
  cases x with
  | error fault => cases h
  | ok a => exact ⟨a, rfl, h⟩

namespace Node

variable {K V : Type}

/-! ## Changes of kinds -/

/-- The number of slots of a bitmap node, and the number of children of an array node. -/
def arity : Node K V → Nat
  | .bitmap _ slots => slots.length
  | .array count _ => count
  | .collision .. => 0

/-- Whether a node is of the kind of another one, with as many array nodes in and below it. -/
structure SameKinds (node node' : Node K V) : Prop where
  isArray_eq : node'.isArray = node.isArray
  arrayNodes_eq : node'.arrayNodes = node.arrayNodes

/-- What taking an entry out may do to the kinds of nodes, with the events that are recorded. -/
inductive Shrinks (node node' : Node K V) : List Event → Prop where
  | silent : SameKinds node node' → Shrinks node node' []
  | packed : node.isArray = true → node'.isArray = false → node'.arity = minChildren →
    node'.arrayNodes + 1 = node.arrayNodes → Shrinks node node' [.packed minChildren]
  /-- A node below is packed. -/
  | packedBelow : node'.isArray = node.isArray → node'.arrayNodes + 1 = node.arrayNodes →
    Shrinks node node' [.packed minChildren]

/-- What a removal does to the kinds of nodes for each of its outcomes. -/
def ShrinksBy (node : Node K V) : Erasure (Node K V) → List Event → Prop
  | .absent, events => events = []
  | .emptied, events => events = [] ∧ node.arrayNodes = 0
  | .removed node', events => Shrinks node node' events

variable [HashEquiv K]

/-- What adding an entry at this height may do to the kinds of nodes, with the events that are
recorded. -/
inductive Grows (e : Entry K V) (h : Nat) (node node' : Node K V) : List Event → Prop where
  | silent : SameKinds node node' → Grows e h node node' []
  /-- The entry shares its hash with the only entry of its bucket. -/
  | collided {old : Entry K V} : SameKinds node node' →
    bucket (HashEquiv.hash e.key) h node = [old] → HashEquiv.hash old.key = HashEquiv.hash e.key →
    Grows e h node node' [.collided (HashEquiv.hash e.key)]
  | promoted : 2 ≤ h → node.isArray = false → node'.isArray = true → node'.arity = maxSlots + 1 →
    node'.arrayNodes = node.arrayNodes + 1 →
    Grows e h node node' [.promoted (shiftAt h) (maxSlots + 1)]
  /-- A node below, at another height, is promoted. -/
  | promotedBelow {k : Nat} : 2 ≤ k → k < h → node'.isArray = node.isArray →
    node'.arrayNodes = node.arrayNodes + 1 →
    Grows e h node node' [.promoted (shiftAt k) (maxSlots + 1)]

/-- What an insertion does to the kinds of nodes for each of its outcomes. -/
def GrowsBy (e : Entry K V) (h : Nat) (node : Node K V) :
    Insertion (Node K V) → List Event → Prop
  | .kept, events => events = []
  | .overwrote node', events => events = [] ∧ SameKinds node node'
  | .added node', events => Grows e h node node' events

variable {e : Entry K V} {h : Nat} {hash : UInt32} {node node' child child' : Node K V} {i : Fin 32}
  {events : List Event}

omit [HashEquiv K] in
/-- A child with as many array nodes leaves the kinds above as they are. -/
theorem SameKinds.withChild (hk : SameKinds child child')
    (hs : node.slotAt i = some (.child child)) : SameKinds node (node.withChild i child') := by
  have hcount := arrayNodes_withChild hs child'
  have hchild := hk.arrayNodes_eq
  exact ⟨isArray_withChild .., by omega⟩

/-! ## Insertion -/

/-- What happens below a child happens below the node. -/
theorem Grows.withChild (hg : Grows e h child child' events) (hb : node.Branches)
    (hs : node.slotAt (sliceAt (h + 1) (HashEquiv.hash e.key)) = some (.child child)) :
    Grows e (h + 1) node
      (node.withChild (sliceAt (h + 1) (HashEquiv.hash e.key)) child') events := by
  have hcount := arrayNodes_withChild hs child'
  cases hg with
  | silent hk => exact .silent (hk.withChild hs)
  | collided hk hbucket hhash =>
    exact .collided (hk.withChild hs) ((bucket_of_child hb hs).trans hbucket) hhash
  | promoted hh _ _ _ harrays =>
    exact .promotedBelow hh (Nat.lt_succ_self h) (isArray_withChild ..) (by omega)
  | promotedBelow hk hlt _ harrays =>
    exact .promotedBelow hk (Nat.lt_succ_of_lt hlt) (isArray_withChild ..) (by omega)

/-- What an insertion does below a child it does below the node. -/
theorem GrowsBy.of_child {below : Insertion (Node K V)} (hg : GrowsBy e h child below events)
    (hb : node.Branches)
    (hs : node.slotAt (sliceAt (h + 1) (HashEquiv.hash e.key)) = some (.child child)) :
    GrowsBy e (h + 1) node
      (below.map (node.withChild (sliceAt (h + 1) (HashEquiv.hash e.key)))) events := by
  cases below with
  | kept => exact hg
  | overwrote child' => exact ⟨hg.1, hg.2.withChild hs⟩
  | added child' => exact Grows.withChild hg hb hs

omit [HashEquiv K] in
/-- A joined node is a bitmap node, with no array node but those below its slots. -/
theorem kinds_of_join {a b : UInt32} {s₁ s₂ : Slot K V (Node K V)}
    (hjoin : join a s₁ b s₂ h = .ok node) :
    node.isArray = false ∧ node.arrayNodes = s₁.arrayNodes + s₂.arrayNodes := by
  induction h generalizing node with
  | zero => cases hjoin
  | succ h ih =>
    rw [join] at hjoin
    split at hjoin
    · obtain ⟨below, hbelow, hnode⟩ := exists_of_bind_eq_ok hjoin
      cases hnode
      exact ⟨rfl, by simp [arrayNodes_bitmap, (ih hbelow).2]⟩
    · cases hjoin
      refine ⟨rfl, ?_⟩
      rw [arrayNodes_bitmap]
      split <;> simp [Nat.add_comm]

/-- A node for an old entry and a new one holds no array node. An event is recorded when the entries
have one hash. -/
theorem kinds_of_pair {old : Entry K V} (hpair : pair old hash e h = .ok ⟨node, events⟩) :
    node.arrayNodes = 0 ∧
      (events = [] ∨ HashEquiv.hash old.key = hash ∧ events = [.collided hash]) := by
  unfold pair at hpair
  by_cases hone : HashEquiv.hash old.key = hash
  · rw [if_pos hone] at hpair
    cases hpair
    exact ⟨arrayNodes_collision .., .inr ⟨hone, rfl⟩⟩
  · rw [if_neg hone] at hpair
    obtain ⟨both, hjoin, hboth⟩ := exists_of_map_eq_ok hpair
    cases hboth
    exact ⟨(kinds_of_join hjoin).2, .inl rfl⟩

section Insertion

variable [BEq V] {outcome : Insertion (Node K V)}

theorem growsBy_insertColliding (entries : List (Entry K V)) :
    GrowsBy e h (collision hash entries) (insertColliding hash entries e) [] := by
  have hsame (entries' : List (Entry K V)) :
      SameKinds (collision hash entries) (collision hash entries') := ⟨rfl, by simp⟩
  unfold insertColliding
  split
  · exact .silent (hsame _)
  · split
    · rfl
    · split
      · rfl
      · exact ⟨rfl, hsame _⟩

theorem growsBy_collision {hash' : UInt32} {entries : List (Entry K V)}
    (hi : insert hash e h (collision hash' entries) = .ok ⟨outcome, events⟩) :
    GrowsBy e h (collision hash' entries) outcome events := by
  by_cases hone : hash = hash'
  · subst hone
    rw [insert_collision_of_eq] at hi
    cases hi
    exact growsBy_insertColliding entries
  · rw [insert_collision_of_ne hone] at hi
    obtain ⟨both, hjoin, hboth⟩ := exists_of_map_eq_ok hi
    cases hboth
    obtain ⟨hkind, hcount⟩ := kinds_of_join hjoin
    exact .silent ⟨hkind, by simpa using hcount⟩

/-- At a free slice of a full bitmap node the node is promoted; otherwise all kinds stay. -/
theorem growsBy_free (hw : node.WellFormed (h + 1)) (hb : node.Branches)
    (hs : node.slotAt (sliceAt (h + 1) hash) = none)
    (hi : insert hash e (h + 1) node = .ok ⟨outcome, events⟩) :
    GrowsBy e (h + 1) node outcome events := by
  cases node with
  | bitmap occupied slots =>
    have hfree := hw.has_eq_isSome (sliceAt (h + 1) hash)
    rw [hs, Option.isSome_none] at hfree
    unfold insert at hi
    simp only [hfree, Bool.false_eq_true, if_false] at hi
    split at hi
    · next hfull =>
      cases h with
      | zero => cases hi
      | succ h =>
        cases hi
        obtain ⟨-, -, hmax, hlen, -⟩ := hw.bitmap_parts
        have hsixteen : slots.length = maxSlots := Nat.le_antisymm hmax hfull
        have hcount := arrayNodes_promote hlen hfree hash e (h + 1)
        rw [GrowsBy, hsixteen]
        exact .promoted (by omega) rfl rfl (by rw [promote, arity, hsixteen]) hcount
    · split at hi
      · next hrank =>
        cases hi
        have hcount := arrayNodes_insertIdx occupied (occupied.insert (sliceAt (h + 1) hash)) hrank
          (.entry e)
        exact .silent ⟨rfl, by simpa using hcount⟩
      · cases hi
  | array count children =>
    have hget := hw.getElem?_eq_of_slotAt_eq_none hs
    unfold insert at hi
    simp only [hget] at hi
    cases h with
    | zero => cases hi
    | succ h =>
      cases hi
      have hcount := arrayNodes_set_child count (count + 1) hget
        (some (leaf (sliceAt (h + 1) hash) e))
      exact .silent ⟨rfl, by simpa using hcount⟩
  | collision => exact absurd hb id

/-- An entry at the slice is kept, overwritten, or put below a new node with the new entry. -/
theorem growsBy_entry {old : Entry K V}
    (hs : node.slotAt (sliceAt (h + 1) (HashEquiv.hash e.key)) = some (.entry old))
    (hb : node.Branches)
    (hi : insert (HashEquiv.hash e.key) e (h + 1) node = .ok ⟨outcome, events⟩) :
    GrowsBy e (h + 1) node outcome events := by
  cases node with
  | bitmap occupied slots =>
    obtain ⟨hocc, hget⟩ := slotAt_bitmap_eq_some.mp hs
    have hset (s : Slot K V (Node K V)) (hflat : s.arrayNodes = 0) :
        SameKinds (bitmap occupied slots) (bitmap occupied
          (slots.set (occupied.rank (sliceAt (h + 1) (HashEquiv.hash e.key))) s)) := by
      have hcount := arrayNodes_set_slot occupied hget s
      exact ⟨rfl, by simpa [hflat] using hcount⟩
    unfold insert at hi
    simp only [hocc, hget, if_true] at hi
    split at hi
    · split at hi
      · cases hi
        rfl
      · cases hi
        exact ⟨rfl, hset _ rfl⟩
    · obtain ⟨⟨both, events'⟩, hpair, hboth⟩ := exists_of_bind_eq_ok hi
      cases hboth
      obtain ⟨hflat, rfl | ⟨hhash, rfl⟩⟩ := kinds_of_pair hpair
      · exact .silent (hset _ hflat)
      · exact .collided (hset _ hflat) (bucket_of_entry hb hs) hhash
  | array count children =>
    obtain ⟨n, -, hn⟩ := slotAt_array_eq_some.mp hs
    cases hn
  | collision => exact absurd hb id

/-- **An insertion changes the kind of one node at most, and records that.** -/
theorem growsBy_of_insert (hw : node.WellFormed h)
    (hi : insert (HashEquiv.hash e.key) e h node = .ok ⟨outcome, events⟩) :
    GrowsBy e h node outcome events := by
  induction hw using WellFormed.walk (HashEquiv.hash e.key) generalizing outcome events with
  | collision h hash' entries hw => exact growsBy_collision hi
  | free h node hw hb hs => exact growsBy_free hw hb hs hi
  | entry h node old hw hb hs => exact growsBy_entry hs hb hi
  | child h node child hw hb hs ih =>
    rw [insert_child hb hs] at hi
    obtain ⟨⟨below, events'⟩, hbelow, hchange⟩ := exists_of_map_eq_ok hi
    cases hchange
    exact (ih hbelow).of_child hb hs

end Insertion

/-! ## Removal -/

section Removal

variable {probe : Probe K} {outcome : Erasure (Node K V)}

omit [HashEquiv K] in
/-- What happens below a child happens below the node. -/
theorem Shrinks.withChild (hg : Shrinks child child' events)
    (hs : node.slotAt i = some (.child child)) : Shrinks node (node.withChild i child') events := by
  have hcount := arrayNodes_withChild hs child'
  cases hg with
  | silent hk => exact .silent (hk.withChild hs)
  | packed _ _ _ harrays => exact .packedBelow (isArray_withChild ..) (by omega)
  | packedBelow _ harrays => exact .packedBelow (isArray_withChild ..) (by omega)

omit [HashEquiv K] in
theorem arity_pack {children : List (Option (Node K V))} (hlen : children.length = 32) :
    (pack children).arity = (children.filter Option.isSome).length := by
  obtain ⟨occupied, -, hpack⟩ := pack_eq 0 hlen
  rw [hpack, arity, length_filterMap_slotAt hlen]

/-- Dropping a slot of a bitmap node that holds no array node leaves the kinds as they are. -/
theorem shrinksBy_dropSlot {occupied : Bitmap} {slots : List (Slot K V (Node K V))}
    (hw : (bitmap occupied slots).WellFormed (h + 1)) {s : Slot K V (Node K V)}
    (hget : slots[occupied.rank i]? = some s) (hflat : s.arrayNodes = 0) :
    ShrinksBy (bitmap occupied slots) (dropSlot occupied slots i) [] := by
  unfold dropSlot
  split
  · next hsingle =>
    refine ⟨rfl, ?_⟩
    -- the slot is the only one
    have hone : slots.length = 1 := by
      rw [hw.length_slots, hsingle, Bitmap.single_eq_insert_empty,
        Bitmap.popCount_insert (Bitmap.has_empty i), Bitmap.popCount_empty]
    obtain ⟨t, rfl⟩ := List.length_eq_one_iff.mp hone
    obtain rfl := List.mem_singleton.mp (List.mem_of_getElem? hget)
    simpa [arrayNodes_bitmap] using hflat
  · have hcount := arrayNodes_eraseIdx occupied (occupied.toggle i) hget
    rw [hflat, Nat.zero_add] at hcount
    exact .silent ⟨rfl, hcount⟩

/-- Clearing the place of a child that holds no array node packs the node when few enough children
are left. -/
theorem shrinksBy_dropChild {count : Nat} {children : List (Option (Node K V))}
    (hw : (array count children).WellFormed (h + 1))
    (hget : children[i.val]? = some (some child)) (hflat : child.arrayNodes = 0)
    (hd : dropChild count children i = .ok ⟨outcome, events⟩) :
    ShrinksBy (array count children) outcome events := by
  have hset (count' : Nat) :
      (array count' (children.set i none)).arrayNodes = (array count children).arrayNodes := by
    have hcount := arrayNodes_set_child count count' hget none
    simpa [hflat] using hcount
  unfold dropChild at hd
  split at hd
  · cases hd
  · next rest =>
    split at hd
    · next hfew =>
      cases hd
      have hsome : ((array (rest + 1) children).slotAt i).isSome :=
        Option.isSome_of_mem (slotAt_array_eq_some.mpr ⟨child, hget, rfl⟩)
      have hlen : (children.set i none).length = 32 := by
        rw [List.length_set]
        exact hw.length_children
      have harity : (pack (children.set i none)).arity = minChildren := by
        rw [arity_pack hlen, length_filter_isSome_left hw hsome (Nat.succ_le_succ hfew)]
      have hevent : (occupiedChildren (children.set i none)).length = minChildren := by
        rw [← harity, pack, arity, List.length_map]
      have hcount := arrayNodes_pack hlen rest
      rw [ShrinksBy, hevent]
      exact .packed rfl rfl harity (hcount.trans (hset rest))
    · cases hd
      exact .silent ⟨rfl, hset rest⟩

theorem shrinksBy_dropAt (hw : node.WellFormed (h + 1)) {s : Slot K V (Node K V)}
    (hs : node.slotAt i = some s) (hflat : s.arrayNodes = 0)
    (hd : dropAt i node = .ok ⟨outcome, events⟩) : ShrinksBy node outcome events := by
  cases node with
  | bitmap occupied slots =>
    cases hd
    exact shrinksBy_dropSlot hw (slotAt_bitmap_eq_some.mp hs).2 hflat
  | array count children =>
    obtain ⟨n, hget, rfl⟩ := slotAt_array_eq_some.mp hs
    exact shrinksBy_dropChild hw hget hflat hd
  | collision => cases hs

omit [HashEquiv K] in
theorem shrinksBy_eraseColliding (hash : UInt32) (entries : List (Entry K V)) :
    ShrinksBy (collision hash entries) (eraseColliding probe hash entries) [] := by
  unfold eraseColliding
  split
  · rfl
  · split
    · exact ⟨rfl, arrayNodes_collision ..⟩
    · exact .silent ⟨rfl, by simp⟩

/-- **A removal packs one node at most, and records that.** -/
theorem shrinksBy_of_erase (hw : node.WellFormed h)
    (he : erase probe h node = .ok ⟨outcome, events⟩) : ShrinksBy node outcome events := by
  induction hw using WellFormed.walk probe.hash generalizing outcome events with
  | collision h hash entries hw =>
    rw [show erase probe h (collision hash entries) =
      .ok (.silent (eraseColliding probe hash entries)) by cases h <;> rfl] at he
    cases he
    exact shrinksBy_eraseColliding hash entries
  | free h node hw hb hs =>
    rw [erase_succ probe hw hb, hs] at he
    cases he
    rfl
  | entry h node e hw hb hs =>
    rw [erase_succ probe hw hb, hs] at he
    dsimp only at he
    split at he
    · exact shrinksBy_dropAt hw hs rfl he
    · cases he
      rfl
  | child h node child hw hb hs ih =>
    rw [erase_succ probe hw hb, hs] at he
    obtain ⟨⟨below, events'⟩, hbelow, hchange⟩ := exists_of_bind_eq_ok he
    have hshrinks := ih hbelow
    cases below with
    | absent =>
      cases hchange
      exact hshrinks
    | removed child' =>
      cases hchange
      exact Shrinks.withChild hshrinks hs
    | emptied =>
      obtain ⟨rfl, hflat⟩ := hshrinks
      obtain ⟨dropped, hdrop, hdropped⟩ := exists_of_map_eq_ok hchange
      cases hdropped
      exact shrinksBy_dropAt hw hs hflat hdrop

end Removal

end Node

end HashTrie
