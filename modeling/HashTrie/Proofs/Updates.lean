import HashTrie.Map.History
import HashTrie.Proofs.Insertion
import HashTrie.Proofs.Removal
import HashTrie.Proofs.Runs

/-!
# Updates of maps

What a lookup, an insertion and a removal make of a well-formed map, in terms of its list of entries
and of the bucket of a hash. Updates keep maps well formed, so every map that can be made is
(`Reachable.wellFormed`). No contract between hash and equivalence is used here.
-/

namespace HashTrie.Map

variable {K V : Type} [HashEquiv K] {m m' : Map K V}

/-- The entries that a lookup with this hash searches through. -/
def bucket {K V : Type} (m : Map K V) (hash : UInt32) : List (Entry K V) :=
  m.node?.elim [] (Node.bucket hash rootHeight)

/-! ## Well-formed maps by their root -/

theorem wellFormed_of_root_eq_none (hr : m.root = none) : m.WellFormed ↔ m.count = 0 := by
  simp [WellFormed, node?, hr]

theorem wellFormed_of_root_eq_some {root : Root K V} (hr : m.root = some root) :
    m.WellFormed ↔ m.count = root.node.toList.length ∧ root.node.WellFormed rootHeight := by
  simp only [WellFormed, node?, hr, Option.map_some]
  constructor
  · rintro ⟨hcount, -, hw⟩
    exact ⟨hcount, hw⟩
  · rintro ⟨hcount, hw⟩
    exact ⟨hcount, hcount ▸ List.length_pos_of_ne_nil hw.toList_ne_nil, hw⟩

theorem WellFormed.root_node (hw : m.WellFormed) {root : Root K V} (hr : m.root = some root) :
    root.node.WellFormed rootHeight :=
  ((wellFormed_of_root_eq_some hr).mp hw).2

omit [HashEquiv K] in
theorem toList_of_root_eq_none (hr : m.root = none) : m.toList = [] := by
  simp [toList_eq, node?, hr]

omit [HashEquiv K] in
theorem toList_of_root_eq_some {root : Root K V} (hr : m.root = some root) :
    m.toList = root.node.toList := by
  simp [toList_eq, node?, hr]

omit [HashEquiv K] in
theorem bucket_of_root_eq_none (hr : m.root = none) (hash : UInt32) : m.bucket hash = [] := by
  simp [bucket, node?, hr]

omit [HashEquiv K] in
theorem bucket_of_root_eq_some {root : Root K V} (hr : m.root = some root) (hash : UInt32) :
    m.bucket hash = Node.bucket hash rootHeight root.node := by
  simp [bucket, node?, hr]

theorem wellFormed_withRoot (m : Map K V) (stamp : Nat) (node : Node K V) (count : Nat) :
    (m.withRoot (some ⟨stamp, node⟩) count).WellFormed ↔
      count = node.toList.length ∧ node.WellFormed rootHeight := by
  have hroot : (m.withRoot (some ⟨stamp, node⟩) count).root = some ⟨stamp, node⟩ := rfl
  exact wellFormed_of_root_eq_some hroot

omit [HashEquiv K] in
@[simp] theorem toList_withRoot (m : Map K V) (stamp : Nat) (node : Node K V) (count : Nat) :
    (m.withRoot (some ⟨stamp, node⟩) count).toList = node.toList := by
  have hroot : (m.withRoot (some ⟨stamp, node⟩) count).root = some ⟨stamp, node⟩ := rfl
  exact toList_of_root_eq_some hroot

omit [HashEquiv K] in
@[simp] theorem bucket_withRoot (m : Map K V) (stamp : Nat) (node : Node K V) (count : Nat)
    (hash : UInt32) :
    (m.withRoot (some ⟨stamp, node⟩) count).bucket hash = Node.bucket hash rootHeight node := by
  have hroot : (m.withRoot (some ⟨stamp, node⟩) count).root = some ⟨stamp, node⟩ := rfl
  exact bucket_of_root_eq_some hroot hash

theorem WellFormed.count_eq (hw : m.WellFormed) : m.count = m.toList.length := by
  cases hr : m.root with
  | none => rw [toList_of_root_eq_none hr, (wellFormed_of_root_eq_none hr).mp hw, List.length_nil]
  | some root => rw [toList_of_root_eq_some hr, ((wellFormed_of_root_eq_some hr).mp hw).1]

theorem WellFormed.root_eq_none_iff (hw : m.WellFormed) : m.root = none ↔ m.count = 0 := by
  constructor
  · intro hr
    exact (wellFormed_of_root_eq_none hr).mp hw
  · intro hzero
    cases hr : m.root with
    | none => rfl
    | some root =>
      obtain ⟨hcount, hnode⟩ := (wellFormed_of_root_eq_some hr).mp hw
      exact absurd (List.eq_nil_of_length_eq_zero (hcount.symm.trans hzero)) hnode.toList_ne_nil

theorem WellFormed.replacedAt_bucket (hw : m.WellFormed) (hash : UInt32) :
    ReplacedAt rootHeight hash (m.bucket hash) (m.bucket hash) m.toList m.toList := by
  cases hr : m.root with
  | none =>
    rw [toList_of_root_eq_none hr, bucket_of_root_eq_none hr]
    exact ReplacedAt.whole ..
  | some root =>
    rw [toList_of_root_eq_some hr, bucket_of_root_eq_some hr]
    exact Node.replacedAt_bucket (hw.root_node hr) hash

theorem WellFormed.withHash_bucket (hw : m.WellFormed) (hash : UInt32) :
    withHash hash (m.bucket hash) = withHash hash m.toList :=
  (hw.replacedAt_bucket hash).withHash_eq.symm

/-- When some entry has the hash, its bucket is all entries with the hash. -/
theorem WellFormed.bucket_eq_withHash (hw : m.WellFormed) {x : Entry K V} (hx : x ∈ m.toList) :
    m.bucket (HashEquiv.hash x.key) = withHash (HashEquiv.hash x.key) m.toList := by
  have hbucket := hw.withHash_bucket (HashEquiv.hash x.key)
  cases hr : m.root with
  | none =>
    rw [toList_of_root_eq_none hr] at hx
    cases hx
  | some root =>
    obtain ⟨c, hc⟩ := Node.exists_hash_bucket (hw.root_node hr) (HashEquiv.hash x.key)
    rw [← bucket_of_root_eq_some hr] at hc
    have hin : x ∈ m.bucket (HashEquiv.hash x.key) := by
      have hx' : x ∈ withHash (HashEquiv.hash x.key) m.toList := mem_withHash.mpr ⟨hx, rfl⟩
      rw [← hbucket] at hx'
      exact (mem_withHash.mp hx').1
    rw [← hbucket, withHash, List.filter_eq_self.mpr fun y hy => ?_]
    rw [hc y hy, hc x hin]
    exact beq_self_eq_true c

/-! ## Lookup -/

/-- **A lookup in a well-formed map meets no fault, and finds the first accepted entry of the
bucket.** -/
theorem WellFormed.tryFind_eq (hw : m.WellFormed) (probe : Probe K) :
    m.tryFind probe = .ok ((m.bucket probe.hash).find? fun e => probe.accepts e.key) := by
  unfold tryFind
  cases hr : m.root with
  | none => simp [bucket_of_root_eq_none hr]
  | some root =>
    rw [bucket_of_root_eq_some hr]
    exact Node.find_eq_find?_bucket probe (hw.root_node hr)

theorem WellFormed.find?_eq (hw : m.WellFormed) (probe : Probe K) :
    m.find? probe = (m.bucket probe.hash).find? fun e => probe.accepts e.key := by
  rw [find?, hw.tryFind_eq probe]

/-! ## Insertion -/

/-- What inserting an entry makes of a map. -/
inductive Inserted [BEq V] (e : Entry K V) (m : Map K V) : Map K V → Prop where
  /-- The first equivalent key of the bucket has an equal value: the map stays as it is. -/
  | kept {front back : List (Entry K V)} {old : Entry K V} :
    Meets e (m.bucket (HashEquiv.hash e.key)) front old back →
    (e.value == old.value) = true ∨ (old.value == e.value) = true → Inserted e m m
  /-- The value of the first equivalent key of the bucket is replaced. -/
  | overwrote {m' : Map K V} {front back : List (Entry K V)} {old : Entry K V} :
    Meets e (m.bucket (HashEquiv.hash e.key)) front old back →
    (e.value == old.value) = false ∨ (old.value == e.value) = false →
    m'.bucket (HashEquiv.hash e.key) = front ++ { old with value := e.value } :: back →
    ReplacedAt rootHeight (HashEquiv.hash e.key) (m.bucket (HashEquiv.hash e.key))
      (m'.bucket (HashEquiv.hash e.key)) m.toList m'.toList →
    Inserted e m m'
  /-- The entry is added to the bucket. -/
  | added {m' : Map K V} {new : List (Entry K V)} :
    Adds e (m.bucket (HashEquiv.hash e.key)) new →
    ReplacedAt rootHeight (HashEquiv.hash e.key) (m.bucket (HashEquiv.hash e.key)) new
      m.toList m'.toList →
    Inserted e m m'

/-- The map that an insertion into the trie leads to. -/
def afterInsertion {K V : Type} (m : Map K V) (stamp : Nat) : Insertion (Node K V) → Map K V
  | .kept => m
  | .overwrote node => m.withRoot (some ⟨stamp, node⟩) m.count
  | .added node => m.withRoot (some ⟨stamp, node⟩) (m.count + 1)

theorem insertEntry_fst [BEq V] {e : Entry K V} {change : Insertion (Node K V)}
    {events : List Event} (hi : m.tryInsert e = .ok ⟨change, events⟩) (l : Ledger) :
    (m.insertEntry e l).1 = m.afterInsertion l.nextStamp change := by
  unfold insertEntry
  rw [hi]
  cases change <;> rfl

/-- What an insertion into the trie of a map owes is what it owes in the map. -/
theorem WellFormed.inserted [BEq V] {e : Entry K V} (hw : m.WellFormed) {root : Root K V}
    (hr : m.root = some root) {change : Insertion (Node K V)}
    (hspec : Node.Inserts e rootHeight root.node change) (stamp : Nat) :
    (m.afterInsertion stamp change).WellFormed ∧ Inserted e m (m.afterInsertion stamp change) := by
  have hcount := ((wellFormed_of_root_eq_some hr).mp hw).1
  have hbucket := bucket_of_root_eq_some hr (HashEquiv.hash e.key)
  have hlist := toList_of_root_eq_some hr
  cases change with
  | kept =>
    obtain ⟨front, old, back, hmeets, hsame⟩ := hspec
    exact ⟨hw, .kept (hbucket ▸ hmeets) hsame⟩
  | overwrote node =>
    obtain ⟨hnode, hreplaced, front, old, back, hmeets, hne, hnew⟩ := hspec
    have hlen := hreplaced.length_add
    rw [hnew, hmeets.split] at hlen
    simp only [List.length_append, List.length_cons] at hlen
    rw [afterInsertion]
    refine ⟨(wellFormed_withRoot ..).mpr ⟨by omega, hnode⟩,
      .overwrote (hbucket ▸ hmeets) hne ?_ ?_⟩
    · rw [bucket_withRoot, hnew]
    · rw [hbucket, hlist, bucket_withRoot, toList_withRoot]
      exact hreplaced
  | added node =>
    obtain ⟨hnode, new, hadds, hreplaced⟩ := hspec
    have hlen := hreplaced.length_add
    have hlen' := hadds.length_eq
    rw [afterInsertion]
    refine ⟨(wellFormed_withRoot ..).mpr ⟨by omega, hnode⟩, .added (hbucket ▸ hadds) ?_⟩
    rw [hbucket, hlist, toList_withRoot]
    exact hreplaced

/-- **An insertion into a well-formed map meets no fault.** -/
theorem WellFormed.exists_tryInsert_eq [BEq V] (hw : m.WellFormed) (e : Entry K V) :
    ∃ change events, m.tryInsert e = .ok ⟨change, events⟩ ∧ ∀ stamp,
      (m.afterInsertion stamp change).WellFormed ∧
        Inserted e m (m.afterInsertion stamp change) := by
  cases hr : m.root with
  | none =>
    refine ⟨.added (Node.leaf (sliceAt rootHeight (HashEquiv.hash e.key)) e), [], ?_,
      fun stamp => ?_⟩
    · unfold tryInsert
      rw [hr]
      rfl
    · have hzero := (wellFormed_of_root_eq_none hr).mp hw
      have hadds : Adds e (m.bucket (HashEquiv.hash e.key)) [e] := by
        rw [bucket_of_root_eq_none hr]
        exact adds_nil e
      rw [afterInsertion]
      refine ⟨(wellFormed_withRoot ..).mpr ⟨?_, Node.wellFormed_leaf (h := 6) (le_refl _) e⟩,
        .added hadds ?_⟩
      · rw [hzero, Node.toList_leaf, List.length_singleton]
      · rw [bucket_of_root_eq_none hr, toList_of_root_eq_none hr, toList_withRoot, Node.toList_leaf]
        exact ReplacedAt.whole ..
  | some root =>
    obtain ⟨change, events, hinsert, hspec⟩ :=
      Node.exists_insert_eq (e := e) (hw.root_node hr) fun x _ => agree_root _ _
    refine ⟨change, events, ?_, fun stamp => hw.inserted hr hspec stamp⟩
    unfold tryInsert
    rw [hr]
    exact hinsert

/-- **An insertion keeps a map well formed, and keeps, overwrites or adds.** -/
theorem WellFormed.insertEntry [BEq V] (hw : m.WellFormed) (e : Entry K V) (l : Ledger) :
    (m.insertEntry e l).1.WellFormed ∧ Inserted e m (m.insertEntry e l).1 := by
  obtain ⟨change, events, hi, hspec⟩ := hw.exists_tryInsert_eq e
  rw [insertEntry_fst hi]
  exact hspec _

theorem WellFormed.insertAll [BEq V] (hw : m.WellFormed) (es : List (Entry K V)) (l : Ledger) :
    (m.insertAll es l).1.WellFormed := by
  induction es generalizing m l with
  | nil => exact hw
  | cons e es ih => exact ih (hw.insertEntry e l).1 _

/-! ## Removal -/

/-- What removing the entry that a probe finds makes of a map. -/
inductive Erased (probe : Probe K) (m : Map K V) : Map K V → Prop where
  /-- The bucket has no accepted entry: the map stays as it is. -/
  | absent : (∀ x ∈ m.bucket probe.hash, probe.accepts x.key = false) → Erased probe m m
  /-- The first accepted entry of the bucket is taken out. -/
  | removed {m' : Map K V} :
    (∃ x ∈ m.bucket probe.hash, probe.accepts x.key = true) →
    ReplacedAt rootHeight probe.hash (m.bucket probe.hash)
      ((m.bucket probe.hash).eraseP fun x => probe.accepts x.key) m.toList m'.toList →
    Erased probe m m'

theorem Erased.sublist {probe : Probe K} (he : Erased probe m m') :
    m'.toList.Sublist m.toList := by
  cases he with
  | absent => exact .refl _
  | removed _ hreplaced =>
    obtain ⟨before, behind, hl, hl', -, -⟩ := hreplaced
    rw [hl, hl']
    exact ((List.Sublist.refl before).append List.eraseP_sublist).append_right behind

/-- The map that a removal from the trie leads to. -/
def afterErasure {K V : Type} (m : Map K V) (stamp : Nat) : Erasure (Node K V) → Map K V
  | .absent => m
  | .emptied => m.withRoot none (m.count - 1)
  | .removed node => m.withRoot (some ⟨stamp, node⟩) (m.count - 1)

theorem erase_fst {K V : Type} {m : Map K V} {probe : Probe K} {change : Erasure (Node K V)}
    {events : List Event} (he : m.tryErase probe = .ok ⟨change, events⟩) (l : Ledger) :
    (m.erase probe l).1 = m.afterErasure l.nextStamp change := by
  unfold erase
  rw [he]
  cases change <;> rfl

/-- What a removal from the trie of a map owes is what it owes in the map. -/
theorem WellFormed.erased {probe : Probe K} (hw : m.WellFormed) {root : Root K V}
    (hr : m.root = some root) {change : Erasure (Node K V)}
    (hspec : Node.Erases probe rootHeight root.node change) (stamp : Nat) :
    (m.afterErasure stamp change).WellFormed ∧ Erased probe m (m.afterErasure stamp change) := by
  have hcount := ((wellFormed_of_root_eq_some hr).mp hw).1
  have hbucket := bucket_of_root_eq_some hr probe.hash
  have hlist := toList_of_root_eq_some hr
  cases change with
  | absent => exact ⟨hw, .absent (hbucket ▸ hspec)⟩
  | emptied =>
    obtain ⟨hacc, hreplaced⟩ := hspec
    have hlen := hreplaced.length_of_eraseP hacc
    rw [afterErasure]
    refine ⟨(wellFormed_of_root_eq_none rfl).mpr ?_, .removed (hbucket ▸ hacc) ?_⟩
    · show m.count - 1 = 0
      rw [hcount, ← hlen]
      rfl
    · rw [hbucket, hlist, toList_of_root_eq_none rfl]
      exact hreplaced
  | removed node =>
    obtain ⟨hnode, hacc, hreplaced⟩ := hspec
    have hlen := hreplaced.length_of_eraseP hacc
    rw [afterErasure]
    refine ⟨(wellFormed_withRoot ..).mpr ⟨by omega, hnode⟩, .removed (hbucket ▸ hacc) ?_⟩
    rw [hbucket, hlist, toList_withRoot]
    exact hreplaced

/-- **A removal from a well-formed map meets no fault.** -/
theorem WellFormed.exists_tryErase_eq (hw : m.WellFormed) (probe : Probe K) :
    ∃ change events, m.tryErase probe = .ok ⟨change, events⟩ ∧ ∀ stamp,
      (m.afterErasure stamp change).WellFormed ∧ Erased probe m (m.afterErasure stamp change) := by
  cases hr : m.root with
  | none =>
    refine ⟨.absent, [], ?_, fun stamp => ⟨hw, .absent ?_⟩⟩
    · unfold tryErase
      rw [hr]
      rfl
    · simp [bucket_of_root_eq_none hr]
  | some root =>
    obtain ⟨hcount, hnode⟩ := (wellFormed_of_root_eq_some hr).mp hw
    have hpos := List.length_pos_of_ne_nil hnode.toList_ne_nil
    obtain ⟨change, events, herase, hspec⟩ := Node.exists_erase_eq probe hnode
    refine ⟨change, events, ?_, fun stamp => hw.erased hr hspec stamp⟩
    unfold tryErase
    obtain ⟨n, hn⟩ : ∃ n, m.count = n + 1 := ⟨m.count - 1, by omega⟩
    cases change <;> simp [hr, herase, hn, bind, Except.bind]

/-- **A removal keeps a map well formed, and takes out the first accepted entry of the bucket.** -/
theorem WellFormed.erase (hw : m.WellFormed) (probe : Probe K) (l : Ledger) :
    (m.erase probe l).1.WellFormed ∧ Erased probe m (m.erase probe l).1 := by
  obtain ⟨change, events, he, hspec⟩ := hw.exists_tryErase_eq probe
  rw [erase_fst he]
  exact hspec _

/-! ## Maps that can be made -/

theorem wellFormed_empty : (empty : Map K V).WellFormed := (wellFormed_of_root_eq_none rfl).mpr rfl

theorem wellFormed_cleared (m : Map K V) : m.cleared.WellFormed :=
  (wellFormed_of_root_eq_none rfl).mpr rfl

/-- Being well formed is about the trie and the count only. -/
theorem WellFormed.of_root_eq (hw : m.WellFormed) (hroot : m'.root = m.root)
    (hcount : m'.count = m.count) : m'.WellFormed := by
  unfold WellFormed node? at *
  rwa [hroot, hcount]

theorem WellFormed.withMetadata [BEq V] (hw : m.WellFormed) (metadata : Option (Map K V)) :
    (m.withMetadata metadata).WellFormed := by
  unfold Map.withMetadata
  split
  · exact hw
  · exact hw.of_root_eq rfl rfl

/-- The maps of a population are well formed. -/
theorem wellFormed_of_population [BEq V] [HashEquiv V] {l : Ledger} {ms : List (Map K V)}
    (hp : Population l ms) : ∀ m ∈ ms, m.WellFormed := by
  refine hp.forall_mem (fun _ _ => trivial) wellFormed_empty ?_ ?_ wellFormed_cleared ?_ ?_ ?_
  · exact fun m e l _ _ hw => (hw.insertEntry e l).1
  · exact fun m probe l hw => (hw.erase probe l).1
  · exact fun m metadata hw => hw.withMetadata metadata
  · exact fun m hw => hw.of_root_eq rfl rfl
  · exact fun m hw => hw.of_root_eq rfl rfl

/-- **Every map that can be made is well formed.** -/
theorem Reachable.wellFormed [BEq V] [HashEquiv V] (hm : m.Reachable) : m.WellFormed := by
  obtain ⟨l, ms, hp, hm⟩ := hm
  exact wellFormed_of_population hp m hm

end HashTrie.Map
