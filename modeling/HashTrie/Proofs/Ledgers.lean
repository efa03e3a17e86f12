import HashTrie.Map.Iteration
import HashTrie.Proofs.Kinds
import HashTrie.Proofs.Updates

/-!
# Ledgers of runs

`Stepped` lists all that a step of a run can do to the array nodes of a map and to the kind of its
root, with the events that the ledger gains by it. So a step gains one event at most. The ledger of
a run is balanced: what was promoted and not packed since are the array nodes of the trie
(`Balanced`). Nothing is assumed of the hash and the equivalence of the keys.
-/

namespace HashTrie

variable {K V : Type}

/-- Whether a bitmap node became an array node. -/
def Event.isPromotion : Event → Bool
  | .promoted .. => true
  | _ => false

/-- Whether an array node became a bitmap node. -/
def Event.isPacking : Event → Bool
  | .packed _ => true
  | _ => false

namespace Map

/-- The number of array nodes in the trie of a map. -/
def arrayNodes (m : Map K V) : Nat := m.node?.elim 0 Node.arrayNodes

/-- The number of slots or children of the root of a map. -/
def arity (m : Map K V) : Nat := m.node?.elim 0 Node.arity

/-- Whether the array nodes of a map are those that were promoted and not packed since. -/
def Balanced (m : Map K V) (l : Ledger) : Prop :=
  m.arrayNodes + l.events.countP Event.isPacking = l.events.countP Event.isPromotion

variable [HashEquiv K] {m m' : Map K V}

/-- What a step can do to the array nodes of a map and to its root, with the events that are
recorded. -/
inductive Stepped (m m' : Map K V) : Step K V → List Event → Prop where
  | silent {s : Step K V} : m'.shape = m.shape → m'.arrayNodes = m.arrayNodes → Stepped m m' s []
  /-- The first entry of a map gets a bitmap node. -/
  | first {e : Entry K V} : m'.shape = .node → m'.arity = 1 → m.shape = .empty →
    m'.arrayNodes = m.arrayNodes → Stepped m m' (.insert e) []
  | last {probe : Probe K} : m'.root = none → m'.arrayNodes = m.arrayNodes →
    Stepped m m' (.erase probe) []
  | collided {e : Entry K V} : m'.shape = m.shape → m'.arrayNodes = m.arrayNodes →
    m.count < m'.count → (withHash (HashEquiv.hash e.key) m.toList).length = 1 →
    Stepped m m' (.insert e) [.collided (HashEquiv.hash e.key)]
  | promoted {e : Entry K V} : m.shape = .node → m'.shape = .array → m'.arity = maxSlots + 1 →
    m'.arrayNodes = m.arrayNodes + 1 → m.count < m'.count →
    Stepped m m' (.insert e) [.promoted (shiftAt rootHeight) (maxSlots + 1)]
  | promotedBelow {e : Entry K V} {k : Nat} : 2 ≤ k → k < rootHeight → m'.shape = m.shape →
    m'.arrayNodes = m.arrayNodes + 1 → m.count < m'.count →
    Stepped m m' (.insert e) [.promoted (shiftAt k) (maxSlots + 1)]
  | packed {probe : Probe K} : m.shape = .array → m'.shape = .node → m'.arity = minChildren →
    m'.arrayNodes + 1 = m.arrayNodes → m'.count < m.count →
    Stepped m m' (.erase probe) [.packed minChildren]
  | packedBelow {probe : Probe K} : m'.shape = m.shape → m'.arrayNodes + 1 = m.arrayNodes →
    m'.count < m.count → Stepped m m' (.erase probe) [.packed minChildren]

/-! ## Steps -/

section Root

variable {root : Root K V}

omit [HashEquiv K] in
theorem shape_of_root_eq_none (hr : m.root = none) : m.shape = .empty := by
  simp [shape, node?, hr]

omit [HashEquiv K] in
theorem shape_eq_node (hr : m.root = some root) (hkind : root.node.isArray = false) :
    m.shape = .node := by
  simp [shape, node?, hr, hkind]

omit [HashEquiv K] in
theorem shape_eq_array (hr : m.root = some root) (hkind : root.node.isArray = true) :
    m.shape = .array := by
  simp [shape, node?, hr, hkind]

omit [HashEquiv K] in
theorem arrayNodes_of_root_eq_none (hr : m.root = none) : m.arrayNodes = 0 := by
  simp [arrayNodes, node?, hr]

omit [HashEquiv K] in
theorem arrayNodes_of_root_eq_some (hr : m.root = some root) :
    m.arrayNodes = root.node.arrayNodes := by
  simp [arrayNodes, node?, hr]

omit [HashEquiv K] in
theorem arity_of_root_eq_none (hr : m.root = none) : m.arity = 0 := by
  simp [arity, node?, hr]

omit [HashEquiv K] in
theorem arity_of_root_eq_some (hr : m.root = some root) : m.arity = root.node.arity := by
  simp [arity, node?, hr]

omit [HashEquiv K] in
/-- A root of the same kind. -/
theorem shape_withRoot (hr : m.root = some root) {node : Node K V}
    (hkind : node.isArray = root.node.isArray) (stamp count : Nat) :
    (m.withRoot (some ⟨stamp, node⟩) count).shape = m.shape := by
  simp [shape, node?, hr, hkind, withRoot]

omit [HashEquiv K] in
theorem arrayNodes_withRoot (m : Map K V) (stamp : Nat) (node : Node K V) (count : Nat) :
    (m.withRoot (some ⟨stamp, node⟩) count).arrayNodes = node.arrayNodes := rfl

end Root

section Insert

variable {e : Entry K V} {change : Insertion (Node K V)} {events : List Event}

theorem insertEntry_events [BEq V] (hi : m.tryInsert e = .ok ⟨change, events⟩) (l : Ledger) :
    (m.insertEntry e l).2.events = l.events ++ events := by
  unfold insertEntry
  rw [hi]
  cases change <;> rfl

/-- What an insertion does to the kinds of nodes it does to the map. -/
theorem WellFormed.stepped_insertion (hw : m.WellFormed) {root : Root K V}
    (hr : m.root = some root) (hg : root.node.GrowsBy e rootHeight change events) (stamp : Nat) :
    Stepped m (m.afterInsertion stamp change) (.insert e) events := by
  have hcount := arrayNodes_of_root_eq_some hr
  cases change with
  | kept =>
    rw [show events = [] from hg]
    exact .silent rfl rfl
  | overwrote node =>
    obtain ⟨rfl, hk⟩ := hg
    rw [afterInsertion]
    refine .silent (shape_withRoot hr hk.isArray_eq ..) ?_
    rw [arrayNodes_withRoot, hcount, hk.arrayNodes_eq]
  | added node =>
    have hlt : m.count < (m.withRoot (some ⟨stamp, node⟩) (m.count + 1)).count :=
      Nat.lt_succ_self _
    rw [afterInsertion]
    cases hg with
    | silent hk =>
      refine .silent (shape_withRoot hr hk.isArray_eq ..) ?_
      rw [arrayNodes_withRoot, hcount, hk.arrayNodes_eq]
    | collided hk hbucket hhash =>
      refine .collided (shape_withRoot hr hk.isArray_eq ..) ?_ hlt ?_
      · rw [arrayNodes_withRoot, hcount, hk.arrayNodes_eq]
      · -- every entry with the hash is in the bucket, and there is one
        rw [← hw.withHash_bucket, bucket_of_root_eq_some hr, hbucket, withHash_cons_of_eq hhash]
        rfl
    | promoted _ hbefore hafter harity harrays =>
      refine .promoted (shape_eq_node hr hbefore) (shape_eq_array rfl hafter) harity ?_ hlt
      rw [arrayNodes_withRoot, hcount, harrays]
    | promotedBelow hk hklt hkind harrays =>
      refine .promotedBelow hk hklt (shape_withRoot hr hkind ..) ?_ hlt
      rw [arrayNodes_withRoot, hcount, harrays]

/-- **An insertion is a step that records what it does.** -/
theorem WellFormed.exists_stepped_insert [BEq V] (hw : m.WellFormed) (e : Entry K V) (l : Ledger) :
    ∃ events, (m.insertEntry e l).2.events = l.events ++ events ∧
      Stepped m (m.insertEntry e l).1 (.insert e) events := by
  obtain ⟨change, events, hi, -⟩ := hw.exists_tryInsert_eq e
  refine ⟨events, insertEntry_events hi l, ?_⟩
  rw [insertEntry_fst hi]
  unfold tryInsert at hi
  cases hr : m.root with
  | none =>
    simp only [hr] at hi
    cases hi
    rw [afterInsertion]
    refine .first rfl rfl (shape_of_root_eq_none hr) ?_
    rw [arrayNodes_withRoot, arrayNodes_of_root_eq_none hr, Node.arrayNodes_leaf]
  | some root =>
    simp only [hr] at hi
    exact hw.stepped_insertion hr (Node.growsBy_of_insert (hw.root_node hr) hi) _

end Insert

section Erase

variable {probe : Probe K} {change : Erasure (Node K V)} {events : List Event}

omit [HashEquiv K] in
theorem erase_events (he : m.tryErase probe = .ok ⟨change, events⟩) (l : Ledger) :
    (m.erase probe l).2.events = l.events ++ events := by
  unfold erase
  rw [he]
  cases change <;> rfl

/-- What a removal does to the kinds of nodes it does to the map. -/
theorem stepped_erasure (hpos : 0 < m.count) {root : Root K V} (hr : m.root = some root)
    (hs : root.node.ShrinksBy change events) (stamp : Nat) :
    Stepped m (m.afterErasure stamp change) (.erase probe) events := by
  have hcount := arrayNodes_of_root_eq_some hr
  cases change with
  | absent =>
    rw [show events = [] from hs]
    exact .silent rfl rfl
  | emptied =>
    obtain ⟨rfl, hflat⟩ := hs
    exact .last rfl (hflat.symm.trans hcount.symm)
  | removed node =>
    have hlt : (m.withRoot (some ⟨stamp, node⟩) (m.count - 1)).count < m.count :=
      Nat.pred_lt_of_lt hpos
    rw [afterErasure]
    cases hs with
    | silent hk =>
      refine .silent (shape_withRoot hr hk.isArray_eq ..) ?_
      rw [arrayNodes_withRoot, hcount, hk.arrayNodes_eq]
    | packed hbefore hafter harity harrays =>
      refine .packed (shape_eq_array hr hbefore) (shape_eq_node rfl hafter) harity ?_ hlt
      rw [arrayNodes_withRoot, hcount, harrays]
    | packedBelow hkind harrays =>
      refine .packedBelow (shape_withRoot hr hkind ..) ?_ hlt
      rw [arrayNodes_withRoot, hcount, harrays]

/-- **A removal is a step that records what it does.** -/
theorem WellFormed.exists_stepped_erase (hw : m.WellFormed) (probe : Probe K) (l : Ledger) :
    ∃ events, (m.erase probe l).2.events = l.events ++ events ∧
      Stepped m (m.erase probe l).1 (.erase probe) events := by
  obtain ⟨change, events, he, -⟩ := hw.exists_tryErase_eq probe
  refine ⟨events, erase_events he l, ?_⟩
  rw [erase_fst he]
  unfold tryErase at he
  cases hr : m.root with
  | none =>
    simp only [hr] at he
    cases he
    exact .silent rfl rfl
  | some root =>
    obtain ⟨hcount, hnode⟩ := (wellFormed_of_root_eq_some hr).mp hw
    have hpos : 0 < m.count := hcount ▸ List.length_pos_of_ne_nil hnode.toList_ne_nil
    obtain ⟨change', events', herase, -⟩ := Node.exists_erase_eq probe hnode
    obtain ⟨n, hn⟩ : ∃ n, m.count = n + 1 := ⟨m.count - 1, by omega⟩
    have hsame : change' = change ∧ events' = events := by
      simp only [hr, herase, hn, bind, Except.bind] at he
      cases change' <;> cases he <;> exact ⟨rfl, rfl⟩
    obtain ⟨rfl, rfl⟩ := hsame
    exact stepped_erasure hpos hr (Node.shrinksBy_of_erase hnode herase) _

end Erase

variable [BEq V]

/-- **A step from a well-formed map leads to one, and does what `Stepped` lists.** -/
theorem WellFormed.exists_stepped (hw : m.WellFormed) (s : Step K V) (l : Ledger) :
    ∃ events, (m.edit s.edit l).2.events = l.events ++ events ∧
      Stepped m (m.edit s.edit l).1 s events := by
  cases s with
  | insert e => exact hw.exists_stepped_insert e l
  | erase probe => exact hw.exists_stepped_erase probe l

theorem WellFormed.step (hw : m.WellFormed) (s : Step K V) (l : Ledger) :
    (m.edit s.edit l).1.WellFormed := by
  cases s with
  | insert e => exact (hw.insertEntry e l).1
  | erase probe => exact (hw.erase probe l).1

/-! ## Balance -/

omit [BEq V] in
/-- A step that does what `Stepped` lists keeps the balance. -/
theorem Stepped.balanced {s : Step K V} {events : List Event} (hs : Stepped m m' s events)
    {l l' : Ledger} (hl : l'.events = l.events ++ events) (hb : m.Balanced l) : m'.Balanced l' := by
  unfold Balanced at *
  rw [hl, List.countP_append, List.countP_append]
  cases hs with
  | silent _ harrays => simpa [harrays] using hb
  | first _ _ _ harrays => simpa [harrays] using hb
  | last _ harrays => simpa [harrays] using hb
  | collided _ harrays =>
    show m'.arrayNodes + (l.events.countP Event.isPacking + 0) =
      l.events.countP Event.isPromotion + 0
    omega
  | promoted _ _ _ harrays =>
    show m'.arrayNodes + (l.events.countP Event.isPacking + 0) =
      l.events.countP Event.isPromotion + 1
    omega
  | promotedBelow _ _ _ harrays =>
    show m'.arrayNodes + (l.events.countP Event.isPacking + 0) =
      l.events.countP Event.isPromotion + 1
    omega
  | packed _ _ _ harrays =>
    show m'.arrayNodes + (l.events.countP Event.isPacking + 1) =
      l.events.countP Event.isPromotion + 0
    omega
  | packedBelow _ harrays =>
    show m'.arrayNodes + (l.events.countP Event.isPacking + 1) =
      l.events.countP Event.isPromotion + 0
    omega

/-- A run from a well-formed map keeps the balance. -/
theorem WellFormed.balanced_edits (hw : m.WellFormed) {l : Ledger} (hb : m.Balanced l)
    (steps : List (Step K V)) :
    (m.edits (steps.map Step.edit) l).1.WellFormed ∧
      (m.edits (steps.map Step.edit) l).1.Balanced (m.edits (steps.map Step.edit) l).2 := by
  induction steps generalizing m l with
  | nil => exact ⟨hw, hb⟩
  | cons s steps ih =>
    obtain ⟨events, hevents, hs⟩ := hw.exists_stepped s l
    exact ih (hw.step s l) (hs.balanced hevents hb)

theorem wellFormed_balanced_run (steps : List (Step K V)) :
    (run steps).1.WellFormed ∧ (run steps).1.Balanced (run steps).2 := by
  have hempty : (empty : Map K V).Balanced Ledger.empty := rfl
  exact wellFormed_empty.balanced_edits hempty steps

theorem edits_append (m : Map K V) (es es' : List (Edit K V)) (l : Ledger) :
    m.edits (es ++ es') l = (m.edits es l).1.edits es' (m.edits es l).2 := by
  induction es generalizing m l with
  | nil => rfl
  | cons e es ih => exact ih (m.edit e l).1 (m.edit e l).2

/-- A run with one more step. -/
theorem run_concat (steps : List (Step K V)) (s : Step K V) :
    run (steps ++ [s]) = (run steps).1.edit s.edit (run steps).2 := by
  rw [run, List.map_append, edits_append]
  rfl

/-- The last step of a run does what `Stepped` lists. -/
theorem exists_stepped_run (steps : List (Step K V)) (s : Step K V) :
    ∃ events, (run (steps ++ [s])).2.events = (run steps).2.events ++ events ∧
      Stepped (run steps).1 (run (steps ++ [s])).1 s events := by
  rw [run_concat]
  exact (wellFormed_balanced_run steps).1.exists_stepped s _

/-! ## The events of a step -/

/-- What a step may record: an insertion one promotion, or one collision with the only entry of its
hash; a removal one packing. -/
def Step.Records (m : Map K V) : Step K V → List Event → Prop
  | .insert e, events =>
    events = [] ∨ (∃ shift ∈ [0, 5, 10, 15, 20, 25], events = [.promoted shift 17]) ∨
      events = [.collided (HashEquiv.hash e.key)] ∧
        (withHash (HashEquiv.hash e.key) m.toList).length = 1
  | .erase _, events => events = [] ∨ events = [.packed 8]

theorem shiftAt_mem {k : Nat} (hk : 2 ≤ k) (hle : k ≤ rootHeight) :
    shiftAt k ∈ [0, 5, 10, 15, 20, 25] := by
  simp only [shiftAt, rootHeight, List.mem_cons, List.not_mem_nil] at hle ⊢
  omega

omit [BEq V] in
theorem Stepped.records {s : Step K V} {events : List Event} (hs : Stepped m m' s events) :
    s.Records m events := by
  cases hs with
  | silent => cases s <;> exact .inl rfl
  | first => exact .inl rfl
  | last => exact .inl rfl
  | collided _ _ _ hone => exact .inr (.inr ⟨rfl, hone⟩)
  | promoted => exact .inr (.inl ⟨_, shiftAt_mem (by decide) (le_refl _), rfl⟩)
  | promotedBelow hk hlt => exact .inr (.inl ⟨_, shiftAt_mem hk (le_of_lt hlt), rfl⟩)
  | packed => exact .inr rfl
  | packedBelow => exact .inr rfl

omit [BEq V] in
/-- A step that leaves the number of entries as it is records nothing. -/
theorem Stepped.eq_nil {s : Step K V} {events : List Event} (hs : Stepped m m' s events)
    (hcount : m'.count = m.count) : events = [] := by
  cases hs with
  | silent => rfl
  | first => rfl
  | last => rfl
  | collided _ _ hlt => omega
  | promoted _ _ _ _ hlt => omega
  | promotedBelow _ _ _ _ hlt => omega
  | packed _ _ _ _ hlt => omega
  | packedBelow _ _ hlt => omega

end Map

/-- **The ledger of a run.** After any run the array nodes are those promoted and not packed since,
and any further step adds one event at most, and none when the number of entries stays. -/
theorem ledger_run [HashEquiv K] [BEq V] (steps : List (Map.Step K V)) :
    (Map.run steps).1.Balanced (Map.run steps).2 ∧
      ∀ s : Map.Step K V, ∃ events,
        (Map.run (steps ++ [s])).2.events = (Map.run steps).2.events ++ events ∧
        s.Records (Map.run steps).1 events ∧
        ((Map.run (steps ++ [s])).1.count = (Map.run steps).1.count → events = []) := by
  refine ⟨(Map.wellFormed_balanced_run steps).2, fun s => ?_⟩
  obtain ⟨events, hevents, hs⟩ := Map.exists_stepped_run steps s
  exact ⟨events, hevents, hs.records, hs.eq_nil⟩

end HashTrie
