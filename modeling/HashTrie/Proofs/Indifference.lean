import HashTrie.Map.Stream
import HashTrie.Map.Text
import HashTrie.Proofs.Sessions
import HashTrie.Value.Scalar

/-!
# Metadata does not interfere

Taking the metadata off all maps commutes with every action (`step_bare`). So two sessions that do
the same, and differ only in the metadata that they attach, answer the same and record the same
events, and lead to maps that answer every question alike, but for the metadata itself
(`indifferent_of_alike`).
-/

namespace HashTrie

variable {K V : Type}

namespace Map

/-- The map without its metadata. -/
def bare (m : Map K V) : Map K V := { m with metadata := none }

variable {m m' : Map K V}

section Updates

variable [HashEquiv K] [BEq V]

theorem insertEntry_bare (m : Map K V) (e : Entry K V) (l : Ledger) :
    m.bare.insertEntry e l = ((m.insertEntry e l).1.bare, (m.insertEntry e l).2) := by
  have htry : m.bare.tryInsert e = m.tryInsert e := rfl
  unfold insertEntry
  rw [htry]
  rcases m.tryInsert e with _ | ⟨change, events⟩
  · rfl
  · cases change <;> rfl

omit [HashEquiv K] [BEq V] in
theorem erase_bare (m : Map K V) (probe : Probe K) (l : Ledger) :
    m.bare.erase probe l = ((m.erase probe l).1.bare, (m.erase probe l).2) := by
  have htry : m.bare.tryErase probe = m.tryErase probe := rfl
  unfold erase
  rw [htry]
  rcases m.tryErase probe with _ | ⟨change, events⟩
  · rfl
  · cases change <;> rfl

theorem insertAll_bare (m : Map K V) (es : List (Entry K V)) (l : Ledger) :
    m.bare.insertAll es l = ((m.insertAll es l).1.bare, (m.insertAll es l).2) := by
  induction es generalizing m l with
  | nil => rfl
  | cons e es ih =>
    show (m.bare.insertEntry e l).1.insertAll es (m.bare.insertEntry e l).2 = _
    rw [insertEntry_bare, ih]
    rfl

theorem bare_withMetadata (m : Map K V) (metadata : Option (Map K V)) :
    (m.withMetadata metadata).bare = m.bare := by
  unfold withMetadata
  split <;> rfl

theorem insertNew_bare (m : Map K V) (key : K) (value : V) (l : Ledger) :
    m.bare.insertNew key value l =
      ((m.insertNew key value l).1.map bare, (m.insertNew key value l).2) := by
  have hsame : m.bare.contains (Probe.ofKey key) = m.contains (Probe.ofKey key) := rfl
  cases hc : m.contains (Probe.ofKey key) with
  | true =>
    rw [insertNew_of_contains hc, insertNew_of_contains (hsame.trans hc)]
    rfl
  | false =>
    rw [insertNew_of_not_contains hc, insertNew_of_not_contains (hsame.trans hc), insert, insert,
      insertEntry_bare]
    rfl

theorem adjoinListAs_bare (asValue : K → V) (m : Map K V) (elements : List K) (l : Ledger) :
    m.bare.adjoinListAs asValue elements l =
      ((m.adjoinListAs asValue elements l).1.map bare,
        (m.adjoinListAs asValue elements l).2) := by
  unfold adjoinListAs
  split
  · show (Except.ok (m.bare.insertEntry _ l).1, (m.bare.insertEntry _ l).2) = _
    rw [insertEntry_bare]
    rfl
  · rfl

end Updates

end Map

/-! ## Sessions -/

namespace Session

/-- The update, attaching no metadata. -/
def Update.bare : Update K V → Update K V
  | .withMetadata _ => .withMetadata none
  | u => u

/-- The action, attaching no metadata. -/
def Action.bare : Action K V → Action K V
  | .update place u => .update place u.bare
  | a => a

/-- Whether an action does not look at metadata. -/
def Action.Plain : Action K V → Prop
  | .takeMetadata _ => False
  | .hash _ depth => depth = 0
  | .pairHash _ depth => depth = 0
  | _ => True

variable {ms : List (Map K V)}

theorem mapAt_bare (ms : List (Map K V)) (place : Nat) :
    mapAt (ms.map Map.bare) place = (mapAt ms place).bare := by
  unfold mapAt
  rw [List.getElem?_map]
  cases ms[place]? <;> rfl

section Bare

variable [HashEquiv K] [BEq V]

theorem Addend.addTo_bare (addend : Addend K V) (ms : List (Map K V)) (m : Map K V) (l : Ledger) :
    addend.addTo (ms.map Map.bare) m.bare l =
      ((addend.addTo ms m l).1.map Map.bare, (addend.addTo ms m l).2) := by
  cases addend with
  | entry e =>
    show (Except.ok (m.bare.insertEntry e l).1, (m.bare.insertEntry e l).2) = _
    rw [Map.insertEntry_bare]
    rfl
  | list asValue elements => exact Map.adjoinListAs_bare asValue m elements l
  | map place =>
    rw [addTo, mapAt_bare]
    show (Except.ok (m.bare.insertAll _ l).1, (m.bare.insertAll _ l).2) = _
    rw [Map.insertAll_bare]
    rfl
  | seq place steps =>
    have hseq : (mapAt (ms.map Map.bare) place).seqAfter? steps =
        (mapAt ms place).seqAfter? steps := by
      rw [mapAt_bare]
      rfl
    rw [addTo, addTo, hseq]
    cases (mapAt ms place).seqAfter? steps with
    | none => rfl
    | some s =>
      show (Except.ok (m.bare.insertAll _ l).1, (m.bare.insertAll _ l).2) = _
      rw [Map.insertAll_bare]
      rfl

/-- **Taking the metadata off all maps commutes with an update.** -/
theorem Update.apply_bare (u : Update K V) (ms : List (Map K V)) (m : Map K V) (l : Ledger) :
    u.bare.apply (ms.map Map.bare) m.bare l =
      ((u.apply ms m l).1.map Map.bare, (u.apply ms m l).2) := by
  cases u with
  | insert e =>
    show (Except.ok (m.bare.insertEntry e l).1, (m.bare.insertEntry e l).2) = _
    rw [Map.insertEntry_bare]
    rfl
  | insertNew e => exact Map.insertNew_bare m e.key e.value l
  | erase probe =>
    show (Except.ok (m.bare.erase probe l).1, (m.bare.erase probe l).2) = _
    rw [Map.erase_bare]
    rfl
  | insertAll es =>
    show (Except.ok (m.bare.insertAll es l).1, (m.bare.insertAll es l).2) = _
    rw [Map.insertAll_bare]
    rfl
  | adjoin addend => exact addend.addTo_bare ms m l
  | copy => rfl
  | cleared => rfl
  | withMetadata place =>
    show (Except.ok m.bare, l) = (Except.ok (m.withMetadata _).bare, l)
    rw [Map.bare_withMetadata]

variable [HashEquiv V]

/-- Taking the metadata off all maps commutes with an action that does not look at it. -/
theorem step_bare (ms : List (Map K V)) {a : Action K V} (ha : a.Plain) (l : Ledger) :
    step (ms.map Map.bare) a.bare l =
      (((step ms a l).1.1.map Map.bare, (step ms a l).1.2), (step ms a l).2) := by
  cases a with
  | create es =>
    have hbare : ((Map.ofEntries es l).1 : Map K V).bare = (Map.ofEntries es l).1 :=
      (congrArg Prod.fst (Map.insertAll_bare Map.empty es l)).symm
    show step (ms.map Map.bare) (.create es) l = _
    rw [step_create, step_create, List.map_append, List.map_singleton, hbare]
  | update place u =>
    have hu := u.apply_bare ms (mapAt ms place) l
    rw [← mapAt_bare] at hu
    rcases happly : u.apply ms (mapAt ms place) l with ⟨e | m, l'⟩
    · rw [happly] at hu
      rw [Action.bare, step_update_of_error happly, step_update_of_error hu]
    · rw [happly] at hu
      rw [Action.bare, step_update_of_ok happly, step_update_of_ok hu, List.map_append]
      rfl
  | takeMetadata place => exact absurd ha id
  | hash place depth =>
    obtain rfl : depth = 0 := ha
    show step (ms.map Map.bare) (.hash place 0) l = _
    rw [step_hash, step_hash, mapAt_bare, List.map_set]
    rfl
  | pairHash place depth =>
    obtain rfl : depth = 0 := ha
    show step (ms.map Map.bare) (.pairHash place 0) l = _
    rw [step_pairHash, step_pairHash, mapAt_bare, List.map_set]
    rfl

/-- **Taking the metadata off all maps commutes with a session.** -/
theorem run_bare (ms : List (Map K V)) {as : List (Action K V)} (has : ∀ a ∈ as, a.Plain)
    (l : Ledger) :
    run (ms.map Map.bare) (as.map Action.bare) l =
      (((run ms as l).1.1.map Map.bare, (run ms as l).1.2), (run ms as l).2) := by
  induction as generalizing ms l with
  | nil => rfl
  | cons a as ih =>
    obtain ⟨ha, has⟩ := List.forall_mem_cons.mp has
    rw [List.map_cons, run_cons, run_cons, step_bare ms ha, ih _ has]

end Bare

/-- Whether two actions are the same, up to the metadata that they attach, and look at no
metadata. -/
inductive Action.Alike : Action K V → Action K V → Prop where
  | create (es : List (Entry K V)) : Alike (.create es) (.create es)
  | update (place : Nat) (u : Update K V) : Alike (.update place u) (.update place u)
  | withMetadata (place : Nat) (metadata metadata' : Option Nat) :
    Alike (.update place (.withMetadata metadata)) (.update place (.withMetadata metadata'))
  | hash (place : Nat) : Alike (.hash place 0) (.hash place 0)
  | pairHash (place : Nat) : Alike (.pairHash place 0) (.pairHash place 0)

theorem Action.Alike.plain {a b : Action K V} (h : Alike a b) : a.Plain ∧ b.Plain := by
  cases h with
  | hash => exact ⟨rfl, rfl⟩
  | pairHash => exact ⟨rfl, rfl⟩
  | _ => exact ⟨trivial, trivial⟩

theorem Action.Alike.bare_eq {a b : Action K V} (h : Alike a b) : a.bare = b.bare := by
  cases h <;> rfl

theorem plain_and_bare_eq_of_forall₂ {as bs : List (Action K V)}
    (h : List.Forall₂ Action.Alike as bs) :
    (∀ a ∈ as, a.Plain) ∧ (∀ b ∈ bs, b.Plain) ∧ as.map Action.bare = bs.map Action.bare := by
  induction h with
  | nil => simp
  | cons hab _ ih =>
    obtain ⟨has, hbs, hbare⟩ := ih
    exact ⟨List.forall_mem_cons.mpr ⟨hab.plain.1, has⟩, List.forall_mem_cons.mpr ⟨hab.plain.2, hbs⟩,
      by rw [List.map_cons, List.map_cons, hab.bare_eq, hbare]⟩

end Session

/-! ## Questions -/

variable [HashEquiv K] [BEq V] [HashEquiv V]

/-- Whether two maps answer every question alike. A cursor, an iterator or a sequence that is the
same answers all calls alike. -/
structure Map.AnswersAlike (m m' : Map K V) : Prop where
  find?_eq : ∀ probe, m.find? probe = m'.find? probe
  get?_eq : ∀ probe, m.get? probe = m'.get? probe
  getD_eq : ∀ probe default, m.getD probe default = m'.getD probe default
  contains_eq : ∀ probe, m.contains probe = m'.contains probe
  count_eq : m.count = m'.count
  isEmpty_eq : m.isEmpty = m'.isEmpty
  shape_eq : m.shape = m'.shape
  toList_eq : m.toList = m'.toList
  keys_eq : m.keys = m'.keys
  values_eq : m.values = m'.values
  cursor_eq : m.cursor = m'.cursor
  nestedIter_eq : m.nestedIter = m'.nestedIter
  iter_eq : m.iter = m'.iter
  seqAfter?_eq : ∀ n, m.seqAfter? n = m'.seqAfter? n
  seqIter_eq : m.seqIter = m'.seqIter
  fold_eq : ∀ (A : Type) (f : A → Entry K V → A) (start : A), m.fold f start = m'.fold f start
  reduce?_eq : ∀ f, m.reduce? f = m'.reduce? f
  inspect_eq : ∀ [Inspect K] [Inspect V], inspect m = inspect m'
  stream_eq : m.stream = m'.stream
  hash_eq : m.hash = m'.hash
  pairHash_eq : m.pairHash = m'.pairHash

omit [BEq V] in
/-- No question looks at the metadata. -/
theorem Map.answersAlike_of_bare_eq {m m' : Map K V} (h : m.bare = m'.bare) :
    AnswersAlike m m' := by
  obtain ⟨_, count, root, hashCache, pairHashCache⟩ := m
  obtain ⟨_, count', root', hashCache', pairHashCache'⟩ := m'
  simp only [bare, mk.injEq, true_and] at h
  obtain ⟨rfl, rfl, rfl, rfl⟩ := h
  constructor <;> intros <;> rfl

omit [HashEquiv V] in
theorem Map.beq_bare (m o : Map K V) : (m.bare == o.bare) = (m == o) := rfl

omit [BEq V] in
theorem Map.equiv_bare (m o : Map K V) : equiv m.bare o.bare = equiv m o := rfl

namespace Session

/-- Whether two sessions answer alike: in the actions, in the events, and in all questions that can
be asked of their maps. -/
structure Indifferent (r r' : (List (Map K V) × List Reply) × Ledger) : Prop where
  replies_eq : r.1.2 = r'.1.2
  ledger_eq : r.2 = r'.2
  length_eq : r.1.1.length = r'.1.1.length
  answersAlike : ∀ i, (mapAt r.1.1 i).AnswersAlike (mapAt r'.1.1 i)
  beq_eq : ∀ i j, (mapAt r.1.1 i == mapAt r.1.1 j) = (mapAt r'.1.1 i == mapAt r'.1.1 j)
  equiv_eq : ∀ i j,
    equiv (mapAt r.1.1 i) (mapAt r.1.1 j) = equiv (mapAt r'.1.1 i) (mapAt r'.1.1 j)

/-- Sessions that are alike become one session when the metadata is taken off. -/
theorem indifferent_of_forall₂ {as bs : List (Action K V)} (h : List.Forall₂ Action.Alike as bs)
    (l : Ledger) : Indifferent (run ([] : List (Map K V)) as l) (run [] bs l) := by
  obtain ⟨has, hbs, hbare⟩ := plain_and_bare_eq_of_forall₂ h
  have hruns := run_bare [] has l
  rw [hbare, run_bare [] hbs l] at hruns
  obtain ⟨hfst, hledger⟩ := Prod.mk.inj hruns
  obtain ⟨hmaps, hreplies⟩ := Prod.mk.inj hfst
  have hat : ∀ i, (mapAt (run [] bs l).1.1 i).bare = (mapAt (run [] as l).1.1 i).bare := by
    intro i
    rw [← mapAt_bare, hmaps, mapAt_bare]
  refine ⟨hreplies.symm, hledger.symm, ?_, fun i => Map.answersAlike_of_bare_eq (hat i).symm,
    fun i j => ?_, fun i j => ?_⟩
  · simpa using congrArg List.length hmaps.symm
  · rw [← Map.beq_bare, ← hat, ← hat, Map.beq_bare]
  · rw [← Map.equiv_bare, ← hat, ← hat, Map.equiv_bare]

end Session

/-! ## Metadata is carried -/

/-- Whether the metadata of a map is handed on to the maps that are made from it, and attaching
metadata attaches what was asked for, or what is equal to it. -/
structure Map.CarriesMetadata (m : Map K V) : Prop where
  apply_eq : ∀ (ms : List (Map K V)) (u : Session.Update K V) (l : Ledger) (m' : Map K V),
    (∀ place, u ≠ .withMetadata place) → (u.apply ms m l).1 = .ok m' → m'.metadata = m.metadata
  /-- However many updates there are. -/
  applyAll_eq : ∀ (ms : List (Map K V)) (us : List (Session.Update K V)) (l : Ledger),
    (∀ u ∈ us, ∀ place, u ≠ .withMetadata place) →
      (Session.applyAll ms m us l).1.metadata = m.metadata
  withMetadata_eq_none_iff : ∀ metadata, (m.withMetadata metadata).metadata = none ↔ metadata = none
  withMetadata_some : ∀ d, ∃ d', (m.withMetadata (some d)).metadata = some d' ∧ (d' == d) = true

omit [HashEquiv V] in
theorem Map.exists_metadata_withMetadata (m d : Map K V) :
    ∃ d', (m.withMetadata (some d)).metadata = some d' ∧ (d' == d) = true := by
  unfold withMetadata hasMetadata
  cases hm : m.metadata with
  | none => exact ⟨d, rfl, agrees_self _ d⟩
  | some current =>
    dsimp only
    split
    · next heq => exact ⟨current, hm, heq⟩
    · exact ⟨d, rfl, agrees_self _ d⟩

omit [HashEquiv V] in
theorem Map.metadata_withMetadata_none (m : Map K V) : (m.withMetadata none).metadata = none := by
  unfold withMetadata hasMetadata
  cases hm : m.metadata with
  | none => exact hm
  | some current => rfl

omit [HashEquiv V] in
theorem Map.carriesMetadata (m : Map K V) : m.CarriesMetadata where
  apply_eq _ _ _ _ hu hm' := Session.Update.metadata_eq hu hm'
  applyAll_eq _ _ l hus := Session.metadata_applyAll hus l
  withMetadata_eq_none_iff metadata := by
    cases metadata with
    | none => simp [m.metadata_withMetadata_none]
    | some d =>
      obtain ⟨d', hd', -⟩ := m.exists_metadata_withMetadata d
      simp [hd']
  withMetadata_some d := m.exists_metadata_withMetadata d

/-- **Metadata is carried and does not interfere.** Sessions that differ only in the metadata that
they attach answer alike, step by step and in all questions but for the metadata, with the same
events; and every map hands its metadata on. -/
theorem indifferent_of_alike {as bs : List (Session.Action K V)}
    (h : List.Forall₂ Session.Action.Alike as bs) (l : Ledger) :
    Session.Indifferent (Session.run [] as l) (Session.run [] bs l) ∧
      ∀ m : Map K V, m.CarriesMetadata :=
  ⟨Session.indifferent_of_forall₂ h l, Map.carriesMetadata⟩

/-- Of two sessions, one attaches a map as metadata and the other attaches none. -/
theorem indifferent_tagged :
    let tagged (metadata : Option Nat) : List (Session.Action Bool Scalar) :=
      [.create [⟨true, .unequal 1⟩], .create [⟨false, .nil⟩],
        .update 0 (.withMetadata metadata), .update 2 (.adjoin (.map 1)), .hash 3 0]
    List.Forall₂ Session.Action.Alike (tagged (some 1)) (tagged none) ∧
      Session.Indifferent (Session.run [] (tagged (some 1)) Ledger.empty)
        (Session.run [] (tagged none) Ledger.empty) ∧
      ((Session.mapAt (Session.run [] (tagged (some 1)) Ledger.empty).1.1 3).metadata.map
        Map.count) = some 1 ∧
      ((Session.mapAt (Session.run [] (tagged none) Ledger.empty).1.1 3).metadata.map
        Map.count) = none := by
  intro tagged
  have halike : List.Forall₂ Session.Action.Alike (tagged (some 1)) (tagged none) :=
    .cons (.create _) (.cons (.create _) (.cons (.withMetadata _ _ _) (.cons (.update _ _)
      (.cons (.hash _) .nil))))
  exact ⟨halike, (indifferent_of_alike halike Ledger.empty).1, by decide +kernel, by decide +kernel⟩

end HashTrie
