import HashTrie.Proofs.Frame
import HashTrie.Proofs.Handled
import HashTrie.Proofs.Refinement
import HashTrie.Value.Scalar

/-!
# Updates that change nothing

An update hands on the root of a map exactly when it changes no entry: an insertion when the key
leads to an entry with an equal value, and a removal when the probe finds nothing. Then it hands on
the map itself and records nothing, so the map that comes back compares equal to the one that was
there, even where values are not equal to themselves. Otherwise the root is another one, and one
entry is replaced, put in or taken out (`detectsNoOps_of_population`).
-/

namespace HashTrie

variable {K V : Type}

/-! ## Updates by their outcome -/

namespace Map

variable {m m' : Map K V} {l l' : Ledger}

/-- What an insertion makes of a map and a ledger. -/
inductive InsertsTo [HashEquiv K] [BEq V] (e : Entry K V) (m : Map K V) (l : Ledger) :
    Map K V × Ledger → Prop where
  /-- The key leads to an entry with an equal value: nothing changes. In a collision node it is the
  stored value that is asked whether it equals the new one. -/
  | kept {old : Entry K V} : m.find? (Probe.ofKey e.key) = some old →
    (e.value == old.value) = true ∨ (old.value == e.value) = true → InsertsTo e m l (m, l)
  /-- The key leads to an entry with another value, which is replaced. -/
  | overwrote {m' : Map K V} {l' : Ledger} {old : Entry K V} (before behind : List (Entry K V)) :
    m.find? (Probe.ofKey e.key) = some old →
    (e.value == old.value) = false ∨ (old.value == e.value) = false →
    m'.sharesRoot m = false → m.toList = before ++ old :: behind →
    m'.toList = before ++ { old with value := e.value } :: behind → m'.count = m.count →
    m'.find? (Probe.ofKey e.key) = some { old with value := e.value } → InsertsTo e m l (m', l')
  /-- The key leads to no entry, and the new entry is put in. -/
  | added {m' : Map K V} {l' : Ledger} (before behind : List (Entry K V)) :
    m.find? (Probe.ofKey e.key) = none → m'.sharesRoot m = false →
    m.toList = before ++ behind → m'.toList = before ++ e :: behind → m'.count = m.count + 1 →
    InsertsTo e m l (m', l')

/-- What a removal makes of a map and a ledger. -/
inductive ErasesTo (probe : Probe K) (m : Map K V) (l : Ledger) : Map K V × Ledger → Prop where
  /-- The probe finds nothing: nothing changes. -/
  | absent : m.find? probe = none → ErasesTo probe m l (m, l)
  /-- The found entry is taken out. -/
  | removed {m' : Map K V} {l' : Ledger} {e : Entry K V} (before behind : List (Entry K V)) :
    m.find? probe = some e → m'.sharesRoot m = false → m.toList = before ++ e :: behind →
    m'.toList = before ++ behind → m'.count + 1 = m.count → ErasesTo probe m l (m', l')

theorem ledger_eq (hevents : l'.events = l.events) (hnext : l'.nextStamp = l.nextStamp) :
    l' = l := by
  obtain ⟨next, events⟩ := l
  obtain ⟨next', events'⟩ := l'
  cases hevents
  cases hnext
  rfl

section Insert

variable [HashEquiv K] {e : Entry K V}

/-- Under the contract a key that is new to its bucket is found nowhere. -/
theorem find?_of_adds [LawfulHashEquiv K] (hw : m.WellFormed) {new : List (Entry K V)}
    (hadds : Adds e (m.bucket (HashEquiv.hash e.key)) new) :
    m.find? (Probe.ofKey e.key) = none := by
  obtain ⟨-, -, -, -, hfresh, -⟩ := hadds
  rw [hw.find?_eq, List.find?_eq_none]
  intro x hx hacc
  have hequiv : equiv e.key x.key = true := hacc
  rw [hfresh x hx (LawfulHashEquiv.hash_eq_of_equiv hequiv).symm] at hequiv
  cases hequiv

variable [BEq V]

/-- An insertion into the trie keeps it for one reason only. -/
theorem WellFormed.exists_meets (hw : m.WellFormed) {events : List Event}
    (hi : m.tryInsert e = .ok ⟨.kept, events⟩) :
    ∃ front old back, Meets e (m.bucket (HashEquiv.hash e.key)) front old back ∧
      ((e.value == old.value) = true ∨ (old.value == e.value) = true) := by
  rw [tryInsert] at hi
  cases hr : m.root with
  | none =>
    rw [hr] at hi
    cases hi
  | some root =>
    rw [hr] at hi
    obtain ⟨change, events', hinsert, hspec⟩ :=
      Node.exists_insert_eq (e := e) (hw.root_node hr) fun x _ => agree_root _ _
    obtain ⟨rfl, -⟩ := Traced.mk.inj (Except.ok.inj (hinsert.symm.trans hi))
    rw [bucket_of_root_eq_some hr]
    exact hspec

theorem InsertsTo.of_inserted [LawfulHashEquiv K] (hw : m.WellFormed) (hw' : m'.WellFormed)
    (hi : Inserted e m m') (hs : m'.sharesRoot m = false) (l' : Ledger) :
    InsertsTo e m l (m', l') := by
  cases hi with
  | kept => simp at hs
  | overwrote hmeets hne hnew hreplaced =>
    obtain ⟨before, behind, hl, hl'⟩ := hmeets.exists_split hnew hreplaced
    refine .overwrote before behind (find?_of_meets hw hmeets) hne hs hl hl' ?_
      (find?_of_bucket hw' hnew hmeets.first hmeets.equiv)
    rw [hw.count_eq, hw'.count_eq, hl, hl', List.length_append, List.length_append]
    rfl
  | added hadds hreplaced =>
    obtain ⟨before, behind, hl, hl'⟩ := hadds.exists_split hreplaced
    refine .added before behind (find?_of_adds hw hadds) hs hl hl' ?_
    rw [hw.count_eq, hw'.count_eq, hl, hl', List.length_append, List.length_append]
    rfl

/-- **What an insertion makes of a map and a ledger.** -/
theorem WellFormed.insertsTo [LawfulHashEquiv K] (hw : m.WellFormed)
    (hm : m.StampBelow l.nextStamp) (e : Entry K V) : InsertsTo e m l (m.insertEntry e l) := by
  obtain ⟨change, events, hi, hspec⟩ := hw.exists_tryInsert_eq e
  obtain ⟨hw', hinserted⟩ := hspec l.nextStamp
  have hfst := insertEntry_fst hi l
  have hpair : m.insertEntry e l = (m.afterInsertion l.nextStamp change, (m.insertEntry e l).2) :=
    Prod.ext hfst rfl
  rw [hpair]
  cases change with
  | kept =>
    obtain ⟨front, old, back, hmeets, heq⟩ := hw.exists_meets hi
    obtain ⟨events', hl, hstepped⟩ := hw.exists_stepped_insert e l
    obtain rfl := hstepped.eq_nil (congrArg count hfst)
    have hnext : (m.insertEntry e l).2.nextStamp = l.nextStamp := by
      rw [Map.insertEntry, hi]
      rfl
    have hledger : (m.insertEntry e l).2 = l := ledger_eq (hl.trans (List.append_nil _)) hnext
    rw [hledger]
    exact .kept (find?_of_meets hw hmeets) heq
  | overwrote node =>
    exact .of_inserted hw hw' hinserted (hm.sharesRoot_eq_false node _) _
  | added node =>
    exact .of_inserted hw hw' hinserted (hm.sharesRoot_eq_false node _) _

end Insert

section Erase

variable [HashEquiv K] {probe : Probe K}

/-- A removal from the trie leaves it as it is for one reason only. -/
theorem WellFormed.find?_eq_none (hw : m.WellFormed) {events : List Event}
    (he : m.tryErase probe = .ok ⟨.absent, events⟩) : m.find? probe = none := by
  rw [hw.find?_eq, List.find?_eq_none]
  cases hr : m.root with
  | none => simp [bucket_of_root_eq_none hr]
  | some root =>
    obtain ⟨change, events', herase, hspec⟩ := Node.exists_erase_eq probe (hw.root_node hr)
    obtain ⟨rfl, -⟩ := Traced.mk.inj (Except.ok.inj (herase.symm.trans (hw.erase_root_eq hr he)))
    rw [bucket_of_root_eq_some hr]
    intro x hx
    simpa using hspec x hx

theorem ErasesTo.of_erased (hw : m.WellFormed) (hw' : m'.WellFormed) (he : Erased probe m m')
    (hs : m'.sharesRoot m = false) (l' : Ledger) : ErasesTo probe m l (m', l') := by
  have hframe := erasesFound_of_erased hw hw' he
  unfold ErasesFound at hframe
  cases hfind : m.find? probe with
  | none =>
    rw [hfind] at hframe
    simp [hframe] at hs
  | some e =>
    rw [hfind] at hframe
    obtain ⟨before, behind, hl, hl', hcount⟩ := hframe
    exact .removed before behind hfind hs hl hl' hcount

/-- **What a removal makes of a map and a ledger.** -/
theorem WellFormed.erasesTo (hw : m.WellFormed) (hm : m.StampBelow l.nextStamp)
    (probe : Probe K) : ErasesTo probe m l (m.erase probe l) := by
  obtain ⟨change, events, he, hspec⟩ := hw.exists_tryErase_eq probe
  obtain ⟨hw', herased⟩ := hspec l.nextStamp
  have hfst := erase_fst he l
  have hpair : m.erase probe l = (m.afterErasure l.nextStamp change, (m.erase probe l).2) :=
    Prod.ext hfst rfl
  rw [hpair]
  cases change with
  | absent =>
    obtain ⟨events', hl, hstepped⟩ := hw.exists_stepped_erase probe l
    obtain rfl := hstepped.eq_nil (congrArg count hfst)
    have hnext : (m.erase probe l).2.nextStamp = l.nextStamp := by
      rw [Map.erase, he]
      rfl
    have hledger : (m.erase probe l).2 = l := ledger_eq (hl.trans (List.append_nil _)) hnext
    rw [hledger]
    exact .absent (hw.find?_eq_none he)
  | emptied =>
    have hsome : m.root ≠ none := by
      intro hr
      rw [tryErase, hr] at he
      cases he
    refine .of_erased hw hw' herased ?_ _
    rw [afterErasure, sharesRoot, beq_eq_false_iff_ne]
    exact fun heq => hsome (Option.map_eq_none_iff.mp heq.symm)
  | removed node =>
    exact .of_erased hw hw' herased (hm.sharesRoot_eq_false node _) _

end Erase

/-! ## What the outcome says about the root -/

variable [HashEquiv K] [BEq V]

theorem InsertsTo.sharesRoot_iff (hsymm : ∀ v w : V, (v == w) = true → (w == v) = true)
    {e : Entry K V} {p : Map K V × Ledger} (h : InsertsTo e m l p) :
    p.1.sharesRoot m = true ↔
      ∃ old, m.find? (Probe.ofKey e.key) = some old ∧ (e.value == old.value) = true := by
  cases h with
  | kept hfind heq =>
    exact ⟨fun _ => ⟨_, hfind, heq.elim id (hsymm _ _)⟩, fun _ => m.sharesRoot_self⟩
  | overwrote before behind hfind hne hs =>
    refine ⟨fun hshare => by simp [hs] at hshare, fun ⟨old, hold, heq⟩ => ?_⟩
    obtain rfl := Option.some.inj (hfind.symm.trans hold)
    simp [heq, hsymm _ _ heq] at hne
  | added before behind hfind hs =>
    refine ⟨fun hshare => by simp [hs] at hshare, fun ⟨old, hold, _⟩ => ?_⟩
    simp [hfind] at hold

omit [HashEquiv K] [BEq V] in
theorem ErasesTo.sharesRoot_iff {probe : Probe K} {p : Map K V × Ledger}
    (h : ErasesTo probe m l p) : p.1.sharesRoot m = true ↔ m.find? probe = none := by
  cases h with
  | absent hfind => exact ⟨fun _ => hfind, fun _ => m.sharesRoot_self⟩
  | removed before behind hfind hs => simp [hs, hfind]

end Map

/-! ## Detection -/

/-- Whether an update handed back the map itself, and recorded nothing. The two maps compare equal
and equivalent either way round, whatever their values are. -/
structure Map.Unchanged [HashEquiv K] [BEq V] [HashEquiv V] (m : Map K V) (l : Ledger)
    (p : Map K V × Ledger) : Prop where
  ledger_eq : p.2 = l
  count_eq : p.1.count = m.count
  metadata_eq : p.1.metadata = m.metadata
  toList_eq : p.1.toList = m.toList
  beq : (p.1 == m) = true ∧ (m == p.1) = true
  equiv : equiv p.1 m = true ∧ equiv m p.1 = true

theorem Map.unchanged_self [HashEquiv K] [BEq V] [HashEquiv V] (m : Map K V) (l : Ledger) :
    m.Unchanged l (m, l) where
  ledger_eq := rfl
  count_eq := rfl
  metadata_eq := rfl
  toList_eq := rfl
  beq := ⟨m.agrees_self _, m.agrees_self _⟩
  equiv := ⟨m.agrees_self _, m.agrees_self _⟩

/-- Whether the updates of a map tell by the root whether they have changed an entry. -/
structure Map.DetectsNoOps [HashEquiv K] [BEq V] [HashEquiv V] (m : Map K V) (l : Ledger) :
    Prop where
  /-- Where equality of the values is symmetric, it does not matter which value is asked. -/
  insertEntry_sharesRoot_iff : (∀ v w : V, (v == w) = true → (w == v) = true) →
    ∀ e, (m.insertEntry e l).1.sharesRoot m = true ↔
      ∃ old, m.find? (Probe.ofKey e.key) = some old ∧ (e.value == old.value) = true
  insertEntry_unchanged : ∀ e, (m.insertEntry e l).1.sharesRoot m = true →
    m.Unchanged l (m.insertEntry e l)
  insertsTo : ∀ e, InsertsTo e m l (m.insertEntry e l)
  erase_sharesRoot_iff : ∀ probe, (m.erase probe l).1.sharesRoot m = true ↔ m.find? probe = none
  erase_unchanged : ∀ probe, (m.erase probe l).1.sharesRoot m = true →
    m.Unchanged l (m.erase probe l)
  erasesTo : ∀ probe, ErasesTo probe m l (m.erase probe l)

/-- Whether the updates of a map with handles make the maps that the updates of the map make, with
the same events, and tell by the handle of the root what those tell by the stamp. -/
structure Handled.DetectsNoOps [HashEquiv K] [BEq V] (a : Handled K V) (next : Nat) (m : Map K V)
    (l : Ledger) : Prop where
  insertEntry : ∀ e, ∃ b events after, a.insertEntry e next = .ok (⟨b, events⟩, after) ∧
    b.Shows after (m.insertEntry e l).1 ∧ (m.insertEntry e l).2.events = l.events ++ events ∧
    b.sharesRoot a = (m.insertEntry e l).1.sharesRoot m
  erase : ∀ probe, ∃ b events after, a.erase probe next = .ok (⟨b, events⟩, after) ∧
    b.Shows after (m.erase probe l).1 ∧ (m.erase probe l).2.events = l.events ++ events ∧
    b.sharesRoot a = (m.erase probe l).1.sharesRoot m

section Detection

variable [HashEquiv K] [BEq V] {m : Map K V} {l : Ledger} (hw : m.WellFormed)
  (hm : m.StampBelow l.nextStamp)

include hw hm

theorem Map.WellFormed.detectsNoOps [LawfulHashEquiv K] [HashEquiv V] : m.DetectsNoOps l where
  insertEntry_sharesRoot_iff hsymm e := (hw.insertsTo hm e).sharesRoot_iff hsymm
  insertEntry_unchanged e hs := by
    have h := hw.insertsTo hm e
    generalize m.insertEntry e l = p at h hs
    cases h with
    | kept => exact m.unchanged_self l
    | overwrote _ _ _ _ hne => simp [hne] at hs
    | added _ _ _ hne => simp [hne] at hs
  insertsTo := hw.insertsTo hm
  erase_sharesRoot_iff probe := (hw.erasesTo hm probe).sharesRoot_iff
  erase_unchanged probe hs := by
    have h := hw.erasesTo hm probe
    generalize m.erase probe l = p at h hs
    cases h with
    | absent => exact m.unchanged_self l
    | removed _ _ _ hne => simp [hne] at hs
  erasesTo := hw.erasesTo hm

theorem Handled.Shows.detectsNoOps {next : Nat} {a : Handled K V} (hs : a.Shows next m) :
    a.DetectsNoOps next m l where
  insertEntry e := by
    obtain ⟨b, events, after, hresult, hevents, hfollows⟩ := hs.exists_insertEntry_eq hw hm e
    exact ⟨b, events, after, hresult, hfollows.shows, hevents, hfollows.sharesRoot_eq⟩
  erase probe := by
    obtain ⟨b, events, after, hresult, hevents, hfollows⟩ := hs.exists_erase_eq hw hm probe
    exact ⟨b, events, after, hresult, hfollows.shows, hevents, hfollows.sharesRoot_eq⟩

end Detection

/-- **Updates that change nothing are told apart by the root.** In any population an update of a map
hands on the root exactly when it changes no entry, whether the root is told apart by its stamp or
by a handle that is compared at every node. -/
theorem detectsNoOps_of_population [HashEquiv K] [LawfulHashEquiv K] [BEq V] [HashEquiv V]
    {l : Ledger} {ms : List (Map K V)} (hp : Population l ms) :
    ∀ m ∈ ms, m.DetectsNoOps l ∧ (∃ next a, Handled.Shows next a m) ∧
      ∀ next a, Handled.Shows next a m → a.DetectsNoOps next m l := by
  intro m hm
  have hw := Map.wellFormed_of_population hp m hm
  have hstamp : m.StampBelow l.nextStamp := (stamped_of_population hp).stamp_lt m hm
  exact ⟨hw.detectsNoOps hstamp, m.exists_shows, fun next a hs => hs.detectsNoOps hw hstamp⟩

/-! ### A map whose value is equal to nothing -/

theorem Scalar.same_symm (v w : Scalar) (h : v.same w = true) : w.same v = true := by
  fun_cases same v w with
  | case1 => rfl
  | case15 => simp_all [same]
  | _ => exact BEq.symm h

theorem Scalar.beq_symm (v w : Scalar) (h : (v == w) = true) : (w == v) = true := by
  cases v <;> cases w <;> first | exact same_symm _ _ h | skip
  obtain ⟨hnames, htag⟩ := Bool.and_eq_true_iff.mp h
  obtain ⟨hname, hhash⟩ := Bool.and_eq_true_iff.mp hnames
  refine Bool.and_eq_true_iff.mpr ⟨Bool.and_eq_true_iff.mpr ⟨?_, ?_⟩, ?_⟩
  · exact BEq.symm hname
  · exact BEq.symm hhash
  · exact BEq.symm htag

/-- The map of one key, whose value is equal to nothing. -/
def unequalMap : Map Bool Scalar × Ledger :=
  Map.empty.insertEntry ⟨true, .unequal 1⟩ Ledger.empty

/-- A removal of another key hands on the root, and the maps are equal. An insertion of the same
value does not, since the value is not equal to itself. -/
theorem detectsNoOps_unequalMap :
    Population unequalMap.2 [unequalMap.1, (Map.empty : Map Bool Scalar)] ∧
      (unequalMap.1.erase (Probe.ofKey false) unequalMap.2).1.sharesRoot unequalMap.1 = true ∧
      ((unequalMap.1.erase (Probe.ofKey false) unequalMap.2).1 == unequalMap.1) = true ∧
      (unequalMap.1.insertEntry ⟨true, .unequal 1⟩ unequalMap.2).1.sharesRoot unequalMap.1 =
        false := by
  have hp : Population unequalMap.2 [unequalMap.1, (Map.empty : Map Bool Scalar)] :=
    Population.start.empty.insert (V := Scalar) ⟨true, .unequal 1⟩ List.mem_cons_self
  obtain ⟨hdetects, -, -⟩ :=
    detectsNoOps_of_population hp unequalMap.1 List.mem_cons_self
  have hfind : unequalMap.1.find? (Probe.ofKey false) = none := by decide +kernel
  have hshares := (hdetects.erase_sharesRoot_iff (Probe.ofKey false)).mpr hfind
  refine ⟨hp, hshares, (hdetects.erase_unchanged _ hshares).beq.1, ?_⟩
  rw [← Bool.not_eq_true, hdetects.insertEntry_sharesRoot_iff Scalar.beq_symm]
  rintro ⟨old, hold, heq⟩
  have hfound : unequalMap.1.find? (Probe.ofKey true) = some ⟨true, .unequal 1⟩ := rfl
  obtain rfl := Option.some.inj (hfound.symm.trans hold)
  cases heq

end HashTrie
