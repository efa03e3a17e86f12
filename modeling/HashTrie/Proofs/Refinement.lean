import HashTrie.Proofs.Order
import HashTrie.Proofs.Runs

/-!
# Maps and dictionaries

Under the contract between hash and equivalence, a map answers every question as the dictionary of
its history does (`answersAs_of_edits`). The two are related by `Refines`: the map is well formed,
and its list has the groups of the dictionary. One edit keeps them related (`Refines.edit`), so a
run does.

The equality of values is asked one way round in one kind of node and the other way round in
another, so a dictionary can only follow when the equality is symmetric, as a partial equivalence
has to be. Contract and symmetry are asked of whole types here; where only the members of a set are
known to have them, these are taken for the type (`followsDictionaries_of_contract`).
-/

namespace HashTrie

variable {K V : Type} [HashEquiv K]

/-- Whether the probe of a removal is lawful. -/
def Map.Edit.Lawful : Map.Edit K V → Prop
  | .erase probe => probe.Lawful
  | _ => True

/-- Whether a map answers every question as a dictionary does. -/
structure AnswersAs [BEq V] (m : Map K V) (d : Dictionary K V) : Prop where
  /-- A lookup meets no fault and finds the first accepted entry of the dictionary. -/
  tryFind_eq : ∀ probe : Probe K, probe.Lawful → m.tryFind probe = .ok (d.find? probe)
  find?_eq : ∀ probe : Probe K, probe.Lawful → m.find? probe = d.find? probe
  get?_eq : ∀ probe : Probe K, probe.Lawful → m.get? probe = (d.find? probe).map Entry.value
  getD_eq : ∀ (probe : Probe K) (default : V), probe.Lawful →
    m.getD probe default = ((d.find? probe).map Entry.value).getD default
  contains_eq : ∀ probe : Probe K, probe.Lawful → m.contains probe = (d.find? probe).isSome
  count_eq : m.count = d.length
  isEmpty_eq : m.isEmpty = d.isEmpty
  /-- A key of the dictionary is refused as a new one. -/
  insertNew_of_isSome : ∀ (key : K) (value : V) (l : Ledger),
    (d.find? (Probe.ofKey key)).isSome = true →
      m.insertNew key value l = (.error .keyPresent, l)
  /-- Any other key is inserted. -/
  insertNew_of_isNone : ∀ (key : K) (value : V) (l : Ledger),
    (d.find? (Probe.ofKey key)).isSome = false →
      m.insertNew key value l = (.ok (m.insert key value l).1, (m.insert key value l).2)

/-- Whether a map is well formed and has the entries of a dictionary, hash by hash. -/
structure Refines (m : Map K V) (d : Dictionary K V) : Prop where
  wellFormed : m.WellFormed
  sameGroups : SameGroups m.toList d

theorem refines_empty : Refines (Map.empty : Map K V) [] :=
  ⟨Map.wellFormed_empty, by rw [Map.toList_empty]; exact .refl []⟩

variable {m m' : Map K V} {d : Dictionary K V}

/-! ## Questions -/

theorem Refines.tryFind_eq (h : Refines m d) {probe : Probe K} (hp : probe.Lawful) :
    m.tryFind probe = .ok (d.find? probe) := by
  rw [h.wellFormed.tryFind_eq probe]
  congr 1
  calc (m.bucket probe.hash).find? (fun e => probe.accepts e.key)
      = Dictionary.find? (withHash probe.hash (m.bucket probe.hash)) probe :=
        (find?_withHash hp _).symm
    _ = Dictionary.find? (withHash probe.hash d) probe := by
        rw [h.wellFormed.withHash_bucket, h.sameGroups]
    _ = d.find? probe := find?_withHash hp d

theorem Refines.find?_eq (h : Refines m d) {probe : Probe K} (hp : probe.Lawful) :
    m.find? probe = d.find? probe := by
  rw [Map.find?, h.tryFind_eq hp]

theorem Refines.contains_eq (h : Refines m d) {probe : Probe K} (hp : probe.Lawful) :
    m.contains probe = (d.find? probe).isSome := by
  rw [Map.contains, h.find?_eq hp]

theorem Refines.count_eq (h : Refines m d) : m.count = d.length := by
  rw [h.wellFormed.count_eq, h.sameGroups.perm.length_eq]

theorem Refines.answersAs [BEq V] [LawfulHashEquiv K] (h : Refines m d) : AnswersAs m d where
  tryFind_eq _ hp := h.tryFind_eq hp
  find?_eq _ hp := h.find?_eq hp
  get?_eq _ hp := by rw [Map.get?, h.find?_eq hp]
  getD_eq _ _ hp := by rw [Map.getD, Map.get?, h.find?_eq hp]
  contains_eq _ hp := h.contains_eq hp
  count_eq := h.count_eq
  isEmpty_eq := by
    rw [Map.isEmpty, h.count_eq]
    cases d <;> rfl
  insertNew_of_isSome key value l hd :=
    Map.insertNew_of_contains ((h.contains_eq (lawful_ofKey key)).trans hd) value l
  insertNew_of_isNone key value l hd :=
    Map.insertNew_of_not_contains ((h.contains_eq (lawful_ofKey key)).trans hd) value l

/-! ## Edits -/

theorem sameGroups_of_erased {probe : Probe K} (hw : m.WellFormed) (hp : probe.Lawful)
    (he : Map.Erased probe m m') : SameGroups m'.toList (Dictionary.erase probe m.toList) := by
  cases he with
  | absent hnone =>
    refine (hw.replacedAt_bucket probe.hash).sameGroups (actsOn_erase hp) ?_
    rw [erase_eq_self hnone]
    exact .refl _
  | removed _ hreplaced => exact hreplaced.sameGroups (actsOn_erase hp) (.refl _)

/-- An entry put behind its group is at the end of the dictionary, up to the order of the groups. -/
theorem Adds.sameGroups [BEq V] [LawfulHashEquiv K] {e : Entry K V} {l l' : List (Entry K V)}
    (ha : Adds e l l') : SameGroups l' (Dictionary.insert e l) := by
  obtain ⟨front, back, rfl, rfl, hfresh, hback⟩ := ha
  intro c
  by_cases hc : c = HashEquiv.hash e.key
  · subst hc
    have hgroup : withHash (HashEquiv.hash e.key) (front ++ back) =
        withHash (HashEquiv.hash e.key) front := by
      rw [withHash_append, withHash_eq_nil hback, List.append_nil]
    have hfresh' : ∀ x ∈ withHash (HashEquiv.hash e.key) (front ++ back),
        equiv e.key x.key = false := by
      intro x hx
      obtain ⟨hx, hhash⟩ := mem_withHash.mp hx
      exact hfresh x hx hhash
    rw [(actsOn_insert e).at_hash, insert_eq_append hfresh', hgroup, withHash_append,
      withHash_cons_of_eq rfl, withHash_eq_nil hback]
  · rw [(actsOn_insert e).off_hash c _ hc, withHash_append, withHash_append,
      withHash_cons_of_ne (Ne.symm hc)]

theorem sameGroups_of_inserted [BEq V] [LawfulHashEquiv K]
    (hsymm : ∀ v w : V, (v == w) = true → (w == v) = true) {e : Entry K V} (hw : m.WellFormed)
    (hi : Map.Inserted e m m') : SameGroups m'.toList (Dictionary.insert e m.toList) := by
  cases hi with
  | kept hmeets hsame =>
    have heq : (e.value == _) = true := hsame.elim id (hsymm _ _)
    refine (hw.replacedAt_bucket _).sameGroups (actsOn_insert e) ?_
    rw [hmeets.insert_eq, if_pos heq, ← hmeets.split]
    exact .refl _
  | @overwrote _ _ _ old hmeets hne hnew hreplaced =>
    have hne' : ¬ (e.value == old.value) = true := by
      intro heq
      rcases hne with hne | hne
      · simp [heq] at hne
      · simp [hsymm _ _ heq] at hne
    refine hreplaced.sameGroups (actsOn_insert e) ?_
    rw [hmeets.insert_eq, if_neg hne', hnew]
    exact .refl _
  | added hadds hreplaced => exact hreplaced.sameGroups (actsOn_insert e) hadds.sameGroups

theorem Refines.erase (h : Refines m d) {probe : Probe K} (hp : probe.Lawful) (l : Ledger) :
    Refines (m.erase probe l).1 (d.erase probe) := by
  obtain ⟨hw, he⟩ := h.wellFormed.erase probe l
  exact ⟨hw, (sameGroups_of_erased h.wellFormed hp he).trans
    ((actsOn_erase hp).sameGroups h.sameGroups)⟩

section Edits

variable [BEq V] [LawfulHashEquiv K] (hsymm : ∀ v w : V, (v == w) = true → (w == v) = true)

include hsymm

theorem Refines.insertEntry (h : Refines m d) (e : Entry K V) (l : Ledger) :
    Refines (m.insertEntry e l).1 (d.insert e) := by
  obtain ⟨hw, hi⟩ := h.wellFormed.insertEntry e l
  exact ⟨hw, (sameGroups_of_inserted hsymm h.wellFormed hi).trans
    ((actsOn_insert e).sameGroups h.sameGroups)⟩

theorem Refines.insertAll (h : Refines m d) (es : List (Entry K V)) (l : Ledger) :
    Refines (m.insertAll es l).1 (d.insertAll es) := by
  induction es generalizing m d l with
  | nil => exact h
  | cons e es ih => exact ih (h.insertEntry hsymm e l) _

/-- **One edit keeps a map and a dictionary related.** -/
theorem Refines.edit (h : Refines m d) {e : Map.Edit K V} (he : e.Lawful) (l : Ledger) :
    Refines (m.edit e l).1 (d.edit e) := by
  cases e with
  | insert e => exact h.insertEntry hsymm e l
  | insertNew e =>
    have hc := h.contains_eq (lawful_ofKey e.key)
    rw [Dictionary.edit, ← hc]
    cases hin : m.contains (Probe.ofKey e.key) with
    | true =>
      rw [Map.edit_insertNew_of_contains hin]
      exact h
    | false =>
      rw [Map.edit_insertNew_of_not_contains hin]
      exact h.insertEntry hsymm e l
  | erase probe => exact h.erase he l
  | insertAll es => exact h.insertAll hsymm es l
  | ofEntries es => exact refines_empty.insertAll hsymm es l

/-- A run keeps a map and a dictionary related. -/
theorem Refines.edits (h : Refines m d) {es : List (Map.Edit K V)} (hes : ∀ e ∈ es, e.Lawful)
    (l : Ledger) : Refines (m.edits es l).1 (d.edits es) := by
  induction es generalizing m d l with
  | nil => exact h
  | cons e es ih =>
    obtain ⟨he, hes⟩ := List.forall_mem_cons.mp hes
    exact ih (h.edit hsymm he l) hes _

/-- **After any run a map answers as the dictionary of the run does.** -/
theorem answersAs_of_edits {es : List (Map.Edit K V)} (hes : ∀ e ∈ es, e.Lawful) (l : Ledger) :
    AnswersAs ((Map.empty : Map K V).edits es l).1 (Dictionary.edits [] es) :=
  (refines_empty.edits hsymm hes l).answersAs

end Edits

instance : LawfulHashEquiv Bool where
  hash_eq_of_equiv h := congrArg HashEquiv.hash (eq_of_beq h)

instance : LawfulHashEquiv String where
  hash_eq_of_equiv h := congrArg HashEquiv.hash (eq_of_beq h)

/-- A run with a bound key, a refused one and a removed one. -/
theorem answersAs_edits_strings :
    (∀ e ∈ ([.ofEntries [⟨"a", 1⟩, ⟨"b", 2⟩], .insert ⟨"a", 3⟩, .insertNew ⟨"a", 4⟩,
        .erase (Probe.ofKey "b")] : List (Map.Edit String Nat)), e.Lawful) ∧
      (∀ v w : Nat, (v == w) = true → (w == v) = true) ∧
      AnswersAs ((Map.empty : Map String Nat).edits [.ofEntries [⟨"a", 1⟩, ⟨"b", 2⟩],
        .insert ⟨"a", 3⟩, .insertNew ⟨"a", 4⟩, .erase (Probe.ofKey "b")] Ledger.empty).1
        [⟨"a", 3⟩] := by
  have hes : ∀ e ∈ ([.ofEntries [⟨"a", 1⟩, ⟨"b", 2⟩], .insert ⟨"a", 3⟩, .insertNew ⟨"a", 4⟩,
      .erase (Probe.ofKey "b")] : List (Map.Edit String Nat)), e.Lawful := by
    simp [Map.Edit.Lawful, lawful_ofKey]
  have hsymm : ∀ v w : Nat, (v == w) = true → (w == v) = true := fun _ _ => BEq.symm
  exact ⟨hes, hsymm, answersAs_of_edits hsymm hes Ledger.empty⟩

end HashTrie
