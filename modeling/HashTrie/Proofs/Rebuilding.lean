import HashTrie.Map.Stream
import HashTrie.Proofs.Frame
import HashTrie.Proofs.Population
import HashTrie.Proofs.Refinement
import HashTrie.Proofs.Search

/-!
# Rebuilding a map from its entries

A map that is built from the entries of another one, in the order of its walk, need not have the
same trie: what removals left behind in the trie is not made again. It has the same walk
(`Map.Reachable.restores_ofEntries`). The entries of one hash are put in one behind the other, so
they keep their order, provided that none of them meets an earlier one. This is so in every map that
can be made, since a key was once compared with all those of its hash that stand before it
(`freshKeys_of_population`). Only this direction of the test is known, and no other one is used.

Of a list with equivalent keys the last value counts (`Map.findsValue_ofEntries`).
-/

namespace HashTrie

variable {K V : Type} [HashEquiv K]

/-! ## Fresh keys -/

/-- Whether no key of a list is equivalent to one that stands before it. -/
def FreshKeys (l : List (Entry K V)) : Prop :=
  l.Pairwise fun x y => equiv y.key x.key = false

variable {e : Entry K V} {l l' : List (Entry K V)} {m m' : Map K V} {d : Dictionary K V}

theorem freshKeys_concat : FreshKeys (l ++ [e]) ↔
    FreshKeys l ∧ ∀ x ∈ l, equiv e.key x.key = false := by
  rw [FreshKeys, List.pairwise_append]
  simp [FreshKeys]

theorem FreshKeys.of_map_key_eq (hl : FreshKeys l) (h : l'.map Entry.key = l.map Entry.key) :
    FreshKeys l' :=
  pairwise_of_map_key_eq (R := fun a b => equiv b a = false) hl h

theorem SliceSorted.of_map_key_eq (hl : SliceSorted l) (h : l'.map Entry.key = l.map Entry.key) :
    SliceSorted l' :=
  pairwise_of_map_key_eq (R := fun a b => slices (HashEquiv.hash a) ≤ slices (HashEquiv.hash b))
    hl h

section Lawful

variable [LawfulHashEquiv K]

/-- Keys with different hashes do not meet, so the order of the groups plays no part. -/
theorem freshKeys_iff_withHash : FreshKeys l ↔ ∀ c, FreshKeys (withHash c l) := by
  refine ⟨fun hl c => hl.filter _, fun hgroups => ?_⟩
  induction l with
  | nil => exact .nil
  | cons x l ih =>
    refine List.pairwise_cons.mpr ⟨fun y hy => ?_, ih fun c => ?_⟩
    · have hgroup := hgroups (HashEquiv.hash x.key)
      rw [withHash_cons_of_eq rfl] at hgroup
      by_contra hequiv
      have hequiv : equiv y.key x.key = true := by simpa using hequiv
      have hin : y ∈ withHash (HashEquiv.hash x.key) l :=
        mem_withHash.mpr ⟨hy, LawfulHashEquiv.hash_eq_of_equiv hequiv⟩
      have hfresh : equiv y.key x.key = false := List.rel_of_pairwise_cons hgroup hin
      rw [hfresh] at hequiv
      cases hequiv
    · exact (hgroups c).sublist ((List.sublist_cons_self x l).filter _)

theorem FreshKeys.of_sameGroups (hl : FreshKeys l) (hg : SameGroups l' l) : FreshKeys l' := by
  rw [freshKeys_iff_withHash] at *
  exact fun c => hg c ▸ hl c

/-- An entry that is added stands behind all others, up to the order of the groups, and its key is
equivalent to none of theirs. -/
theorem sameGroups_of_adds [BEq V] (hw : m.WellFormed) {new : List (Entry K V)}
    (ha : Adds e (m.bucket (HashEquiv.hash e.key)) new)
    (hr : ReplacedAt rootHeight (HashEquiv.hash e.key) (m.bucket (HashEquiv.hash e.key)) new
      m.toList m'.toList) :
    SameGroups m'.toList (m.toList ++ [e]) ∧ ∀ x ∈ m.toList, equiv e.key x.key = false := by
  have hfresh := ha.fresh hw fun _ _ => LawfulHashEquiv.hash_eq_of_equiv
  have hgroups := hr.sameGroups (actsOn_insert e) ha.sameGroups
  rw [insert_eq_append hfresh] at hgroups
  exact ⟨hgroups, hfresh⟩

theorem FreshKeys.inserted [BEq V] (hm : FreshKeys m.toList) (hw : m.WellFormed)
    (hi : Map.Inserted e m m') : FreshKeys m'.toList := by
  cases hi with
  | kept => exact hm
  | overwrote hmeets _ hnew hreplaced =>
    exact hm.of_map_key_eq (hreplaced.map_key_eq (hnew ▸ hmeets.map_key_eq))
  | added hadds hreplaced =>
    obtain ⟨hgroups, hfresh⟩ := sameGroups_of_adds hw hadds hreplaced
    exact (freshKeys_concat.mpr ⟨hm, hfresh⟩).of_sameGroups hgroups

/-- **No key of a map is equivalent to one that its walk meets before.** -/
theorem freshKeys_of_population [BEq V] [HashEquiv V] {l : Ledger} {ms : List (Map K V)}
    (hp : Population l ms) : ∀ m ∈ ms, FreshKeys m.toList := by
  refine hp.forall_toList (Q := fun _ => True) (fun _ _ => trivial) .nil ?_
    fun he hm => hm.sublist he.sublist
  exact fun hw _ _ hi hm => hm.inserted hw hi

/-! ## Insertion of fresh keys -/

variable [BEq V]

/-- A fresh key is added, whatever its value is compared with. -/
theorem sameGroups_of_fresh (hw : m.WellFormed) (hfresh : ∀ x ∈ m.toList, equiv e.key x.key = false)
    (hi : Map.Inserted e m m') : SameGroups m'.toList (m.toList ++ [e]) := by
  have hmet : ∀ front old back, ¬ Meets e (m.bucket (HashEquiv.hash e.key)) front old back := by
    intro front old back hmeets
    obtain ⟨before, behind, hl, -⟩ := hmeets.exists_split hmeets.split (hw.replacedAt_bucket _)
    have hold := hfresh old (by simp [hl])
    rw [hmeets.equiv] at hold
    cases hold
  cases hi with
  | kept hmeets => exact absurd hmeets (hmet _ _ _)
  | overwrote hmeets => exact absurd hmeets (hmet _ _ _)
  | added hadds hreplaced => exact (sameGroups_of_adds hw hadds hreplaced).1

theorem Refines.insertEntry_of_fresh (h : Refines m d) (hfresh : ∀ x ∈ d, equiv e.key x.key = false)
    (l : Ledger) : Refines (m.insertEntry e l).1 (d ++ [e]) := by
  obtain ⟨hw, hi⟩ := h.wellFormed.insertEntry e l
  have hgroups := sameGroups_of_fresh h.wellFormed (fun x hx => hfresh x (h.sameGroups.mem hx)) hi
  refine ⟨hw, fun c => ?_⟩
  rw [hgroups c, withHash_append, withHash_append, h.sameGroups c]

/-- Fresh keys are put in one behind the other. -/
theorem Refines.insertAll_of_freshKeys (h : Refines m d) {es : List (Entry K V)}
    (hes : FreshKeys (d ++ es)) (l : Ledger) : Refines (m.insertAll es l).1 (d ++ es) := by
  induction es generalizing m d l with
  | nil =>
    rw [List.append_nil]
    exact h
  | cons e es ih =>
    rw [List.append_cons] at hes ⊢
    have hd := hes.sublist (List.sublist_append_left (d ++ [e]) es)
    exact ih (h.insertEntry_of_fresh (freshKeys_concat.mp hd).2 l) hes _

end Lawful

/-- A map with the groups of a sorted list has this list as its walk. -/
theorem Refines.toList_eq (h : Refines m d) (hd : SliceSorted d) : m.toList = d :=
  eq_of_sameGroups h.wellFormed.sliceSorted hd h.sameGroups

/-! ## Maps with one walk -/

/-- Whether a map has the walk of another one, and answers what depends on the walk alone as it
does. -/
structure Map.Restores [HashEquiv V] (m m' : Map K V) : Prop where
  /-- The entries are the same in the same order, also those with one hash. -/
  toList_eq : m'.toList = m.toList
  count_eq : m'.count = m.count
  hash_eq : m'.hash = m.hash
  pairHash_eq : m'.pairHash = m.pairHash
  stream_eq : m'.stream = m.stream

namespace Map

variable [BEq V] [HashEquiv V]

/-- Building a map of some entries is possible at any time. -/
theorem reachable_ofEntries (es : List (Entry K V)) (l : Ledger) :
    (ofEntries es l).1.Reachable := by
  have hp : Population l ([] : List (Map K V)) := Population.start.elsewhere (Nat.zero_le _)
  obtain ⟨ms, hp', hm, -⟩ := hp.empty.insertAll List.mem_cons_self es
  exact ⟨_, ms, hp', hm⟩

theorem Reachable.remembersOwn (hm : m.Reachable) : m.RemembersOwn := by
  obtain ⟨l, ms, hp, hm⟩ := hm
  exact remembersOwn_of_population hp m hm

theorem Reachable.freshKeys [LawfulHashEquiv K] (hm : m.Reachable) : FreshKeys m.toList := by
  obtain ⟨l, ms, hp, hm⟩ := hm
  exact freshKeys_of_population hp m hm

/-- Maps with one walk answer alike what depends on the walk alone. -/
theorem Reachable.restores_of_toList_eq (hm : m.Reachable) (hm' : m'.Reachable)
    (hl : m'.toList = m.toList) : m.Restores m' where
  toList_eq := hl
  count_eq := by rw [hm'.wellFormed.count_eq, hm.wellFormed.count_eq, hl]
  hash_eq := by rw [hm'.remembersOwn.hash, hm.remembersOwn.hash, hl]
  pairHash_eq := by rw [hm'.remembersOwn.pairHash, hm.remembersOwn.pairHash, hl]
  stream_eq := by rw [stream, stream, hm'.wellFormed.count_eq, hm.wellFormed.count_eq, hl]

/-- **A map that is built from the walk of another one has the same walk**, whatever history the
other one has. -/
theorem Reachable.restores_ofEntries [LawfulHashEquiv K] (hm : m.Reachable) (l : Ledger) :
    m.Restores (ofEntries m.toList l).1 := by
  have hr : Refines (ofEntries m.toList l).1 m.toList :=
    refines_empty.insertAll_of_freshKeys hm.freshKeys l
  exact hm.restores_of_toList_eq (reachable_ofEntries m.toList l)
    (hr.toList_eq hm.wellFormed.sliceSorted)

end Map

/-! ## The last value counts -/

/-- Whether the key of an entry finds its value in a map, or one that equals it either way round;
such a value is not replaced. -/
def FindsValue [BEq V] (e : Entry K V) (m : Map K V) : Prop :=
  ∃ x, m.find? (Probe.ofKey e.key) = some x ∧ equiv e.key x.key = true ∧
    (x.value = e.value ∨ (x.value == e.value) = true ∨ (e.value == x.value) = true)

variable [BEq V]

theorem findsValue_of_insertsOne (hself : equiv e.key e.key = true) (hi : InsertsOne e m m') :
    FindsValue e m' := by
  cases hi with
  | kept before behind old _ hequiv hsame _ hfind => exact ⟨old, hfind, hequiv, .inr hsame.symm⟩
  | overwrote before behind old _ hequiv _ _ hfind => exact ⟨_, hfind, hequiv, .inl rfl⟩
  | added before behind _ _ _ hfind => exact ⟨e, hfind hself, hself, .inl rfl⟩

section Lawful

variable [LawfulHashEquiv K]

/-- What a probe finds is left alone by keys that are equivalent to no key that it accepts. -/
theorem find?_of_inserted {probe : Probe K} (hp : probe.Lawful) (hw : m.WellFormed)
    (hw' : m'.WellFormed) (hi : Map.Inserted e m m')
    (hapart : ∀ k, probe.accepts k = true → equiv e.key k = false) {x : Entry K V}
    (hfind : m.find? probe = some x) : m'.find? probe = some x := by
  rw [Refines.find?_eq ⟨hw, .refl _⟩ hp] at hfind
  cases hi with
  | kept =>
    rw [Refines.find?_eq ⟨hw, .refl _⟩ hp]
    exact hfind
  | @overwrote _ _ _ old hmeets _ hnew hreplaced =>
    have hold : probe.accepts old.key = false := by
      by_contra hacc
      have hnot := hapart old.key (by simpa using hacc)
      rw [hmeets.equiv] at hnot
      cases hnot
    obtain ⟨before, behind, hl, hl'⟩ := hmeets.exists_split hnew hreplaced
    rw [Refines.find?_eq ⟨hw', .refl _⟩ hp, hl']
    rw [hl] at hfind
    simpa [Dictionary.find?, List.find?_append, List.find?_cons, hold] using hfind
  | added hadds hreplaced =>
    rw [Refines.find?_eq ⟨hw', (sameGroups_of_adds hw hadds hreplaced).1⟩ hp]
    unfold Dictionary.find? at *
    rw [List.find?_append, hfind, Option.some_or]

theorem FindsValue.insertAll (hw : m.WellFormed) (h : FindsValue e m) {es : List (Entry K V)}
    (hes : ∀ y ∈ es, ∀ k, equiv e.key k = true → equiv y.key k = false) (l : Ledger) :
    FindsValue e (m.insertAll es l).1 := by
  induction es generalizing m l with
  | nil => exact h
  | cons y es ih =>
    obtain ⟨hy, hes⟩ := List.forall_mem_cons.mp hes
    obtain ⟨x, hfind, hx⟩ := h
    obtain ⟨hw', hi⟩ := hw.insertEntry y l
    exact ih hw' ⟨x, find?_of_inserted (lawful_ofKey e.key) hw hw' hi hy hfind, hx⟩ hes _

/-- **Of the values of a key the last one counts.** -/
theorem findsValue_ofEntries {before after : List (Entry K V)} (hself : equiv e.key e.key = true)
    (hafter : ∀ y ∈ after, ∀ k, equiv e.key k = true → equiv y.key k = false) (l : Ledger) :
    FindsValue e (Map.ofEntries (before ++ e :: after) l).1 := by
  have hw := Map.wellFormed_empty.insertAll before l
  obtain ⟨hw', hi⟩ := hw.insertEntry e (Map.empty.insertAll before l).2
  rw [Map.ofEntries, Map.insertAll_append]
  exact (findsValue_of_insertsOne hself (insertsOne_of_inserted hw hw' hi)).insertAll hw' hafter _

end Lawful

end HashTrie
