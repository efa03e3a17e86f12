import HashTrie.Proofs.Contracts
import HashTrie.Proofs.Extensionality
import HashTrie.Proofs.IterationOrder
import HashTrie.Proofs.NoOps
import HashTrie.Proofs.RoundTrip

/-!
# Keys and values from sets

Maps follow the dictionaries of their histories when the type of the keys keeps the contract and the
equality of the values is symmetric. Often this is known of some values of a type only: of maps, it
is known of those that were made together. But the members of a set are a type of their own, which
keeps the contract when the set does (`Contract.lawful_members`). So maps with keys from one set and
values from another follow their dictionaries, too (`followsDictionaries_of_contract`), and maps of
populations may be keys and values (`followsDictionaries_of_populations`).
-/

namespace HashTrie

variable {α β : Type}

/-- The members of a set hash and compare as they do outside of it. -/
instance [HashEquiv α] {p : α → Prop} : HashEquiv {a // p a} where
  hash a := HashEquiv.hash a.val
  equiv a b := equiv a.val b.val

theorem PartialEquivOn.swap {S : Set α} {r : α → α → Bool} (h : PartialEquivOn S r) :
    PartialEquivOn S fun a b => r b a where
  symm ha hb := h.symm hb ha
  trans ha hb hc hab hbc := h.trans hc hb ha hbc hab

variable [HashEquiv α] {S : Set α} {T : Set β}

/-- The members of a set that keeps the contract are a type that does. -/
theorem Contract.lawful_members (hS : Contract S) : LawfulHashEquiv S where
  hash_eq_of_equiv {a b} h := hS.hash_eq a.property b.property h

variable [BEq β]

theorem PartialEquivOn.symm_members (hT : PartialEquivOn T fun v w => v == w) (v w : T)
    (h : (v == w) = true) : (w == v) = true :=
  hT.symm v.property w.property h

variable [HashEquiv β]

/-- Whether maps with keys from one set and values from another follow the dictionaries of their
histories. -/
structure FollowsDictionaries (S : Set α) (T : Set β) : Prop where
  /-- After any run a map answers as the dictionary of the run does. -/
  answersAs : ∀ (es : List (Map.Edit S T)) (l : Ledger), (∀ e ∈ es, e.Lawful) →
    AnswersAs ((Map.empty : Map S T).edits es l).1 (Dictionary.edits [] es)
  /-- Its walk is the dictionary, sorted by slices. -/
  iteratesAs : ∀ (es : List (Map.Edit S T)) (l : Ledger), (∀ e ∈ es, e.Lawful) →
    IteratesAs ((Map.empty : Map S T).edits es l).1 (Dictionary.edits [] es)
  /-- Runs that end in the same entries, no two with one hash, end in the same order. -/
  toList_eq_of_perm : ∀ (es es' : List (Map.Edit S T)) (l l' : Ledger), (∀ e ∈ es, e.Lawful) →
    (∀ e ∈ es', e.Lawful) → (Dictionary.edits [] es).Perm (Dictionary.edits [] es') →
    DistinctHashes (Dictionary.edits [] es) →
    ((Map.empty : Map S T).edits es' l').1.toList = ((Map.empty : Map S T).edits es l).1.toList
  /-- Updates hand on the root when they change no entry, and only then. -/
  detectsNoOps : ∀ {l : Ledger} {ms : List (Map S T)}, Population l ms → ∀ m ∈ ms,
    m.DetectsNoOps l ∧ ∀ e, (m.insertEntry e l).1.sharesRoot m = true ↔
      ∃ old, m.find? (Probe.ofKey e.key) = some old ∧ (e.value == old.value) = true
  /-- Maps come back from their streams. -/
  roundTrips : ∀ m : Map S T, m.Reachable → m.RoundTrips

/-- **Maps over sets follow their dictionaries**, where the keys keep the contract and the equality
of the values is a partial equivalence. -/
theorem followsDictionaries_of_contract (hS : Contract S)
    (hT : PartialEquivOn T fun v w => v == w) : FollowsDictionaries S T := by
  have := hS.lawful_members
  have hsymm := hT.symm_members
  exact
    { answersAs := fun _ l hes => (refines_empty.edits hsymm hes l).answersAs
      iteratesAs := fun _ l hes => (refines_empty.edits hsymm hes l).iteratesAs
      toList_eq_of_perm := fun _ _ l l' hes hes' hperm hdistinct =>
        (refines_empty.edits hsymm hes l).toList_eq_of_perm (refines_empty.edits hsymm hes' l')
          hperm hdistinct
      detectsNoOps := fun hp m hm => by
        have hdetects := (Map.wellFormed_of_population hp m hm).detectsNoOps
          ((stamped_of_population hp).stamp_lt m hm)
        exact ⟨hdetects, hdetects.insertEntry_sharesRoot_iff hsymm⟩
      roundTrips := fun _ hm => hm.roundTrips }

/-! ## Maps as keys and values -/

section Populations

variable {K V K' V' : Type} [HashEquiv K] [BEq V] [HashEquiv V] [HashEquiv K'] [BEq V']
  [HashEquiv V'] {l l' : Ledger} {ms : List (Map K V)} {ns : List (Map K' V')}

/-- Among maps that were made together, equality is a partial equivalence where that of the values
is. -/
theorem partialEquivOn_beq_of_population {S : Set K} {T : Set V} (hp : Population l ms)
    (hS : Contract S) (hT : PartialEquivOn T fun v w => v == w) (hms : StoredIn S T ms) :
    PartialEquivOn {m | m ∈ ms} fun a b => a == b :=
  -- equality of maps has the other map's value on the left
  (coherent_of_population hp hS hms).partialEquivOn_agrees hS hT.swap

/-- **Maps may be keys and values**: with keys from one population and values from another, maps
follow their dictionaries. -/
theorem followsDictionaries_of_populations {S : Set K} {T : Set V} {S' : Set K'} {T' : Set V'}
    (hp : Population l ms) (hS : Contract S) (hT : Contract T) (hms : StoredIn S T ms)
    (hp' : Population l' ns) (hS' : Contract S') (hT' : PartialEquivOn T' fun v w => v == w)
    (hns : StoredIn S' T' ns) : FollowsDictionaries {m | m ∈ ms} {n | n ∈ ns} :=
  followsDictionaries_of_contract (contract_of_population hp hS hT hms)
    (partialEquivOn_beq_of_population hp' hS' hT' hns)

end Populations

/-- Maps that were filled in opposite orders are one key. -/
theorem contains_filledForwards :
    ∃ ms : List (Map Bool Bool), FollowsDictionaries {m | m ∈ ms} {m | m ∈ ms} ∧
      ∃ (ha : filledForwards.1 ∈ ms) (hb : filledBackwards.1 ∈ ms),
        ((Map.empty : Map {m // m ∈ ms} {m // m ∈ ms}).edits
          [.insert ⟨⟨filledBackwards.1, hb⟩, ⟨filledBackwards.1, hb⟩⟩] Ledger.empty).1.contains
            (Probe.ofKey ⟨filledForwards.1, ha⟩) = true := by
  obtain ⟨l, ms, hp, ha, hb⟩ := exists_population_filled
  have hms := storedIn_univ ms
  have hbeq : EquivOn (Set.univ : Set Bool) fun v w => v == w := equivOn_beq _
  have hfollows := followsDictionaries_of_populations hp contract_bool contract_bool hms hp
    contract_bool hbeq.toPartialEquivOn hms
  have hlawful := (contract_of_population hp contract_bool contract_bool hms).lawful_members
  have hanswers := hfollows.answersAs
    [.insert ⟨⟨filledBackwards.1, hb⟩, ⟨filledBackwards.1, hb⟩⟩] Ledger.empty
    (List.forall_mem_singleton.mpr trivial)
  refine ⟨ms, hfollows, ha, hb, ?_⟩
  rw [hanswers.contains_eq _ (lawful_ofKey _)]
  exact List.find?_isSome.mpr ⟨_, List.mem_cons_self, equiv_filled⟩

end HashTrie
