import HashTrie.Proofs.Contracts
import HashTrie.Proofs.Extensionality
import HashTrie.Value.Basic

/-!
# The contract through any nesting

Whatever is put together from parts that keep the contract keeps it (`KeepsContract`), and so do
values of any depth over scalars that keep it (`Value.Made`): one layer after the other, each with
its own maps and cells. So maps may be keys of maps. Scalars keep the contract unless two pinned
ones share a name and not the hash (`contract_scalars`).
-/

namespace HashTrie

/-! ## Scalars -/

namespace Scalar

theorem eq_of_same {a b : Scalar} (h : a.same b = true) : a = b := by
  unfold same at h
  split at h
  case h_15 => cases h
  all_goals simp_all

/-- Equivalent scalars are the same, or are pinned under one name. -/
theorem eq_or_pinned_of_equiv {a b : Scalar} (h : equiv a b = true) :
    a = b ∨ ∃ name hash tag hash' tag',
      a = .pinned name hash tag ∧ b = .pinned name hash' tag' := by
  simp only [equiv] at h
  split at h
  · next name hash tag name' hash' tag' =>
    obtain rfl := eq_of_beq h
    exact .inr ⟨name, hash, tag, hash', tag', rfl, rfl⟩
  · next m n =>
    obtain rfl := eq_of_beq h
    exact .inl rfl
  · exact .inl (eq_of_same h)

end Scalar

/-- **Scalars keep the contract**, unless two pinned ones share a name and not the hash. -/
theorem contract_scalars {base : Set Scalar}
    (hpinned : ∀ name hash tag hash' tag', Scalar.pinned name hash tag ∈ base →
      Scalar.pinned name hash' tag' ∈ base → hash = hash') : Contract base where
  symm {a b} _ _ hab := by
    rcases Scalar.eq_or_pinned_of_equiv hab with rfl | ⟨name, hash, tag, hash', tag', rfl, rfl⟩
    · exact hab
    · exact beq_self_eq_true name
  trans {a b c} _ _ _ hab hbc := by
    rcases Scalar.eq_or_pinned_of_equiv hab with rfl | ⟨name, hash, tag, hash', tag', rfl, rfl⟩
    · exact hbc
    · rcases Scalar.eq_or_pinned_of_equiv hbc with rfl | ⟨name', _, _, _, _, hb, rfl⟩
      · exact hab
      · obtain rfl : name = name' := (Scalar.pinned.inj hb).1
        exact beq_self_eq_true name
  hash_eq {a b} ha hb hab := by
    rcases Scalar.eq_or_pinned_of_equiv hab with rfl | ⟨name, hash, tag, hash', tag', rfl, rfl⟩
    · rfl
    · exact hpinned name hash tag hash' tag' ha hb

/-! ## Layers -/

namespace Layer

variable {α : Type}

/-- Whether a layer is put together from what there is: scalars, parts, maps and two kinds of
cells. -/
def Over (base : Set Scalar) (S : Set α) (ms : List (Map α α)) (C C' : Set (Shared α)) :
    Layer α → Prop
  | scalar s => s ∈ base
  | vector elements => ∀ a ∈ elements, a ∈ S
  | entry e => e.key ∈ S ∧ e.value ∈ S
  | map m => m ∈ ms
  | option part => ∀ a ∈ part, a ∈ S
  | boxed part => part ∈ S
  | borrowed part => part ∈ S
  | shared cell => cell ∈ C
  | sharedAtomic cell => cell ∈ C'

variable [HashEquiv α]

/-- Whether two layers are of one kind, and hold what is equivalent. -/
inductive Related : Layer α → Layer α → Prop where
  | scalar {a b : Scalar} : equiv a b = true → Related (.scalar a) (.scalar b)
  | vector {a b : List α} : equiv a b = true → Related (.vector a) (.vector b)
  | entry {a b : Entry α α} : equiv a b = true → Related (.entry a) (.entry b)
  | map {a b : Map α α} : equiv a b = true → Related (.map a) (.map b)
  | option {a b : Option α} : equiv a b = true → Related (.option a) (.option b)
  | boxed {a b : α} : equiv a b = true → Related (.boxed a) (.boxed b)
  | borrowed {a b : α} : equiv a b = true → Related (.borrowed a) (.borrowed b)
  | shared {a b : Shared α} : equiv a b = true → Related (.shared a) (.shared b)
  | sharedAtomic {a b : Shared α} : equiv a b = true → Related (.sharedAtomic a) (.sharedAtomic b)

theorem related_of_equiv {x y : Layer α} (h : equiv x y = true) : x.Related y := by
  simp only [equiv] at h
  split at h
  · exact .scalar h
  · exact .vector h
  · exact .entry h
  · exact .map h
  · exact .option h
  · exact .boxed h
  · exact .borrowed h
  · exact .shared h
  · exact .sharedAtomic h
  · cases h

end Layer

section Layers

variable {α : Type} [HashEquiv α] {base : Set Scalar} {S : Set α} {ms : List (Map α α)}
  {C C' : Set (Shared α)}

/-- **A layer keeps the contract when what it is put together from does.** -/
theorem Contract.layer (hbase : Contract base) (hS : Contract S) (hms : Contract {m | m ∈ ms})
    (hC : CellsOver S C) (hC' : CellsOver S C') :
    Contract {x : Layer α | x.Over base S ms C C'} where
  symm {x y} hx hy h := by
    cases Layer.related_of_equiv h with
    | scalar h => exact hbase.symm hx hy h
    | vector h => exact hS.list.symm hx hy h
    | entry h => exact (hS.entry hS).symm hx hy h
    | map h => exact hms.symm hx hy h
    | option h => exact hS.option.symm hx hy h
    | boxed h => exact hS.symm hx hy h
    | borrowed h => exact hS.symm hx hy h
    | shared h => exact (hS.cells hC).symm hx hy h
    | sharedAtomic h => exact (hS.cells hC').symm hx hy h
  trans {x y z} hx hy hz h h' := by
    cases Layer.related_of_equiv h with
    | scalar h => cases Layer.related_of_equiv h' with
      | scalar h' => exact hbase.trans hx hy hz h h'
    | vector h => cases Layer.related_of_equiv h' with
      | vector h' => exact hS.list.trans hx hy hz h h'
    | entry h => cases Layer.related_of_equiv h' with
      | entry h' => exact (hS.entry hS).trans hx hy hz h h'
    | map h => cases Layer.related_of_equiv h' with
      | map h' => exact hms.trans hx hy hz h h'
    | option h => cases Layer.related_of_equiv h' with
      | option h' => exact hS.option.trans hx hy hz h h'
    | boxed h => cases Layer.related_of_equiv h' with
      | boxed h' => exact hS.trans hx hy hz h h'
    | borrowed h => cases Layer.related_of_equiv h' with
      | borrowed h' => exact hS.trans hx hy hz h h'
    | shared h => cases Layer.related_of_equiv h' with
      | shared h' => exact (hS.cells hC).trans hx hy hz h h'
    | sharedAtomic h => cases Layer.related_of_equiv h' with
      | sharedAtomic h' => exact (hS.cells hC').trans hx hy hz h h'
  hash_eq {x y} hx hy h := by
    cases Layer.related_of_equiv h with
    | scalar h => exact hbase.hash_eq hx hy h
    | vector h => exact hS.list.hash_eq hx hy h
    | entry h => exact (hS.entry hS).hash_eq hx hy h
    | map h => exact hms.hash_eq hx hy h
    | option h => exact hS.option.hash_eq hx hy h
    | boxed h => exact hS.hash_eq hx hy h
    | borrowed h => exact hS.hash_eq hx hy h
    | shared h => exact (hS.cells hC).hash_eq hx hy h
    | sharedAtomic h => exact (hS.cells hC').hash_eq hx hy h

end Layers

/-! ## Values of any depth -/

/-- The sets of values that are made layer by layer: at each depth the maps are those of one
population, and cells with one name are one cell. -/
inductive Value.Made (base : Set Scalar) : (depth : Nat) → Set (Value depth) → Prop where
  | scalars : Made base 0 base
  | layers {depth : Nat} {S : Set (Value depth)} {l : Ledger}
      {ms : List (Map (Value depth) (Value depth))} {C C' : Set (Shared (Value depth))} :
    Made base depth S → Population l ms → StoredIn S S ms → CellsOver S C → CellsOver S C' →
      Made base (depth + 1) {x : Layer (Value depth) | x.Over base S ms C C'}

theorem Value.Made.contract {base : Set Scalar} (hbase : Contract base) {depth : Nat}
    {F : Set (Value depth)} (hF : Value.Made base depth F) : Contract F := by
  induction hF with
  | scalars => exact hbase
  | layers _ hp hms hC hC' ih =>
    exact hbase.layer ih (contract_of_population hp ih ih hms) hC hC'

/-! ## Everything that is put together -/

section KeepsContract

variable {α β : Type} [HashEquiv α] [HashEquiv β] [BEq β]

/-- Whether all that is put together from two sets keeps the contract. -/
structure KeepsContract (S : Set α) (T : Set β) : Prop where
  option : Contract {o : Option α | ∀ a ∈ o, a ∈ S}
  list : Contract {as : List α | ∀ a ∈ as, a ∈ S}
  boxed : Contract (Layer.boxed '' S)
  borrowed : Contract (Layer.borrowed '' S)
  shared {C : Set (Shared α)} : CellsOver S C → Contract C
  entry : Contract {e : Entry α β | e.key ∈ S ∧ e.value ∈ T}
  map {l : Ledger} {ms : List (Map α β)} : Population l ms → StoredIn S T ms →
    Contract {m | m ∈ ms}
  /-- Equivalent maps have one pairwise hash, too. -/
  pairHash_eq {l : Ledger} {ms : List (Map α β)} {a b : Map α β} : Population l ms →
    StoredIn S T ms → a ∈ ms → b ∈ ms → equiv a b = true → a.pairHash = b.pairHash
  /-- Equal maps have equal hashes when equal values have, whatever else is known of these. -/
  hashes_eq_of_beq {T' : Set β} {l : Ledger} {ms : List (Map α β)} {a b : Map α β} :
    (∀ v ∈ T', ∀ w ∈ T', (v == w) = true → HashEquiv.hash v = HashEquiv.hash w) →
    Population l ms → StoredIn S T' ms → a ∈ ms → b ∈ ms → (a == b) = true →
      a.hash = b.hash ∧ a.pairHash = b.pairHash ∧
        ∀ {H : Type} (word : H → UInt32 → H) (hasher : H), a.feed word hasher = b.feed word hasher

/-- **What is put together from parts that keep the contract keeps it, through any nesting.** -/
theorem keepsContract_of_contract {S : Set α} {T : Set β} {base : Set Scalar} (hS : Contract S)
    (hT : Contract T) (hbase : Contract base) :
    KeepsContract S T ∧
      ∀ {depth : Nat} {F : Set (Value depth)}, Value.Made base depth F → Contract F := by
  refine ⟨?_, fun hF => hF.contract hbase⟩
  exact
    { option := hS.option
      list := hS.list
      boxed := hS.image (fun _ => rfl) fun _ _ => rfl
      borrowed := hS.image (fun _ => rfl) fun _ _ => rfl
      shared := hS.cells
      entry := hS.entry hT
      map := fun hp hms => contract_of_population hp hS hT hms
      pairHash_eq := fun hp hms ha hb hab =>
        (hashes_eq_of_agrees hp hS hms (fun _ hv _ hw => hT.hash_eq hv hw) ha hb hab).2
      hashes_eq_of_beq := fun {T' l ms a b} hbeq hp hms ha hb hab => by
        -- equality of maps has the other map's value on the left
        have hsame : ∀ v ∈ T', ∀ w ∈ T', (w == v) = true → HashEquiv.hash v = HashEquiv.hash w :=
          fun v hv w hw hwv => (hbeq w hw v hv hwv).symm
        obtain ⟨hhash, hpair⟩ := hashes_eq_of_agrees hp hS hms hsame ha hb hab
        exact ⟨hhash, hpair, fun word hasher => congrArg (word hasher) hhash⟩ }

end KeepsContract

/-- Two numbers, and a value that is not equivalent to itself. -/
def fewScalars : Set Scalar := {s | s = .integer 1 ∨ s = .integer 2 ∨ s = .lonely 1}

/-- Maps that were filled in opposite orders have one hash, and layers over few scalars keep the
contract. -/
theorem keepsContract_filled :
    Contract (Set.univ : Set Bool) ∧ Contract fewScalars ∧
      equiv (Scalar.lonely 1) (Scalar.lonely 1) = false ∧
      filledForwards.1.hash = filledBackwards.1.hash ∧
      Contract {x : Layer Scalar | x.Over fewScalars fewScalars [Map.empty] ∅ ∅} := by
  have hbase : Contract fewScalars := contract_scalars fun name hash tag hash' tag' h => by
    simp [fewScalars] at h
  have hkeeps := keepsContract_of_contract (T := Set.univ) contract_bool contract_bool hbase
  refine ⟨contract_bool, hbase, rfl, ?_, ?_⟩
  · obtain ⟨l, ms, hp, ha, hb⟩ := exists_population_filled
    exact (hkeeps.1.map hp (storedIn_univ ms)).hash_eq ha hb equiv_filled
  · have hcells : CellsOver fewScalars ∅ := ⟨fun s hs => hs.elim, fun s hs => hs.elim⟩
    have hms : StoredIn fewScalars fewScalars [Map.empty] := fun m hm x hx => by
      rw [List.mem_singleton.mp hm, Map.toList_empty] at hx
      exact absurd hx List.not_mem_nil
    exact hkeeps.2 (.layers .scalars Population.start.empty hms hcells hcells)

end HashTrie
