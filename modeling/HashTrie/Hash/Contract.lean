import HashTrie.Hash.Equivalence
import Mathlib.Data.Set.Operations

/-!
# The contract on a set of values

What a map may expect of its keys, said of the values of a set rather than of a whole type: not
every value of a type need be one that a program can make. `Contract` asks that equivalence is
symmetric and transitive among the values, and that equivalent ones have one hash. A value need not
be equivalent to itself.
-/

namespace HashTrie

variable {α : Type} {S : Set α}

/-- Whether a test is symmetric and transitive on a set. -/
structure PartialEquivOn (S : Set α) (r : α → α → Bool) : Prop where
  symm {a b : α} : a ∈ S → b ∈ S → r a b = true → r b a = true
  trans {a b c : α} : a ∈ S → b ∈ S → c ∈ S → r a b = true → r b c = true → r a c = true

/-- Whether a test is an equivalence relation on a set. -/
structure EquivOn (S : Set α) (r : α → α → Bool) : Prop extends PartialEquivOn S r where
  refl {a : α} : a ∈ S → r a a = true

theorem equivOn_beq [BEq α] [EquivBEq α] (S : Set α) : EquivOn S fun a b => a == b where
  refl _ := BEq.rfl
  symm _ _ := BEq.symm
  trans _ _ _ := BEq.trans

/-- Whether equivalence is symmetric and transitive on a set, and equivalent values have one hash.
-/
structure Contract [HashEquiv α] (S : Set α) : Prop extends PartialEquivOn S equiv where
  hash_eq {a b : α} : a ∈ S → b ∈ S → equiv a b = true → HashEquiv.hash a = HashEquiv.hash b

variable [HashEquiv α]

/-- A wrapper that is seen through keeps the contract. -/
theorem Contract.image {β : Type} [HashEquiv β] (hS : Contract S) {wrap : α → β}
    (hhash : ∀ a, HashEquiv.hash (wrap a) = HashEquiv.hash a)
    (hequiv : ∀ a b, equiv (wrap a) (wrap b) = equiv a b) : Contract (wrap '' S) where
  symm := by
    rintro _ _ ⟨a, ha, rfl⟩ ⟨b, hb, rfl⟩ hab
    rw [hequiv] at hab ⊢
    exact hS.symm ha hb hab
  trans := by
    rintro _ _ _ ⟨a, ha, rfl⟩ ⟨b, hb, rfl⟩ ⟨c, hc, rfl⟩ hab hbc
    rw [hequiv] at hab hbc ⊢
    exact hS.trans ha hb hc hab hbc
  hash_eq := by
    rintro _ _ ⟨a, ha, rfl⟩ ⟨b, hb, rfl⟩ hab
    rw [hequiv] at hab
    rw [hhash, hhash, hS.hash_eq ha hb hab]

/-- Where equivalent values are equal the contract holds. -/
theorem contract_of_eq (h : ∀ a ∈ S, ∀ b ∈ S, equiv a b = true → a = b) : Contract S where
  symm {a b} ha hb hab := by
    obtain rfl := h a ha b hb hab
    exact hab
  trans {a b c} ha hb _ hab hbc := by
    obtain rfl := h a ha b hb hab
    exact hbc
  hash_eq {a b} ha hb hab := congrArg HashEquiv.hash (h a ha b hb hab)

end HashTrie
