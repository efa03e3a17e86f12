import HashTrie.Proofs.Comparison

/-!
# Contracts of compounds

A compound keeps the contract when its parts do: options, lists, entries, shared cells, and maps
that were made together. Nothing asks the parts to be equivalent to themselves.

For maps, the entries of two equivalent maps match one by one in some order (`Covers.perm_map`), and
the hashes add up what the entries contribute, whatever their order (`unordered_eq_of_perm`). A map
that remembers a hash remembers that of its entries, so histories play no part.
-/

namespace HashTrie

/-! ## Sums in any order -/

namespace Murmur

variable {hashes hashes' : List UInt32}

theorem unorderedSum_eq_of_perm (h : hashes.Perm hashes') :
    unorderedSum hashes = unorderedSum hashes' :=
  h.foldl_eq 0

theorem unordered_eq_of_perm (h : hashes.Perm hashes') : unordered hashes = unordered hashes' := by
  rw [unordered, unordered, unorderedSum_eq_of_perm h, h.length_eq]

end Murmur

variable {α β : Type} [HashEquiv α] [HashEquiv β] {S : Set α} {T : Set β}

/-! ## Options, lists and entries -/

theorem Contract.option (hS : Contract S) : Contract {o : Option α | ∀ a ∈ o, a ∈ S} where
  symm := by
    rintro (_ | a) (_ | b) ha hb hab
    · exact hab
    · exact hab
    · exact hab
    · exact hS.symm (ha a rfl) (hb b rfl) hab
  trans := by
    rintro (_ | a) (_ | b) (_ | c) ha hb hc hab hbc
    · rfl
    · exact hbc
    · cases hab
    · cases hab
    · cases hab
    · cases hab
    · cases hbc
    · exact hS.trans (ha a rfl) (hb b rfl) (hc c rfl) hab hbc
  hash_eq := by
    rintro (_ | a) (_ | b) ha hb hab
    · rfl
    · cases hab
    · cases hab
    · exact hS.hash_eq (ha a rfl) (hb b rfl) hab

/-- Lists are equivalent when they are as long as each other and equivalent place by place. -/
theorem equiv_list_iff {as bs : List α} :
    equiv as bs = true ↔ List.Forall₂ (fun a b => equiv a b = true) as bs := by
  show HashEquiv.equivList as bs = true ↔ _
  induction as generalizing bs with
  | nil => cases bs <;> simp [HashEquiv.equivList]
  | cons a as ih => cases bs <;> simp [HashEquiv.equivList, ih]

theorem Contract.list (hS : Contract S) : Contract {as : List α | ∀ a ∈ as, a ∈ S} where
  symm {as bs} ha hb hab := by
    rw [equiv_list_iff] at hab ⊢
    induction hab with
    | nil => exact .nil
    | cons h _ ih =>
      obtain ⟨haS, ha⟩ := List.forall_mem_cons.mp ha
      obtain ⟨hbS, hb⟩ := List.forall_mem_cons.mp hb
      exact .cons (hS.symm haS hbS h) (ih ha hb)
  trans {as bs cs} ha hb hc hab hbc := by
    rw [equiv_list_iff] at hab hbc ⊢
    induction hab generalizing cs with
    | nil => exact hbc
    | cons h _ ih =>
      cases hbc with
      | cons h' hbc =>
        obtain ⟨haS, ha⟩ := List.forall_mem_cons.mp ha
        obtain ⟨hbS, hb⟩ := List.forall_mem_cons.mp hb
        obtain ⟨hcS, hc⟩ := List.forall_mem_cons.mp hc
        exact .cons (hS.trans haS hbS hcS h h') (ih ha hb hc hbc)
  hash_eq {as bs} ha hb hab := by
    rw [equiv_list_iff] at hab
    have hhashes : as.map HashEquiv.hash = bs.map HashEquiv.hash := by
      induction hab with
      | nil => rfl
      | cons h _ ih =>
        obtain ⟨haS, ha⟩ := List.forall_mem_cons.mp ha
        obtain ⟨hbS, hb⟩ := List.forall_mem_cons.mp hb
        rw [List.map_cons, List.map_cons, hS.hash_eq haS hbS h, ih ha hb]
    exact congrArg Murmur.ordered hhashes

/-- Entries are equivalent when they match. -/
theorem equiv_entry_iff {x y : Entry α β} : equiv x y = true ↔ x.Matches equiv y :=
  Bool.and_eq_true _ _ ▸ Iff.rfl

theorem Entry.hash_eq_of_parts {x y : Entry α β}
    (hkey : HashEquiv.hash x.key = HashEquiv.hash y.key)
    (hvalue : HashEquiv.hash x.value = HashEquiv.hash y.value) :
    HashEquiv.hash x = HashEquiv.hash y :=
  congrArg₂ (fun a b => Murmur.ordered [a, b]) hkey hvalue

theorem Contract.entry (hS : Contract S) (hT : Contract T) :
    Contract {e : Entry α β | e.key ∈ S ∧ e.value ∈ T} where
  symm hx hy hxy := by
    rw [equiv_entry_iff] at *
    exact hxy.symm hS.toPartialEquivOn hT.toPartialEquivOn hx hy
  trans hx hy hz hxy hyz := by
    rw [equiv_entry_iff] at *
    exact hxy.trans hS.toPartialEquivOn hT.toPartialEquivOn hx hy hz hyz
  hash_eq hx hy hxy := by
    rw [equiv_entry_iff] at hxy
    exact Entry.hash_eq_of_parts (hS.hash_eq hx.1 hy.1 hxy.1) (hT.hash_eq hx.2 hy.2 hxy.2)

/-! ## Shared cells -/

/-- Whether cells with one name are one cell, each with a value from a set. -/
structure CellsOver (S : Set α) (C : Set (Shared α)) : Prop where
  value_mem : ∀ s ∈ C, s.value ∈ S
  value_eq : ∀ s ∈ C, ∀ t ∈ C, s.cell = t.cell → s.value = t.value

theorem equiv_shared_iff {s t : Shared α} :
    equiv s t = true ↔ s.cell = t.cell ∨ equiv s.value t.value = true := by
  rw [← beq_iff_eq (a := s.cell), ← Bool.or_eq_true]
  exact Iff.rfl

theorem Contract.cells (hS : Contract S) {C : Set (Shared α)} (hC : CellsOver S C) :
    Contract C where
  symm {s t} hs ht hst := by
    rw [equiv_shared_iff] at *
    rcases hst with hcell | hvalue
    · exact .inl hcell.symm
    · exact .inr (hS.symm (hC.value_mem s hs) (hC.value_mem t ht) hvalue)
  trans {s t u} hs ht hu hst htu := by
    rw [equiv_shared_iff] at *
    -- one cell holds one value, so a step by cells changes no value
    rcases hst with hcell | hvalue <;> rcases htu with hcell' | hvalue'
    · exact .inl (hcell.trans hcell')
    · exact .inr (hC.value_eq s hs t ht hcell ▸ hvalue')
    · exact .inr (hC.value_eq t ht u hu hcell' ▸ hvalue)
    · exact .inr (hS.trans (hC.value_mem s hs) (hC.value_mem t ht) (hC.value_mem u hu)
        hvalue hvalue')
  hash_eq {s t} hs ht hst := by
    rw [equiv_shared_iff] at hst
    rcases hst with hcell | hvalue
    · exact congrArg (fun v : α => HashEquiv.hash v) (hC.value_eq s hs t ht hcell)
    · exact hS.hash_eq (hC.value_mem s hs) (hC.value_mem t ht) hvalue

/-! ## Maps -/

section Maps

variable {same : β → β → Bool} {l : Ledger} {ms : List (Map α β)} {a b : Map α β}

/-- **Maps that compare equal have the same contributions of entries, in some order.** -/
theorem Coherent.perm_map {γ : Type} (h : Coherent S T ms) (hS : Contract S)
    (hsame : ∀ v ∈ T, ∀ w ∈ T, same v w = true → HashEquiv.hash v = HashEquiv.hash w)
    (ha : a ∈ ms) (hb : b ∈ ms) (hab : a.agrees same b = true) {f : Entry α β → γ}
    (hf : ∀ x y : Entry α β, HashEquiv.hash x.key = HashEquiv.hash y.key →
      HashEquiv.hash x.value = HashEquiv.hash y.value → f x = f y) :
    (a.toList.map f).Perm (b.toList.map f) := by
  have hka := h.keyed a ha
  have hkb := h.keyed b hb
  rcases (h.agrees_iff hS ha hb).mp hab with hs | ⟨hlen, hcov⟩
  · rw [h.toList_eq a ha b hb hs]
  · refine hcov.perm_map hS.toPartialEquivOn f hka.distinct hka.drawn hkb.drawn hlen ?_
    intro x hx y hy hxy
    exact hf x y (hS.hash_eq (hka.drawn x hx).1 (hkb.drawn y hy).1 hxy.1)
      (hsame x.value (hka.drawn x hx).2 y.value (hkb.drawn y hy).2 hxy.2)

variable [BEq β]

/-- **Maps that compare equal have equal hashes**, when values that compare equal have. -/
theorem hashes_eq_of_agrees (hp : Population l ms) (hS : Contract S) (hms : StoredIn S T ms)
    (hsame : ∀ v ∈ T, ∀ w ∈ T, same v w = true → HashEquiv.hash v = HashEquiv.hash w)
    (ha : a ∈ ms) (hb : b ∈ ms) (hab : a.agrees same b = true) :
    a.hash = b.hash ∧ a.pairHash = b.pairHash := by
  have h := coherent_of_population hp hS hms
  have hown := remembersOwn_of_population hp
  rw [(hown a ha).hash, (hown b hb).hash, (hown a ha).pairHash, (hown b hb).pairHash]
  constructor
  · exact Murmur.unordered_eq_of_perm
      (h.perm_map hS hsame ha hb hab fun x y hkey hvalue => Entry.hash_eq_of_parts hkey hvalue)
  · exact Murmur.unorderedSum_eq_of_perm
      (h.perm_map hS hsame ha hb hab fun x y hkey hvalue => by rw [hkey, hvalue])

theorem contract_of_population (hp : Population l ms) (hS : Contract S) (hT : Contract T)
    (hms : StoredIn S T ms) : Contract {m | m ∈ ms} where
  toPartialEquivOn :=
    (coherent_of_population hp hS hms).partialEquivOn_agrees hS hT.toPartialEquivOn
  hash_eq ha hb hab :=
    (hashes_eq_of_agrees hp hS hms (fun _ hv _ hw => hT.hash_eq hv hw) ha hb hab).1

end Maps

end HashTrie
