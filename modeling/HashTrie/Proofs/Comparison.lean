import HashTrie.Proofs.Matching
import HashTrie.Proofs.Search

/-!
# Comparing maps that were made together

Maps of a population whose keys keep the contract are coherent (`Coherent`): well formed, with
distinct keys, and with one list of entries wherever they share a root. What a comparison of two
such maps answers is a matter of their lists of entries (`Coherent.agrees_iff`): they share a root,
or have as many entries as each other and the one list covers the other. From this the comparison is
symmetric and transitive as soon as the test of the values is (`Coherent.partialEquivOn_agrees`).
-/

namespace HashTrie

variable {K V : Type} [HashEquiv K]

/-- In a list with distinct keys a search for a key finds the one entry with an equivalent key. -/
theorem DistinctKeys.find?_eq_some_iff {S : Set K} {T : Set V} {l : List (Entry K V)}
    (hd : DistinctKeys l) (hS : PartialEquivOn S equiv) (hl : DrawnFrom S T l) {q : K}
    (hq : q ∈ S) {y : Entry K V} :
    l.find? (fun x => equiv q x.key) = some y ↔ y ∈ l ∧ equiv q y.key = true := by
  have hfound : ∀ {z}, l.find? (fun x => equiv q x.key) = some z → equiv q z.key = true :=
    fun hfind => List.find?_some (p := fun x : Entry K V => equiv q x.key) hfind
  constructor
  · intro hfind
    exact ⟨List.mem_of_find?_eq_some hfind, hfound hfind⟩
  · rintro ⟨hy, hqy⟩
    cases hfind : l.find? fun x => equiv q x.key with
    | none => exact absurd hqy (List.find?_eq_none.mp hfind y hy)
    | some z =>
      have hz := List.mem_of_find?_eq_some hfind
      have hzS := (hl z hz).1
      rw [hd.eq_of_equiv hz hy (hS.trans hzS hq (hl y hy).1 (hS.symm hq hzS (hfound hfind)) hqy)]

namespace Map

/-- Whether each entry of a map has in the other one a value that the test accepts: the search
that a comparison makes, without its short cuts. -/
def foundIn (same : V → V → Bool) (m o : Map K V) : Bool :=
  m.toList.all fun e =>
    match o.get? (Probe.ofKey e.key) with
    | none => false
    | some value => same e.value value

theorem agrees_eq (same : V → V → Bool) (m o : Map K V) :
    m.agrees same o =
      if m.count ≠ o.count then false else if m.sharesRoot o then true else m.foundIn same o :=
  rfl

/-- Whether a map is well formed, with keys from one set and values from another, and no two of its
keys are equivalent. -/
structure Keyed (S : Set K) (T : Set V) (m : Map K V) : Prop where
  wellFormed : m.WellFormed
  drawn : DrawnFrom S T m.toList
  distinct : DistinctKeys m.toList

variable {S : Set K} {T : Set V} {same : V → V → Bool} {m o : Map K V}

theorem Keyed.find?_eq_toList (hm : m.Keyed S T) (hS : Contract S) {q : K} (hq : q ∈ S) :
    m.find? (Probe.ofKey q) = m.toList.find? fun x => equiv q x.key :=
  hm.wellFormed.find?_eq_toList fun x hx hequiv => (hS.hash_eq hq (hm.drawn x hx).1 hequiv).symm

/-- **What a lookup finds, up to equivalence.** -/
theorem Keyed.find?_eq_some_iff (hm : m.Keyed S T) (hS : Contract S) {q : K} (hq : q ∈ S)
    {y : Entry K V} :
    m.find? (Probe.ofKey q) = some y ↔ y ∈ m.toList ∧ equiv q y.key = true := by
  rw [hm.find?_eq_toList hS hq]
  exact hm.distinct.find?_eq_some_iff hS.toPartialEquivOn hm.drawn hq

theorem Keyed.foundIn_iff (hm : m.Keyed S T) (ho : o.Keyed S T) (hS : Contract S) :
    m.foundIn same o = true ↔ Covers same m.toList o.toList := by
  rw [foundIn, List.all_eq_true]
  refine forall₂_congr fun x hx => ?_
  have hfind := fun y => ho.find?_eq_some_iff hS (hm.drawn x hx).1 (y := y)
  rw [get?]
  constructor
  · intro hfound
    cases hy : o.find? (Probe.ofKey x.key) with
    | none => simp [hy] at hfound
    | some y =>
      obtain ⟨hyo, hequiv⟩ := (hfind y).mp hy
      rw [hy] at hfound
      exact ⟨y, hyo, hequiv, hfound⟩
  · rintro ⟨y, hyo, hequiv, hsame⟩
    rw [(hfind y).mpr ⟨hyo, hequiv⟩]
    exact hsame

end Map

/-! ## Coherent maps -/

/-- Whether the keys and the values of some maps are from two sets. -/
def StoredIn (S : Set K) (T : Set V) (ms : List (Map K V)) : Prop :=
  ∀ m ∈ ms, ∀ x ∈ m.toList, x.key ∈ S ∧ x.value ∈ T

/-- What maps that were made together have in common. -/
structure Coherent (S : Set K) (T : Set V) (ms : List (Map K V)) : Prop where
  keyed : ∀ m ∈ ms, m.Keyed S T
  toList_eq : ∀ a ∈ ms, ∀ b ∈ ms, a.sharesRoot b = true → a.toList = b.toList

theorem coherent_of_population [BEq V] [HashEquiv V] {S : Set K} {T : Set V} {l : Ledger}
    {ms : List (Map K V)} (hp : Population l ms) (hS : Contract S) (hms : StoredIn S T ms) :
    Coherent S T ms where
  keyed m hm := by
    have hkeys : ∀ m ∈ ms, ∀ x ∈ m.toList, x.key ∈ S := fun m hm x hx => (hms m hm x hx).1
    exact ⟨Map.wellFormed_of_population hp m hm, hms m hm,
      distinctKeys_of_population hS hp hkeys m hm⟩
  toList_eq a ha b hb hs :=
    Map.toList_eq_of_root_eq ((stamped_of_population hp).root_eq_of_sharesRoot ha hb hs)

namespace Coherent

variable {S : Set K} {T : Set V} {same same' : V → V → Bool} {ms : List (Map K V)}
  {a b c : Map K V} (h : Coherent S T ms)

include h

theorem count_eq_iff (ha : a ∈ ms) (hb : b ∈ ms) :
    a.count = b.count ↔ a.toList.length = b.toList.length := by
  rw [(h.keyed a ha).wellFormed.count_eq, (h.keyed b hb).wellFormed.count_eq]

/-- **What a comparison looks at.** -/
theorem agrees_iff (hS : Contract S) (ha : a ∈ ms) (hb : b ∈ ms) :
    a.agrees same b = true ↔ a.sharesRoot b = true ∨
      a.toList.length = b.toList.length ∧ Covers same a.toList b.toList := by
  have hsearch : a.foundIn same b = true ↔ Covers same a.toList b.toList :=
    (h.keyed a ha).foundIn_iff (h.keyed b hb) hS
  have hcount := h.count_eq_iff ha hb
  rw [Map.agrees_eq]
  by_cases hne : a.count = b.count
  · rw [if_neg (not_not.mpr hne)]
    cases hs : a.sharesRoot b with
    | true => simp
    | false => simpa [hcount.mp hne] using hsearch
  · rw [if_pos hne]
    -- maps that share a root have as many entries as each other
    have hs : a.sharesRoot b ≠ true := fun hs => hne (hcount.mpr (by rw [h.toList_eq a ha b hb hs]))
    simp [hs, mt hcount.mpr hne]

theorem agrees_congr (hS : Contract S) (hsame : ∀ v ∈ T, ∀ w ∈ T, same v w = same' v w)
    (ha : a ∈ ms) (hb : b ∈ ms) : a.agrees same b = a.agrees same' b := by
  rw [Bool.eq_iff_iff, h.agrees_iff hS ha hb, h.agrees_iff hS ha hb,
    covers_congr hsame (h.keyed a ha).drawn (h.keyed b hb).drawn]

/-- **A comparison of coherent maps is symmetric and transitive when the test of the values is.** -/
theorem partialEquivOn_agrees (hS : Contract S) (hT : PartialEquivOn T same) :
    PartialEquivOn {m | m ∈ ms} (Map.agrees (K := K) same) where
  symm {a b} ha hb hab := by
    have hka := h.keyed a ha
    have hkb := h.keyed b hb
    rw [h.agrees_iff hS hb ha]
    rcases (h.agrees_iff hS ha hb).mp hab with hs | ⟨hlen, hcov⟩
    · exact .inl (BEq.symm hs)
    · exact .inr ⟨hlen.symm, hcov.symm hS.toPartialEquivOn hT hka.distinct hka.drawn hkb.drawn hlen⟩
  trans {a b c} ha hb hc hab hbc := by
    rw [h.agrees_iff hS ha hc]
    rcases (h.agrees_iff hS ha hb).mp hab with hs | ⟨hlen, hcov⟩ <;>
      rcases (h.agrees_iff hS hb hc).mp hbc with hs' | ⟨hlen', hcov'⟩
    · exact .inl (BEq.trans hs hs')
    · rw [h.toList_eq a ha b hb hs]
      exact .inr ⟨hlen', hcov'⟩
    · rw [← h.toList_eq b hb c hc hs']
      exact .inr ⟨hlen, hcov⟩
    · exact .inr ⟨hlen.trans hlen', hcov.trans hS.toPartialEquivOn hT (h.keyed a ha).drawn
        (h.keyed b hb).drawn (h.keyed c hc).drawn hcov'⟩

end Coherent

end HashTrie
