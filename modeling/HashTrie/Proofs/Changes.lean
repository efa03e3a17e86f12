import HashTrie.Proofs.Contracts
import HashTrie.Proofs.Mixers
import HashTrie.Proofs.NoOps
import HashTrie.Proofs.Rebuilding

/-!
# Changed values change hashes

The hash of a list, whether it depends on the order or not, loses nothing of any single element:
sums and the steps of the base-31 polynomial can be undone, and so can the mixing with the count. So
when the value of one key of a map is replaced by one with another hash, both hashes of the map
change (`changesHashes_of_reachable`), whatever the size and the history of the map.
-/

namespace HashTrie

open Function

/-! ## Lists of hashes -/

namespace Murmur

variable {hs hs' rest : List UInt32} {a b : UInt32}

theorem ordered_ne_of_split (before behind : List UInt32) (hne : a ≠ b) :
    ordered (before ++ a :: behind) ≠ ordered (before ++ b :: behind) := by
  intro h
  have hlen : (before ++ a :: behind).length = (before ++ b :: behind).length := by simp
  rw [ordered, ordered, hlen] at h
  refine foldl_ne_of_split (fun h => ?_) before behind (fun sum heq => hne ?_) 1
    (collection_injective _ h)
  · exact fun _ _ heq =>
      mul_injective (d := 0xbdef7bdf) (by decide) ((UInt32.add_left_inj h).mp heq)
  · exact (UInt32.add_right_inj _).mp heq

/-- Lists of hashes that differ at one place have different ordered hashes. -/
theorem ordered_ne (h : DifferOnce hs hs') : ordered hs ≠ ordered hs' := by
  obtain ⟨before, a, b, behind, hne, rfl, rfl⟩ := h.exists_split
  exact ordered_ne_of_split before behind hne

theorem unorderedSum_ne (ha : hs.Perm (a :: rest)) (hb : hs'.Perm (b :: rest)) (hne : a ≠ b) :
    unorderedSum hs ≠ unorderedSum hs' := by
  rw [unorderedSum_eq_of_perm ha, unorderedSum_eq_of_perm hb]
  refine foldl_ne_of_split (fun h => ?_) [] rest (fun sum heq => hne ?_) 0
  · exact fun _ _ heq => (UInt32.add_left_inj h).mp heq
  · exact (UInt32.add_right_inj _).mp heq

/-- Lists of hashes that differ in one element, in whatever order, have different unordered hashes.
-/
theorem unordered_ne (ha : hs.Perm (a :: rest)) (hb : hs'.Perm (b :: rest)) (hne : a ≠ b) :
    unordered hs ≠ unordered hs' := by
  intro h
  rw [unordered, unordered, ha.length_eq, hb.length_eq] at h
  exact unorderedSum_ne ha hb hne (collection_injective _ h)

end Murmur

/-! ## Maps -/

variable {K V : Type} [HashEquiv K]

namespace Map

variable {m : Map K V} {k : K} {v w : V}

/-- **The value of a key that is found is replaced by another one**, and nothing else changes. -/
theorem WellFormed.exists_replaced [BEq V] (hw : m.WellFormed)
    (hk : (Probe.ofKey k).LawfulOn m.toList) (hget : m.get? (Probe.ofKey k) = some v)
    (hne : (w == v) = false) (hne' : (v == w) = false) (l : Ledger) :
    ∃ key before behind, m.toList = before ++ ⟨key, v⟩ :: behind ∧
      (m.insert k w l).1.toList = before ++ ⟨key, w⟩ :: behind := by
  obtain ⟨old, hfind, rfl⟩ := Option.map_eq_some_iff.mp hget
  obtain ⟨-, hi⟩ := hw.insertEntry ⟨k, w⟩ l
  rw [insert]
  generalize (m.insertEntry ⟨k, w⟩ l).1 = m' at hi
  cases hi with
  | kept hmeets hsame =>
    obtain rfl := Option.some.inj (hfind.symm.trans (find?_of_meets hw hmeets))
    simp [hne, hne'] at hsame
  | overwrote hmeets _ hnew hreplaced =>
    obtain rfl := Option.some.inj (hfind.symm.trans (find?_of_meets hw hmeets))
    obtain ⟨before, behind, hl, hl'⟩ := hmeets.exists_split hnew hreplaced
    exact ⟨old.key, before, behind, hl, hl'⟩
  | added hadds =>
    -- the key would be equivalent to no stored key, but it is to the one that was found
    have hold : m.toList.find? (fun x => equiv k x.key) = some old :=
      (hw.find?_eq_toList hk).symm.trans hfind
    have hfresh := hadds.fresh hw fun x hx hequiv => (hk x hx hequiv).symm
    have hequiv : equiv k old.key = true :=
      List.find?_some (p := fun x : Entry K V => equiv k x.key) hold
    rw [hfresh old (List.mem_of_find?_eq_some hold)] at hequiv
    cases hequiv

variable [HashEquiv V]

/-- **A changed value changes both hashes of the entries.** -/
theorem hashes_ne_of_split {key : K} {before behind : List (Entry K V)}
    (hvw : HashEquiv.hash w ≠ HashEquiv.hash v) :
    hashOfEntries (before ++ ⟨key, w⟩ :: behind) ≠ hashOfEntries (before ++ ⟨key, v⟩ :: behind) ∧
      pairHashOfEntries (before ++ ⟨key, w⟩ :: behind) ≠
        pairHashOfEntries (before ++ ⟨key, v⟩ :: behind) := by
  constructor
  · refine Murmur.unordered_ne (List.perm_middle.map _) (List.perm_middle.map _) ?_
    exact Murmur.ordered_ne_of_split [HashEquiv.hash key] [] hvw
  · refine Murmur.unorderedSum_ne (List.perm_middle.map _) (List.perm_middle.map _) ?_
    exact fun h => hvw ((UInt32.xor_right_inj _).mp h)

end Map

/-- **A single changed value changes the hashes.** A map that can be made binds a key that is
equivalent to no stored key with another hash; it is bound anew, to a value that has another hash
and does not equal the value that it had, either way round. Then both hashes of the map change. So do
the ordered hash of a list, when it differs at one place, and the unordered one, when it differs in
one element. -/
theorem changesHashes_of_reachable [BEq V] [HashEquiv V] {m : Map K V} (hm : m.Reachable)
    (l : Ledger) :
    (∀ k v w, (Probe.ofKey k).LawfulOn m.toList → m.get? (Probe.ofKey k) = some v →
        (w == v) = false → (v == w) = false → HashEquiv.hash w ≠ HashEquiv.hash v →
        (m.insert k w l).1.hash ≠ m.hash ∧ (m.insert k w l).1.pairHash ≠ m.pairHash) ∧
      (∀ hs hs' : List UInt32, DifferOnce hs hs' → Murmur.ordered hs ≠ Murmur.ordered hs') ∧
      ∀ (hs hs' rest : List UInt32) (a b : UInt32), hs.Perm (a :: rest) → hs'.Perm (b :: rest) →
        a ≠ b → Murmur.unordered hs ≠ Murmur.unordered hs' := by
  refine ⟨fun k v w hk hget hne hne' hvw => ?_, fun _ _ h => Murmur.ordered_ne h,
    fun _ _ _ _ _ ha hb hne => Murmur.unordered_ne ha hb hne⟩
  obtain ⟨key, before, behind, hl, hl'⟩ := hm.wellFormed.exists_replaced hk hget hne hne' l
  have hown : (m.insert k w l).1.RemembersOwn :=
    hm.remembersOwn.of_updates (m.updates_insertEntry ⟨k, w⟩ l)
  rw [hown.hash, hown.pairHash, hm.remembersOwn.hash, hm.remembersOwn.pairHash, hl, hl']
  exact Map.hashes_ne_of_split hvw

/-- A map of two keys. -/
def twoKeyMap : Map Bool Bool := Map.ofEdits [.insert ⟨true, true⟩, .insert ⟨false, true⟩]

/-- When one of the two keys is bound to another value, both hashes change. -/
theorem changesHashes_twoKeyMap :
    twoKeyMap.Reachable ∧ (Probe.ofKey false).LawfulOn twoKeyMap.toList ∧
      twoKeyMap.get? (Probe.ofKey false) = some true ∧
      (twoKeyMap.insert false false Ledger.empty).1.hash ≠ twoKeyMap.hash ∧
      (twoKeyMap.insert false false Ledger.empty).1.pairHash ≠ twoKeyMap.pairHash ∧
      DifferOnce [1, 2, 3] ([1, 5, 3] : List UInt32) ∧
      Murmur.ordered [1, 2, 3] ≠ Murmur.ordered [1, 5, 3] ∧
      Murmur.unordered [1, 2, 3] ≠ Murmur.unordered [3, 1, 5] := by
  have hm : twoKeyMap.Reachable := Map.reachable_ofEdits _
  have hk : (Probe.ofKey false).LawfulOn twoKeyMap.toList := fun x _ hx => lawful_ofKey false x.key hx
  have hget : twoKeyMap.get? (Probe.ofKey false) = some true := rfl
  have hlists : DifferOnce [1, 2, 3] ([1, 5, 3] : List UInt32) :=
    differOnce_append_cons [1] [3] (by decide)
  obtain ⟨hmap, hordered, hunordered⟩ := changesHashes_of_reachable hm Ledger.empty
  obtain ⟨hhash, hpair⟩ := hmap false true false hk hget rfl rfl (by decide)
  refine ⟨hm, hk, hget, hhash, hpair, hlists, hordered _ _ hlists, ?_⟩
  exact hunordered _ _ [1, 3] 2 5 (by decide) (by decide) (by decide)

end HashTrie
