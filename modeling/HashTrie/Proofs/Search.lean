import HashTrie.Proofs.Runs
import HashTrie.Proofs.Updates
import HashTrie.Value.Scalar

/-!
# Lookups search the walk

A lookup asks the entries of one bucket only. For a probe that accepts no stored key but those with
its hash it finds what a search through all entries of the map finds, the first accepted one in the
order of the walks (`find?_toList_of_reachable`). This is asked of the probe and the stored keys:
how these are equivalent to each other, and whether their hashes agree with that, plays no part, so
a key that breaks the contract does no harm to others.
-/

namespace HashTrie

variable {K V : Type} [HashEquiv K]

/-- Whether a probe accepts no key of a list but those with its hash. -/
def Probe.LawfulOn (probe : Probe K) (l : List (Entry K V)) : Prop :=
  ∀ x ∈ l, probe.accepts x.key = true → HashEquiv.hash x.key = probe.hash

/-- A lawful probe accepts no entry that comes before or behind the way of its hash. -/
theorem ReplacedAt.find?_eq {h : Nat} {probe : Probe K} {old l : List (Entry K V)}
    (hr : ReplacedAt h probe.hash old old l l) (hp : probe.LawfulOn l) :
    l.find? (fun x => probe.accepts x.key) = old.find? fun x => probe.accepts x.key := by
  obtain ⟨before, behind, hl, -, hbefore, hbehind⟩ := hr
  have hnone : before.find? (fun x => probe.accepts x.key) = none := by
    refine List.find?_eq_none.mpr fun x hx hacc => ?_
    have hlt := hbefore x hx
    rw [hp x (by rw [hl]; simp [hx]) hacc] at hlt
    exact lt_irrefl _ hlt
  have hnone' : behind.find? (fun x => probe.accepts x.key) = none := by
    refine List.find?_eq_none.mpr fun x hx hacc => ?_
    have hlt := hbehind x hx
    rw [hp x (by rw [hl]; simp [hx]) hacc] at hlt
    exact lt_irrefl _ hlt
  rw [hl, List.find?_append, List.find?_append, hnone, hnone', Option.or_none, Option.none_or]

namespace Map

variable {m : Map K V} {probe : Probe K}

theorem WellFormed.find?_bucket_eq (hw : m.WellFormed) (hp : probe.LawfulOn m.toList) :
    (m.bucket probe.hash).find? (fun x => probe.accepts x.key) =
      m.toList.find? fun x => probe.accepts x.key :=
  ((hw.replacedAt_bucket probe.hash).find?_eq hp).symm

theorem WellFormed.find?_eq_toList (hw : m.WellFormed) (hp : probe.LawfulOn m.toList) :
    m.find? probe = m.toList.find? fun x => probe.accepts x.key := by
  rw [hw.find?_eq, hw.find?_bucket_eq hp]

end Map

/-- **A lookup finds the first accepted entry of the walk**, and nothing when there is none, for any
probe that accepts no stored key but those with its hash. -/
theorem find?_toList_of_reachable [BEq V] [HashEquiv V] {m : Map K V} (hm : m.Reachable)
    {probe : Probe K} (hp : probe.LawfulOn m.toList) :
    m.tryFind probe = .ok (m.toList.find? fun x => probe.accepts x.key) ∧
      m.find? probe = (m.toList.find? fun x => probe.accepts x.key) ∧
      m.get? probe = (m.toList.find? fun x => probe.accepts x.key).map Entry.value ∧
      m.contains probe = m.toList.any fun x => probe.accepts x.key := by
  have hw := hm.wellFormed
  have hfind := hw.find?_eq_toList hp
  refine ⟨?_, hfind, ?_, ?_⟩
  · rw [hw.tryFind_eq, hw.find?_bucket_eq hp]
  · rw [Map.get?, hfind]
  · rw [Map.contains, hfind, List.isSome_find?]

/-- A map with two equivalent keys whose hashes differ, and two other keys with one hash. -/
def twoFacedMap : Map Scalar Scalar :=
  Map.ofEdits [.insert ⟨.pinned 1 5 0, .nil⟩, .insert ⟨.pinned 1 6 0, .nil⟩,
    .insert ⟨.pinned 2 37 0, .nil⟩, .insert ⟨.pinned 3 37 0, .boolean true⟩]

/-- The equivalent keys with different hashes do not keep another key from being found. -/
theorem find?_toList_twoFacedMap :
    twoFacedMap.Reachable ∧ (Probe.ofKey (.pinned 3 37 1)).LawfulOn twoFacedMap.toList ∧
      twoFacedMap.find? (Probe.ofKey (.pinned 3 37 1)) =
        some ⟨.pinned 3 37 0, .boolean true⟩ := by
  have hm : twoFacedMap.Reachable := Map.reachable_ofEdits _
  have hlist : twoFacedMap.toList = [⟨.pinned 1 5 0, .nil⟩, ⟨.pinned 2 37 0, .nil⟩,
      ⟨.pinned 3 37 0, .boolean true⟩, ⟨.pinned 1 6 0, .nil⟩] := by
    rw [Map.toList_eq]
    rfl
  have hp : (Probe.ofKey (.pinned 3 37 1)).LawfulOn twoFacedMap.toList := by
    rw [Probe.LawfulOn, hlist]
    decide
  refine ⟨hm, hp, ?_⟩
  rw [(find?_toList_of_reachable hm hp).2.1, hlist]
  rfl

end HashTrie
