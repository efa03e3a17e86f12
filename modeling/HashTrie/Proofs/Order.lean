import HashTrie.Proofs.Groups
import HashTrie.Proofs.Updates

/-!
# The order of a trie

The list of a well-formed trie is sorted by the slices of the hashes (`pairwise_toList`). A sorted
list is determined by its groups (`eq_of_sameGroups`), so it is the stable sort of any list with the
same groups (`Map.WellFormed.toList_eq_inSliceOrder`).
-/

namespace HashTrie

variable {K V : Type} [HashEquiv K]

/-- Whether a list is sorted by the slices of its keys' hashes. -/
def SliceSorted (l : List (Entry K V)) : Prop :=
  l.Pairwise fun x y => slices (HashEquiv.hash x.key) ≤ slices (HashEquiv.hash y.key)

namespace Node

/-- **The list of a well-formed node is sorted by the slices from its height on.** -/
theorem pairwise_toList {h : Nat} {node : Node K V} (hw : node.WellFormed h) :
    node.toList.Pairwise fun x y =>
      slicesBelow h (HashEquiv.hash x.key) ≤ slicesBelow h (HashEquiv.hash y.key) := by
  induction hw using WellFormed.climb with
  | collision h hash entries hw =>
    rw [toList]
    refine List.pairwise_of_forall_mem_list fun x hx y hy => ?_
    rw [hw.hash_eq x hx, hw.hash_eq y hy]
  | branch h node hw hb ih =>
    rw [hw.toList_eq hb, List.pairwise_flatMap]
    constructor
    · -- the entries of one slice are in the order of the slices below
      intro i _
      have hrouted := hw.routed_entriesAt i
      unfold entriesAt at hrouted ⊢
      cases hs : node.slotAt i with
      | none => exact .nil
      | some s =>
        rw [hs] at hrouted
        cases s with
        | entry e => exact List.pairwise_singleton ..
        | child n =>
          refine (ih i n hs).imp_of_mem fun {x y} hx hy hxy => ?_
          exact slicesBelow_succ_le ((hrouted x hx).trans (hrouted y hy).symm) hxy
    · -- those of different slices are in the order of these
      refine (List.pairwise_lt_finRange 32).imp fun {i j} hij x hx y hy => le_of_lt ?_
      rw [slicesBelow_succ_lt_iff, hw.routed_entriesAt i x hx, hw.routed_entriesAt j y hy]
      exact .inl hij

end Node

theorem Map.WellFormed.sliceSorted {m : Map K V} (hw : m.WellFormed) : SliceSorted m.toList := by
  cases hr : m.root with
  | none =>
    rw [Map.toList_of_root_eq_none hr]
    exact .nil
  | some root =>
    rw [Map.toList_of_root_eq_some hr]
    exact Node.pairwise_toList (hw.root_node hr)

/-- **The entries with one hash stand together.** -/
theorem Map.WellFormed.exists_append_withHash {m : Map K V} (hw : m.WellFormed) (c : UInt32) :
    ∃ before behind, m.toList = before ++ withHash c m.toList ++ behind ∧
      ∀ x ∈ before ++ behind, HashEquiv.hash x.key ≠ c := by
  by_cases hc : ∃ x ∈ m.toList, HashEquiv.hash x.key = c
  · obtain ⟨x, hx, rfl⟩ := hc
    obtain ⟨before, behind, hl, -, hbefore, hbehind⟩ :=
      hw.replacedAt_bucket (HashEquiv.hash x.key)
    rw [hw.bucket_eq_withHash hx] at hl
    refine ⟨before, behind, hl, fun y hy heq => ?_⟩
    rcases List.mem_append.mp hy with hy | hy
    · exact absurd (hbefore y hy) (by simp [heq])
    · exact absurd (hbehind y hy) (by simp [heq])
  · have hnone : ∀ x ∈ m.toList, HashEquiv.hash x.key ≠ c := fun x hx heq => hc ⟨x, hx, heq⟩
    exact ⟨[], m.toList, by rw [withHash_eq_nil hnone]; rfl, by simpa using hnone⟩

/-! ## Sorted lists -/

/-- The first key of a sorted list has the least hash. -/
theorem SliceSorted.head_le {x y : Entry K V} {l : List (Entry K V)} (hl : SliceSorted (x :: l))
    (hy : y ∈ x :: l) : slices (HashEquiv.hash x.key) ≤ slices (HashEquiv.hash y.key) := by
  rcases List.mem_cons.mp hy with rfl | hy
  · exact le_refl _
  · exact List.rel_of_pairwise_cons hl hy

theorem SameGroups.mem {l l' : List (Entry K V)} (hg : SameGroups l l') {x : Entry K V}
    (hx : x ∈ l) : x ∈ l' := by
  have hx' : x ∈ withHash (HashEquiv.hash x.key) l := mem_withHash.mpr ⟨hx, rfl⟩
  rw [hg] at hx'
  exact (mem_withHash.mp hx').1

theorem SameGroups.tail {x : Entry K V} {l l' : List (Entry K V)}
    (hg : SameGroups (x :: l) (x :: l')) : SameGroups l l' := by
  intro c
  have hc := hg c
  by_cases hx : HashEquiv.hash x.key = c
  · rw [withHash_cons_of_eq hx, withHash_cons_of_eq hx] at hc
    exact (List.cons.inj hc).2
  · rwa [withHash_cons_of_ne hx, withHash_cons_of_ne hx] at hc

/-- **A sorted list is determined by its groups.** -/
theorem eq_of_sameGroups {l l' : List (Entry K V)} (hl : SliceSorted l) (hl' : SliceSorted l')
    (hg : SameGroups l l') : l = l' := by
  induction l generalizing l' with
  | nil =>
    cases l' with
    | nil => rfl
    | cons y l' => exact absurd (hg.symm.mem List.mem_cons_self) List.not_mem_nil
  | cons x l ih =>
    cases l' with
    | nil => exact absurd (hg.mem List.mem_cons_self) List.not_mem_nil
    | cons y l' =>
      have hle := hl'.head_le (hg.mem List.mem_cons_self)
      have hge := hl.head_le (hg.symm.mem List.mem_cons_self)
      have hhash := slices_injective (le_antisymm hge hle)
      -- both lists begin with the first entry of one group
      have hfirst := hg (HashEquiv.hash y.key)
      rw [withHash_cons_of_eq hhash, withHash_cons_of_eq rfl] at hfirst
      obtain ⟨rfl, -⟩ := List.cons.inj hfirst
      rw [ih hl.of_cons hl'.of_cons hg.tail]

/-! ## Stable sorting -/

theorem sliceLE_iff {a b : UInt32} : Dictionary.sliceLE a b = true ↔ slices a ≤ slices b :=
  decide_eq_true_iff

theorem sliceLE_trans (x y z : Entry K V)
    (hxy : Dictionary.sliceLE (HashEquiv.hash x.key) (HashEquiv.hash y.key) = true)
    (hyz : Dictionary.sliceLE (HashEquiv.hash y.key) (HashEquiv.hash z.key) = true) :
    Dictionary.sliceLE (HashEquiv.hash x.key) (HashEquiv.hash z.key) = true :=
  sliceLE_iff.mpr (le_trans (sliceLE_iff.mp hxy) (sliceLE_iff.mp hyz))

theorem sliceLE_total (x y : Entry K V) :
    (Dictionary.sliceLE (HashEquiv.hash x.key) (HashEquiv.hash y.key) ||
      Dictionary.sliceLE (HashEquiv.hash y.key) (HashEquiv.hash x.key)) = true := by
  rw [Bool.or_eq_true, sliceLE_iff, sliceLE_iff]
  exact le_total _ _

theorem perm_inSliceOrder (d : Dictionary K V) : d.inSliceOrder.Perm d := List.mergeSort_perm d _

theorem sliceSorted_inSliceOrder (d : Dictionary K V) : SliceSorted d.inSliceOrder :=
  (List.pairwise_mergeSort sliceLE_trans sliceLE_total d).imp sliceLE_iff.mp

/-- Sorting keeps the entries of one hash in their order. -/
theorem sameGroups_inSliceOrder (d : Dictionary K V) : SameGroups d.inSliceOrder d := by
  intro c
  have hpairwise : (withHash c d).Pairwise fun x y =>
      Dictionary.sliceLE (HashEquiv.hash x.key) (HashEquiv.hash y.key) = true := by
    refine List.pairwise_of_forall_mem_list fun x hx y hy => sliceLE_iff.mpr ?_
    rw [(mem_withHash.mp hx).2, (mem_withHash.mp hy).2]
  have hsub : (withHash c d).Sublist d.inSliceOrder :=
    List.sublist_mergeSort sliceLE_trans sliceLE_total hpairwise List.filter_sublist
  have hsub' := hsub.filter fun x => HashEquiv.hash x.key == c
  have hself : (withHash c d).filter (fun x => HashEquiv.hash x.key == c) = withHash c d :=
    List.filter_eq_self.mpr fun x hx => beq_iff_eq.mpr (mem_withHash.mp hx).2
  have hlen := ((perm_inSliceOrder d).filter fun x => HashEquiv.hash x.key == c).length_eq
  rw [hself] at hsub'
  exact (hsub'.eq_of_length hlen.symm).symm

theorem inSliceOrder_eq_of_sameGroups {d d' : Dictionary K V} (hg : SameGroups d d') :
    d.inSliceOrder = d'.inSliceOrder :=
  eq_of_sameGroups (sliceSorted_inSliceOrder d) (sliceSorted_inSliceOrder d')
    (((sameGroups_inSliceOrder d).trans hg).trans (sameGroups_inSliceOrder d').symm)

/-- Lists with the same groups have the same entries. -/
theorem SameGroups.perm {l l' : List (Entry K V)} (hg : SameGroups l l') : l.Perm l' := by
  have hl := perm_inSliceOrder l
  rw [inSliceOrder_eq_of_sameGroups hg] at hl
  exact hl.symm.trans (perm_inSliceOrder l')

/-- **The list of a well-formed map is the stable sort of any list with the same groups.** -/
theorem Map.WellFormed.toList_eq_inSliceOrder {m : Map K V} (hw : m.WellFormed)
    {d : Dictionary K V} (hg : SameGroups m.toList d) : m.toList = d.inSliceOrder :=
  eq_of_sameGroups hw.sliceSorted (sliceSorted_inSliceOrder d)
    (hg.trans (sameGroups_inSliceOrder d).symm)

end HashTrie
