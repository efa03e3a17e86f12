import HashTrie.Proofs.Refinement

/-!
# The order of the walks

The walks over a map go through the entries of its dictionary sorted by the slices of the hashes,
the entries with one hash in the order in which their keys came (`iteratesAs_of_edits`). So the
shape of the trie, which depends on the whole history, leaves no trace in the order: runs whose
dictionaries have the same entries, no two of them with one hash, lead to one order.
-/

namespace HashTrie

variable {K V : Type} [HashEquiv K]

/-- Whether a map goes through the entries of a dictionary in the order of their hashes' slices. -/
structure IteratesAs (m : Map K V) (d : Dictionary K V) : Prop where
  /-- The walk is the stable sort of the dictionary. -/
  toList_eq : m.toList = d.inSliceOrder
  /-- The entries with one hash stand together, in the order of the dictionary. -/
  contiguous : ∀ c, ∃ before behind, m.toList = before ++ withHash c d ++ behind ∧
    ∀ x ∈ before ++ behind, HashEquiv.hash x.key ≠ c

theorem Refines.iteratesAs {m : Map K V} {d : Dictionary K V} (h : Refines m d) :
    IteratesAs m d where
  toList_eq := h.wellFormed.toList_eq_inSliceOrder h.sameGroups
  contiguous c := by
    rw [← h.sameGroups c]
    exact h.wellFormed.exists_append_withHash c

/-! ## Dictionaries without shared hashes -/

/-- Whether no two keys of a list have one hash. -/
def DistinctHashes (l : List (Entry K V)) : Prop :=
  l.Pairwise fun x y => HashEquiv.hash x.key ≠ HashEquiv.hash y.key

theorem DistinctHashes.length_withHash_le {l : List (Entry K V)} (hl : DistinctHashes l)
    (c : UInt32) : (withHash c l).length ≤ 1 := by
  have hgroup : DistinctHashes (withHash c l) := hl.filter _
  have hhash : ∀ x ∈ withHash c l, HashEquiv.hash x.key = c := fun x hx => (mem_withHash.mp hx).2
  match hw : withHash c l with
  | [] => simp
  | [x] => simp
  | x :: y :: rest =>
    rw [hw] at hgroup hhash
    have hne := List.rel_of_pairwise_cons hgroup (List.mem_cons_self (a := y) (l := rest))
    have hx := hhash x (by simp)
    have hy := hhash y (by simp)
    exact absurd (hx.trans hy.symm) hne

/-- Without shared hashes, the groups forget the order of a dictionary. -/
theorem sameGroups_of_perm {l l' : List (Entry K V)} (hp : l.Perm l') (hl : DistinctHashes l) :
    SameGroups l l' := by
  intro c
  have hgroup : (withHash c l).Perm (withHash c l') := hp.filter _
  have hle := hl.length_withHash_le c
  match hw : withHash c l with
  | [] =>
    rw [hw] at hgroup
    exact hgroup.nil_eq
  | [x] =>
    rw [hw] at hgroup
    exact (List.perm_singleton.mp hgroup.symm).symm
  | x :: y :: rest =>
    rw [hw] at hle
    simp at hle

/-- Maps of one set of entries, no two with one hash, have one walk. -/
theorem Refines.toList_eq_of_perm {m m' : Map K V} {d d' : Dictionary K V} (h : Refines m d)
    (h' : Refines m' d') (hperm : d.Perm d') (hd : DistinctHashes d) : m'.toList = m.toList := by
  rw [h.iteratesAs.toList_eq, h'.iteratesAs.toList_eq]
  exact (inSliceOrder_eq_of_sameGroups (sameGroups_of_perm hperm hd)).symm

/-! ## Runs -/

/-- **The order of the walks is that of the dictionary, sorted by slices**, and two runs that end in
the same entries, no two with one hash, end in the same order. -/
theorem iteratesAs_of_edits [BEq V] [LawfulHashEquiv K]
    (hsymm : ∀ v w : V, (v == w) = true → (w == v) = true) {es : List (Map.Edit K V)}
    (hes : ∀ e ∈ es, e.Lawful) (l : Ledger) :
    IteratesAs ((Map.empty : Map K V).edits es l).1 (Dictionary.edits [] es) ∧
      ∀ (es' : List (Map.Edit K V)) (l' : Ledger), (∀ e ∈ es', e.Lawful) →
        (Dictionary.edits [] es).Perm (Dictionary.edits [] es') →
        DistinctHashes (Dictionary.edits [] es) →
        ((Map.empty : Map K V).edits es' l').1.toList =
          ((Map.empty : Map K V).edits es l).1.toList := by
  have hr := refines_empty.edits hsymm hes l
  refine ⟨hr.iteratesAs, fun es' l' hes' hperm hdistinct => ?_⟩
  exact hr.toList_eq_of_perm (refines_empty.edits hsymm hes' l') hperm hdistinct

/-- Two keys bound in one order or the other are walked over in one order. -/
theorem iteratesAs_edits_bools :
    (∀ e ∈ ([.insert ⟨true, 1⟩, .insert ⟨false, 2⟩] : List (Map.Edit Bool Nat)), e.Lawful) ∧
      (∀ v w : Nat, (v == w) = true → (w == v) = true) ∧
      IteratesAs ((Map.empty : Map Bool Nat).edits
        [.insert ⟨true, 1⟩, .insert ⟨false, 2⟩] Ledger.empty).1 [⟨true, 1⟩, ⟨false, 2⟩] ∧
      ((Map.empty : Map Bool Nat).edits [.insert ⟨false, 2⟩, .insert ⟨true, 3⟩, .insert ⟨true, 1⟩]
        Ledger.empty).1.toList =
        ((Map.empty : Map Bool Nat).edits
          [.insert ⟨true, 1⟩, .insert ⟨false, 2⟩] Ledger.empty).1.toList := by
  have hes : ∀ e ∈ ([.insert ⟨true, 1⟩, .insert ⟨false, 2⟩] : List (Map.Edit Bool Nat)),
      e.Lawful := by
    simp [Map.Edit.Lawful]
  have hsymm : ∀ v w : Nat, (v == w) = true → (w == v) = true := fun _ _ => BEq.symm
  obtain ⟨hi, hruns⟩ := iteratesAs_of_edits hsymm hes Ledger.empty
  refine ⟨hes, hsymm, hi, hruns _ Ledger.empty (by simp [Map.Edit.Lawful]) (by decide) ?_⟩
  unfold DistinctHashes
  decide

end HashTrie
