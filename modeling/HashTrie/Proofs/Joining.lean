import HashTrie.Proofs.Edits
import HashTrie.Trie.Insert

/-!
# Joining two slots

When a new entry meets an entry or a collision node with another hash, both are put below the slices
in which the hashes still agree. Two hashes that differ stop agreeing before the slices run out, so
this meets no fault. The joined node is well formed and holds nothing else (`exists_join_eq`), and
it is a fork below one node for each further slice that the hashes share (`exists_join_eq_nest`).
-/

namespace HashTrie

variable {K V : Type} [HashEquiv K]

/-- Whether a slot may stand wherever this hash leads. -/
def Slot.Carries (hash : UInt32) (s : Slot K V (Node K V)) : Prop :=
  ∀ h, h < rootHeight → s.Fits h (sliceAt (h + 1) hash)

theorem carries_entry (e : Entry K V) :
    Slot.Carries (HashEquiv.hash e.key) (.entry e : Slot K V (Node K V)) :=
  fun _ _ => rfl

namespace Node

variable {h : Nat} {a b hash : UInt32} {s s₁ s₂ : Slot K V (Node K V)}

theorem carries_collision {hash : UInt32} {entries : List (Entry K V)}
    (hw : (collision hash entries).WellFormed h) :
    Slot.Carries hash (.child (collision hash entries)) := by
  intro k hk
  obtain ⟨-, hne, hhash⟩ := hw.collision_parts
  exact ⟨wellFormed_collision.mpr ⟨hk, hne, hhash⟩, fun x hx => by rw [hhash x hx]⟩

/-! ## Nodes with one slot or two -/

omit [HashEquiv K] in
theorem toList_singleton (i : Fin 32) (s : Slot K V (Node K V)) :
    (bitmap (Bitmap.single i) [s]).toList = s.toList := by
  rw [toList, slotEntries_eq_flatMap, List.flatMap_singleton]

/-- The bitmap node with two slots at different slices. -/
theorem wellFormed_two {i j : Fin 32} (hh : h + 1 ≤ rootHeight) (hij : i ≠ j)
    (h₁ : s₁.Fits h i) (h₂ : s₂.Fits h j) :
    (bitmap ((Bitmap.single i).insert j) (if i < j then [s₁, s₂] else [s₂, s₁])).WellFormed
      (h + 1) := by
  have hfree : (Bitmap.single i).has j = false := by simpa using hij
  have hslots : (if i < j then [s₁, s₂] else [s₂, s₁]) =
      [s₁].insertIdx ((Bitmap.single i).rank j) s₂ := by
    rw [Bitmap.rank_single]
    split <;> rfl
  rw [hslots]
  have hroom : [s₁].length < maxSlots := by simp [maxSlots]
  exact (changedAt_insert_slot (wellFormed_singleton hh h₁) hfree hroom h₂).wellFormed

omit [HashEquiv K] in
theorem toList_two (i j : Fin 32) (occupied : Bitmap) :
    (bitmap occupied (if i < j then [s₁, s₂] else [s₂, s₁])).toList = s₁.toList ++ s₂.toList ∨
      (bitmap occupied (if i < j then [s₁, s₂] else [s₂, s₁])).toList =
        s₂.toList ++ s₁.toList := by
  rw [toList, slotEntries_eq_flatMap]
  split <;> simp

/-! ## Joining -/

/-- **Two slots whose hashes differ can be joined.** -/
theorem exists_join_eq (h₁ : s₁.Carries a) (h₂ : s₂.Carries b) (hab : Agree h a b) (hne : a ≠ b)
    (hh : h ≤ rootHeight) :
    ∃ node, join a s₁ b s₂ h = .ok node ∧ node.WellFormed h ∧
      (node.toList = s₁.toList ++ s₂.toList ∨ node.toList = s₂.toList ++ s₁.toList) := by
  induction h with
  | zero => exact absurd (eq_of_agree_zero hab) hne
  | succ h ih =>
    have hfits₁ := h₁ h hh
    have hfits₂ := h₂ h hh
    by_cases hs : sliceAt (h + 1) a = sliceAt (h + 1) b
    · obtain ⟨node, hjoin, hw, hlist⟩ := ih (hab.step hs) (by omega)
      have hfits : (Slot.child node).Fits h (sliceAt (h + 1) a) := by
        refine ⟨hw, fun x hx => ?_⟩
        have hmem : x ∈ s₁.toList ∨ x ∈ s₂.toList := by
          rcases hlist with hlist | hlist <;> simpa [hlist, or_comm] using hx
        rcases hmem with hx | hx
        · exact hfits₁.routed x hx
        · exact (hfits₂.routed x hx).trans hs.symm
      refine ⟨bitmap (Bitmap.single (sliceAt (h + 1) a)) [.child node], ?_,
        wellFormed_singleton hh hfits, ?_⟩
      · simp [join, hs, hjoin, bind, Except.bind]
      · rwa [toList_singleton]
    · exact ⟨_, by rw [join, if_neg hs], wellFormed_two hh hs hfits₁ hfits₂, toList_two ..⟩

/-- An entry and a new one can be put below one slot: in a collision node when they have one hash,
and joined otherwise. -/
theorem exists_pair_eq {old e : Entry K V} (hab : Agree h (HashEquiv.hash old.key) hash)
    (he : hash = HashEquiv.hash e.key) (hh : h < rootHeight) :
    ∃ node events, pair old hash e h = .ok ⟨node, events⟩ ∧ node.WellFormed h ∧
      (node.toList = [old, e] ∨ HashEquiv.hash old.key ≠ hash ∧ node.toList = [e, old]) := by
  unfold pair
  by_cases hone : HashEquiv.hash old.key = hash
  · refine ⟨collision hash [old, e], [.collided hash], by simp [hone], ?_, .inl (by simp [toList])⟩
    refine wellFormed_collision.mpr ⟨hh, by simp, fun x hx => ?_⟩
    rcases List.mem_pair.mp hx with rfl | rfl
    · exact hone
    · exact he.symm
  · obtain ⟨node, hjoin, hw, hlist⟩ := exists_join_eq (carries_entry old)
      (he ▸ carries_entry e) hab hone (le_of_lt hh)
    refine ⟨node, [], by simp [hone, hjoin, Except.map, Traced.silent], hw, ?_⟩
    rcases hlist with hlist | hlist
    · exact .inl (by simpa using hlist)
    · exact .inr ⟨hone, by simpa using hlist⟩

/-! ## The levels of a joined node -/

/-- Nodes with one slot each along a list of slices, one below the other, and a node below them. -/
def nest {K V : Type} (is : List (Fin 32)) (node : Node K V) : Node K V :=
  is.foldr (fun i below => .bitmap (Bitmap.single i) [.child below]) node

/-- The node with two slots at different slices. -/
def fork {K V : Type} (i : Fin 32) (s₁ : Slot K V (Node K V)) (j : Fin 32)
    (s₂ : Slot K V (Node K V)) : Node K V :=
  .bitmap ((Bitmap.single i).insert j) (if i < j then [s₁, s₂] else [s₂, s₁])

omit [HashEquiv K] in
/-- **Joining takes one level for each slice that the hashes share, and one for the fork.** -/
theorem exists_join_eq_nest (s₁ s₂ : Slot K V (Node K V)) (hab : Agree h a b) (hne : a ≠ b) :
    ∃ n, n < h ∧ sliceAt (h - n) a ≠ sliceAt (h - n) b ∧
      join a s₁ b s₂ h =
        .ok (nest ((slicesBelow h a).take n)
          (fork (sliceAt (h - n) a) s₁ (sliceAt (h - n) b) s₂)) := by
  induction h with
  | zero => exact absurd (eq_of_agree_zero hab) hne
  | succ h ih =>
    by_cases hs : sliceAt (h + 1) a = sliceAt (h + 1) b
    · obtain ⟨n, hn, hfork, hjoin⟩ := ih (hab.step hs)
      refine ⟨n + 1, by omega, ?_, ?_⟩
      · rwa [Nat.add_sub_add_right]
      · rw [join, if_pos hs, hjoin, Nat.add_sub_add_right]
        rfl
    · exact ⟨0, Nat.succ_pos h, hs, by rw [join, if_neg hs]; rfl⟩

end Node

end HashTrie
