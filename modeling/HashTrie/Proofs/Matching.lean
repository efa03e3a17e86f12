import HashTrie.Proofs.Population
import Mathlib.Data.List.Forall2
import Mathlib.Data.List.Perm.Subperm

/-!
# Matching entries

Two entries match when their keys are equivalent and their values agree. A list covers another one
when each of its own entries has a match there, which is what a comparison of maps looks at. This is
one-sided, but the keys of a list are distinct, so different entries have different matches
(`Covers.exists_forall₂`): a list that covers another one is not longer, and when the two are as
long as each other, the matches are all entries of the other list, in some order
(`Covers.exists_forall₂_perm`), and the other list covers the first (`Covers.symm`).

Keys need not be equivalent to themselves here, and values need not agree with themselves.
-/

namespace HashTrie

variable {K V : Type} [HashEquiv K]

/-- Whether two entries have equivalent keys, and values that a test accepts. -/
def Entry.Matches (same : V → V → Bool) (x y : Entry K V) : Prop :=
  equiv x.key y.key = true ∧ same x.value y.value = true

/-- Whether each entry of a list has a match in another. -/
def Covers (same : V → V → Bool) (l l' : List (Entry K V)) : Prop :=
  ∀ x ∈ l, ∃ y ∈ l', x.Matches same y

omit [HashEquiv K] in
/-- Whether the keys and the values of a list are from two sets. -/
def DrawnFrom (S : Set K) (T : Set V) (l : List (Entry K V)) : Prop :=
  ∀ x ∈ l, x.key ∈ S ∧ x.value ∈ T

variable {S : Set K} {T : Set V} {same same' : V → V → Bool} {l l' l'' : List (Entry K V)}
  {x y z : Entry K V}

/-! ## Matching as a relation -/

section Relation

variable (hS : PartialEquivOn S equiv) (hT : PartialEquivOn T same)

include hS hT

theorem Entry.Matches.symm (hx : x.key ∈ S ∧ x.value ∈ T) (hy : y.key ∈ S ∧ y.value ∈ T)
    (h : x.Matches same y) : y.Matches same x :=
  ⟨hS.symm hx.1 hy.1 h.1, hT.symm hx.2 hy.2 h.2⟩

theorem Entry.Matches.trans (hx : x.key ∈ S ∧ x.value ∈ T) (hy : y.key ∈ S ∧ y.value ∈ T)
    (hz : z.key ∈ S ∧ z.value ∈ T) (h : x.Matches same y) (h' : y.Matches same z) :
    x.Matches same z :=
  ⟨hS.trans hx.1 hy.1 hz.1 h.1 h'.1, hT.trans hx.2 hy.2 hz.2 h.2 h'.2⟩

theorem Covers.trans (hl : DrawnFrom S T l) (hl' : DrawnFrom S T l') (hl'' : DrawnFrom S T l'')
    (h : Covers same l l') (h' : Covers same l' l'') : Covers same l l'' := by
  intro x hx
  obtain ⟨y, hy, hxy⟩ := h x hx
  obtain ⟨z, hz, hyz⟩ := h' y hy
  exact ⟨z, hz, hxy.trans hS hT (hl x hx) (hl' y hy) (hl'' z hz) hyz⟩

end Relation

/-- A list of reflexive keys and values covers itself. -/
theorem covers_self (hS : ∀ k ∈ S, equiv k k = true) (hT : ∀ v ∈ T, same v v = true)
    (hl : DrawnFrom S T l) : Covers same l l :=
  fun x hx => ⟨x, hx, hS x.key (hl x hx).1, hT x.value (hl x hx).2⟩

/-- Tests that agree on the values cover the same lists. -/
theorem covers_congr (h : ∀ v ∈ T, ∀ w ∈ T, same v w = same' v w) (hl : DrawnFrom S T l)
    (hl' : DrawnFrom S T l') : Covers same l l' ↔ Covers same' l l' := by
  refine forall₂_congr fun x hx => exists_congr fun y => and_congr_right fun hy => ?_
  rw [Entry.Matches, Entry.Matches, h x.value (hl x hx).2 y.value (hl' y hy).2]

/-! ## Distinct keys have distinct matches -/

section Distinct

variable (hS : PartialEquivOn S equiv)

include hS

/-- **Different entries of a list have different matches.** -/
theorem Covers.exists_forall₂ (hd : DistinctKeys l) (hl : DrawnFrom S T l)
    (hl' : DrawnFrom S T l') (hc : Covers same l l') :
    ∃ p, List.Forall₂ (Entry.Matches same) l p ∧ p.Nodup ∧ p ⊆ l' ∧
      ∀ y ∈ p, ∃ x ∈ l, x.Matches same y := by
  induction l with
  | nil => exact ⟨[], .nil, List.nodup_nil, List.nil_subset _, by simp⟩
  | cons x l ih =>
    obtain ⟨hx, hd⟩ := List.pairwise_cons.mp hd
    obtain ⟨hxS, hl⟩ := List.forall_mem_cons.mp hl
    obtain ⟨⟨y, hy, hxy⟩, hc⟩ := List.forall_mem_cons.mp hc
    obtain ⟨p, hp, hnodup, hsub, hback⟩ := ih hd hl hc
    -- the key of another entry with the same match would be equivalent to that of `x`
    have hfresh : y ∉ p := by
      intro hyp
      obtain ⟨x', hx', hxy'⟩ := hback y hyp
      have hyS := (hl' y hy).1
      have hequiv := hS.trans hxS.1 hyS (hl x' hx').1 hxy.1 (hS.symm (hl x' hx').1 hyS hxy'.1)
      rw [(hx x' hx').1] at hequiv
      cases hequiv
    refine ⟨y :: p, .cons hxy hp, List.nodup_cons.mpr ⟨hfresh, hnodup⟩,
      List.cons_subset.mpr ⟨hy, hsub⟩, List.forall_mem_cons.mpr ⟨?_, fun z hz => ?_⟩⟩
    · exact ⟨x, List.mem_cons_self, hxy⟩
    · obtain ⟨x', hx', hxz⟩ := hback z hz
      exact ⟨x', List.mem_cons_of_mem x hx', hxz⟩

theorem Covers.length_le (hd : DistinctKeys l) (hl : DrawnFrom S T l) (hl' : DrawnFrom S T l')
    (hc : Covers same l l') : l.length ≤ l'.length := by
  obtain ⟨p, hp, hnodup, hsub, -⟩ := hc.exists_forall₂ hS hd hl hl'
  rw [hp.length_eq]
  exact (hnodup.subperm hsub).length_le

/-- **Lists of one length that cover each other match entry by entry, in some order.** -/
theorem Covers.exists_forall₂_perm (hd : DistinctKeys l) (hl : DrawnFrom S T l)
    (hl' : DrawnFrom S T l') (hlen : l.length = l'.length) (hc : Covers same l l') :
    ∃ p, List.Forall₂ (Entry.Matches same) l p ∧ p.Perm l' ∧
      ∀ y ∈ p, ∃ x ∈ l, x.Matches same y := by
  obtain ⟨p, hp, hnodup, hsub, hback⟩ := hc.exists_forall₂ hS hd hl hl'
  refine ⟨p, hp, (hnodup.subperm hsub).perm_of_length_le ?_, hback⟩
  rw [← hp.length_eq, hlen]

/-- What matching entries have in common a covered list has in common with the other, in some order.
-/
theorem Covers.perm_map {β : Type} (f : Entry K V → β) (hd : DistinctKeys l) (hl : DrawnFrom S T l)
    (hl' : DrawnFrom S T l') (hlen : l.length = l'.length) (hc : Covers same l l')
    (hf : ∀ x ∈ l, ∀ y ∈ l', x.Matches same y → f x = f y) : (l.map f).Perm (l'.map f) := by
  obtain ⟨p, hp, hperm, -⟩ := hc.exists_forall₂_perm hS hd hl hl' hlen
  have hmap : l.map f = p.map f := by
    rw [← List.forall₂_eq_eq_eq, List.forall₂_map_left_iff, List.forall₂_map_right_iff]
    refine (List.forall₂_iff_zip.mpr ⟨hp.length_eq, fun {x y} hxy => ?_⟩)
    have hx := (List.of_mem_zip hxy).1
    have hy := hperm.mem_iff.mp (List.of_mem_zip hxy).2
    exact hf x hx y hy (List.forall₂_zip hp hxy)
  rw [hmap]
  exact hperm.map f

/-- **Covering is symmetric between lists of one length.** -/
theorem Covers.symm (hT : PartialEquivOn T same) (hd : DistinctKeys l) (hl : DrawnFrom S T l)
    (hl' : DrawnFrom S T l') (hlen : l.length = l'.length) (hc : Covers same l l') :
    Covers same l' l := by
  obtain ⟨p, -, hperm, hback⟩ := hc.exists_forall₂_perm hS hd hl hl' hlen
  intro y hy
  obtain ⟨x, hx, hxy⟩ := hback y (hperm.mem_iff.mpr hy)
  exact ⟨x, hx, hxy.symm hS hT (hl x hx) (hl' y hy)⟩

end Distinct

end HashTrie
