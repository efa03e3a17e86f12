import HashTrie.Dictionary
import HashTrie.Proofs.Insertion

/-!
# Lists by their hashes

Two lists of entries have the same groups when, for each hash, they have the same entries with this
hash in the same order (`SameGroups`). A map and the dictionary of its history are related in this
way. The edits of a dictionary act on one hash (`ActsOn`): they change the group of this hash, by
the same edit, and no other group. So they keep lists with the same groups related, and an edit of a
bucket, carried out in the list of a trie, amounts to the edit of the whole list
(`ReplacedAt.sameGroups`). This rests on the contract between hash and equivalence.
-/

namespace HashTrie

variable {K V : Type} [HashEquiv K]

/-- Whether a probe accepts no keys but those with its hash. -/
def Probe.Lawful (probe : Probe K) : Prop :=
  ∀ k, probe.accepts k = true → HashEquiv.hash k = probe.hash

theorem lawful_ofKey [LawfulHashEquiv K] (key : K) : (Probe.ofKey key).Lawful :=
  fun _ hk => (LawfulHashEquiv.hash_eq_of_equiv hk).symm

/-! ## Groups -/

/-- Whether two lists have the same entries of each hash, in the same order. -/
def SameGroups (l l' : List (Entry K V)) : Prop := ∀ c, withHash c l = withHash c l'

theorem SameGroups.refl (l : List (Entry K V)) : SameGroups l l := fun _ => rfl

theorem SameGroups.symm {l l' : List (Entry K V)} (h : SameGroups l l') : SameGroups l' l :=
  fun c => (h c).symm

theorem SameGroups.trans {l l' l'' : List (Entry K V)} (h : SameGroups l l')
    (h' : SameGroups l' l'') : SameGroups l l'' :=
  fun c => (h c).trans (h' c)

/-- Whether a change of a list changes the group of one hash, by itself, and no other group. -/
structure ActsOn (hash : UInt32) (f : List (Entry K V) → List (Entry K V)) : Prop where
  at_hash : ∀ l, withHash hash (f l) = f (withHash hash l)
  off_hash : ∀ c l, c ≠ hash → withHash c (f l) = withHash c l

variable {hash : UInt32} {f : List (Entry K V) → List (Entry K V)}

theorem ActsOn.sameGroups (hf : ActsOn hash f) {l l' : List (Entry K V)} (h : SameGroups l l') :
    SameGroups (f l) (f l') := by
  intro c
  by_cases hc : c = hash
  · subst hc
    rw [hf.at_hash, hf.at_hash, h c]
  · rw [hf.off_hash c l hc, hf.off_hash c l' hc, h c]

/-- **A change of a bucket is the change of the whole list, up to the order of the groups.** -/
theorem ReplacedAt.sameGroups {h : Nat} {old new l l' : List (Entry K V)} (hf : ActsOn hash f)
    (hr : ReplacedAt h hash old new l l') (hnew : SameGroups new (f old)) :
    SameGroups l' (f l) := by
  intro c
  by_cases hc : c = hash
  · subst hc
    rw [hr.withHash_eq, hnew c, hf.at_hash, hf.at_hash, hr.symm.withHash_eq]
  · obtain ⟨before, behind, rfl, rfl, -, -⟩ := hr
    rw [hf.off_hash c _ hc]
    simp only [withHash_append]
    rw [hnew c, hf.off_hash c _ hc]

/-! ## Edits of dictionaries -/

section Dictionary

variable {e : Entry K V} {probe : Probe K} {d : Dictionary K V}

/-- A dictionary without an equivalent key gets the entry at its end. -/
theorem insert_eq_append [BEq V] (hfresh : ∀ x ∈ d, equiv e.key x.key = false) :
    Dictionary.insert e d = d ++ [e] := by
  induction d with
  | nil => rfl
  | cons x d ih =>
    obtain ⟨hx, hd⟩ := List.forall_mem_cons.mp hfresh
    rw [Dictionary.insert, hx, if_neg Bool.false_ne_true, ih hd, List.cons_append]

theorem Meets.insert_eq [BEq V] {front back : List (Entry K V)} {old : Entry K V}
    (hm : Meets e d front old back) :
    Dictionary.insert e d =
      front ++ (if e.value == old.value then old else { old with value := e.value }) :: back := by
  obtain ⟨rfl, hequiv, hfirst⟩ := hm
  induction front with
  | nil => rw [List.nil_append, Dictionary.insert, if_pos hequiv, List.nil_append]
  | cons x front ih =>
    obtain ⟨hx, hfront⟩ := List.forall_mem_cons.mp hfirst
    rw [List.cons_append, Dictionary.insert, hx, if_neg Bool.false_ne_true, ih hfront,
      List.cons_append]

theorem meets_or_fresh (e : Entry K V) (d : Dictionary K V) :
    (∃ front old back, Meets e d front old back) ∨ ∀ x ∈ d, equiv e.key x.key = false := by
  cases hfind : List.find? (fun x => equiv e.key x.key) d with
  | none => exact .inr fun x hx => by simpa using List.find?_eq_none.mp hfind x hx
  | some old =>
    obtain ⟨hequiv, front, back, hsplit, hfirst⟩ := List.find?_eq_some_iff_append.mp hfind
    exact .inl ⟨front, old, back, hsplit, hequiv, fun x hx => by simpa using hfirst x hx⟩

/-- An insertion acts on the hash of its key. -/
theorem actsOn_insert [BEq V] [LawfulHashEquiv K] (e : Entry K V) :
    ActsOn (HashEquiv.hash e.key) (Dictionary.insert e) where
  at_hash l := by
    rcases meets_or_fresh e l with ⟨front, old, back, hm⟩ | hfresh
    · have hold : HashEquiv.hash e.key = HashEquiv.hash old.key :=
        LawfulHashEquiv.hash_eq_of_equiv hm.equiv
      have hm' : Meets e (withHash (HashEquiv.hash e.key) l) (withHash (HashEquiv.hash e.key) front)
          old (withHash (HashEquiv.hash e.key) back) := by
        refine ⟨?_, hm.equiv, fun x hx => hm.first x (mem_withHash.mp hx).1⟩
        rw [hm.split, withHash_append, withHash_cons_of_eq hold.symm]
      rw [hm.insert_eq, hm'.insert_eq, withHash_append, withHash_cons_of_eq]
      split <;> exact hold.symm
    · have hfresh' : ∀ x ∈ withHash (HashEquiv.hash e.key) l, equiv e.key x.key = false :=
        fun x hx => hfresh x (mem_withHash.mp hx).1
      rw [insert_eq_append hfresh, insert_eq_append hfresh', withHash_append,
        withHash_cons_of_eq rfl]
      rfl
  off_hash c l hc := by
    rcases meets_or_fresh e l with ⟨front, old, back, hm⟩ | hfresh
    · have hold : HashEquiv.hash old.key ≠ c := by
        rw [← LawfulHashEquiv.hash_eq_of_equiv hm.equiv]
        exact hc.symm
      rw [hm.insert_eq, hm.split, withHash_append, withHash_append, withHash_cons_of_ne hold,
        withHash_cons_of_ne]
      split <;> exact hold
    · rw [insert_eq_append hfresh, withHash_append, withHash_cons_of_ne hc.symm]
      exact List.append_nil _

omit [HashEquiv K] in
theorem erase_eq_append {front back : List (Entry K V)}
    (hfront : ∀ x ∈ front, probe.accepts x.key = false) (he : probe.accepts e.key = true) :
    Dictionary.erase probe (front ++ e :: back) = front ++ back := by
  rw [Dictionary.erase, List.eraseP_append_right _ fun x hx => by simpa using hfront x hx,
    List.eraseP_cons, he]
  rfl

omit [HashEquiv K] in
theorem erase_eq_self (hd : ∀ x ∈ d, probe.accepts x.key = false) :
    Dictionary.erase probe d = d :=
  List.eraseP_of_forall_not fun x hx => by simpa using hd x hx

/-- A removal acts on the hash of its probe. -/
theorem actsOn_erase (hp : probe.Lawful) :
    ActsOn (V := V) probe.hash (Dictionary.erase probe) where
  at_hash l := by
    cases hfind : Dictionary.find? l probe with
    | none =>
      have hl : ∀ x ∈ l, probe.accepts x.key = false := fun x hx => by
        simpa using List.find?_eq_none.mp hfind x hx
      rw [erase_eq_self hl, erase_eq_self fun x hx => hl x (mem_withHash.mp hx).1]
    | some x =>
      obtain ⟨hacc, front, back, rfl, hfirst⟩ := List.find?_eq_some_iff_append.mp hfind
      have hfront : ∀ y ∈ front, probe.accepts y.key = false := fun y hy => by
        simpa using hfirst y hy
      have hfront' : ∀ y ∈ withHash probe.hash front, probe.accepts y.key = false :=
        fun y hy => hfront y (mem_withHash.mp hy).1
      rw [erase_eq_append hfront hacc, withHash_append, withHash_append,
        withHash_cons_of_eq (hp x.key hacc), erase_eq_append hfront' hacc]
  off_hash c l hc := by
    cases hfind : Dictionary.find? l probe with
    | none =>
      have hl : ∀ x ∈ l, probe.accepts x.key = false := fun x hx => by
        simpa using List.find?_eq_none.mp hfind x hx
      rw [erase_eq_self hl]
    | some x =>
      obtain ⟨hacc, front, back, rfl, hfirst⟩ := List.find?_eq_some_iff_append.mp hfind
      have hx : HashEquiv.hash x.key ≠ c := by
        rw [hp x.key hacc]
        exact hc.symm
      rw [erase_eq_append (fun y hy => by simpa using hfirst y hy) hacc, withHash_append,
        withHash_append, withHash_cons_of_ne hx]

/-- A lookup asks the group of its probe's hash only. -/
theorem find?_withHash (hp : probe.Lawful) (d : Dictionary K V) :
    Dictionary.find? (withHash probe.hash d) probe = d.find? probe := by
  unfold Dictionary.find? withHash
  rw [List.find?_filter]
  congr 1
  funext x
  cases hacc : probe.accepts x.key with
  | false => simp
  | true => simp [hp x.key hacc]

end Dictionary

end HashTrie
