import HashTrie.Map.History

/-!
# Populations and runs

What the empty map has and each update keeps, all maps of a population have
(`Population.forall_mem`). A list of edits, made one after the other from a map that can be made,
leads to maps that can be made (`Population.edits`). So what holds of all these holds along every
run.
-/

namespace HashTrie

variable {K V : Type} [HashEquiv K] [BEq V] {m : Map K V}

namespace Map

/-! ## Insertion of a new key -/

theorem insertNew_of_contains {key : K} (hc : m.contains (Probe.ofKey key) = true) (value : V)
    (l : Ledger) : m.insertNew key value l = (.error .keyPresent, l) := by
  unfold insertNew
  rw [if_pos hc]
  rfl

theorem insertNew_of_not_contains {key : K} (hc : m.contains (Probe.ofKey key) = false) (value : V)
    (l : Ledger) :
    m.insertNew key value l = (.ok (m.insert key value l).1, (m.insert key value l).2) := by
  unfold insertNew
  rw [if_neg (Bool.eq_false_iff.mp hc)]
  rfl

theorem edit_insertNew_of_contains {e : Entry K V} (hc : m.contains (Probe.ofKey e.key) = true)
    (l : Ledger) : m.edit (.insertNew e) l = (m, l) := by
  simp only [edit, bind, StateT.bind, insertNew_of_contains hc]
  rfl

theorem edit_insertNew_of_not_contains {e : Entry K V}
    (hc : m.contains (Probe.ofKey e.key) = false) (l : Ledger) :
    m.edit (.insertNew e) l = m.insertEntry e l := by
  simp only [edit, bind, StateT.bind, insertNew_of_not_contains hc]
  rfl

/-! ## Insertion of lists -/

theorem insertAll_append (m : Map K V) (es es' : List (Entry K V)) (l : Ledger) :
    m.insertAll (es ++ es') l = (m.insertAll es l).1.insertAll es' (m.insertAll es l).2 := by
  induction es generalizing m l with
  | nil => rfl
  | cons e es ih => exact ih _ _

end Map

variable [HashEquiv V] {l : Ledger} {ms : List (Map K V)}

/-! ## What holds of a population -/

/-- **What each update keeps holds of all maps of a population.** Insertions may rely on what is
known of all its maps. -/
theorem Population.forall_mem {P Q : Map K V → Prop} (hp : Population l ms) (hQ : ∀ m ∈ ms, Q m)
    (hempty : P Map.empty)
    (hinsert : ∀ m e l, Q m → Q (Map.insertEntry m e l).1 → P m → P (Map.insertEntry m e l).1)
    (herase : ∀ m probe l, P m → P (Map.erase m probe l).1)
    (hcleared : ∀ m, P (Map.cleared m))
    (hmetadata : ∀ m metadata, P m → P (Map.withMetadata m metadata))
    (hhash : ∀ m, P m → P (Map.rememberHash m))
    (hpairHash : ∀ m, P m → P (Map.rememberPairHash m)) : ∀ m ∈ ms, P m := by
  induction hp with
  | start => exact fun m hm => absurd hm List.not_mem_nil
  | elsewhere _ _ ih => exact ih hQ
  | empty _ ih => exact List.forall_mem_cons.mpr ⟨hempty, ih (List.forall_mem_cons.mp hQ).2⟩
  | insert e _ hm ih =>
    obtain ⟨hQnew, hQ⟩ := List.forall_mem_cons.mp hQ
    exact List.forall_mem_cons.mpr ⟨hinsert _ e _ (hQ _ hm) hQnew (ih hQ _ hm), ih hQ⟩
  | erase probe _ hm ih =>
    obtain ⟨-, hQ⟩ := List.forall_mem_cons.mp hQ
    exact List.forall_mem_cons.mpr ⟨herase _ probe _ (ih hQ _ hm), ih hQ⟩
  | cleared _ _ ih =>
    exact List.forall_mem_cons.mpr ⟨hcleared _, ih (List.forall_mem_cons.mp hQ).2⟩
  | withMetadata _ hm _ ih =>
    obtain ⟨-, hQ⟩ := List.forall_mem_cons.mp hQ
    exact List.forall_mem_cons.mpr ⟨hmetadata _ _ (ih hQ _ hm), ih hQ⟩
  | withoutMetadata _ hm ih =>
    obtain ⟨-, hQ⟩ := List.forall_mem_cons.mp hQ
    exact List.forall_mem_cons.mpr ⟨hmetadata _ _ (ih hQ _ hm), ih hQ⟩
  | rememberHash _ hm ih =>
    obtain ⟨-, hQ⟩ := List.forall_mem_cons.mp hQ
    exact List.forall_mem_cons.mpr ⟨hhash _ (ih hQ _ hm), ih hQ⟩
  | rememberPairHash _ hm ih =>
    obtain ⟨-, hQ⟩ := List.forall_mem_cons.mp hQ
    exact List.forall_mem_cons.mpr ⟨hpairHash _ (ih hQ _ hm), ih hQ⟩

/-! ## Runs from maps that can be made -/

theorem Population.insertAll (hp : Population l ms) (hm : m ∈ ms) (es : List (Entry K V)) :
    ∃ ms', Population (m.insertAll es l).2 ms' ∧ (m.insertAll es l).1 ∈ ms' ∧ ms ⊆ ms' := by
  induction es generalizing l ms m with
  | nil => exact ⟨ms, hp, hm, List.Subset.refl ms⟩
  | cons e es ih =>
    obtain ⟨ms', hp', hm', hsub⟩ := ih (hp.insert e hm) List.mem_cons_self
    exact ⟨ms', hp', hm', List.Subset.trans (List.subset_cons_self ..) hsub⟩

theorem Population.edit (hp : Population l ms) (hm : m ∈ ms) (e : Map.Edit K V) :
    ∃ ms', Population (m.edit e l).2 ms' ∧ (m.edit e l).1 ∈ ms' ∧ ms ⊆ ms' := by
  cases e with
  | insert e => exact ⟨_, hp.insert e hm, List.mem_cons_self, List.subset_cons_self ..⟩
  | insertNew e =>
    cases hc : m.contains (Probe.ofKey e.key) with
    | true =>
      rw [Map.edit_insertNew_of_contains hc]
      exact ⟨ms, hp, hm, List.Subset.refl ms⟩
    | false =>
      rw [Map.edit_insertNew_of_not_contains hc]
      exact ⟨_, hp.insert e hm, List.mem_cons_self, List.subset_cons_self ..⟩
  | erase probe => exact ⟨_, hp.erase probe hm, List.mem_cons_self, List.subset_cons_self ..⟩
  | insertAll es => exact hp.insertAll hm es
  | ofEntries es =>
    obtain ⟨ms', hp', hm', hsub⟩ := hp.empty.insertAll List.mem_cons_self es
    exact ⟨ms', hp', hm', List.Subset.trans (List.subset_cons_self ..) hsub⟩

/-- **A run leads from a map that can be made to one that can be made**, and leaves the maps made
before as they are. -/
theorem Population.edits (hp : Population l ms) (hm : m ∈ ms) (es : List (Map.Edit K V)) :
    ∃ ms', Population (m.edits es l).2 ms' ∧ (m.edits es l).1 ∈ ms' ∧ ms ⊆ ms' := by
  induction es generalizing l ms m with
  | nil => exact ⟨ms, hp, hm, List.Subset.refl ms⟩
  | cons e es ih =>
    obtain ⟨ms', hp', hm', hsub⟩ := hp.edit hm e
    obtain ⟨ms'', hp'', hm'', hsub'⟩ := ih hp' hm'
    exact ⟨ms'', hp'', hm'', List.Subset.trans hsub hsub'⟩

namespace Map

/-- The map after a run that starts with the empty map. -/
def ofEdits {K V : Type} [HashEquiv K] [BEq V] (es : List (Edit K V)) : Map K V :=
  ((empty : Map K V).edits es Ledger.empty).1

theorem reachable_ofEdits (es : List (Edit K V)) : (ofEdits es).Reachable := by
  obtain ⟨ms, hp, hm, -⟩ := Population.start.empty.edits List.mem_cons_self es
  exact ⟨_, ms, hp, hm⟩

end Map

end HashTrie
