import HashTrie.Proofs.Groups
import HashTrie.Proofs.Runs
import HashTrie.Proofs.Updates

/-!
# Updates touch one entry

An update of a map that can be made takes out, changes or puts in one entry, and leaves all other
entries in their order (`frame_of_reachable`). This needs no contract between the hash and the
equivalence of the keys: a broken contract may lead a lookup to the wrong entry, and the update then
touches that entry and no other.
-/

namespace HashTrie

variable {K V : Type}

/-- Whether a map is another one without the entry that a probe finds there. -/
def ErasesFound (probe : Probe K) (m m' : Map K V) : Prop :=
  match m.find? probe with
  | none => m' = m
  | some e => ∃ before behind, m.toList = before ++ e :: behind ∧ m'.toList = before ++ behind ∧
    m'.count + 1 = m.count

/-- Whether a map is another one after an insertion that touched one entry. -/
inductive InsertsOne [HashEquiv K] [BEq V] (e : Entry K V) (m : Map K V) : Map K V → Prop where
  /-- An entry with an equivalent key has an equal value, and nothing changes. The new value is the
  one that is asked whether it equals the other, unless equality is not symmetric. -/
  | kept (before behind : List (Entry K V)) (old : Entry K V) :
    m.toList = before ++ old :: behind → equiv e.key old.key = true →
    (e.value == old.value) = true ∨ (old.value == e.value) = true →
    ((∀ v w : V, (v == w) = true → (w == v) = true) → (e.value == old.value) = true) →
    m.find? (Probe.ofKey e.key) = some old → InsertsOne e m m
  /-- The value of an entry with an equivalent key is replaced. -/
  | overwrote {m' : Map K V} (before behind : List (Entry K V)) (old : Entry K V) :
    m.toList = before ++ old :: behind → equiv e.key old.key = true →
    m'.toList = before ++ { old with value := e.value } :: behind → m'.count = m.count →
    m'.find? (Probe.ofKey e.key) = some { old with value := e.value } → InsertsOne e m m'
  /-- The entry is put in. -/
  | added {m' : Map K V} (before behind : List (Entry K V)) :
    m.toList = before ++ behind → m'.toList = before ++ e :: behind → m'.count = m.count + 1 →
    (equiv e.key e.key = true → m'.find? (Probe.ofKey e.key) = some e) → InsertsOne e m m'

variable [HashEquiv K] {m m' : Map K V}

theorem erasesFound_of_erased {probe : Probe K} (hw : m.WellFormed) (hw' : m'.WellFormed)
    (he : Map.Erased probe m m') : ErasesFound probe m m' := by
  unfold ErasesFound
  rw [hw.find?_eq probe]
  cases he with
  | absent hnone =>
    rw [List.find?_eq_none.mpr fun x hx => by simp [hnone x hx]]
  | removed hsome hreplaced =>
    cases hfind : (m.bucket probe.hash).find? fun e => probe.accepts e.key with
    | none =>
      obtain ⟨x, hx, hacc⟩ := hsome
      exact absurd hacc (List.find?_eq_none.mp hfind x hx)
    | some e =>
      obtain ⟨hacc, front, back, hsplit, hfront⟩ := List.find?_eq_some_iff_append.mp hfind
      have hlen := hreplaced.length_of_eraseP hsome
      have herase : (m.bucket probe.hash).eraseP (fun x => probe.accepts x.key) =
          front ++ back := by
        rw [hsplit]
        exact erase_eq_append (fun x hx => by simpa using hfront x hx) hacc
      obtain ⟨before, behind, hl, hl', -, -⟩ := hreplaced
      rw [hsplit] at hl
      rw [herase] at hl'
      refine ⟨before ++ front, back ++ behind, by simp [hl], by simp [hl'], ?_⟩
      rw [hw.count_eq, hw'.count_eq, hlen]

/-- The key of a new entry finds what stands in its bucket behind entries with other keys. -/
theorem find?_of_bucket {e y : Entry K V} {front back : List (Entry K V)} (hw : m.WellFormed)
    (hbucket : m.bucket (HashEquiv.hash e.key) = front ++ y :: back)
    (hfront : ∀ x ∈ front, equiv e.key x.key = false) (hy : equiv e.key y.key = true) :
    m.find? (Probe.ofKey e.key) = some y := by
  rw [hw.find?_eq, Probe.ofKey, hbucket, List.find?_eq_some_iff_append]
  exact ⟨hy, front, back, rfl, fun x hx => by simp [hfront x hx]⟩

theorem find?_of_meets {e old : Entry K V} {front back : List (Entry K V)} (hw : m.WellFormed)
    (hmeets : Meets e (m.bucket (HashEquiv.hash e.key)) front old back) :
    m.find? (Probe.ofKey e.key) = some old :=
  find?_of_bucket hw hmeets.split hmeets.first hmeets.equiv

/-- A new entry is found, when its key is equivalent to itself. -/
theorem find?_of_added {e : Entry K V} {new : List (Entry K V)} (hw' : m'.WellFormed)
    (ha : Adds e (m.bucket (HashEquiv.hash e.key)) new)
    (hr : ReplacedAt rootHeight (HashEquiv.hash e.key) (m.bucket (HashEquiv.hash e.key)) new
      m.toList m'.toList) (hself : equiv e.key e.key = true) :
    m'.find? (Probe.ofKey e.key) = some e := by
  obtain ⟨front, back, hsplit, rfl, hfresh, hback⟩ := ha
  obtain ⟨before, behind, -, hl', -, -⟩ := id hr
  have hin : e ∈ m'.toList := by simp [hl']
  have hbucket : m'.bucket (HashEquiv.hash e.key) =
      withHash (HashEquiv.hash e.key) front ++ e :: [] := by
    rw [hw'.bucket_eq_withHash hin, hr.withHash_eq, withHash_append, withHash_cons_of_eq rfl,
      withHash_eq_nil hback]
  have hfront : ∀ x ∈ withHash (HashEquiv.hash e.key) front, equiv e.key x.key = false := by
    intro x hx
    obtain ⟨hx, hhash⟩ := mem_withHash.mp hx
    exact hfresh x (by rw [hsplit]; exact List.mem_append_left _ hx) hhash
  exact find?_of_bucket hw' hbucket hfront hself

theorem insertsOne_of_inserted [BEq V] {e : Entry K V} (hw : m.WellFormed) (hw' : m'.WellFormed)
    (hi : Map.Inserted e m m') : InsertsOne e m m' := by
  cases hi with
  | @kept _ _ old hmeets hsame =>
    obtain ⟨before, behind, hl, -⟩ := hmeets.exists_split hmeets.split (hw.replacedAt_bucket _)
    exact .kept before behind old hl hmeets.equiv hsame (fun hsymm => hsame.elim id (hsymm _ _))
      (find?_of_meets hw hmeets)
  | @overwrote _ _ _ old hmeets hne hnew hreplaced =>
    obtain ⟨before, behind, hl, hl'⟩ := hmeets.exists_split hnew hreplaced
    refine .overwrote before behind old hl hmeets.equiv hl' ?_
      (find?_of_bucket hw' hnew hmeets.first hmeets.equiv)
    rw [hw.count_eq, hw'.count_eq, hl, hl', List.length_append, List.length_append]
    rfl
  | added hadds hreplaced =>
    obtain ⟨before, behind, hl, hl'⟩ := hadds.exists_split hreplaced
    refine .added before behind hl hl' ?_ (find?_of_added hw' hadds hreplaced)
    rw [hw.count_eq, hw'.count_eq, hl, hl', List.length_append, List.length_append]
    rfl

/-- **Updates touch one entry.** Whatever the hash and the equivalence of the keys are, a removal
from a map that can be made takes out the found entry, and an insertion keeps all entries, replaces
one value, or puts in one entry. -/
theorem frame_of_reachable [BEq V] [HashEquiv V] (hm : m.Reachable) (l : Ledger) :
    (∀ probe : Probe K, ErasesFound probe m (m.erase probe l).1) ∧
      ∀ e : Entry K V, InsertsOne e m (m.insertEntry e l).1 := by
  refine ⟨fun probe => ?_, fun e => ?_⟩
  · obtain ⟨hw', he⟩ := hm.wellFormed.erase probe l
    exact erasesFound_of_erased hm.wellFormed hw' he
  · obtain ⟨hw', hi⟩ := hm.wellFormed.insertEntry e l
    exact insertsOne_of_inserted hm.wellFormed hw' hi

/-- The updates of the map of two entries touch one entry. -/
theorem frame_ofEdits_two :
    (Map.ofEdits [.insert ⟨1, 10⟩, .insert ⟨2, 20⟩] : Map Int64 Int64).Reachable ∧
      ErasesFound (Probe.ofKey 1) (Map.ofEdits [.insert ⟨1, 10⟩, .insert ⟨2, 20⟩] : Map Int64 Int64)
        ((Map.ofEdits [.insert ⟨1, 10⟩, .insert ⟨2, 20⟩]).erase (Probe.ofKey 1) Ledger.empty).1 ∧
      InsertsOne ⟨2, 30⟩ (Map.ofEdits [.insert ⟨1, 10⟩, .insert ⟨2, 20⟩] : Map Int64 Int64)
        ((Map.ofEdits [.insert ⟨1, 10⟩, .insert ⟨2, 20⟩]).insertEntry ⟨2, 30⟩ Ledger.empty).1 := by
  have hm := Map.reachable_ofEdits
    ([.insert ⟨1, 10⟩, .insert ⟨2, 20⟩] : List (Map.Edit Int64 Int64))
  obtain ⟨herase, hinsert⟩ := frame_of_reachable hm Ledger.empty
  exact ⟨hm, herase _, hinsert _⟩

end HashTrie
