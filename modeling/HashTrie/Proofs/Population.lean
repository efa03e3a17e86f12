import HashTrie.Hash.Contract
import HashTrie.Map.History
import HashTrie.Proofs.Updates
import Mathlib.Data.List.Pairwise

/-!
# Maps that were made together

What holds of all maps of a population, by induction over how it was made. A stamp tells its trie
apart, so maps that share a root have the same entries (`stamped_of_population`). A remembered hash
is the hash of the entries (`remembersOwn_of_population`). And where the keys keep the contract, no
two keys of a map are equivalent (`distinctKeys_of_population`).
-/

namespace HashTrie

variable {K V : Type}

/-! ## What an update makes -/

namespace Map

/-- What an update makes of a map and a ledger, as far as stamps go: the map itself, a map without
root, or a map whose root has the next free stamp. -/
inductive Updates (m : Map K V) (l : Ledger) : Map K V × Ledger → Prop where
  | same {l' : Ledger} : l'.nextStamp = l.nextStamp → Updates m l (m, l')
  | emptied {l' : Ledger} (count : Nat) :
    l'.nextStamp = l.nextStamp → Updates m l (m.withRoot none count, l')
  | rebuilt {l' : Ledger} (node : Node K V) (count : Nat) :
    l'.nextStamp = l.nextStamp + 1 →
      Updates m l (m.withRoot (some ⟨l.nextStamp, node⟩) count, l')

theorem updates_insertEntry [HashEquiv K] [BEq V] (m : Map K V) (e : Entry K V) (l : Ledger) :
    Updates m l (m.insertEntry e l) := by
  unfold insertEntry
  rcases m.tryInsert e with _ | ⟨change, events⟩
  · exact .same rfl
  · cases change with
    | kept => exact .same rfl
    | overwrote node => exact .rebuilt node m.count rfl
    | added node => exact .rebuilt node (m.count + 1) rfl

theorem updates_erase (m : Map K V) (probe : Probe K) (l : Ledger) :
    Updates m l (m.erase probe l) := by
  unfold erase
  rcases m.tryErase probe with _ | ⟨change, events⟩
  · exact .same rfl
  · cases change with
    | absent => exact .same rfl
    | emptied => exact .emptied (m.count - 1) rfl
    | removed node => exact .rebuilt node (m.count - 1) rfl

theorem root_withMetadata [HashEquiv K] [BEq V] (m : Map K V) (metadata : Option (Map K V)) :
    (m.withMetadata metadata).root = m.root := by
  unfold withMetadata
  split <;> rfl

theorem toList_eq_of_root_eq {m m' : Map K V} (hroot : m.root = m'.root) :
    m.toList = m'.toList := by
  rw [toList_eq, toList_eq, node?, node?, hroot]

end Map

/-! ## Stamps -/

/-- Whether each stamp of some maps stands for one trie, and the stamps from `next` on are free. -/
structure Stamped (next : Nat) (ms : List (Map K V)) : Prop where
  stamp_lt : ∀ m ∈ ms, ∀ root, m.root = some root → root.stamp < next
  root_eq : ∀ m ∈ ms, ∀ m' ∈ ms, ∀ root root', m.root = some root → m'.root = some root' →
    root.stamp = root'.stamp → root = root'

namespace Stamped

variable {next next' : Nat} {ms : List (Map K V)} {m m' : Map K V}

theorem mono (h : Stamped next ms) (hle : next ≤ next') : Stamped next' ms where
  stamp_lt m hm root hr := lt_of_lt_of_le (h.stamp_lt m hm root hr) hle
  root_eq := h.root_eq

/-- A map without root is at odds with no other. -/
theorem cons_of_root_eq_none (h : Stamped next ms) (hr : m.root = none) :
    Stamped next (m :: ms) where
  stamp_lt := List.forall_mem_cons.mpr ⟨fun root hroot => by simp [hr] at hroot, h.stamp_lt⟩
  root_eq := by
    refine List.forall_mem_cons.mpr ⟨fun m' _ root root' hroot => by simp [hr] at hroot, ?_⟩
    intro a ha
    refine List.forall_mem_cons.mpr ⟨fun root root' _ hroot => by simp [hr] at hroot, ?_⟩
    exact h.root_eq a ha

/-- A map with the root of an earlier one. -/
theorem cons_of_root_eq (h : Stamped next ms) (hm : m ∈ ms) (hr : m'.root = m.root) :
    Stamped next (m' :: ms) where
  stamp_lt := List.forall_mem_cons.mpr ⟨hr ▸ h.stamp_lt m hm, h.stamp_lt⟩
  root_eq := by
    refine List.forall_mem_cons.mpr ⟨?_, fun a ha => ?_⟩
    · rw [hr]
      exact List.forall_mem_cons.mpr ⟨hr ▸ h.root_eq m hm m hm, h.root_eq m hm⟩
    · exact List.forall_mem_cons.mpr ⟨hr ▸ h.root_eq a ha m hm, h.root_eq a ha⟩

/-- A map with a root that has the next free stamp. -/
theorem cons_of_stamp_eq (h : Stamped next ms) {root : Root K V} (hr : m.root = some root)
    (hstamp : root.stamp = next) : Stamped (next + 1) (m :: ms) where
  stamp_lt := by
    refine List.forall_mem_cons.mpr ⟨fun root' hroot => ?_, fun a ha root' hroot => ?_⟩
    · obtain rfl := Option.some.inj (hr.symm.trans hroot)
      omega
    · have := h.stamp_lt a ha root' hroot
      omega
  root_eq := by
    -- the stamps of the other maps are below the new one
    refine List.forall_mem_cons.mpr ⟨?_, fun a ha => ?_⟩
    · refine List.forall_mem_cons.mpr ⟨fun r r' hr₁ hr₂ _ => ?_, fun b hb r r' hr₁ hr₂ heq => ?_⟩
      · exact Option.some.inj (hr₁.symm.trans hr₂)
      · obtain rfl := Option.some.inj (hr.symm.trans hr₁)
        have := h.stamp_lt b hb r' hr₂
        omega
    · refine List.forall_mem_cons.mpr ⟨fun r r' hr₁ hr₂ heq => ?_, h.root_eq a ha⟩
      obtain rfl := Option.some.inj (hr.symm.trans hr₂)
      have := h.stamp_lt a ha r hr₁
      omega

theorem of_updates (h : Stamped next ms) {l : Ledger} (hnext : l.nextStamp = next) (hm : m ∈ ms)
    {p : Map K V × Ledger} (hu : m.Updates l p) : Stamped p.2.nextStamp (p.1 :: ms) := by
  subst hnext
  cases hu with
  | same hl => exact hl ▸ h.cons_of_root_eq hm rfl
  | emptied count hl => exact hl ▸ h.cons_of_root_eq_none rfl
  | rebuilt node count hl => exact hl ▸ h.cons_of_stamp_eq rfl rfl

/-- Maps that share a root have one root. -/
theorem root_eq_of_sharesRoot (h : Stamped next ms) (hm : m ∈ ms) (hm' : m' ∈ ms)
    (hs : m.sharesRoot m' = true) : m.root = m'.root := by
  have hstamp : m.root.map Root.stamp = m'.root.map Root.stamp := eq_of_beq hs
  cases hr : m.root with
  | none =>
    rw [hr] at hstamp
    exact (Option.map_eq_none_iff.mp hstamp.symm).symm
  | some root =>
    rw [hr] at hstamp
    obtain ⟨root', hr', heq⟩ := Option.map_eq_some_iff.mp hstamp.symm
    rw [hr', h.root_eq m hm m' hm' root root' hr hr' heq.symm]

end Stamped

/-! ## Remembered hashes -/

namespace Map

variable [HashEquiv K] [HashEquiv V]

/-- Whether a map remembers no hash but those of its entries. -/
structure RemembersOwn (m : Map K V) : Prop where
  hash_eq : ∀ h, m.hashCache = some h → h = hashOfEntries m.toList
  pairHash_eq : ∀ h, m.pairHashCache = some h → h = pairHashOfEntries m.toList

variable {m : Map K V}

theorem RemembersOwn.hash (h : m.RemembersOwn) : m.hash = hashOfEntries m.toList := by
  unfold Map.hash
  cases hc : m.hashCache with
  | none => rfl
  | some c => exact h.hash_eq c hc

theorem RemembersOwn.pairHash (h : m.RemembersOwn) : m.pairHash = pairHashOfEntries m.toList := by
  unfold Map.pairHash
  cases hc : m.pairHashCache with
  | none => rfl
  | some c => exact h.pairHash_eq c hc

/-- A map that remembers nothing. -/
theorem remembersOwn_of_eq_none (hc : m.hashCache = none) (hp : m.pairHashCache = none) :
    m.RemembersOwn where
  hash_eq h hh := by simp [hc] at hh
  pairHash_eq h hh := by simp [hp] at hh

theorem RemembersOwn.of_updates (h : m.RemembersOwn) {l : Ledger} {p : Map K V × Ledger}
    (hu : m.Updates l p) : p.1.RemembersOwn := by
  cases hu with
  | same => exact h
  | emptied => exact remembersOwn_of_eq_none rfl rfl
  | rebuilt => exact remembersOwn_of_eq_none rfl rfl

theorem RemembersOwn.withMetadata [BEq V] (h : m.RemembersOwn) (metadata : Option (Map K V)) :
    (m.withMetadata metadata).RemembersOwn := by
  unfold Map.withMetadata
  split
  · exact h
  · exact ⟨h.hash_eq, h.pairHash_eq⟩

theorem RemembersOwn.rememberHash (h : m.RemembersOwn) : m.rememberHash.RemembersOwn where
  hash_eq _ hc := (Option.some.inj hc).symm.trans h.hash
  pairHash_eq := h.pairHash_eq

theorem RemembersOwn.rememberPairHash (h : m.RemembersOwn) : m.rememberPairHash.RemembersOwn where
  hash_eq := h.hash_eq
  pairHash_eq _ hc := (Option.some.inj hc).symm.trans h.pairHash

end Map

/-- **The stamps of a population stand for one trie each.** -/
theorem stamped_of_population [HashEquiv K] [BEq V] [HashEquiv V] {l : Ledger}
    {ms : List (Map K V)} (hp : Population l ms) : Stamped l.nextStamp ms := by
  induction hp with
  | start => exact ⟨fun m hm => absurd hm List.not_mem_nil, fun m hm => absurd hm List.not_mem_nil⟩
  | elsewhere _ hle ih => exact ih.mono hle
  | empty _ ih => exact ih.cons_of_root_eq_none rfl
  | insert e _ hm ih => exact ih.of_updates rfl hm (Map.updates_insertEntry _ e _)
  | erase probe _ hm ih => exact ih.of_updates rfl hm (Map.updates_erase _ probe _)
  | cleared _ _ ih => exact ih.cons_of_root_eq_none rfl
  | withMetadata _ hm _ ih => exact ih.cons_of_root_eq hm (Map.root_withMetadata _ _)
  | withoutMetadata _ hm ih => exact ih.cons_of_root_eq hm (Map.root_withMetadata _ _)
  | rememberHash _ hm ih => exact ih.cons_of_root_eq hm rfl
  | rememberPairHash _ hm ih => exact ih.cons_of_root_eq hm rfl

/-- **The maps of a population remember no hash but their own.** -/
theorem remembersOwn_of_population [HashEquiv K] [BEq V] [HashEquiv V] {l : Ledger}
    {ms : List (Map K V)} (hp : Population l ms) : ∀ m ∈ ms, m.RemembersOwn := by
  refine hp.forall_mem (fun _ _ => trivial) (Map.remembersOwn_of_eq_none rfl rfl) ?_ ?_ ?_ ?_ ?_ ?_
  · exact fun m e l _ _ hm => hm.of_updates (m.updates_insertEntry e l)
  · exact fun m probe l hm => hm.of_updates (m.updates_erase probe l)
  · exact fun m => Map.remembersOwn_of_eq_none rfl rfl
  · exact fun m metadata hm => hm.withMetadata metadata
  · exact fun m hm => hm.rememberHash
  · exact fun m hm => hm.rememberPairHash

/-! ## Lists of entries -/

/-- **What insertions and removals keep of the list of entries holds of all maps of a population.**
-/
theorem Population.forall_toList [HashEquiv K] [BEq V] [HashEquiv V] {R : List (Entry K V) → Prop}
    {Q : Map K V → Prop} {l : Ledger} {ms : List (Map K V)} (hp : Population l ms)
    (hQ : ∀ m ∈ ms, Q m) (hnil : R [])
    (hinserted : ∀ {m m' : Map K V} {e : Entry K V}, m.WellFormed → Q m → Q m' →
      Map.Inserted e m m' → R m.toList → R m'.toList)
    (herased : ∀ {m m' : Map K V} {probe : Probe K}, Map.Erased probe m m' →
      R m.toList → R m'.toList) : ∀ m ∈ ms, R m.toList := by
  have h : ∀ m ∈ ms, m.WellFormed ∧ R m.toList := by
    refine hp.forall_mem hQ ⟨Map.wellFormed_empty, ?_⟩ ?_ ?_
      (fun m => ⟨Map.wellFormed_cleared m, ?_⟩) ?_ ?_ ?_
    · rwa [Map.toList_empty]
    · intro m e l hm hm' ⟨hw, hl⟩
      obtain ⟨hw', hi⟩ := hw.insertEntry e l
      exact ⟨hw', hinserted hw hm hm' hi hl⟩
    · intro m probe l ⟨hw, hl⟩
      obtain ⟨hw', he⟩ := hw.erase probe l
      exact ⟨hw', herased he hl⟩
    · rwa [Map.toList_cleared]
    · exact fun m metadata ⟨hw, hl⟩ =>
        ⟨hw.withMetadata metadata, Map.toList_eq_of_root_eq (m.root_withMetadata metadata) ▸ hl⟩
    · exact fun m ⟨hw, hl⟩ => ⟨hw.of_root_eq rfl rfl, hl⟩
    · exact fun m ⟨hw, hl⟩ => ⟨hw.of_root_eq rfl rfl, hl⟩
  exact fun m hm => (h m hm).2

/-! ## Distinct keys -/

section DistinctKeys

variable [HashEquiv K]

/-- Whether the keys of two entries are not equivalent, either way round. -/
def Entry.Apart (x y : Entry K V) : Prop :=
  equiv x.key y.key = false ∧ equiv y.key x.key = false

instance : Std.Symm (Entry.Apart (K := K) (V := V)) := ⟨fun _ _ h => ⟨h.2, h.1⟩⟩

/-- Whether no two keys of a list are equivalent. -/
def DistinctKeys (l : List (Entry K V)) : Prop := l.Pairwise Entry.Apart

variable {S : Set K} {l l' : List (Entry K V)}

/-- In a list with distinct keys, entries with equivalent keys are one entry. -/
theorem DistinctKeys.eq_of_equiv (hl : DistinctKeys l) {x y : Entry K V} (hx : x ∈ l) (hy : y ∈ l)
    (h : equiv x.key y.key = true) : x = y := by
  by_contra hne
  have hapart := hl.forall hx hy hne
  rw [hapart.1] at h
  cases h

omit [HashEquiv K] in
/-- What is asked of the keys of a list two by two is asked of any list with the same keys. -/
theorem pairwise_of_map_key_eq {R : K → K → Prop} (hl : l.Pairwise fun x y => R x.key y.key)
    (h : l'.map Entry.key = l.map Entry.key) : l'.Pairwise fun x y => R x.key y.key := by
  rw [← List.pairwise_map (f := Entry.key) (R := R)] at *
  rwa [h]

theorem DistinctKeys.of_map_key_eq (hl : DistinctKeys l)
    (h : l'.map Entry.key = l.map Entry.key) : DistinctKeys l' :=
  pairwise_of_map_key_eq (R := fun a b => equiv a b = false ∧ equiv b a = false) hl h

/-- An entry that is put into a bucket has a key that is equivalent to no stored key, if to none with
another hash. -/
theorem Adds.fresh {m : Map K V} (hw : m.WellFormed) {e : Entry K V} {new : List (Entry K V)}
    (ha : Adds e (m.bucket (HashEquiv.hash e.key)) new)
    (hlawful : ∀ x ∈ m.toList, equiv e.key x.key = true →
      HashEquiv.hash e.key = HashEquiv.hash x.key) :
    ∀ x ∈ m.toList, equiv e.key x.key = false := by
  obtain ⟨front, back, -, -, hfresh, -⟩ := ha
  intro x hx
  by_contra hequiv
  have hequiv : equiv e.key x.key = true := by simpa using hequiv
  have hhash := (hlawful x hx hequiv).symm
  have hin : x ∈ withHash (HashEquiv.hash e.key) m.toList := mem_withHash.mpr ⟨hx, hhash⟩
  rw [← hw.withHash_bucket] at hin
  rw [hfresh x (mem_withHash.mp hin).1 hhash] at hequiv
  cases hequiv

/-- An entry that is put into a bucket has a key that is equivalent to no stored key. -/
theorem Adds.apart (hS : Contract S) {m : Map K V} (hw : m.WellFormed)
    (hm : ∀ x ∈ m.toList, x.key ∈ S) {e : Entry K V} (he : e.key ∈ S) {new : List (Entry K V)}
    (ha : Adds e (m.bucket (HashEquiv.hash e.key)) new) : ∀ x ∈ m.toList, e.Apart x := by
  have hfresh := ha.fresh hw fun x hx => hS.hash_eq he (hm x hx)
  intro x hx
  refine ⟨hfresh x hx, ?_⟩
  by_contra hequiv
  have hequiv : equiv x.key e.key = true := by simpa using hequiv
  have hback := hS.symm (hm x hx) he hequiv
  rw [hfresh x hx] at hback
  cases hback

theorem DistinctKeys.inserted [BEq V] {m m' : Map K V} (hd : DistinctKeys m.toList)
    (hS : Contract S) (hw : m.WellFormed) (hm : ∀ x ∈ m.toList, x.key ∈ S)
    (hm' : ∀ x ∈ m'.toList, x.key ∈ S) {e : Entry K V} (hi : Map.Inserted e m m') :
    DistinctKeys m'.toList := by
  cases hi with
  | kept => exact hd
  | overwrote hmeets _ hnew hreplaced =>
    exact hd.of_map_key_eq (hreplaced.map_key_eq (hnew ▸ hmeets.map_key_eq))
  | added hadds hreplaced =>
    obtain ⟨before, behind, hl, hl'⟩ := hadds.exists_split hreplaced
    have he : e.key ∈ S := hm' e (by simp [hl'])
    rw [hl', DistinctKeys, List.pairwise_middle fun h => ⟨h.2, h.1⟩, ← hl]
    exact List.pairwise_cons.mpr ⟨hadds.apart hS hw hm he, hd⟩

/-- **No two keys of a map are equivalent**, in a population whose keys keep the contract. -/
theorem distinctKeys_of_population [BEq V] [HashEquiv V] (hS : Contract S) {l : Ledger}
    {ms : List (Map K V)} (hp : Population l ms) (hkeys : ∀ m ∈ ms, ∀ x ∈ m.toList, x.key ∈ S) :
    ∀ m ∈ ms, DistinctKeys m.toList := by
  refine hp.forall_toList hkeys .nil ?_ fun he hd => hd.sublist he.sublist
  exact fun hw hm hm' hi hd => hd.inserted hS hw hm hm' hi

end DistinctKeys

end HashTrie
