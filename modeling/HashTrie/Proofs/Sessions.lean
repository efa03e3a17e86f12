import HashTrie.Map.Adjoin
import HashTrie.Map.Metadata
import HashTrie.Proofs.Population
import HashTrie.Proofs.Runs
import HashTrie.Proofs.Walks

/-!
# Sessions

A session works with any number of maps, which it names by the order in which they were made. An
action makes a map, from nothing or from a map made before, or asks a map for one of its hashes,
which that map then remembers. A map that was asked stands for itself from then on, copies that were
taken before do not change. Metadata can be asked in place, at any depth; where several maps share
it, it is asked in each of them.

Questions that change nothing are no actions: they can be asked of the maps after any session.

An update inserts and removes entries, clears the map, or attaches metadata; what these keep, an
update keeps (`Update.forall_apply`). So it hands on the metadata of the map that it is made from
(`Update.metadata_eq`).
-/

namespace HashTrie

namespace Map

variable {K V : Type}

/-- The map that is reached through the metadata of a map in a number of steps. -/
def metadataAt? : Nat → Map K V → Option (Map K V)
  | 0, m => some m
  | depth + 1, m => m.metadata.bind (metadataAt? depth)

/-- Change the map that is reached through the metadata of a map in a number of steps. -/
def alterAt (f : Map K V → Map K V) : Nat → Map K V → Map K V
  | 0, m => f m
  | depth + 1, m => { m with metadata := m.metadata.map (alterAt f depth) }

/-- The map with the key and the value of a list of two, where `asValue` says how an element is
taken as a value. -/
def adjoinListAs [HashEquiv K] [BEq V] (asValue : K → V) (m : Map K V) :
    List K → Build (Except MapError (Map K V))
  | [key, value] => Except.ok <$> m.insert key (asValue value)
  | elements => pure (.error (.notAPair elements.length))

/-- Where keys and values are of one type, an element is taken as it is. -/
theorem adjoinListAs_id {T : Type} [HashEquiv T] [BEq T] (m : Map T T) (elements : List T) :
    m.adjoinListAs id elements = m.adjoinList elements := by
  unfold adjoinListAs adjoinList
  split <;> simp_all

end Map

namespace Session

variable {K V : Type}

/-- What can be added to a map at once. -/
inductive Addend (K V : Type) where
  | entry (e : Entry K V)
  | list (asValue : K → V) (elements : List K)
  | map (place : Nat)
  /-- The sequence over the map at a place, after a number of steps. -/
  | seq (place steps : Nat)

/-- How a map is made from a map made before. -/
inductive Update (K V : Type) where
  | insert (e : Entry K V)
  | insertNew (e : Entry K V)
  | erase (probe : Probe K)
  | insertAll (es : List (Entry K V))
  | adjoin (addend : Addend K V)
  | copy
  | cleared
  /-- Attach the map at a place as metadata, or none. -/
  | withMetadata (place : Option Nat)

/-- One step of a session. -/
inductive Action (K V : Type) where
  | create (es : List (Entry K V))
  | update (place : Nat) (u : Update K V)
  /-- Make a map of the metadata of the map at a place. -/
  | takeMetadata (place : Nat)
  | hash (place depth : Nat)
  | pairHash (place depth : Nat)

/-- What an action answers. -/
inductive Reply where
  | made
  | refused (e : MapError)
  | hash (h : Option UInt32)
  | nothing

/-- The map at a place; where none is, the empty map. -/
def mapAt (ms : List (Map K V)) (place : Nat) : Map K V := ms[place]?.getD Map.empty

variable [HashEquiv K] [BEq V]

/-- Add to a map. -/
def Addend.addTo (ms : List (Map K V)) (m : Map K V) :
    Addend K V → Build (Except MapError (Map K V))
  | .entry e => Except.ok <$> m.insertEntry e
  | .list asValue elements => m.adjoinListAs asValue elements
  | .map place => Except.ok <$> m.adjoinMap (mapAt ms place)
  | .seq place steps =>
    match (mapAt ms place).seqAfter? steps with
    | none => pure (.ok m)
    | some s => Except.ok <$> m.adjoinSeq s

/-- Make a map from another one. -/
def Update.apply (ms : List (Map K V)) (m : Map K V) :
    Update K V → Build (Except MapError (Map K V))
  | .insert e => Except.ok <$> m.insertEntry e
  | .insertNew e => m.insertNew e.key e.value
  | .erase probe => Except.ok <$> m.erase probe
  | .insertAll es => Except.ok <$> m.insertAll es
  | .adjoin addend => addend.addTo ms m
  | .copy => pure (.ok m)
  | .cleared => pure (.ok m.cleared)
  | .withMetadata place => pure (.ok (m.withMetadata (place.map (mapAt ms))))

variable [HashEquiv V]

/-- Do one action. A refused one makes no map. -/
def step (ms : List (Map K V)) : Action K V → Build (List (Map K V) × Reply)
  | .create es => do return (ms ++ [← Map.ofEntries es], .made)
  | .update place u => do
    match ← u.apply ms (mapAt ms place) with
    | .ok m => return (ms ++ [m], .made)
    | .error e => return (ms, .refused e)
  | .takeMetadata place =>
    match (mapAt ms place).metadata with
    | none => return (ms, .nothing)
    | some metadata => return (ms ++ [metadata], .made)
  | .hash place depth =>
    let m := mapAt ms place
    return (ms.set place (m.alterAt Map.rememberHash depth),
      .hash ((m.metadataAt? depth).map Map.hash))
  | .pairHash place depth =>
    let m := mapAt ms place
    return (ms.set place (m.alterAt Map.rememberPairHash depth),
      .hash ((m.metadataAt? depth).map Map.pairHash))

/-- Do actions one after the other. -/
def run (ms : List (Map K V)) : List (Action K V) → Build (List (Map K V) × List Reply)
  | [] => return (ms, [])
  | a :: as => do
    let (ms, reply) ← step ms a
    let (ms, replies) ← run ms as
    return (ms, reply :: replies)

/-! ### Steps by what they answer -/

section Step

variable {ms : List (Map K V)} {place : Nat} {l l' : Ledger}

@[simp] theorem step_create (es : List (Entry K V)) :
    step ms (.create es) l =
      ((ms ++ [(Map.ofEntries es l).1], .made), (Map.ofEntries es l).2) := rfl

theorem step_update_of_ok {u : Update K V} {m : Map K V}
    (h : u.apply ms (mapAt ms place) l = (.ok m, l')) :
    step ms (.update place u) l = ((ms ++ [m], .made), l') := by
  simp only [step, bind, StateT.bind, h]
  rfl

theorem step_update_of_error {u : Update K V} {e : MapError}
    (h : u.apply ms (mapAt ms place) l = (.error e, l')) :
    step ms (.update place u) l = ((ms, .refused e), l') := by
  simp only [step, bind, StateT.bind, h]
  rfl

@[simp] theorem step_takeMetadata :
    step ms (.takeMetadata place) l =
      ((mapAt ms place).metadata.elim ((ms, .nothing), l) fun d => ((ms ++ [d], .made), l)) := by
  rw [step]
  cases (mapAt ms place).metadata <;> rfl

@[simp] theorem step_hash (depth : Nat) :
    step ms (.hash place depth) l =
      ((ms.set place ((mapAt ms place).alterAt Map.rememberHash depth),
        .hash (((mapAt ms place).metadataAt? depth).map Map.hash)), l) := rfl

@[simp] theorem step_pairHash (depth : Nat) :
    step ms (.pairHash place depth) l =
      ((ms.set place ((mapAt ms place).alterAt Map.rememberPairHash depth),
        .hash (((mapAt ms place).metadataAt? depth).map Map.pairHash)), l) := rfl

theorem run_cons (a : Action K V) (as : List (Action K V)) :
    run ms (a :: as) l =
      (((run (step ms a l).1.1 as (step ms a l).2).1.1,
        (step ms a l).1.2 :: (run (step ms a l).1.1 as (step ms a l).2).1.2),
        (run (step ms a l).1.1 as (step ms a l).2).2) := rfl

end Step

end Session

/-! ## What an update keeps -/

section Update

variable {K V : Type} [HashEquiv K] [BEq V] {m : Map K V} {Q : Map K V → Prop}

theorem Map.forall_insertAll (hinsert : ∀ m e l, Q m → Q (Map.insertEntry m e l).1) (hm : Q m)
    (es : List (Entry K V)) (l : Ledger) : Q (m.insertAll es l).1 := by
  induction es generalizing m l with
  | nil => exact hm
  | cons e es ih => exact ih (hinsert m e l hm) _

/-- A list is refused, or its two elements are inserted. -/
theorem Map.forall_adjoinListAs (hinsert : ∀ m e l, Q m → Q (Map.insertEntry m e l).1) (hm : Q m)
    (asValue : K → V) (elements : List K) (l : Ledger) :
    ∀ m', (m.adjoinListAs asValue elements l).1 = .ok m' → Q m' := by
  unfold adjoinListAs
  split
  · rintro _ ⟨⟩
    exact hinsert m _ l hm
  · intro m' h
    cases h

namespace Session

variable {ms : List (Map K V)}

theorem Addend.forall_addTo (hinsert : ∀ m e l, Q m → Q (Map.insertEntry m e l).1) (hm : Q m)
    (addend : Addend K V) (l : Ledger) : ∀ m', (addend.addTo ms m l).1 = .ok m' → Q m' := by
  cases addend with
  | entry e =>
    rintro _ ⟨⟩
    exact hinsert m e l hm
  | list asValue elements => exact Map.forall_adjoinListAs hinsert hm asValue elements l
  | map place =>
    rintro _ ⟨⟩
    exact Map.forall_insertAll hinsert hm _ l
  | seq place steps =>
    rw [addTo]
    cases (mapAt ms place).seqAfter? steps with
    | none =>
      rintro _ ⟨⟩
      exact hm
    | some s =>
      rintro _ ⟨⟩
      exact Map.forall_insertAll hinsert hm _ l

/-- **What insertions, removals and the rest keep, an update keeps.** -/
theorem Update.forall_apply (hinsert : ∀ m e l, Q m → Q (Map.insertEntry m e l).1)
    (herase : ∀ m probe l, Q m → Q (Map.erase m probe l).1) (hm : Q m) (hcleared : Q m.cleared)
    (u : Update K V)
    (hmetadata : ∀ place, u = .withMetadata place → Q (m.withMetadata (place.map (mapAt ms))))
    (l : Ledger) : ∀ m', (u.apply ms m l).1 = .ok m' → Q m' := by
  cases u with
  | insert e =>
    rintro _ ⟨⟩
    exact hinsert m e l hm
  | insertNew e =>
    intro m' h
    rw [apply] at h
    cases hc : m.contains (Probe.ofKey e.key) with
    | true =>
      rw [Map.insertNew_of_contains hc] at h
      cases h
    | false =>
      rw [Map.insertNew_of_not_contains hc] at h
      obtain rfl := Except.ok.inj h
      exact hinsert m e l hm
  | erase probe =>
    rintro _ ⟨⟩
    exact herase m probe l hm
  | insertAll es =>
    rintro _ ⟨⟩
    exact Map.forall_insertAll hinsert hm es l
  | adjoin addend => exact addend.forall_addTo hinsert hm l
  | copy =>
    rintro _ ⟨⟩
    exact hm
  | cleared =>
    rintro _ ⟨⟩
    exact hcleared
  | withMetadata place =>
    rintro _ ⟨⟩
    exact hmetadata place rfl

end Session

/-! ## Metadata is handed on -/

omit [HashEquiv K] [BEq V] in
theorem Map.metadata_of_updates {l : Ledger} {p : Map K V × Ledger} (hu : m.Updates l p) :
    p.1.metadata = m.metadata := by
  cases hu <;> rfl

theorem Map.metadata_insertEntry (m : Map K V) (e : Entry K V) (l : Ledger) :
    (m.insertEntry e l).1.metadata = m.metadata :=
  metadata_of_updates (m.updates_insertEntry e l)

omit [HashEquiv K] [BEq V] in
theorem Map.metadata_erase (m : Map K V) (probe : Probe K) (l : Ledger) :
    (m.erase probe l).1.metadata = m.metadata :=
  metadata_of_updates (m.updates_erase probe l)

namespace Session

variable {ms : List (Map K V)}

/-- **The map that an update makes has the metadata of the map that it is made from**, unless
metadata is attached. -/
theorem Update.metadata_eq {u : Update K V} (hu : ∀ place, u ≠ .withMetadata place) {l : Ledger}
    {m' : Map K V} (hm' : (u.apply ms m l).1 = .ok m') : m'.metadata = m.metadata := by
  refine u.forall_apply (Q := fun n => n.metadata = m.metadata) ?_ ?_ rfl rfl ?_ l m' hm'
  · exact fun n e l hn => (n.metadata_insertEntry e l).trans hn
  · exact fun n probe l hn => (n.metadata_erase probe l).trans hn
  · exact fun place heq => absurd heq (hu place)

/-- The map after updates one after the other; a refused one changes nothing. -/
def applyAll (ms : List (Map K V)) (m : Map K V) : List (Update K V) → Build (Map K V)
  | [] => pure m
  | u :: us => do
    match ← u.apply ms m with
    | .ok m => applyAll ms m us
    | .error _ => applyAll ms m us

/-- However many updates there are, the metadata is handed on. -/
theorem metadata_applyAll {us : List (Update K V)}
    (hus : ∀ u ∈ us, ∀ place, u ≠ .withMetadata place) (l : Ledger) :
    (applyAll ms m us l).1.metadata = m.metadata := by
  induction us generalizing m l with
  | nil => rfl
  | cons u us ih =>
    obtain ⟨hu, hus⟩ := List.forall_mem_cons.mp hus
    simp only [applyAll, bind, StateT.bind]
    rcases happly : u.apply ms m l with ⟨_ | m', l'⟩
    · exact ih hus l'
    · exact (ih hus l').trans (u.metadata_eq hu (congrArg Prod.fst happly))

end Session

end Update

end HashTrie
