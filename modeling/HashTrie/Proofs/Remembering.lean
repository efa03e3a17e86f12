import HashTrie.Proofs.Sessions

/-!
# Remembered hashes

A map that was asked for its hash remembers it, and hands it on to the maps made from it as long as
the entries stay. Whatever the order in which hashes are asked for and maps are made, no map ever
remembers a hash that is not the one of its entries (`hashesItself_of_session`). So an answer does
not depend on what was asked before.

What single operations keep is kept by whole sessions, in all maps and in all that is reached
through their metadata (`Map.Kept.forall_run`).
-/

namespace HashTrie

variable {K V : Type}

namespace Map

variable {P : Map K V → Prop} {m m' : Map K V}

/-! ## Through the metadata -/

/-- Whether something holds of a map and of all maps that are reached through its metadata. -/
def Throughout (P : Map K V → Prop) (m : Map K V) : Prop :=
  ∀ depth d, m.metadataAt? depth = some d → P d

theorem throughout_iff :
    m.Throughout P ↔ P m ∧ ∀ d, m.metadata = some d → d.Throughout P := by
  constructor
  · intro h
    refine ⟨h 0 m rfl, fun d hd depth d' hd' => h (depth + 1) d' ?_⟩
    rw [metadataAt?, hd]
    exact hd'
  · rintro ⟨hm, hmetadata⟩ depth d' hd'
    cases depth with
    | zero =>
      obtain rfl := Option.some.inj hd'
      exact hm
    | succ depth =>
      obtain ⟨d, hd, hd'⟩ := Option.bind_eq_some_iff.mp hd'
      exact hmetadata d hd depth d' hd'

theorem Throughout.of_metadata_eq (h : m.Throughout P) (hm' : P m')
    (hmetadata : m'.metadata = m.metadata) : m'.Throughout P :=
  throughout_iff.mpr ⟨hm', hmetadata ▸ (throughout_iff.mp h).2⟩

/-- What the operations on maps keep, and what does not depend on metadata. -/
structure Kept [HashEquiv K] [BEq V] [HashEquiv V] (P : Map K V → Prop) : Prop where
  empty : P Map.empty
  insertEntry {m : Map K V} (e : Entry K V) (l : Ledger) : P m → P (m.insertEntry e l).1
  erase {m : Map K V} (probe : Probe K) (l : Ledger) : P m → P (m.erase probe l).1
  setMetadata {m : Map K V} (metadata : Option (Map K V)) : P m → P { m with metadata }
  rememberHash {m : Map K V} : P m → P m.rememberHash
  rememberPairHash {m : Map K V} : P m → P m.rememberPairHash

namespace Kept

variable [HashEquiv K] [BEq V] [HashEquiv V] (hP : Kept P)

include hP

theorem throughout_empty : (Map.empty : Map K V).Throughout P := by
  rw [throughout_iff]
  exact ⟨hP.empty, fun d hd => by cases hd⟩

theorem throughout_insertEntry (e : Entry K V) (l : Ledger) (h : m.Throughout P) :
    (m.insertEntry e l).1.Throughout P :=
  h.of_metadata_eq (hP.insertEntry e l (throughout_iff.mp h).1) (m.metadata_insertEntry e l)

theorem throughout_erase (probe : Probe K) (l : Ledger) (h : m.Throughout P) :
    (m.erase probe l).1.Throughout P :=
  h.of_metadata_eq (hP.erase probe l (throughout_iff.mp h).1) (m.metadata_erase probe l)

theorem throughout_cleared (h : m.Throughout P) : m.cleared.Throughout P :=
  h.of_metadata_eq (hP.setMetadata m.metadata hP.empty) rfl

theorem throughout_setMetadata (h : m.Throughout P) {metadata : Option (Map K V)}
    (hmetadata : ∀ d, metadata = some d → d.Throughout P) :
    ({ m with metadata } : Map K V).Throughout P :=
  throughout_iff.mpr ⟨hP.setMetadata metadata (throughout_iff.mp h).1, hmetadata⟩

theorem throughout_withMetadata (h : m.Throughout P) {metadata : Option (Map K V)}
    (hmetadata : ∀ d, metadata = some d → d.Throughout P) :
    (m.withMetadata metadata).Throughout P := by
  unfold withMetadata
  split
  · exact h
  · exact hP.throughout_setMetadata h hmetadata

theorem throughout_alterAt {f : Map K V → Map K V} (hf : ∀ n, P n → P (f n))
    (hmetadata : ∀ n, (f n).metadata = n.metadata) (depth : Nat) (h : m.Throughout P) :
    (m.alterAt f depth).Throughout P := by
  induction depth generalizing m with
  | zero => exact h.of_metadata_eq (hf m (throughout_iff.mp h).1) (hmetadata m)
  | succ depth ih =>
    refine hP.throughout_setMetadata h fun d' hd' => ?_
    obtain ⟨d, hd, rfl⟩ := Option.map_eq_some_iff.mp hd'
    exact ih ((throughout_iff.mp h).2 d hd)

end Kept

end Map

/-! ## Sessions -/

namespace Session

variable {ms : List (Map K V)}

theorem mapAt_of_forall_mem {Q : Map K V → Prop} (hempty : Q Map.empty) (hms : ∀ m ∈ ms, Q m)
    (place : Nat) : Q (mapAt ms place) := by
  unfold mapAt
  cases hp : ms[place]? with
  | none => exact hempty
  | some m => exact hms m (List.mem_of_getElem? hp)

theorem forall_mem_concat {Q : Map K V → Prop} {m : Map K V} (hms : ∀ m ∈ ms, Q m) (hm : Q m) :
    ∀ m' ∈ ms ++ [m], Q m' := by
  intro m' hm'
  rcases List.mem_append.mp hm' with hin | hin
  · exact hms m' hin
  · exact List.mem_singleton.mp hin ▸ hm

theorem forall_mem_set {Q : Map K V → Prop} {m : Map K V} (hms : ∀ m ∈ ms, Q m) (hm : Q m)
    (place : Nat) : ∀ m' ∈ ms.set place m, Q m' := by
  intro m' hm'
  rcases List.mem_or_eq_of_mem_set hm' with hin | rfl
  · exact hms m' hin
  · exact hm

end Session

namespace Map.Kept

open Session

variable [HashEquiv K] [BEq V] [HashEquiv V] {P : Map K V → Prop} (hP : Kept P)
  {ms : List (Map K V)}

include hP

theorem throughout_mapAt (hms : ∀ m ∈ ms, m.Throughout P) (place : Nat) :
    (mapAt ms place).Throughout P :=
  mapAt_of_forall_mem hP.throughout_empty hms place

/-- One action keeps what the operations keep. -/
theorem forall_step (hms : ∀ m ∈ ms, m.Throughout P) (a : Action K V) (l : Ledger) :
    ∀ m ∈ (step ms a l).1.1, m.Throughout P := by
  have hinsert := fun (n : Map K V) e l => hP.throughout_insertEntry (m := n) e l
  have hat := hP.throughout_mapAt hms
  cases a with
  | create es =>
    rw [step_create]
    exact forall_mem_concat hms (forall_insertAll hinsert hP.throughout_empty es l)
  | update place u =>
    have hmetadata : ∀ place', u = .withMetadata place' →
        ((mapAt ms place).withMetadata (place'.map (mapAt ms))).Throughout P := by
      intro place' _
      refine hP.throughout_withMetadata (hat place) fun d hd => ?_
      obtain ⟨p, -, rfl⟩ := Option.map_eq_some_iff.mp hd
      exact hat p
    have hu := u.forall_apply hinsert (fun n probe l => hP.throughout_erase probe l) (hat place)
      (hP.throughout_cleared (hat place)) hmetadata l
    rcases happly : u.apply ms (mapAt ms place) l with ⟨e | m, l'⟩
    · rw [step_update_of_error happly]
      exact hms
    · rw [step_update_of_ok happly]
      exact forall_mem_concat hms (hu m (congrArg Prod.fst happly))
  | takeMetadata place =>
    rw [step_takeMetadata]
    cases hd : (mapAt ms place).metadata with
    | none => exact hms
    | some d => exact forall_mem_concat hms ((throughout_iff.mp (hat place)).2 d hd)
  | hash place depth =>
    rw [step_hash]
    exact forall_mem_set hms
      (hP.throughout_alterAt (fun _ => hP.rememberHash) (fun _ => rfl) depth (hat place)) place
  | pairHash place depth =>
    rw [step_pairHash]
    exact forall_mem_set hms
      (hP.throughout_alterAt (fun _ => hP.rememberPairHash) (fun _ => rfl) depth (hat place)) place

/-- **What the operations keep, a session keeps**, in its maps and through their metadata. -/
theorem forall_run (hms : ∀ m ∈ ms, m.Throughout P) (as : List (Action K V)) (l : Ledger) :
    ∀ m ∈ (Session.run ms as l).1.1, m.Throughout P := by
  induction as generalizing ms l with
  | nil => exact hms
  | cons a as ih =>
    rw [run_cons]
    exact ih (hP.forall_step hms a l) _

end Map.Kept

/-! ## Hashes -/

section Hashes

variable [HashEquiv K] [HashEquiv V]

/-- The hash of a map, computed from its entries and their number. -/
def Map.computedHash (m : Map K V) : UInt32 :=
  Murmur.collection (Murmur.unorderedSum (m.toList.map HashEquiv.hash)) (UInt32.ofNat m.count)

/-- The pairwise hash of a map, computed from its entries. -/
def Map.computedPairHash (m : Map K V) : UInt32 :=
  Murmur.unorderedSum (m.toList.map fun e => HashEquiv.hash e.key ^^^ HashEquiv.hash e.value)

/-- Whether the hashes that a map remembers and answers are those of its entries. -/
structure Map.HashesItself (m : Map K V) : Prop where
  hashCache_eq : ∀ h, m.hashCache = some h → h = m.computedHash
  pairHashCache_eq : ∀ h, m.pairHashCache = some h → h = m.computedPairHash
  hash_eq : m.hash = m.computedHash
  pairHash_eq : m.pairHash = m.computedPairHash

theorem Map.hashesItself_of_remembersOwn {m : Map K V} (hw : m.WellFormed)
    (hm : m.RemembersOwn) : m.HashesItself := by
  have hhash : hashOfEntries m.toList = m.computedHash := by
    rw [hashOfEntries, Murmur.unordered, List.length_map, computedHash, hw.count_eq]
  exact ⟨fun h hh => (hm.hash_eq h hh).trans hhash, hm.pairHash_eq, hm.hash.trans hhash,
    hm.pairHash⟩

theorem throughout_hashesItself_empty :
    (Map.empty : Map K V).Throughout Map.HashesItself :=
  Map.throughout_iff.mpr ⟨Map.hashesItself_of_remembersOwn Map.wellFormed_empty
    (Map.remembersOwn_of_eq_none rfl rfl), fun _ hd => by cases hd⟩

variable [BEq V]

theorem kept_wellFormed_and_remembersOwn :
    Map.Kept fun m : Map K V => m.WellFormed ∧ m.RemembersOwn where
  empty := ⟨Map.wellFormed_empty, Map.remembersOwn_of_eq_none rfl rfl⟩
  insertEntry {m} e l := fun ⟨hw, hm⟩ =>
    ⟨(hw.insertEntry e l).1, hm.of_updates (m.updates_insertEntry e l)⟩
  erase {m} probe l := fun ⟨hw, hm⟩ =>
    ⟨(hw.erase probe l).1, hm.of_updates (m.updates_erase probe l)⟩
  setMetadata _ := fun ⟨hw, hm⟩ => ⟨hw.of_root_eq rfl rfl, hm.hash_eq, hm.pairHash_eq⟩
  rememberHash := fun ⟨hw, hm⟩ => ⟨hw.of_root_eq rfl rfl, hm.rememberHash⟩
  rememberPairHash := fun ⟨hw, hm⟩ => ⟨hw.of_root_eq rfl rfl, hm.rememberPairHash⟩

theorem throughout_hashesItself (as : List (Session.Action K V)) (l : Ledger) :
    ∀ m ∈ (Session.run [] as l).1.1, m.Throughout Map.HashesItself := by
  intro m hm depth d hd
  obtain ⟨hw, hown⟩ := kept_wellFormed_and_remembersOwn.forall_run
    (fun _ h => absurd h List.not_mem_nil) as l m hm depth d hd
  exact Map.hashesItself_of_remembersOwn hw hown

/-- Whether the maps of a session, and all maps that are reached through their metadata, remember
and answer the hashes of their own entries, and actions that ask for a hash answer these. -/
structure Session.HashesItself (ms : List (Map K V)) (l : Ledger) : Prop where
  maps : ∀ m ∈ ms, m.Throughout Map.HashesItself
  hash_eq : ∀ place depth d, (mapAt ms place).metadataAt? depth = some d →
    (step ms (.hash place depth) l).1.2 = .hash (some d.computedHash)
  pairHash_eq : ∀ place depth d, (mapAt ms place).metadataAt? depth = some d →
    (step ms (.pairHash place depth) l).1.2 = .hash (some d.computedPairHash)

/-- **No remembered hash is stale.** After any session the hashes that its maps remember and answer
are those of their entries, whatever was asked before. -/
theorem hashesItself_of_session (as : List (Session.Action K V)) (l : Ledger) :
    Session.HashesItself (Session.run [] as l).1.1 (Session.run [] as l).2 := by
  have hms := throughout_hashesItself as l
  have hat := Session.mapAt_of_forall_mem throughout_hashesItself_empty hms
  refine ⟨hms, fun place depth d hd => ?_, fun place depth d hd => ?_⟩
  · rw [Session.step_hash, hd, Option.map_some, (hat place depth d hd).hash_eq]
  · rw [Session.step_pairHash, hd, Option.map_some, (hat place depth d hd).pairHash_eq]

end Hashes

end HashTrie
