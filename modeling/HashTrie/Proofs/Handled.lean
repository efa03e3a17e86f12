import HashTrie.Map.Handled
import HashTrie.Proofs.Cells
import HashTrie.Proofs.Ledgers
import HashTrie.Proofs.Population

/-!
# Handles tell what stamps tell

A map hands out one stamp for its whole trie, and an update hands on the stamp when the trie is
kept. Here the nodes have handles of their own, and an update compares the handles of the roots. The
two tell the same: an update of a map with handles does what the update of the map does, and its
root has the handle that it had before exactly when it has the stamp that it had before
(`Handled.Shows.exists_step_eq`). So a whole run that compares handles makes the map of the run,
with the same events (`Handled.exists_steps_eq`).
-/

namespace HashTrie

variable {K V : Type}

namespace Map

variable {m : Map K V} {l : Ledger}

/-- Whether the stamp of a map was handed out before. -/
def StampBelow (m : Map K V) (next : Nat) : Prop :=
  ∀ root, m.root = some root → root.stamp < next

theorem StampBelow.sharesRoot_eq_false (h : m.StampBelow l.nextStamp) (node : Node K V)
    (count : Nat) : (m.withRoot (some ⟨l.nextStamp, node⟩) count).sharesRoot m = false := by
  rw [sharesRoot, beq_eq_false_iff_ne]
  intro heq
  obtain ⟨root, hroot, heq⟩ := Option.map_eq_some_iff.mp heq.symm
  exact absurd heq (ne_of_lt (h root hroot))

/-- The stamp of an updated map was handed out before the next update. -/
theorem StampBelow.of_updates (h : m.StampBelow l.nextStamp) {p : Map K V × Ledger}
    (hu : m.Updates l p) : p.1.StampBelow p.2.nextStamp := by
  cases hu with
  | same hl =>
    rw [hl]
    exact h
  | emptied count hl => exact fun root hr => by cases hr
  | rebuilt node count hl =>
    rw [hl]
    intro root hr
    obtain rfl := Option.some.inj hr
    exact Nat.lt_succ_self _

section Erase

variable [HashEquiv K] {probe : Probe K}

theorem WellFormed.exists_count_eq_succ (hw : m.WellFormed) {root : Root K V}
    (hr : m.root = some root) : ∃ n, m.count = n + 1 := by
  obtain ⟨hcount, hnode⟩ := (wellFormed_of_root_eq_some hr).mp hw
  have hpos := List.length_pos_of_ne_nil hnode.toList_ne_nil
  exact ⟨m.count - 1, by omega⟩

/-- A removal from a map with entries is the removal from its trie. -/
theorem WellFormed.erase_root_eq (hw : m.WellFormed) {root : Root K V} (hr : m.root = some root)
    {t : Traced (Erasure (Node K V))} (he : m.tryErase probe = .ok t) :
    root.node.erase probe rootHeight = .ok t := by
  obtain ⟨n, hn⟩ := hw.exists_count_eq_succ hr
  rw [tryErase, hr] at he
  rcases herase : root.node.erase probe rootHeight with fault | ⟨change, events⟩
  · simp [herase, bind, Except.bind] at he
  · cases change <;> simpa [herase, hn, bind, Except.bind] using he

end Erase

theorem StampBelow.step [HashEquiv K] [BEq V] (h : m.StampBelow l.nextStamp) (s : Step K V) :
    (m.edit s.edit l).1.StampBelow (m.edit s.edit l).2.nextStamp := by
  cases s with
  | insert e => exact h.of_updates (m.updates_insertEntry e l)
  | erase probe => exact h.of_updates (m.updates_erase probe l)

end Map

/-- Whether a map with handles is a map: it has its count and its trie, and its handles were handed
out before. -/
structure Handled.Shows (next : Nat) (a : Handled K V) (m : Map K V) : Prop where
  count_eq : a.count = m.count
  node_eq : a.root.map Cell.node = m.node?
  below : ∀ root, a.root = some root → root.Below next

/-- Every map can be shown with handles. -/
theorem Map.exists_shows (m : Map K V) : ∃ next a, Handled.Shows next a m := by
  cases hr : m.root with
  | none => exact ⟨0, ⟨m.count, none⟩, rfl, by simp [node?, hr], fun _ h => by cases h⟩
  | some root =>
    obtain ⟨c, after, -, hmade⟩ := Cell.create_eq root.node 0
    refine ⟨after, ⟨m.count, some c⟩, rfl, by simp [node?, hr, hmade.node_eq], fun c' hc' => ?_⟩
    obtain rfl := Option.some.inj hc'
    exact hmade.below

namespace Handled

variable {next after : Nat} {a b : Handled K V} {m m' : Map K V} {l : Ledger}

/-- Whether the result of an update of a map with handles is the result of the update of the map,
and its root has the handle that it had before exactly when it has the stamp that it had before. -/
structure Follows (a : Handled K V) (next : Nat) (m m' : Map K V) (b : Handled K V) (after : Nat) :
    Prop where
  shows : b.Shows after m'
  sharesRoot_eq : b.sharesRoot a = m'.sharesRoot m
  le : next ≤ after

namespace Shows

variable (hs : a.Shows next m)

include hs

theorem root_eq_none (hr : m.root = none) : a.root = none := by
  have h := hs.node_eq
  rwa [Map.node?, hr, Option.map_none, Option.map_eq_none_iff] at h

theorem exists_root_eq {root : Root K V} (hr : m.root = some root) :
    ∃ c, a.root = some c ∧ c.node = root.node ∧ c.Below next := by
  have h := hs.node_eq
  rw [Map.node?, hr, Option.map_some, Option.map_eq_some_iff] at h
  obtain ⟨c, hc, hnode⟩ := h
  exact ⟨c, hc, hnode, hs.below c hc⟩

/-- A map that is kept follows a map that is kept. -/
theorem follows_self (hle : next ≤ after) : Follows a next m m a after where
  shows := ⟨hs.count_eq, hs.node_eq, fun root hr => (hs.below root hr).mono hle⟩
  sharesRoot_eq := (beq_self_eq_true _).trans m.sharesRoot_self.symm
  le := hle

/-- A map with a new root follows a map with a fresh stamp. -/
theorem follows_of_made (hm : m.StampBelow l.nextStamp) {node : Node K V} {c : Cell K V}
    (hmade : Cell.Made next after node c) (count : Nat) :
    Follows a next m (m.withRoot (some ⟨l.nextStamp, node⟩) count) ⟨count, some c⟩ after where
  shows := ⟨rfl, congrArg some hmade.node_eq, fun _ hc => Option.some.inj hc ▸ hmade.below⟩
  sharesRoot_eq := by
    rw [hm.sharesRoot_eq_false, Handled.sharesRoot, beq_eq_false_iff_ne]
    intro heq
    obtain ⟨root, hroot, heq⟩ := Option.map_eq_some_iff.mp heq.symm
    have hlt := (hs.below root hroot).handle_lt
    have hle := hmade.le_handle
    omega
  le := le_of_lt hmade.lt

/-- A map without root follows a map without root, when there was a root before. -/
theorem follows_of_none (hle : next ≤ after) (hr : m.root ≠ none) (count : Nat) :
    Follows a next m (m.withRoot none count) ⟨count, none⟩ after where
  shows := ⟨rfl, rfl, fun _ hc => by cases hc⟩
  sharesRoot_eq := by
    obtain ⟨root, hroot⟩ := Option.ne_none_iff_exists'.mp hr
    obtain ⟨c, hc, -, -⟩ := hs.exists_root_eq hroot
    simp [Handled.sharesRoot, Map.sharesRoot, Map.withRoot, hroot, hc]
  le := hle

variable [HashEquiv K]

/-- **An insertion that compares handles follows the insertion.** -/
theorem exists_insertEntry_eq [BEq V] (hw : m.WellFormed) (hm : m.StampBelow l.nextStamp)
    (e : Entry K V) : ∃ b events after, a.insertEntry e next = .ok (⟨b, events⟩, after) ∧
      (m.insertEntry e l).2.events = l.events ++ events ∧
      Follows a next m (m.insertEntry e l).1 b after := by
  obtain ⟨change, events, htry, -⟩ := hw.exists_tryInsert_eq e
  have hevents := Map.insertEntry_events htry l
  rw [Map.insertEntry_fst htry l]
  rw [Map.tryInsert] at htry
  cases hr : m.root with
  | none =>
    rw [hr] at htry
    obtain ⟨rfl, rfl⟩ := Traced.mk.inj (Except.ok.inj htry)
    obtain ⟨c, after, hcreate, hmade⟩ :=
      Cell.create_eq (Node.leaf (sliceAt rootHeight (HashEquiv.hash e.key)) e) next
    have hcount := (Map.wellFormed_of_root_eq_none hr).mp hw
    refine ⟨⟨m.count + 1, some c⟩, [], after, ?_, hevents, hs.follows_of_made hm hmade _⟩
    rw [Handled.insertEntry, hs.root_eq_none hr, hcount]
    exact bind_supply_of_ok hcreate
  | some root =>
    rw [hr] at htry
    dsimp only at htry
    obtain ⟨c, hc, hnode, hbelow⟩ := hs.exists_root_eq hr
    have hinserts : Cell.Inserts next c (c.insert (HashEquiv.hash e.key) e rootHeight next) _ :=
      Cell.inserts_insert rootHeight c hbelow
    rw [hnode, htry] at hinserts
    rw [Handled.insertEntry, hc]
    cases change with
    | kept =>
      obtain ⟨after, hle, hresult⟩ := hinserts
      refine ⟨a, events, after, ?_, hevents, hs.follows_self hle⟩
      refine (bind_supply_of_ok hresult).trans ?_
      rw [Cell.same_self, if_pos rfl]
      rfl
    | overwrote node =>
      obtain ⟨c', after, hmade, hresult⟩ := hinserts
      refine ⟨⟨m.count, some c'⟩, events, after, ?_, hevents, hs.follows_of_made hm hmade _⟩
      refine (bind_supply_of_ok hresult).trans ?_
      rw [hmade.same_eq_false hbelow, if_neg Bool.false_ne_true, ← hs.count_eq]
      rfl
    | added node =>
      obtain ⟨c', after, hmade, hresult⟩ := hinserts
      refine ⟨⟨m.count + 1, some c'⟩, events, after, ?_, hevents, hs.follows_of_made hm hmade _⟩
      refine (bind_supply_of_ok hresult).trans ?_
      rw [hmade.same_eq_false hbelow, if_neg Bool.false_ne_true, ← hs.count_eq]
      rfl

omit [HashEquiv K] in
theorem shrunk_eq {n : Nat} (hn : m.count = n + 1) (root : Option (Cell K V)) (after : Nat) :
    a.shrunk root after = .ok (⟨m.count - 1, root⟩, after) := by
  rw [Handled.shrunk, hs.count_eq, hn]
  rfl

/-- **A removal that compares handles follows the removal.** -/
theorem exists_erase_eq (hw : m.WellFormed) (hm : m.StampBelow l.nextStamp) (probe : Probe K) :
    ∃ b events after, a.erase probe next = .ok (⟨b, events⟩, after) ∧
      (m.erase probe l).2.events = l.events ++ events ∧
      Follows a next m (m.erase probe l).1 b after := by
  obtain ⟨change, events, htry, -⟩ := hw.exists_tryErase_eq probe
  have hevents := Map.erase_events htry l
  rw [Map.erase_fst htry l]
  cases hr : m.root with
  | none =>
    rw [Map.tryErase, hr] at htry
    obtain ⟨rfl, rfl⟩ := Traced.mk.inj (Except.ok.inj htry)
    refine ⟨a, [], next, ?_, hevents, hs.follows_self (le_refl next)⟩
    rw [Handled.erase, hs.root_eq_none hr]
    rfl
  | some root =>
    obtain ⟨c, hc, hnode, hbelow⟩ := hs.exists_root_eq hr
    obtain ⟨n, hn⟩ := hw.exists_count_eq_succ hr
    have hsome : m.root ≠ none := by simp [hr]
    have herases := Cell.erases_erase probe rootHeight c hbelow
    rw [hnode, hw.erase_root_eq hr htry] at herases
    rw [Handled.erase, hc]
    cases change with
    | absent =>
      obtain ⟨after, hle, hresult⟩ := herases
      refine ⟨a, events, after, ?_, hevents, hs.follows_self hle⟩
      refine (bind_supply_of_ok hresult).trans ?_
      dsimp only
      rw [Cell.same_self, if_pos rfl]
      rfl
    | emptied =>
      obtain ⟨after, hle, hresult⟩ := herases
      refine ⟨⟨m.count - 1, none⟩, events, after, ?_, hevents, hs.follows_of_none hle hsome _⟩
      refine (bind_supply_of_ok hresult).trans ?_
      exact bind_supply_of_ok (hs.shrunk_eq hn none after)
    | removed node =>
      obtain ⟨c', after, hmade, hresult⟩ := herases
      refine ⟨⟨m.count - 1, some c'⟩, events, after, ?_, hevents, hs.follows_of_made hm hmade _⟩
      refine (bind_supply_of_ok hresult).trans ?_
      dsimp only
      rw [hmade.same_eq_false hbelow, if_neg Bool.false_ne_true]
      exact bind_supply_of_ok (hs.shrunk_eq hn (some c') after)

/-- **A step that compares handles follows the step.** -/
theorem exists_step_eq [BEq V] (hw : m.WellFormed) (hm : m.StampBelow l.nextStamp)
    (s : Map.Step K V) : ∃ b events after, a.step s next = .ok (⟨b, events⟩, after) ∧
      (m.edit s.edit l).2.events = l.events ++ events ∧
      Follows a next m (m.edit s.edit l).1 b after := by
  cases s with
  | insert e => exact hs.exists_insertEntry_eq hw hm e
  | erase probe => exact hs.exists_erase_eq hw hm probe

theorem exists_steps_eq [BEq V] (hw : m.WellFormed) (hm : m.StampBelow l.nextStamp)
    (steps : List (Map.Step K V)) : ∃ b events after,
      a.steps steps next = .ok (⟨b, events⟩, after) ∧
      (m.edits (steps.map Map.Step.edit) l).2.events = l.events ++ events ∧
      b.Shows after (m.edits (steps.map Map.Step.edit) l).1 := by
  induction steps generalizing a m l next with
  | nil => exact ⟨a, [], next, rfl, (List.append_nil _).symm, hs⟩
  | cons s steps ih =>
    obtain ⟨b, events, between, hstep, hevents, hfollows⟩ := hs.exists_step_eq hw hm s
    obtain ⟨b', events', after, hsteps, hevents', hshows⟩ :=
      ih hfollows.shows (hw.step s l) (hm.step s)
    refine ⟨b', events ++ events', after, ?_, ?_, hshows⟩
    · exact (bind_supply_of_ok hstep).trans (bind_supply_of_ok hsteps)
    · rw [← List.append_assoc, ← hevents]
      exact hevents'

end Shows

/-- **A run that compares handles makes the map of the run.** -/
theorem exists_steps_eq [HashEquiv K] [BEq V] (steps : List (Map.Step K V)) :
    ∃ (b : Handled K V) (after : Nat),
      Handled.steps ⟨0, none⟩ steps 0 = .ok (⟨b, (Map.run steps).2.events⟩, after) ∧
      b.Shows after (Map.run steps).1 := by
  have hempty : Handled.Shows 0 ⟨0, none⟩ (Map.empty : Map K V) :=
    ⟨rfl, rfl, fun _ hr => by cases hr⟩
  have hstamp : (Map.empty : Map K V).StampBelow Ledger.empty.nextStamp :=
    fun _ hr => by cases hr
  obtain ⟨b, events, after, hsteps, hevents, hshows⟩ :=
    hempty.exists_steps_eq Map.wellFormed_empty hstamp steps
  have hrun : (Map.run steps).2.events = events := hevents
  exact ⟨b, after, hrun ▸ hsteps, hshows⟩

end Handled

end HashTrie
