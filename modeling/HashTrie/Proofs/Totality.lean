import HashTrie.Proofs.Invariant
import HashTrie.Proofs.Walks

/-!
# No operation meets a fault

On a map that can be made every lookup, insertion, removal and walk comes to an end without a fault,
whatever the keys' hash and equivalence are (`faultFree_of_reachable`). `FaultFree` says so of the
operations, and says of every node why: a node that reads a slice, or may get a leaf below it,
stands where the slices are not used up, each slice leads to a place of the node, and nothing is
taken from a count of zero. The hashes of two keys that have come to one place and differ are told
apart before the slices run out, so the nodes put above the two are at most seven.
-/

namespace HashTrie

variable {K V : Type}

/-- What the steps of an operation need of a node at a depth. -/
def Node.InRange (depth : Nat) : Node K V → Prop
  | .bitmap occupied slots =>
    -- the slice is read from bit `5 * depth` on, and those of the children five bits further
    5 * depth ≤ 30 ∧ (slots.length = maxSlots → 5 * (depth + 1) ≤ 30) ∧ 0 < slots.length ∧
      (∀ i, occupied.has i → occupied.rank i < slots.length) ∧
      ∀ i, occupied.rank i ≤ slots.length
  | .array count children => 5 * (depth + 1) ≤ 30 ∧ 0 < count ∧ children.length = 32
  | .collision _ entries => depth ≤ 7 ∧ 0 < entries.length

/-- Whether a cursor over some entries may answer so: it hands out one of them, or none is left. -/
def Cursor.Reply.Fits (l : List (Entry K V)) : Cursor.Reply K V → Prop
  | .more _ => True
  | .entry (.ok e) => e ∈ l
  | .entry (.error err) => err = .exhausted

/-- Whether no operation on a map meets a fault. -/
structure FaultFree [HashEquiv K] [BEq V] (m : Map K V) : Prop where
  find : ∀ probe : Probe K, ∃ found, m.tryFind probe = .ok found
  insert : ∀ e : Entry K V, ∃ change, m.tryInsert e = .ok change
  erase : ∀ probe : Probe K, ∃ change, m.tryErase probe = .ok change
  /-- Each sequence over the map has a current entry. -/
  first : ∀ n s, m.seqAfter? n = some s → ∃ e ∈ m.toList, s.first = .ok e
  /-- There are as many sequences as entries. -/
  steps : ∀ n, (m.seqAfter? n).isSome ↔ n < m.count
  /-- A cursor answers every call. -/
  replies_length : ∀ calls, (m.cursor.replies calls).length = calls.length
  replies : ∀ calls, ∀ reply ∈ m.cursor.replies calls, reply.Fits m.toList
  /-- An entry is taken out only where one is counted. -/
  count_pos : m.root ≠ none → 0 < m.count
  inRange : ∀ path node, m.subtree? path = some node → node.InRange path.length

/-! ## Nodes -/

theorem Node.inRange_of_wellFormed [HashEquiv K] {depth : Nat} {node : Node K V}
    (hd : depth ≤ rootHeight) (hw : node.WellFormed (rootHeight - depth)) : node.InRange depth := by
  unfold rootHeight at hd hw
  cases node with
  | collision hash entries => exact ⟨hd, List.length_pos_of_ne_nil hw.collision_parts.2.1⟩
  | bitmap occupied slots =>
    obtain ⟨h, hh⟩ := hw.exists_height_eq trivial
    rw [hh] at hw
    obtain ⟨-, hne, -, hlen, -⟩ := hw.bitmap_parts
    refine ⟨by omega, fun hfull => ?_, List.length_pos_of_ne_nil hne, fun i hi => ?_, fun i => ?_⟩
    · cases h with
      | zero =>
        have := hw.length_lt_maxSlots
        omega
      | succ h => omega
    · exact hlen ▸ Bitmap.rank_lt_popCount hi
    · exact hlen ▸ Bitmap.rank_le_popCount occupied i
  | array count children =>
    obtain ⟨h, hh⟩ := hw.exists_height_eq trivial
    rw [hh] at hw
    obtain ⟨-, hpos, hlen, hmin, -⟩ := hw.array_parts
    exact ⟨by omega, by omega, hlen⟩

theorem Map.WellFormed.inRange_subtree? [HashEquiv K] {m : Map K V} (hw : m.WellFormed)
    {path : List (Fin 32)} {node : Node K V} (hs : m.subtree? path = some node) :
    node.InRange path.length := by
  obtain ⟨root, -, hroot, hd⟩ := hw.subtree? hs
  obtain ⟨hle, hnode⟩ := Node.wellFormed_descend? hroot hd
  exact Node.inRange_of_wellFormed hle hnode

/-! ## Walks -/

namespace Cursor

theorem length_replies (c : Cursor K V) (calls : List Call) :
    (c.replies calls).length = calls.length := by
  induction calls generalizing c with
  | nil => rfl
  | cons call calls ih => rw [replies, List.length_cons, List.length_cons, ih]

/-- One call: the answer fits what is left, and nothing is added to that. -/
theorem fits_reply (c : Cursor K V) (call : Call) :
    (c.reply call).1.Fits c.left ∧ (c.reply call).2.left ⊆ c.left := by
  cases call with
  | hasNext => exact ⟨trivial, by rw [reply, left_hasNext]; exact List.Subset.refl _⟩
  | next =>
    obtain ⟨c', hleft, hnext⟩ := exists_next_eq c
    rw [reply, hnext]
    refine ⟨?_, by rw [hleft]; exact c.left.tail_sublist.subset⟩
    cases hc : c.left with
    | nil => rfl
    | cons e rest => exact List.mem_cons_self

theorem Reply.Fits.mono {l l' : List (Entry K V)} {r : Reply K V} (hr : r.Fits l) (hl : l ⊆ l') :
    r.Fits l' := by
  cases r with
  | more => trivial
  | entry result =>
    cases result with
    | ok e => exact hl hr
    | error err => exact hr

theorem fits_of_mem_replies (c : Cursor K V) (calls : List Call) :
    ∀ r ∈ c.replies calls, r.Fits c.left := by
  induction calls generalizing c with
  | nil => exact fun r hr => absurd hr List.not_mem_nil
  | cons call calls ih =>
    obtain ⟨hreply, hleft⟩ := fits_reply c call
    rw [replies]
    exact List.forall_mem_cons.mpr ⟨hreply, fun r hr => (ih _ r hr).mono hleft⟩

end Cursor

/-! ## Maps -/

theorem faultFree_of_wellFormed [HashEquiv K] [BEq V] {m : Map K V} (hw : m.WellFormed) :
    FaultFree m where
  find probe := ⟨_, hw.tryFind_eq probe⟩
  insert e := by
    obtain ⟨change, events, hi, -⟩ := hw.exists_tryInsert_eq e
    exact ⟨_, hi⟩
  erase probe := by
    obtain ⟨change, events, he, -⟩ := hw.exists_tryErase_eq probe
    exact ⟨_, he⟩
  first n s hs := by
    obtain ⟨e, he⟩ := Map.exists_first_eq_seqAfter? hs
    have hcons := Seq.remaining_eq_first_cons he
    rw [Map.remaining_of_seqAfter?_eq_some hs] at hcons
    exact ⟨e, List.mem_of_mem_drop (hcons ▸ List.mem_cons_self), he⟩
  steps n := by rw [Map.isSome_seqAfter?, hw.count_eq, decide_eq_true_iff]
  replies_length calls := m.cursor.length_replies calls
  replies calls := m.left_cursor ▸ m.cursor.fits_of_mem_replies calls
  count_pos hroot := Nat.pos_of_ne_zero fun hzero => hroot (hw.root_eq_none_iff.mpr hzero)
  inRange path node hs := hw.inRange_subtree? hs

/-- **Operations are total.** No operation on a map that can be made meets a fault, whatever the
hash and the equivalence of the keys are; and wherever two different hashes have come to one height,
they are told apart within the levels that are left there. -/
theorem faultFree_of_reachable [HashEquiv K] [BEq V] [HashEquiv V] {m : Map K V}
    (hm : m.Reachable) :
    FaultFree m ∧ ∀ (h : Nat) (a b : UInt32) (s₁ s₂ : Slot K V (Node K V)), h ≤ 7 → Agree h a b →
      a ≠ b → ∃ n, n + 1 ≤ h ∧ sliceAt (h - n) a ≠ sliceAt (h - n) b ∧
        Node.join a s₁ b s₂ h = .ok (Node.nest ((slicesBelow h a).take n)
          (Node.fork (sliceAt (h - n) a) s₁ (sliceAt (h - n) b) s₂)) :=
  ⟨faultFree_of_wellFormed hm.wellFormed, fun _ _ _ s₁ s₂ _ hab hne =>
    Node.exists_join_eq_nest s₁ s₂ hab hne⟩

/-- Nothing faults on the deep map, and the slots of its two hashes are joined within seven
levels. -/
theorem faultFree_deepMap :
    deepMap.Reachable ∧ Agree 7 0 0xc0000000 ∧ (0 : UInt32) ≠ 0xc0000000 ∧ FaultFree deepMap ∧
      ∃ n, n + 1 ≤ 7 ∧ sliceAt (7 - n) 0 ≠ sliceAt (7 - n) 0xc0000000 ∧
        Node.join 0 (.entry ⟨.pinned 1 0 0, .nil⟩) 0xc0000000
            (.entry ⟨.pinned 3 0xc0000000 0, .nil⟩) 7 =
          .ok (Node.nest ((slicesBelow 7 0).take n) (Node.fork (sliceAt (7 - n) 0)
            (.entry ⟨.pinned 1 0 0, .nil⟩) (sliceAt (7 - n) 0xc0000000)
            (.entry ⟨Scalar.pinned 3 0xc0000000 0, Scalar.nil⟩))) := by
  have hm : deepMap.Reachable := Map.reachable_ofEdits _
  have hab : Agree 7 0 0xc0000000 := agree_root _ _
  obtain ⟨hfree, hjoin⟩ := faultFree_of_reachable hm
  exact ⟨hm, hab, by decide, hfree, hjoin 7 0 0xc0000000 _ _ (le_refl 7) hab (by decide)⟩

end HashTrie
