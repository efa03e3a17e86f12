import HashTrie.Proofs.Edits
import HashTrie.Proofs.Lookup

/-!
# Removal

A removal takes the first accepted entry out of the bucket of the probe's hash, and touches no other
entry. On a well-formed trie it meets no fault, and leaves the node as it is when the bucket has no
accepted entry, no node when the entry was the last one, and a well-formed node otherwise
(`exists_erase_eq`).
-/

namespace HashTrie

variable {K V : Type} [HashEquiv K]

namespace Node

variable {probe : Probe K} {h : Nat} {node : Node K V}

/-- Whether a list has an accepted entry, and another list is it without the first of them. -/
def Removes (probe : Probe K) (h : Nat) (bucket l l' : List (Entry K V)) : Prop :=
  (∃ e ∈ bucket, probe.accepts e.key = true) ∧
    ReplacedAt h probe.hash bucket (bucket.eraseP fun e => probe.accepts e.key) l l'

/-- What a removal owes for each of its outcomes. -/
def Erases (probe : Probe K) (h : Nat) (node : Node K V) : Erasure (Node K V) → Prop
  | .absent => ∀ x ∈ bucket probe.hash h node, probe.accepts x.key = false
  | .emptied => Removes probe h (bucket probe.hash h node) node.toList []
  | .removed node' =>
    node'.WellFormed h ∧ Removes probe h (bucket probe.hash h node) node.toList node'.toList

/-! ## Dropping a slot -/

/-- Drop what stands at a slice of a branching node. -/
def dropAt (i : Fin 32) : Node K V → Except Fault (Traced (Erasure (Node K V)))
  | .bitmap occupied slots => .ok (.silent (dropSlot occupied slots i))
  | .array count children => dropChild count children i
  | .collision .. => .ok (.silent .absent)

/-- What dropping a slot owes for each of its outcomes: nothing is left at any other slice, or the
node is changed at this slice only. -/
def Drops (h : Nat) (i : Fin 32) (node : Node K V) : Erasure (Node K V) → Prop
  | .absent => False
  | .emptied => ∀ j, j ≠ i → node.entriesAt j = []
  | .removed node' => ChangedAt h i none node node'

theorem exists_dropAt_eq (hw : node.WellFormed (h + 1)) {i : Fin 32}
    {s : Slot K V (Node K V)} (hs : node.slotAt i = some s) :
    ∃ outcome events, dropAt i node = .ok ⟨outcome, events⟩ ∧ Drops h i node outcome := by
  cases node with
  | bitmap occupied slots =>
    have hi := (slotAt_bitmap_eq_some.mp hs).1
    rw [dropAt, dropSlot]
    split
    · next hsingle =>
      refine ⟨.emptied, [], rfl, fun j hj => ?_⟩
      have hfree : occupied.has j = false := by rw [hsingle]; simpa using Ne.symm hj
      rw [entriesAt, slotAt, Bitmap.lookup_of_not_has hfree, entriesOf_none]
    · next hne => exact ⟨_, [], rfl, changedAt_erase_slot hw hi hne⟩
  | array count children =>
    have hmin := hw.minChildren_lt
    have hsome : ((array count children).slotAt i).isSome := Option.isSome_of_mem hs
    rw [dropAt]
    cases count with
    | zero => exact absurd hmin (Nat.not_lt_zero _)
    | succ rest =>
      rw [dropChild]
      split
      · next hfew => exact ⟨_, _, rfl, changedAt_pack hw hsome (by omega)⟩
      · next hmany =>
        refine ⟨_, _, rfl, changedAt_set_child hw none (by omega) ?_ (by simp)⟩
        rw [hsome]
        rfl
  | collision => cases hs

/-! ## Removal -/

/-- A removal in a branching node goes on at the slot of its slice, and drops the slot when nothing
is left in it. -/
theorem erase_succ (probe : Probe K) (hw : node.WellFormed (h + 1)) (hb : node.Branches) :
    erase probe (h + 1) node =
      match node.slotAt (sliceAt (h + 1) probe.hash) with
      | none => .ok (.silent .absent)
      | some (.entry e) =>
        if probe.accepts e.key then dropAt (sliceAt (h + 1) probe.hash) node
        else .ok (.silent .absent)
      | some (.child child) =>
        (erase probe h child).bind fun change =>
          match change.outcome with
          | .absent => .ok ⟨.absent, change.events⟩
          | .emptied => (dropAt (sliceAt (h + 1) probe.hash) node).map fun dropped =>
            ⟨dropped.outcome, change.events ++ dropped.events⟩
          | .removed child' =>
            .ok ⟨.removed (node.withChild (sliceAt (h + 1) probe.hash) child'), change.events⟩ := by
  cases node with
  | bitmap occupied slots =>
    have hi := hw.has_eq_isSome (sliceAt (h + 1) probe.hash)
    cases hs : (bitmap occupied slots).slotAt (sliceAt (h + 1) probe.hash) with
    | none => simp [erase, hi, hs]
    | some s =>
      have hget := (slotAt_bitmap_eq_some.mp hs).2
      cases s with
      | entry e => cases hacc : probe.accepts e.key <;> simp [erase, hi, hs, hget, hacc, dropAt]
      | child child =>
        cases hc : erase probe h child with
        | error fault => simp [erase, hi, hs, hget, hc, bind, Except.bind]
        | ok change =>
          obtain ⟨outcome, events⟩ := change
          cases outcome <;> simp [erase, hi, hs, hget, hc, bind, Except.bind, Except.map,
            Traced.map, Traced.silent, dropAt, withChild]
  | array count children =>
    cases hs : (array count children).slotAt (sliceAt (h + 1) probe.hash) with
    | none => simp [erase, hw.getElem?_eq_of_slotAt_eq_none hs]
    | some s =>
      obtain ⟨child, hget, rfl⟩ := slotAt_array_eq_some.mp hs
      cases hc : erase probe h child with
      | error fault => simp [erase, hget, hc, bind, Except.bind]
      | ok change =>
        obtain ⟨outcome, events⟩ := change
        cases outcome with
        | emptied =>
          cases hd : dropChild count children (sliceAt (h + 1) probe.hash) <;>
            simp [erase, hget, hc, hd, bind, Except.bind, Except.map, dropAt]
        | _ => simp [erase, hget, hc, bind, Except.bind, withChild]
  | collision => exact absurd hb id

/-- Dropping the slot of the followed slice is a removal, when nothing is left of its entries. -/
theorem Erases.of_drops (hw : node.WellFormed (h + 1)) (hb : node.Branches)
    {outcome : Erasure (Node K V)} (hd : Drops h (sliceAt (h + 1) probe.hash) node outcome)
    (hr : Removes probe h (bucketOf probe.hash h (node.slotAt (sliceAt (h + 1) probe.hash)))
      (entriesOf (node.slotAt (sliceAt (h + 1) probe.hash))) []) :
    Erases probe (h + 1) node outcome := by
  obtain ⟨hacc, hreplaced⟩ := hr
  rw [← bucket_succ _ _ hb] at hacc hreplaced
  cases outcome with
  | absent => exact absurd hd id
  | emptied =>
    have hnil : (List.finRange 32).flatMap (fun _ => ([] : List (Entry K V))) = [] := by simp
    refine ⟨hacc, ?_⟩
    rw [← hnil]
    exact replacedAt_flatMap hw hb (fun j hj => (hd j hj).symm) hreplaced
  | removed node' => exact ⟨hd.wellFormed, hacc, hd.replacedAt hw hb hreplaced⟩

theorem erases_eraseColliding {hash : UInt32} {entries : List (Entry K V)}
    (hw : (collision hash entries).WellFormed h) :
    Erases probe h (collision hash entries) (eraseColliding probe hash entries) := by
  obtain ⟨hh, -, hhash⟩ := hw.collision_parts
  unfold eraseColliding
  cases hfind : entries.findIdx? fun e => probe.accepts e.key with
  | none =>
    intro x hx
    rw [bucket_collision] at hx
    simpa using List.findIdx?_eq_none_iff.mp hfind x hx
  | some n =>
    obtain ⟨hn, hacc, -⟩ := List.findIdx?_eq_some_iff_getElem.mp hfind
    have herase : entries.eraseP (fun e => probe.accepts e.key) = entries.eraseIdx n := by
      rw [List.eraseP_eq_eraseIdx, hfind]
    have hremoves : Removes probe h entries entries (entries.eraseIdx n) :=
      ⟨⟨entries[n], List.getElem_mem hn, hacc⟩, by rw [herase]; exact ReplacedAt.whole ..⟩
    have hlen := List.length_eraseIdx_of_lt hn
    dsimp only
    split
    · have hnil : entries.eraseIdx n = [] := List.eq_nil_of_length_eq_zero (by omega)
      rw [hnil] at hremoves
      simpa only [Erases, bucket_collision, toList] using hremoves
    · refine ⟨wellFormed_collision.mpr ⟨hh, ?_, fun x hx => ?_⟩, ?_⟩
      · exact List.ne_nil_of_length_pos (by omega)
      · exact hhash x (List.mem_of_mem_eraseIdx hx)
      · simpa only [bucket_collision, toList] using hremoves

/-- An accepted entry in a slot of its own goes with the slot. -/
theorem exists_erase_entry_eq (hw : node.WellFormed (h + 1)) (hb : node.Branches) {e : Entry K V}
    (hs : node.slotAt (sliceAt (h + 1) probe.hash) = some (.entry e)) :
    ∃ outcome events, erase probe (h + 1) node = .ok ⟨outcome, events⟩ ∧
      Erases probe (h + 1) node outcome := by
  rw [erase_succ probe hw hb, hs]
  cases hacc : probe.accepts e.key with
  | false =>
    refine ⟨.absent, [], by simp [hacc]; rfl, ?_⟩
    simpa [Erases, bucket_of_entry hb hs] using hacc
  | true =>
    obtain ⟨outcome, events, hdrop, hd⟩ := exists_dropAt_eq hw hs
    refine ⟨outcome, events, by simpa [hacc] using hdrop, Erases.of_drops hw hb hd ?_⟩
    rw [hs]
    refine ⟨⟨e, by simp [bucketOf], hacc⟩, ?_⟩
    have hnil : [e].eraseP (fun e => probe.accepts e.key) = [] := by simp [hacc]
    rw [bucketOf, hnil]
    exact ReplacedAt.whole ..

/-- What a removal below a child owes leads to what it owes in the node. -/
theorem exists_erase_child_eq (hw : node.WellFormed (h + 1)) (hb : node.Branches)
    {child : Node K V} (hs : node.slotAt (sliceAt (h + 1) probe.hash) = some (.child child))
    {change : Traced (Erasure (Node K V))} (herase : erase probe h child = .ok change)
    (hspec : Erases probe h child change.outcome) :
    ∃ outcome events, erase probe (h + 1) node = .ok ⟨outcome, events⟩ ∧
      Erases probe (h + 1) node outcome := by
  obtain ⟨outcome, events⟩ := change
  rw [erase_succ probe hw hb, hs]
  simp only [herase, Except.bind]
  cases outcome with
  | absent =>
    refine ⟨.absent, events, rfl, ?_⟩
    rw [Erases, bucket_of_child hb hs]
    exact hspec
  | emptied =>
    obtain ⟨outcome, events', hdrop, hd⟩ := exists_dropAt_eq hw hs
    refine ⟨outcome, events ++ events', by simp [hdrop, Except.map], Erases.of_drops hw hb hd ?_⟩
    rw [hs]
    exact hspec
  | removed child' =>
    obtain ⟨hw', hacc, hreplaced⟩ := hspec
    have hrouted : Routed (h + 1) (sliceAt (h + 1) probe.hash) child'.toList :=
      hreplaced.routed (hw.fits hs).2 fun hold x hx => hold x (List.mem_of_mem_eraseP hx)
    have hc := changedAt_withChild hw hs ⟨hw', hrouted⟩
    refine ⟨.removed (node.withChild (sliceAt (h + 1) probe.hash) child'), events, rfl,
      hc.wellFormed, ?_⟩
    rw [bucket_of_child hb hs]
    exact ⟨hacc, hc.replacedAt hw hb (by rw [hs]; exact hreplaced)⟩

/-- **A removal from a well-formed node meets no fault, and takes out the first accepted entry of
the bucket.** -/
theorem exists_erase_eq (probe : Probe K) (hw : node.WellFormed h) :
    ∃ outcome events, erase probe h node = .ok ⟨outcome, events⟩ ∧ Erases probe h node outcome := by
  induction hw using WellFormed.walk probe.hash with
  | collision h hash entries hw =>
    exact ⟨_, [], by cases h <;> rfl, erases_eraseColliding hw⟩
  | free h node hw hb hs =>
    refine ⟨.absent, [], by rw [erase_succ probe hw hb, hs]; rfl, ?_⟩
    simp [Erases, bucket_of_free hb hs]
  | entry h node e hw hb hs => exact exists_erase_entry_eq hw hb hs
  | child h node child hw hb hs ih =>
    obtain ⟨outcome, events, herase, hspec⟩ := ih
    exact exists_erase_child_eq hw hb hs herase hspec

end Node

end HashTrie
