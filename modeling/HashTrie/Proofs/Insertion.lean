import HashTrie.Proofs.Joining
import HashTrie.Proofs.Lookup

/-!
# Insertion

An insertion looks for the first entry of the bucket to whose key the new key is equivalent. It
keeps the node when the values are equal and overwrites the value otherwise; without such an entry
it adds the new one, behind all entries with its hash. No other entry is touched. On a well-formed
trie an insertion meets no fault and makes a well-formed node (`exists_insert_eq`).

Of an entry with another hash an insertion may still ask whether the key is equivalent to it, when
the slices lead there. Which entries it asks is said by the bucket.
-/

namespace HashTrie

variable {K V : Type} [HashEquiv K]

/-- A list split at the first entry to whose key the key of a new entry is equivalent. -/
structure Meets (e : Entry K V) (l front : List (Entry K V)) (old : Entry K V)
    (back : List (Entry K V)) : Prop where
  split : l = front ++ old :: back
  equiv : equiv e.key old.key = true
  first : ∀ x ∈ front, HashEquiv.equiv e.key x.key = false

theorem exists_meets_of_findIdx? {e : Entry K V} {l : List (Entry K V)} {n : Nat}
    (hfind : (l.findIdx? fun old => equiv e.key old.key) = some n) :
    ∃ hn : n < l.length, Meets e l (l.take n) l[n] (l.drop (n + 1)) := by
  obtain ⟨hn, hequiv, hbefore⟩ := List.findIdx?_eq_some_iff_getElem.mp hfind
  refine ⟨hn, ?_, hequiv, fun x hx => ?_⟩
  · rw [← List.drop_eq_getElem_cons hn, List.take_append_drop]
  · obtain ⟨m, hm, rfl⟩ := List.mem_take_iff_getElem.mp hx
    simpa using hbefore m (by omega)

/-- Whether a list is another one with the new entry, which is equivalent to none with its hash, put
behind all entries with this hash. -/
def Adds (e : Entry K V) (l l' : List (Entry K V)) : Prop :=
  ∃ front back, l = front ++ back ∧ l' = front ++ e :: back ∧
    (∀ x ∈ l, HashEquiv.hash x.key = HashEquiv.hash e.key → equiv e.key x.key = false) ∧
    ∀ x ∈ back, HashEquiv.hash x.key ≠ HashEquiv.hash e.key

theorem Meets.routed {e old : Entry K V} {l front back : List (Entry K V)}
    (hm : Meets e l front old back) {h : Nat} {i : Fin 32} (hl : Node.Routed h i l) :
    Node.Routed h i (front ++ { old with value := e.value } :: back) := by
  obtain ⟨rfl, -, -⟩ := hm
  intro x hx
  simp only [Node.Routed, List.mem_append, List.mem_cons] at hl hx
  rcases hx with hx | rfl | hx
  · exact hl x (.inl hx)
  · exact hl old (.inr (.inl rfl))
  · exact hl x (.inr (.inr hx))

/-- A new value leaves the keys as they are. -/
theorem Meets.map_key_eq {e old : Entry K V} {l front back : List (Entry K V)}
    (hm : Meets e l front old back) :
    (front ++ { old with value := e.value } :: back).map Entry.key = l.map Entry.key := by
  rw [hm.split]
  simp only [List.map_append, List.map_cons]

theorem Adds.routed {e : Entry K V} {l l' : List (Entry K V)} (ha : Adds e l l') {h : Nat}
    {i : Fin 32} (hl : Node.Routed h i l) (he : sliceAt h (HashEquiv.hash e.key) = i) :
    Node.Routed h i l' := by
  obtain ⟨front, back, rfl, rfl, -, -⟩ := ha
  intro x hx
  simp only [Node.Routed, List.mem_append, List.mem_cons] at hl hx
  rcases hx with hx | rfl | hx
  · exact hl x (.inl hx)
  · exact he
  · exact hl x (.inr hx)

theorem Adds.length_eq {e : Entry K V} {l l' : List (Entry K V)} (ha : Adds e l l') :
    l'.length = l.length + 1 := by
  obtain ⟨front, back, rfl, rfl, -, -⟩ := ha
  simp only [List.length_append, List.length_cons]
  omega

theorem adds_nil (e : Entry K V) : Adds e [] [e] := ⟨[], [], rfl, rfl, by simp, by simp⟩

section Replacement

variable {h : Nat} {hash : UInt32} {e old y : Entry K V}
  {bucket new front back l l' : List (Entry K V)}

/-- Where one entry of a bucket is replaced, one entry of the list is. -/
theorem Meets.exists_split (hm : Meets e bucket front old back) (hnew : new = front ++ y :: back)
    (hr : ReplacedAt h hash bucket new l l') :
    ∃ before behind, l = before ++ old :: behind ∧ l' = before ++ y :: behind := by
  obtain ⟨before, behind, hl, hl', -, -⟩ := hr
  rw [hm.split] at hl
  rw [hnew] at hl'
  exact ⟨before ++ front, back ++ behind, by simp [hl], by simp [hl']⟩

/-- Where an entry is added to a bucket, it is added to the list. -/
theorem Adds.exists_split (ha : Adds e bucket new) (hr : ReplacedAt h hash bucket new l l') :
    ∃ before behind, l = before ++ behind ∧ l' = before ++ e :: behind := by
  obtain ⟨before, behind, hl, hl', -, -⟩ := hr
  obtain ⟨front, back, hsplit, rfl, -, -⟩ := ha
  rw [hsplit] at hl
  exact ⟨before ++ front, back ++ behind, by simp [hl], by simp [hl']⟩

end Replacement

namespace Node

variable {h : Nat} {hash : UInt32} {e : Entry K V} {node node' : Node K V}

/-- What an insertion owes for each of its outcomes. -/
def Inserts [BEq V] (e : Entry K V) (h : Nat) (node : Node K V) : Insertion (Node K V) → Prop
  | .kept => ∃ front old back,
    Meets e (bucket (HashEquiv.hash e.key) h node) front old back ∧
      ((e.value == old.value) = true ∨ (old.value == e.value) = true)
  | .overwrote node' => node'.WellFormed h ∧
    ReplacedAt h (HashEquiv.hash e.key) (bucket (HashEquiv.hash e.key) h node)
      (bucket (HashEquiv.hash e.key) h node') node.toList node'.toList ∧
    ∃ front old back,
      Meets e (bucket (HashEquiv.hash e.key) h node) front old back ∧
      ((e.value == old.value) = false ∨ (old.value == e.value) = false) ∧
      bucket (HashEquiv.hash e.key) h node' = front ++ { old with value := e.value } :: back
  | .added node' => node'.WellFormed h ∧
    ∃ new, Adds e (bucket (HashEquiv.hash e.key) h node) new ∧
      ReplacedAt h (HashEquiv.hash e.key) (bucket (HashEquiv.hash e.key) h node) new
        node.toList node'.toList

/-! ## Insertion at the end of the way -/

section Ends

variable [BEq V]

theorem insert_collision_of_eq {entries : List (Entry K V)} (h : Nat) :
    insert hash e h (collision hash entries) = .ok (.silent (insertColliding hash entries e)) := by
  cases h <;> rw [insert, if_pos rfl]

theorem insert_collision_of_ne {hash' : UInt32} {entries : List (Entry K V)} (hne : hash ≠ hash')
    (h : Nat) :
    insert hash e h (collision hash' entries) =
      (join hash' (.child (collision hash' entries)) hash (.entry e) h).map
        fun node => .silent (.added node) := by
  cases h <;> rw [insert, if_neg hne] <;> rfl

theorem inserts_insertColliding {entries : List (Entry K V)}
    (hw : (collision (HashEquiv.hash e.key) entries).WellFormed h) :
    Inserts e h (collision (HashEquiv.hash e.key) entries)
      (insertColliding (HashEquiv.hash e.key) entries e) := by
  obtain ⟨hh, hne, hhash⟩ := hw.collision_parts
  unfold insertColliding
  cases hfind : entries.findIdx? fun old => equiv e.key old.key with
  | none =>
    have hfresh := List.findIdx?_eq_none_iff.mp hfind
    refine ⟨wellFormed_collision.mpr ⟨hh, by simp, fun x hx => ?_⟩, entries ++ [e], ?_, ?_⟩
    · rcases List.mem_append.mp hx with hx | hx
      · exact hhash x hx
      · rw [List.mem_singleton.mp hx]
    · rw [bucket_collision]
      exact ⟨entries, [], by simp, rfl, fun x hx _ => hfresh x hx, by simp⟩
    · rw [bucket_collision]
      exact ReplacedAt.whole ..
  | some n =>
    obtain ⟨hn, hmeets⟩ := exists_meets_of_findIdx? hfind
    simp only [List.getElem?_eq_getElem hn]
    split
    · next heq =>
      simp only [Inserts, bucket_collision]
      exact ⟨_, _, _, hmeets, .inr heq⟩
    · next hneq =>
      have hset : entries.set n { entries[n] with value := e.value } =
          entries.take n ++ { entries[n] with value := e.value } :: entries.drop (n + 1) :=
        List.set_eq_take_append_cons_drop.trans (if_pos hn)
      refine ⟨wellFormed_collision.mpr ⟨hh, by simpa using hne, fun x hx => ?_⟩, ?_, ?_⟩
      · rcases List.mem_or_eq_of_mem_set hx with hx | rfl
        · exact hhash x hx
        · exact hhash entries[n] (List.getElem_mem hn)
      · simp only [bucket_collision, toList]
        exact ReplacedAt.whole ..
      · simp only [bucket_collision, hset]
        exact ⟨_, _, _, hmeets, .inr (by simpa using hneq), rfl⟩

/-- A collision node with another hash is put beside the new entry. -/
theorem exists_insert_collision_eq {hash' : UInt32} {entries : List (Entry K V)}
    (hw : (collision hash' entries).WellFormed h) (hne : HashEquiv.hash e.key ≠ hash')
    (hab : Agree h hash' (HashEquiv.hash e.key)) :
    ∃ outcome events,
      insert (HashEquiv.hash e.key) e h (collision hash' entries) = .ok ⟨outcome, events⟩ ∧
      Inserts e h (collision hash' entries) outcome := by
  obtain ⟨hh, -, hhash⟩ := hw.collision_parts
  obtain ⟨node, hjoin, hw', hlist⟩ := exists_join_eq (carries_collision hw) (carries_entry e) hab
    hne.symm (le_of_lt hh)
  refine ⟨.added node, [], by rw [insert_collision_of_ne hne, hjoin]; rfl, hw', node.toList, ?_, ?_⟩
  · rw [bucket_collision]
    have hother : ∀ x ∈ entries, HashEquiv.hash x.key ≠ HashEquiv.hash e.key := by
      intro x hx
      rw [hhash x hx]
      exact hne.symm
    rcases hlist with hlist | hlist
    · exact ⟨entries, [], by simp, hlist, fun x hx heq => absurd heq (hother x hx), by simp⟩
    · exact ⟨[], entries, rfl, hlist, fun x hx heq => absurd heq (hother x hx), hother⟩
  · rw [bucket_collision]
    exact ReplacedAt.whole ..

/-- At a free slice the new entry gets a slot of its own. -/
theorem exists_insert_free_eq (hw : node.WellFormed (h + 1)) (hb : node.Branches)
    (hs : node.slotAt (sliceAt (h + 1) (HashEquiv.hash e.key)) = none) :
    ∃ node' events s, insert (HashEquiv.hash e.key) e (h + 1) node = .ok ⟨.added node', events⟩ ∧
      ChangedAt h (sliceAt (h + 1) (HashEquiv.hash e.key)) (some s) node node' ∧
      s.toList = [e] := by
  cases node with
  | bitmap occupied slots =>
    have hi := hw.has_eq_isSome (sliceAt (h + 1) (HashEquiv.hash e.key))
    rw [hs] at hi
    unfold insert
    simp only [hi, Option.isSome_none, Bool.false_eq_true, if_false]
    by_cases hfull : slots.length ≥ maxSlots
    · rw [if_pos hfull]
      cases h with
      | zero =>
        have := hw.length_lt_maxSlots
        omega
      | succ h =>
        have hmin : minChildren < slots.length := lt_of_lt_of_le (by decide) hfull
        refine ⟨_, _, _, rfl, changedAt_promote hw hmin e rfl hi, ?_⟩
        rw [Slot.toList_child, toList_leaf]
    · have hle : occupied.rank (sliceAt (h + 1) (HashEquiv.hash e.key)) ≤ slots.length := by
        rw [hw.length_slots]
        exact Bitmap.rank_le_popCount ..
      rw [if_neg hfull, if_pos hle]
      exact ⟨_, [], .entry e, rfl, changedAt_insert_slot hw hi (by omega) rfl, rfl⟩
  | array count children =>
    have hget := hw.getElem?_eq_of_slotAt_eq_none hs
    obtain ⟨hh, hpos, -, hmin, -⟩ := hw.array_parts
    unfold insert
    simp only [hget]
    cases h with
    | zero => omega
    | succ h =>
      refine ⟨_, [], .child (leaf (sliceAt (h + 1) (HashEquiv.hash e.key)) e), rfl, ?_,
        by rw [Slot.toList_child, toList_leaf]⟩
      refine changedAt_set_child hw (some _) (by omega) (by rw [hs]; rfl) fun n hn => ?_
      obtain rfl := Option.some.inj hn
      refine ⟨wellFormed_leaf (by omega) e, ?_⟩
      rw [toList_leaf]
      exact List.forall_mem_singleton.mpr rfl
  | collision => exact absurd hb id

section Entry

variable {occupied : Bitmap} {slots : List (Slot K V (Node K V))} {old : Entry K V}

/-- The value of an entry with an equivalent key is overwritten at its slice. -/
theorem inserts_set_entry (hw : (bitmap occupied slots).WellFormed (h + 1))
    (hs : (bitmap occupied slots).slotAt (sliceAt (h + 1) (HashEquiv.hash e.key)) =
      some (.entry old))
    (hequiv : equiv e.key old.key = true) (hne : (e.value == old.value) = false) :
    Inserts e (h + 1) (bitmap occupied slots)
      (.overwrote (bitmap occupied
        (slots.set (occupied.rank (sliceAt (h + 1) (HashEquiv.hash e.key)))
          (.entry { old with value := e.value })))) := by
  have hold : sliceAt (h + 1) (HashEquiv.hash old.key) = sliceAt (h + 1) (HashEquiv.hash e.key) :=
    hw.fits hs
  have hc := changedAt_set_slot (s := .entry { old with value := e.value }) hw
    (slotAt_bitmap_eq_some.mp hs).1 hold
  have hb : (bitmap occupied slots).Branches := trivial
  refine ⟨hc.wellFormed, ?_⟩
  rw [bucket_of_entry hb hs, bucket_of_entry hc.branches hc.slotAt_eq]
  refine ⟨hc.replacedAt hw hb ?_, [], old, [], ⟨rfl, hequiv, by simp⟩, .inl hne, rfl⟩
  rw [hs]
  exact ReplacedAt.whole ..

/-- An entry whose key is not equivalent makes room for a node of both entries. -/
theorem inserts_set_pair (hw : (bitmap occupied slots).WellFormed (h + 1))
    (hs : (bitmap occupied slots).slotAt (sliceAt (h + 1) (HashEquiv.hash e.key)) =
      some (.entry old))
    (hequiv : equiv e.key old.key = false) {both : Node K V} (hboth : both.WellFormed h)
    (hlist : both.toList = [old, e] ∨
      HashEquiv.hash old.key ≠ HashEquiv.hash e.key ∧ both.toList = [e, old]) :
    Inserts e (h + 1) (bitmap occupied slots)
      (.added (bitmap occupied
        (slots.set (occupied.rank (sliceAt (h + 1) (HashEquiv.hash e.key))) (.child both)))) := by
  have hrouted : Routed (h + 1) (sliceAt (h + 1) (HashEquiv.hash e.key)) both.toList := by
    intro x hx
    have hmem : x = old ∨ x = e := by
      rcases hlist with hlist | ⟨-, hlist⟩ <;> simpa [hlist, or_comm] using hx
    rcases hmem with rfl | rfl
    · exact hw.fits hs
    · rfl
  have hc := changedAt_set_slot (s := .child both) hw (slotAt_bitmap_eq_some.mp hs).1
    ⟨hboth, hrouted⟩
  have hb : (bitmap occupied slots).Branches := trivial
  refine ⟨hc.wellFormed, both.toList, ?_, ?_⟩
  · rw [bucket_of_entry hb hs]
    rcases hlist with hlist | ⟨hne, hlist⟩
    · exact ⟨[old], [], rfl, hlist, by simpa using fun _ => hequiv, by simp⟩
    · exact ⟨[], [old], rfl, hlist, by simpa using fun _ => hequiv, by simpa using hne⟩
  · rw [bucket_of_entry hb hs]
    refine hc.replacedAt hw hb ?_
    rw [hs]
    exact ReplacedAt.whole ..

end Entry

/-- An entry at the slice is asked whether the new key is equivalent, whatever its hash. -/
theorem exists_insert_entry_eq (hw : node.WellFormed (h + 1)) (hb : node.Branches)
    {old : Entry K V}
    (hs : node.slotAt (sliceAt (h + 1) (HashEquiv.hash e.key)) = some (.entry old))
    (hab : Agree (h + 1) (HashEquiv.hash old.key) (HashEquiv.hash e.key)) :
    ∃ outcome events,
      insert (HashEquiv.hash e.key) e (h + 1) node = .ok ⟨outcome, events⟩ ∧
      Inserts e (h + 1) node outcome := by
  cases node with
  | bitmap occupied slots =>
    obtain ⟨hi, hget⟩ := slotAt_bitmap_eq_some.mp hs
    unfold insert
    simp only [hi, hget, if_true]
    cases hequiv : equiv e.key old.key with
    | true =>
      rw [if_pos rfl]
      cases heq : e.value == old.value with
      | true =>
        refine ⟨.kept, [], rfl, [], old, [], ?_, .inl heq⟩
        rw [bucket_of_entry hb hs]
        exact ⟨rfl, hequiv, by simp⟩
      | false => exact ⟨_, [], rfl, inserts_set_entry hw hs hequiv heq⟩
    | false =>
      have hold : sliceAt (h + 1) (HashEquiv.hash old.key) =
          sliceAt (h + 1) (HashEquiv.hash e.key) := hw.fits hs
      obtain ⟨both, events, hpair, hboth, hlist⟩ := exists_pair_eq (hab.step hold) rfl
        (lt_of_lt_of_le (Nat.lt_succ_self h) hw.height_le)
      rw [if_neg Bool.false_ne_true, hpair]
      exact ⟨_, events, rfl, inserts_set_pair hw hs hequiv hboth hlist⟩
  | array count children =>
    obtain ⟨n, -, hn⟩ := slotAt_array_eq_some.mp hs
    cases hn
  | collision => exact absurd hb id

end Ends

/-! ## Insertion along the way -/

variable [BEq V]

/-- An insertion in a branching node goes on at the child of its slice. -/
theorem insert_child (hb : node.Branches) {child : Node K V}
    (hs : node.slotAt (sliceAt (h + 1) hash) = some (.child child)) :
    insert hash e (h + 1) node = (insert hash e h child).map
      (Traced.map (Insertion.map (node.withChild (sliceAt (h + 1) hash)))) := by
  cases node with
  | bitmap occupied slots =>
    obtain ⟨hi, hget⟩ := slotAt_bitmap_eq_some.mp hs
    conv_lhs => unfold insert
    simp only [hi, hget, if_true]
    cases insert hash e h child <;> rfl
  | array count children =>
    obtain ⟨n, hget, hn⟩ := slotAt_array_eq_some.mp hs
    obtain rfl := Slot.child.inj hn
    conv_lhs => unfold insert
    simp only [hget]
    cases insert hash e h child <;> rfl
  | collision => exact absurd hb id

/-- What an insertion below a child owes is what it owes in the node. -/
theorem Inserts.of_child (hw : node.WellFormed (h + 1)) (hb : node.Branches) {child : Node K V}
    (hs : node.slotAt (sliceAt (h + 1) (HashEquiv.hash e.key)) = some (.child child))
    {outcome : Insertion (Node K V)} (hi : Inserts e h child outcome) :
    Inserts e (h + 1) node
      (outcome.map (node.withChild (sliceAt (h + 1) (HashEquiv.hash e.key)))) := by
  have hbucket := bucket_of_child hb hs
  have hold : Routed (h + 1) (sliceAt (h + 1) (HashEquiv.hash e.key)) child.toList := (hw.fits hs).2
  cases outcome with
  | kept =>
    rw [Insertion.map, Inserts, hbucket]
    exact hi
  | overwrote child' =>
    obtain ⟨hw', hreplaced, front, old, back, hmeets, hne, hnew⟩ := hi
    have hrouted := hreplaced.routed hold fun hbucket => hnew ▸ hmeets.routed hbucket
    have hc := changedAt_withChild hw hs ⟨hw', hrouted⟩
    have hbucket' := bucket_of_child hc.branches hc.slotAt_eq
    refine ⟨hc.wellFormed, ?_, front, old, back, hbucket ▸ hmeets, hne, hbucket'.trans hnew⟩
    rw [hbucket, hbucket']
    exact hc.replacedAt hw hb (by rwa [hs])
  | added child' =>
    obtain ⟨hw', new, hadds, hreplaced⟩ := hi
    have hrouted := hreplaced.routed hold fun hbucket => hadds.routed hbucket rfl
    have hc := changedAt_withChild hw hs ⟨hw', hrouted⟩
    refine ⟨hc.wellFormed, new, hbucket ▸ hadds, ?_⟩
    rw [hbucket]
    exact hc.replacedAt hw hb (by rwa [hs])

/-- **An insertion into a well-formed node meets no fault.** It needs the entries of the node to
have the slices by which the hash came here. -/
theorem exists_insert_eq (hw : node.WellFormed h)
    (hab : ∀ x ∈ node.toList, Agree h (HashEquiv.hash x.key) (HashEquiv.hash e.key)) :
    ∃ outcome events, insert (HashEquiv.hash e.key) e h node = .ok ⟨outcome, events⟩ ∧
      Inserts e h node outcome := by
  induction hw using WellFormed.walk (HashEquiv.hash e.key) with
  | collision h hash' entries hw =>
    by_cases hone : HashEquiv.hash e.key = hash'
    · subst hone
      exact ⟨_, [], insert_collision_of_eq h, inserts_insertColliding hw⟩
    · obtain ⟨x, hx⟩ := List.exists_mem_of_ne_nil _ hw.toList_ne_nil
      exact exists_insert_collision_eq hw hone (hw.hash_eq x hx ▸ hab x hx)
  | free h node hw hb hs =>
    obtain ⟨node', events, s, hinsert, hc, hlist⟩ := exists_insert_free_eq (e := e) hw hb hs
    refine ⟨.added node', events, hinsert, hc.wellFormed, [e], ?_, ?_⟩
    · rw [bucket_of_free hb hs]
      exact adds_nil e
    · rw [bucket_of_free hb hs]
      refine hc.replacedAt hw hb ?_
      rw [hs, entriesOf_some, hlist]
      exact ReplacedAt.whole ..
  | entry h node old hw hb hs =>
    exact exists_insert_entry_eq hw hb hs (hab old (hw.mem_toList_of_slotAt hb hs (by simp)))
  | child h node child hw hb hs ih =>
    have hab' : ∀ x ∈ child.toList, Agree h (HashEquiv.hash x.key) (HashEquiv.hash e.key) :=
      fun x hx => (hab x (hw.mem_toList_of_slotAt hb hs hx)).step ((hw.fits hs).2 x hx)
    obtain ⟨outcome, events, hinsert, hi⟩ := ih hab'
    exact ⟨_, events, by rw [insert_child hb hs, hinsert]; rfl, hi.of_child hw hb hs⟩

end Node

end HashTrie
