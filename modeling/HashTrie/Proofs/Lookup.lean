import HashTrie.Proofs.Edits
import HashTrie.Trie.Find

/-!
# Where a hash leads

Every operation walks down a trie by the slices of one hash and ends at an empty place, at a single
entry or at a collision node. The entries it meets there are the `bucket` of the hash. They all have
one hash, which need not be the hash that was followed.

In the list of a well-formed trie the bucket is a run of neighbours; the entries before it come
before the followed hash in the order of the slices, and the entries behind it come after.
`ReplacedAt` says this together with what an update puts in place of the bucket. So the bucket holds
every entry with the followed hash (`ReplacedAt.withHash_eq`), and a lookup is a search through the
bucket (`find_eq_find?_bucket`).
-/

namespace HashTrie

variable {K V : Type} [HashEquiv K]

/-! ## Replacing entries where a hash leads -/

/-- Whether a list is another one with the entries `old`, which stand where a hash leads, replaced
by `new`. -/
def ReplacedAt (h : Nat) (hash : UInt32) (old new l l' : List (Entry K V)) : Prop :=
  ∃ before behind, l = before ++ old ++ behind ∧ l' = before ++ new ++ behind ∧
    (∀ x ∈ before, slicesBelow h (HashEquiv.hash x.key) < slicesBelow h hash) ∧
    ∀ x ∈ behind, slicesBelow h hash < slicesBelow h (HashEquiv.hash x.key)

variable {h : Nat} {hash : UInt32} {old new : List (Entry K V)}

theorem ReplacedAt.whole (h : Nat) (hash : UInt32) (old new : List (Entry K V)) :
    ReplacedAt h hash old new old new :=
  ⟨[], [], by simp, by simp, by simp, by simp⟩

/-- **A replacement below one slice is a replacement in the node.** The slices below and above keep
their entries, and these come before and after the hash. -/
theorem ReplacedAt.flatMap {f f' : Fin 32 → List (Entry K V)} {i : Fin 32}
    (hi : sliceAt (h + 1) hash = i) (hf : ∀ j, Node.Routed (h + 1) j (f j))
    (hoff : ∀ j, j ≠ i → f' j = f j) (hr : ReplacedAt h hash old new (f i) (f' i)) :
    ReplacedAt (h + 1) hash old new ((List.finRange 32).flatMap f)
      ((List.finRange 32).flatMap f') := by
  obtain ⟨before, behind, hfi, hfi', hbefore, hbehind⟩ := hr
  have hlow : (lowerSlices i).flatMap f' = (lowerSlices i).flatMap f :=
    List.flatMap_congr fun j hj => hoff j (ne_of_lt (mem_lowerSlices.mp hj))
  have hup : (upperSlices i).flatMap f' = (upperSlices i).flatMap f :=
    List.flatMap_congr fun j hj => hoff j (ne_of_gt (mem_upperSlices.mp hj))
  refine ⟨(lowerSlices i).flatMap f ++ before, behind ++ (upperSlices i).flatMap f, ?_, ?_,
    fun x hx => ?_, fun x hx => ?_⟩
  · rw [finRange_eq_lower_upper i, List.flatMap_append, List.flatMap_cons, hfi]
    simp only [List.append_assoc]
  · rw [finRange_eq_lower_upper i, List.flatMap_append, List.flatMap_cons, hfi', hlow, hup]
    simp only [List.append_assoc]
  · rw [slicesBelow_succ_lt_iff, hi]
    rcases List.mem_append.mp hx with hx | hx
    · obtain ⟨j, hj, hxj⟩ := List.mem_flatMap.mp hx
      exact .inl (hf j x hxj ▸ mem_lowerSlices.mp hj)
    · exact .inr ⟨hf i x (by rw [hfi]; simp [hx]), hbefore x hx⟩
  · rw [slicesBelow_succ_lt_iff, hi]
    rcases List.mem_append.mp hx with hx | hx
    · exact .inr ⟨(hf i x (by rw [hfi]; simp [hx])).symm, hbehind x hx⟩
    · obtain ⟨j, hj, hxj⟩ := List.mem_flatMap.mp hx
      exact .inl (hf j x hxj ▸ mem_upperSlices.mp hj)

theorem ReplacedAt.length_add {l l' : List (Entry K V)} (hr : ReplacedAt h hash old new l l') :
    l'.length + old.length = l.length + new.length := by
  obtain ⟨before, behind, rfl, rfl, -, -⟩ := hr
  simp only [List.length_append]
  omega

theorem ReplacedAt.map_key_eq {l l' : List (Entry K V)} (hr : ReplacedAt h hash old new l l')
    (hkeys : new.map Entry.key = old.map Entry.key) : l'.map Entry.key = l.map Entry.key := by
  obtain ⟨before, behind, rfl, rfl, -, -⟩ := hr
  simp only [List.map_append, hkeys]

/-- A list without one entry is shorter by one. -/
theorem ReplacedAt.length_of_eraseP {l l' : List (Entry K V)} {p : Entry K V → Bool}
    (hr : ReplacedAt h hash old (old.eraseP p) l l') (hp : ∃ x ∈ old, p x = true) :
    l'.length + 1 = l.length := by
  obtain ⟨x, hx, hpx⟩ := hp
  have hadd := hr.length_add
  have herase := List.length_eraseP_of_mem hx hpx
  have hpos := List.length_pos_of_mem hx
  omega

theorem ReplacedAt.symm {l l' : List (Entry K V)} (hr : ReplacedAt h hash old new l l') :
    ReplacedAt h hash new old l' l := by
  obtain ⟨before, behind, hl, hl', hbefore, hbehind⟩ := hr
  exact ⟨before, behind, hl', hl, hbefore, hbehind⟩

/-- The entries of a list whose keys have one hash, in their order. -/
def withHash (hash : UInt32) (l : List (Entry K V)) : List (Entry K V) :=
  l.filter fun x => HashEquiv.hash x.key == hash

theorem mem_withHash {l : List (Entry K V)} {x : Entry K V} :
    x ∈ withHash hash l ↔ x ∈ l ∧ HashEquiv.hash x.key = hash := by
  simp [withHash]

theorem withHash_append (l l' : List (Entry K V)) :
    withHash hash (l ++ l') = withHash hash l ++ withHash hash l' :=
  List.filter_append ..

theorem withHash_cons_of_eq {x : Entry K V} (hc : HashEquiv.hash x.key = hash)
    (l : List (Entry K V)) : withHash hash (x :: l) = x :: withHash hash l := by
  simp [withHash, hc]

theorem withHash_cons_of_ne {x : Entry K V} (hc : HashEquiv.hash x.key ≠ hash)
    (l : List (Entry K V)) : withHash hash (x :: l) = withHash hash l := by
  simp [withHash, hc]

theorem withHash_eq_nil {l : List (Entry K V)} (hl : ∀ x ∈ l, HashEquiv.hash x.key ≠ hash) :
    withHash hash l = [] := by
  rw [withHash, List.filter_eq_nil_iff]
  intro x hx
  simpa using hl x hx

/-- The entries with the followed hash are among those put in. -/
theorem ReplacedAt.withHash_eq {l l' : List (Entry K V)} (hr : ReplacedAt h hash old new l l') :
    withHash hash l' = withHash hash new := by
  obtain ⟨before, behind, -, rfl, hbefore, hbehind⟩ := hr
  have hnil : withHash hash before = [] := withHash_eq_nil fun x hx heq => by
    have := hbefore x hx
    simp [heq] at this
  have hnil' : withHash hash behind = [] := withHash_eq_nil fun x hx heq => by
    have := hbehind x hx
    simp [heq] at this
  rw [withHash_append, withHash_append, hnil, hnil', List.nil_append, List.append_nil]

/-- A replacement by entries of the same slice keeps the slice. -/
theorem ReplacedAt.routed {l l' : List (Entry K V)} (hr : ReplacedAt h hash old new l l') {k : Nat}
    {i : Fin 32} (hl : Node.Routed k i l) (hnew : Node.Routed k i old → Node.Routed k i new) :
    Node.Routed k i l' := by
  obtain ⟨before, behind, rfl, rfl, -, -⟩ := hr
  intro x hx
  simp only [Node.Routed, List.mem_append] at hl hx
  rcases hx with (hx | hx) | hx
  · exact hl x (.inl (.inl hx))
  · exact hnew (fun y hy => hl y (.inl (.inr hy))) x hx
  · exact hl x (.inr hx)

namespace Node

variable {node : Node K V}

/-! ## Buckets -/

/-- The entries at the end of the way of a hash. -/
def bucket {K V : Type} (hash : UInt32) : Nat → Node K V → List (Entry K V)
  | _, .collision _ entries => entries
  | 0, _ => []
  | h + 1, node =>
    match node.slotAt (sliceAt (h + 1) hash) with
    | none => []
    | some (.entry e) => [e]
    | some (.child child) => bucket hash h child

/-- The entries at the end of the way of a hash that goes through a slot. -/
def bucketOf {K V : Type} (hash : UInt32) (h : Nat) :
    Option (Slot K V (Node K V)) → List (Entry K V)
  | none => []
  | some (.entry e) => [e]
  | some (.child child) => bucket hash h child

omit [HashEquiv K] in
theorem bucket_succ (hash : UInt32) (h : Nat) (hb : node.Branches) :
    bucket hash (h + 1) node = bucketOf hash h (node.slotAt (sliceAt (h + 1) hash)) := by
  cases node with
  | bitmap => rfl
  | array => rfl
  | collision => exact absurd hb id

section

variable (hb : node.Branches)

include hb

omit [HashEquiv K] in
theorem bucket_of_free (hs : node.slotAt (sliceAt (h + 1) hash) = none) :
    bucket hash (h + 1) node = [] := by
  rw [bucket_succ _ _ hb, hs, bucketOf]

omit [HashEquiv K] in
theorem bucket_of_entry {e : Entry K V}
    (hs : node.slotAt (sliceAt (h + 1) hash) = some (.entry e)) :
    bucket hash (h + 1) node = [e] := by
  rw [bucket_succ _ _ hb, hs, bucketOf]

omit [HashEquiv K] in
theorem bucket_of_child {child : Node K V}
    (hs : node.slotAt (sliceAt (h + 1) hash) = some (.child child)) :
    bucket hash (h + 1) node = bucket hash h child := by
  rw [bucket_succ _ _ hb, hs, bucketOf]

end

omit [HashEquiv K] in
@[simp] theorem bucket_collision (hash hash' : UInt32) (h : Nat) (entries : List (Entry K V)) :
    bucket hash h (.collision hash' entries) = entries := by
  cases h <;> rfl

/-- A replacement below the followed slice is a replacement in the node. -/
theorem replacedAt_flatMap (hw : node.WellFormed (h + 1)) (hb : node.Branches)
    {f' : Fin 32 → List (Entry K V)}
    (hoff : ∀ j, j ≠ sliceAt (h + 1) hash → f' j = node.entriesAt j)
    (hr : ReplacedAt h hash old new (entriesOf (node.slotAt (sliceAt (h + 1) hash)))
      (f' (sliceAt (h + 1) hash))) :
    ReplacedAt (h + 1) hash old new node.toList ((List.finRange 32).flatMap f') := by
  rw [hw.toList_eq hb]
  exact ReplacedAt.flatMap rfl hw.routed_entriesAt hoff hr

/-- A change at the followed slice only is a replacement in the node. -/
theorem ChangedAt.replacedAt {node' : Node K V} {slot? : Option (Slot K V (Node K V))}
    (hc : ChangedAt h (sliceAt (h + 1) hash) slot? node node') (hw : node.WellFormed (h + 1))
    (hb : node.Branches)
    (hr : ReplacedAt h hash old new (entriesOf (node.slotAt (sliceAt (h + 1) hash)))
      (entriesOf slot?)) :
    ReplacedAt (h + 1) hash old new node.toList node'.toList := by
  rw [hc.wellFormed.toList_eq hc.branches]
  refine replacedAt_flatMap hw hb hc.entriesAt_eq ?_
  rwa [entriesAt, hc.slotAt_eq]

/-- The bucket of a hash is a run of neighbours that the hash splits the other entries around. -/
theorem replacedAt_bucket (hw : node.WellFormed h) (hash : UInt32) :
    ReplacedAt h hash (bucket hash h node) (bucket hash h node) node.toList node.toList := by
  have below {h : Nat} {node : Node K V} {old : List (Entry K V)} (hw : node.WellFormed (h + 1))
      (hb : node.Branches)
      (hr : ReplacedAt h hash old old (entriesOf (node.slotAt (sliceAt (h + 1) hash)))
        (entriesOf (node.slotAt (sliceAt (h + 1) hash)))) :
      ReplacedAt (h + 1) hash old old node.toList node.toList := by
    conv_rhs => rw [hw.toList_eq hb]
    exact replacedAt_flatMap hw hb (fun _ _ => rfl) hr
  induction hw using WellFormed.walk hash with
  | collision h hash' entries =>
    rw [bucket_collision]
    exact ReplacedAt.whole h hash entries entries
  | free h node hw hb hs =>
    rw [bucket_of_free hb hs]
    exact below hw hb (by rw [hs]; exact ReplacedAt.whole ..)
  | entry h node e hw hb hs =>
    rw [bucket_of_entry hb hs]
    exact below hw hb (by rw [hs]; exact ReplacedAt.whole ..)
  | child h node child hw hb hs ih =>
    rw [bucket_of_child hb hs]
    exact below hw hb (by rw [hs]; exact ih)

/-- **The keys of a bucket have one hash.** -/
theorem exists_hash_bucket (hw : node.WellFormed h) (hash : UInt32) :
    ∃ c, ∀ x ∈ bucket hash h node, HashEquiv.hash x.key = c := by
  induction hw using WellFormed.walk hash with
  | collision h hash' entries hw =>
    rw [bucket_collision]
    exact ⟨hash', hw.hash_eq⟩
  | free h node hw hb hs => exact ⟨0, by simp [bucket_of_free hb hs]⟩
  | entry h node e hw hb hs => exact ⟨HashEquiv.hash e.key, by simp [bucket_of_entry hb hs]⟩
  | child h node child hw hb hs ih => rwa [bucket_of_child hb hs]

/-! ## Lookup -/

/-- A lookup in a branching node goes on at the slot of its slice. -/
theorem find_succ (probe : Probe K) (hw : node.WellFormed (h + 1)) (hb : node.Branches) :
    find probe (h + 1) node =
      match node.slotAt (sliceAt (h + 1) probe.hash) with
      | none => .ok none
      | some (.entry e) => .ok (if probe.accepts e.key then some e else none)
      | some (.child child) => find probe h child := by
  cases node with
  | bitmap occupied slots =>
    have hi := hw.has_eq_isSome (sliceAt (h + 1) probe.hash)
    cases hs : (bitmap occupied slots).slotAt (sliceAt (h + 1) probe.hash) with
    | none => simp [find, hi, hs]
    | some s =>
      have hget := (slotAt_bitmap_eq_some.mp hs).2
      cases s <;> simp [find, hi, hs, hget]
  | array count children =>
    cases hs : (array count children).slotAt (sliceAt (h + 1) probe.hash) with
    | none => simp [find, hw.getElem?_eq_of_slotAt_eq_none hs]
    | some s =>
      obtain ⟨n, hget, rfl⟩ := slotAt_array_eq_some.mp hs
      simp [find, hget]
  | collision => exact absurd hb id

/-- **A lookup searches through the bucket of the probe's hash, and meets no fault.** -/
theorem find_eq_find?_bucket (probe : Probe K) (hw : node.WellFormed h) :
    find probe h node = .ok ((bucket probe.hash h node).find? fun e => probe.accepts e.key) := by
  induction hw using WellFormed.walk probe.hash with
  | collision h hash entries => cases h <;> rw [find, bucket_collision]
  | free h node hw hb hs =>
    rw [find_succ probe hw hb, bucket_of_free hb hs, hs]
    rfl
  | entry h node e hw hb hs =>
    rw [find_succ probe hw hb, bucket_of_entry hb hs, hs]
    cases hacc : probe.accepts e.key <;> simp [hacc]
  | child h node child hw hb hs ih =>
    rw [find_succ probe hw hb, bucket_of_child hb hs, hs]
    exact ih

end Node

end HashTrie
