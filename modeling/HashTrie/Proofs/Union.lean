import HashTrie.Proofs.Extensionality
import HashTrie.Proofs.Sequences
import HashTrie.Proofs.Sessions

/-!
# Maps united with others

Adding the entries of one map to another one makes their union, in which the added entries have
their way (`adjoinsUnion_of_population`): a key of an added entry is bound to what equals its value
there, any other key to what it was bound to, and a key that both have stays in the form in which it
was stored. The order in which the entries are added plays no part, since no two of their keys are
equivalent. The entries of a sequence are those of its map from some place on.

One insertion binds one key (`Binds`), so a lookup afterwards finds what a lookup before and a lookup
in the one entry find, taken together. Along a list of entries with distinct keys this adds up to a
lookup in the list (`Map.Keyed.find?_insertAll`).
-/

namespace HashTrie

variable {K V : Type} [BEq V]

/-- A stored entry, when another one with an equivalent key is inserted: its key stays, and so does
a value that equals the other one. -/
def Entry.rebound (old e : Entry K V) : Entry K V :=
  { old with value := if e.value == old.value then old.value else e.value }

@[simp] theorem Entry.key_rebound (old e : Entry K V) : (old.rebound e).key = old.key := rfl

variable [HashEquiv K]

/-- What an insertion makes of a list of entries: the entry with an equivalent key is bound anew, or
there is none, and the new entry is put in. -/
inductive Binds (e : Entry K V) : List (Entry K V) → List (Entry K V) → Prop where
  | rebound (before behind : List (Entry K V)) {old : Entry K V} : equiv e.key old.key = true →
    Binds e (before ++ old :: behind) (before ++ old.rebound e :: behind)
  | added (before behind : List (Entry K V)) :
    (∀ x ∈ before ++ behind, equiv e.key x.key = false) →
    Binds e (before ++ behind) (before ++ e :: behind)

variable {S : Set K} {T : Set V} {e : Entry K V} {l l' : List (Entry K V)} {q : K}

/-! ## Binding one key -/

omit [BEq V] in
/-- A key that is equivalent to one without an entry has no entry either. -/
theorem find?_eq_none_of_equiv (hS : PartialEquivOn S equiv) (hl : DrawnFrom S T l) {k : K}
    (hk : k ∈ S) (hfresh : ∀ x ∈ l, equiv k x.key = false) (hq : q ∈ S) (hqk : equiv q k = true) :
    l.find? (fun x => equiv q x.key) = none := by
  refine List.find?_eq_none.mpr fun x hx hqx => ?_
  have hkx := hS.trans hk hq (hl x hx).1 (hS.symm hq hk hqk) hqx
  rw [hfresh x hx] at hkx
  cases hkx

namespace Binds

theorem drawnFrom (h : Binds e l l') (he : e.key ∈ S ∧ e.value ∈ T) (hl : DrawnFrom S T l) :
    DrawnFrom S T l' := by
  unfold DrawnFrom at *
  cases h with
  | @rebound before behind old hequiv =>
    simp only [List.forall_mem_append, List.forall_mem_cons] at hl ⊢
    obtain ⟨hbefore, hold, hbehind⟩ := hl
    refine ⟨hbefore, ⟨hold.1, ?_⟩, hbehind⟩
    rw [Entry.rebound]
    split
    · exact hold.2
    · exact he.2
  | added before behind hfresh =>
    simp only [List.forall_mem_append, List.forall_mem_cons] at hl ⊢
    exact ⟨hl.1, he, hl.2⟩

/-- **After an insertion a lookup finds what it found before together with what it finds in the new
entry.** -/
theorem find?_eq (h : Binds e l l') (hS : PartialEquivOn S equiv) (he : e.key ∈ S)
    (hl : DrawnFrom S T l) (hl' : DrawnFrom S T l') (hd : DistinctKeys l) (hd' : DistinctKeys l')
    (hq : q ∈ S) :
    l'.find? (fun x => equiv q x.key) =
      Option.merge Entry.rebound (l.find? fun x => equiv q x.key)
        ([e].find? fun x => equiv q x.key) := by
  have hfind := fun y => hd.find?_eq_some_iff hS hl hq (y := y)
  have hfind' := fun y => hd'.find?_eq_some_iff hS hl' hq (y := y)
  cases h with
  | @rebound before behind old hequiv =>
    have hold := (hl old (by simp)).1
    cases hqe : equiv q e.key with
    | true =>
      have hqold := hS.trans hq he hold hqe hequiv
      rw [(hfind old).mpr ⟨by simp, hqold⟩, (hfind' (old.rebound e)).mpr ⟨by simp, hqold⟩]
      simp [hqe]
    | false =>
      have hqold : equiv q old.key = false := by
        by_contra hqold
        rw [hS.trans hq hold he (by simpa using hqold) (hS.symm he hold hequiv)] at hqe
        cases hqe
      simp [List.find?_append, hqe, hqold]
  | added before behind hfresh =>
    cases hqe : equiv q e.key with
    | true =>
      rw [find?_eq_none_of_equiv hS hl he hfresh hq hqe, (hfind' e).mpr ⟨by simp, hqe⟩]
      simp [hqe]
    | false => simp [List.find?_append, hqe]

/-- The list grows by one entry when no entry has an equivalent key. -/
theorem length_eq (h : Binds e l l') :
    l'.length = l.length + if (l.find? fun x => equiv e.key x.key).isSome then 0 else 1 := by
  cases h with
  | @rebound before behind old hequiv =>
    have hsome : ((before ++ old :: behind).find? fun x => equiv e.key x.key).isSome = true :=
      List.find?_isSome.mpr ⟨old, by simp, hequiv⟩
    rw [if_pos hsome, List.length_append, List.length_append]
    rfl
  | added before behind hfresh =>
    have hnone : (before ++ behind).find? (fun x => equiv e.key x.key) = none :=
      List.find?_eq_none.mpr fun x hx => by simp [hfresh x hx]
    simp only [hnone, List.length_append, List.length_cons]
    rfl

end Binds

/-! ## Maps with distinct keys -/

namespace Map

variable {m m' : Map K V} {es : List (Entry K V)} (hS : Contract S)

include hS

variable (hT : EquivOn T fun v w => v == w)

include hT

theorem Keyed.binds_of_inserted (hm : m.Keyed S T) (he : e.key ∈ S ∧ e.value ∈ T)
    (hi : Inserted e m m') : Binds e m.toList m'.toList := by
  cases hi with
  | @kept _ _ old hmeets hsame =>
    obtain ⟨before, behind, hl, -⟩ :=
      hmeets.exists_split hmeets.split (hm.wellFormed.replacedAt_bucket _)
    have hold := (hm.drawn old (by simp [hl])).2
    have hvalue : (e.value == old.value) = true := hsame.elim id (hT.symm hold he.2)
    have h := Binds.rebound before behind hmeets.equiv
    rw [Entry.rebound, if_pos hvalue, ← hl] at h
    exact h
  | @overwrote _ _ _ old hmeets hne hnew hreplaced =>
    obtain ⟨before, behind, hl, hl'⟩ := hmeets.exists_split hnew hreplaced
    have hold := (hm.drawn old (by simp [hl])).2
    have hvalue : ¬ (e.value == old.value) = true := fun hvalue =>
      hne.elim (fun h => by simp [hvalue] at h) fun h => by simp [hT.symm he.2 hold hvalue] at h
    have h := Binds.rebound before behind hmeets.equiv
    rw [Entry.rebound, if_neg hvalue, ← hl, ← hl'] at h
    exact h
  | added hadds hreplaced =>
    have hfresh := hadds.fresh hm.wellFormed fun x hx => hS.hash_eq he.1 (hm.drawn x hx).1
    obtain ⟨before, behind, hl, hl'⟩ := hadds.exists_split hreplaced
    rw [hl] at hfresh
    rw [hl, hl']
    exact .added before behind hfresh

theorem Keyed.insertEntry (hm : m.Keyed S T) (he : e.key ∈ S ∧ e.value ∈ T) (l : Ledger) :
    (m.insertEntry e l).1.Keyed S T ∧ Binds e m.toList (m.insertEntry e l).1.toList := by
  obtain ⟨hw', hi⟩ := hm.wellFormed.insertEntry e l
  have hbinds := hm.binds_of_inserted hS hT he hi
  have hdrawn := hbinds.drawnFrom he hm.drawn
  refine ⟨⟨hw', hdrawn, ?_⟩, hbinds⟩
  exact hm.distinct.inserted hS hm.wellFormed (fun x hx => (hm.drawn x hx).1)
    (fun x hx => (hdrawn x hx).1) hi

theorem Keyed.find?_insertEntry (hm : m.Keyed S T) (he : e.key ∈ S ∧ e.value ∈ T) (l : Ledger)
    (hq : q ∈ S) :
    (m.insertEntry e l).1.find? (Probe.ofKey q) =
      Option.merge Entry.rebound (m.find? (Probe.ofKey q)) ([e].find? fun x => equiv q x.key) := by
  obtain ⟨hm', hbinds⟩ := hm.insertEntry hS hT he l
  rw [hm'.find?_eq_toList hS hq, hm.find?_eq_toList hS hq]
  exact hbinds.find?_eq hS.toPartialEquivOn he.1 hm.drawn hm'.drawn hm.distinct hm'.distinct hq

theorem Keyed.count_insertEntry (hm : m.Keyed S T) (he : e.key ∈ S ∧ e.value ∈ T) (l : Ledger) :
    (m.insertEntry e l).1.count = m.count + if m.contains (Probe.ofKey e.key) then 0 else 1 := by
  obtain ⟨hm', hbinds⟩ := hm.insertEntry hS hT he l
  rw [hm'.wellFormed.count_eq, hbinds.length_eq, hm.wellFormed.count_eq, contains,
    hm.find?_eq_toList hS he.1]

/-! ## Adding a list of entries -/

theorem Keyed.insertAll (hm : m.Keyed S T) (hes : DrawnFrom S T es) (l : Ledger) :
    (m.insertAll es l).1.Keyed S T := by
  induction es generalizing m l with
  | nil => exact hm
  | cons e es ih =>
    obtain ⟨he, hes⟩ := List.forall_mem_cons.mp hes
    exact ih (hm.insertEntry hS hT he l).1 hes _

/-- **After entries with distinct keys are added, a lookup finds what it found before together with
what it finds among them.** -/
theorem Keyed.find?_insertAll (hm : m.Keyed S T) (hes : DrawnFrom S T es) (hd : DistinctKeys es)
    (l : Ledger) (hq : q ∈ S) :
    (m.insertAll es l).1.find? (Probe.ofKey q) =
      Option.merge Entry.rebound (m.find? (Probe.ofKey q)) (es.find? fun x => equiv q x.key) := by
  induction es generalizing m l with
  | nil =>
    rw [List.find?_nil, Option.merge_none_right]
    rfl
  | cons e es ih =>
    obtain ⟨he, hes⟩ := List.forall_mem_cons.mp hes
    obtain ⟨hapart, hd⟩ := List.pairwise_cons.mp hd
    refine (ih (hm.insertEntry hS hT he l).1 hes hd _).trans ?_
    rw [hm.find?_insertEntry hS hT he l hq]
    cases hqe : equiv q e.key with
    | true =>
      -- no other added key is equivalent to this one
      have hnone := find?_eq_none_of_equiv hS.toPartialEquivOn hes he.1
        (fun x hx => (hapart x hx).1) hq hqe
      simp [hqe, hnone]
    | false => simp [hqe]

theorem Keyed.count_insertAll (hm : m.Keyed S T) (hes : DrawnFrom S T es) (hd : DistinctKeys es)
    (l : Ledger) :
    (m.insertAll es l).1.count =
      m.count + (es.filter fun y => !m.contains (Probe.ofKey y.key)).length := by
  induction es generalizing m l with
  | nil => rfl
  | cons e es ih =>
    obtain ⟨he, hes⟩ := List.forall_mem_cons.mp hes
    obtain ⟨hapart, hd⟩ := List.pairwise_cons.mp hd
    -- the other added keys are contained afterwards if they were before
    have hsame : ∀ y ∈ es, (!(m.insertEntry e l).1.contains (Probe.ofKey y.key)) =
        !m.contains (Probe.ofKey y.key) := by
      intro y hy
      rw [contains, contains, hm.find?_insertEntry hS hT he l (hes y hy).1]
      simp [(hapart y hy).2]
    refine (ih (hm.insertEntry hS hT he l).1 hes hd _).trans ?_
    rw [hm.count_insertEntry hS hT he l, List.filter_congr hsame, List.filter_cons]
    cases m.contains (Probe.ofKey e.key) <;> simp [Nat.add_assoc, Nat.add_comm]

end Map

/-! ## Unions -/

/-- Whether a map is the union of another one and further entries, which have their way; `added` is
the one among them with a key. -/
structure Map.Unites (S : Set K) (m : Map K V) (es : List (Entry K V))
    (added : K → Option (Entry K V)) (m' : Map K V) : Prop where
  /-- A key of a further entry is bound to what equals its value. -/
  get?_of_some : ∀ q ∈ S, ∀ y, added q = some y →
    ∃ v, m'.get? (Probe.ofKey q) = some v ∧ (v == y.value) = true
  /-- Any other key is bound to what it was bound to. -/
  get?_of_none : ∀ q ∈ S, added q = none → m'.get? (Probe.ofKey q) = m.get? (Probe.ofKey q)
  /-- A key of the map stays in the form in which it was stored. -/
  find?_of_some : ∀ q ∈ S, ∀ x, m.find? (Probe.ofKey q) = some x →
    ∃ v, m'.find? (Probe.ofKey q) = some { x with value := v }
  /-- A new key comes with its entry. -/
  find?_of_none : ∀ q ∈ S, m.find? (Probe.ofKey q) = none →
    m'.find? (Probe.ofKey q) = added q
  count_eq : m'.count = m.count + (es.filter fun y => !m.contains (Probe.ofKey y.key)).length
  metadata_eq : m'.metadata = m.metadata

/-- Whether a map united with the one at a place, or with the rest of a sequence over that one, is
their union. -/
structure Map.AdjoinsUnion (S : Set K) (ms : List (Map K V)) (m : Map K V) (place : Nat)
    (o : Map K V) : Prop where
  map : ∀ l, ∃ m' l', Session.Addend.addTo ms m (.map place) l = (.ok m', l') ∧
    m.Unites S o.toList (fun q => o.find? (Probe.ofKey q)) m'
  /-- After a number of steps the entries from there on are added. -/
  seq : ∀ steps l, ∃ m' l', Session.Addend.addTo ms m (.seq place steps) l = (.ok m', l') ∧
    m.Unites S (o.toList.drop steps)
      (fun q => (o.toList.drop steps).find? fun x => equiv q x.key) m'
  /-- The whole sequence makes what the map makes. -/
  seq_zero : ∀ l, Session.Addend.addTo ms m (.seq place 0) l =
    Session.Addend.addTo ms m (.map place) l
  /-- Made one after the other, in whatever order, they are equal. -/
  beq : ∀ l l' m₁ m₂, (Session.Addend.addTo ms m (.map place) l).1 = .ok m₁ →
    (Session.Addend.addTo ms m (.seq place 0) l').1 = .ok m₂ →
    (m₁ == m₂) = true ∧ (m₂ == m₁) = true

namespace Map

variable {m m' o a b : Map K V} {es : List (Entry K V)} {ms : List (Map K V)} {place : Nat}

theorem metadata_insertAll (m : Map K V) (es : List (Entry K V)) (l : Ledger) :
    (m.insertAll es l).1.metadata = m.metadata :=
  forall_insertAll (Q := fun n => n.metadata = m.metadata)
    (fun n e l hn => (n.metadata_insertEntry e l).trans hn) rfl es l

section Union

variable (hS : Contract S) (hT : EquivOn T fun v w => v == w)

include hS hT

/-- **Adding entries with distinct keys makes a union.** -/
theorem Keyed.unites (hm : m.Keyed S T) (hes : DrawnFrom S T es) (hd : DistinctKeys es)
    {added : K → Option (Entry K V)}
    (hadded : ∀ q ∈ S, added q = es.find? fun x => equiv q x.key) (l : Ledger) :
    m.Unites S es added (m.insertAll es l).1 := by
  have hfind : ∀ q ∈ S, (m.insertAll es l).1.find? (Probe.ofKey q) =
      Option.merge Entry.rebound (m.find? (Probe.ofKey q)) (added q) := fun q hq => by
    rw [hm.find?_insertAll hS hT hes hd l hq, hadded q hq]
  refine ⟨fun q hq y hy => ?_, fun q hq hnone => ?_, fun q hq x hx => ?_, fun q hq hnone => ?_,
    hm.count_insertAll hS hT hes hd l, m.metadata_insertAll es l⟩
  · rw [get?, hfind q hq, hy]
    have hyT := (hes y (List.mem_of_find?_eq_some ((hadded q hq).symm.trans hy))).2
    cases hx : m.find? (Probe.ofKey q) with
    | none => exact ⟨y.value, rfl, hT.refl hyT⟩
    | some x =>
      have hxT := (hm.drawn x ((hm.find?_eq_some_iff hS hq).mp hx).1).2
      refine ⟨(x.rebound y).value, rfl, ?_⟩
      rw [Entry.rebound]
      split
      · next hsame => exact hT.symm hyT hxT hsame
      · exact hT.refl hyT
  · rw [get?, hfind q hq, hnone, Option.merge_none_right, get?]
  · rw [hfind q hq, hx]
    cases added q with
    | none => exact ⟨x.value, rfl⟩
    | some y => exact ⟨(x.rebound y).value, rfl⟩
  · rw [hfind q hq, hnone, Option.merge_none_left]

/-- Maps with the same lookups and counts are equal, whether they share a root or not. -/
theorem Keyed.beq_of_find?_eq (ha : a.Keyed S T) (hb : b.Keyed S T)
    (hrefl : ∀ k ∈ S, equiv k k = true) (hcount : a.count = b.count)
    (hfind : ∀ q ∈ S, a.find? (Probe.ofKey q) = b.find? (Probe.ofKey q)) : (a == b) = true := by
  have hfound : a.foundIn (fun mine other => other == mine) b = true := by
    rw [ha.foundIn_iff hb hS, ha.covers_iff hb hS hrefl]
    intro q hq v hv
    rw [get?, hfind q hq] at hv
    obtain ⟨x, hx, rfl⟩ := Option.map_eq_some_iff.mp hv
    have hxT := (hb.drawn x ((hb.find?_eq_some_iff hS hq).mp hx).1).2
    exact ⟨x.value, hv, hT.refl hxT⟩
  show a.agrees _ b = true
  rw [agrees_eq, if_neg (not_not.mpr hcount), hfound]
  split <;> rfl

end Union

omit [HashEquiv K] [BEq V] in
/-- What a sequence holds after a number of steps. -/
theorem toList_of_seqAfter? {steps : Nat} {s : Seq K V} (hs : o.seqAfter? steps = some s) :
    s.toList = o.toList.drop steps := by
  rw [Seq.toList_eq_remaining (exists_first_eq_seqAfter? hs), remaining_of_seqAfter?_eq_some hs]

/-- Behind the last entry there is no sequence. -/
theorem addTo_seq (hplace : ms[place]? = some o) (steps : Nat) (l : Ledger) :
    Session.Addend.addTo ms m (.seq place steps) l =
      (.ok (m.insertAll (o.toList.drop steps) l).1, (m.insertAll (o.toList.drop steps) l).2) := by
  have hat : Session.mapAt ms place = o := by rw [Session.mapAt, hplace]; rfl
  rw [Session.Addend.addTo, hat]
  cases hs : o.seqAfter? steps with
  | none =>
    have hlen : ¬ steps < o.toList.length := by
      have := isSome_seqAfter? o steps
      rw [hs] at this
      simpa using this
    rw [List.drop_eq_nil_of_le (by omega)]
    rfl
  | some s =>
    rw [← toList_of_seqAfter? hs]
    rfl

theorem addTo_map (hplace : ms[place]? = some o) (l : Ledger) :
    Session.Addend.addTo ms m (.map place) l =
      (.ok (m.insertAll o.toList l).1, (m.insertAll o.toList l).2) := by
  have hat : Session.mapAt ms place = o := by rw [Session.mapAt, hplace]; rfl
  rw [Session.Addend.addTo, hat]
  rfl

theorem Keyed.adjoinsUnion (hm : m.Keyed S T) (ho : o.Keyed S T) (hS : Contract S)
    (hrefl : ∀ k ∈ S, equiv k k = true) (hT : EquivOn T fun v w => v == w)
    (hplace : ms[place]? = some o) : m.AdjoinsUnion S ms place o where
  map l := ⟨_, _, addTo_map hplace l,
    hm.unites hS hT ho.drawn ho.distinct (fun _ hq => ho.find?_eq_toList hS hq) l⟩
  seq steps l := ⟨_, _, addTo_seq hplace steps l,
    hm.unites hS hT (fun x hx => ho.drawn x (List.mem_of_mem_drop hx))
      (ho.distinct.sublist (List.drop_sublist steps _)) (fun _ _ => rfl) l⟩
  seq_zero l := by rw [addTo_seq hplace, addTo_map hplace, List.drop_zero]
  beq l l' m₁ m₂ h₁ h₂ := by
    rw [addTo_map hplace] at h₁
    rw [addTo_seq hplace, List.drop_zero] at h₂
    obtain rfl := Except.ok.inj h₁
    obtain rfl := Except.ok.inj h₂
    have hkeyed := hm.insertAll hS hT ho.drawn
    have hcount := hm.count_insertAll hS hT ho.drawn ho.distinct
    have hfind := fun l {q} => hm.find?_insertAll hS hT ho.drawn ho.distinct l (q := q)
    have hbeq : ∀ l l', ((m.insertAll o.toList l).1 == (m.insertAll o.toList l').1) = true :=
      fun l l' => (hkeyed l).beq_of_find?_eq hS hT (hkeyed l') hrefl
        ((hcount l).trans (hcount l').symm) fun q hq => (hfind l hq).trans (hfind l' hq).symm
    exact ⟨hbeq l l', hbeq l' l⟩

end Map

/-- **Adding a map, or a sequence over it, makes a right-biased union**, in any population over
reflexive keys that keep the contract, where equality of the values is an equivalence relation. A
list is added when it holds a key and a value, and is refused with its length otherwise. -/
theorem adjoinsUnion_of_population [HashEquiv V] {l : Ledger} {ms : List (Map K V)}
    (hp : Population l ms) (hS : Contract S) (hrefl : ∀ k ∈ S, equiv k k = true)
    (hT : EquivOn T fun v w => v == w) (hms : StoredIn S T ms) :
    (∀ m ∈ ms, ∀ place o, ms[place]? = some o → m.AdjoinsUnion S ms place o) ∧
      ∀ (E : Type) [HashEquiv E] [BEq E] (m : Map E E) (l : Ledger),
        (∀ key value, m.adjoinList [key, value] l =
          (.ok (m.insert key value l).1, (m.insert key value l).2)) ∧
        ∀ elements : List E, elements.length ≠ 2 →
          m.adjoinList elements l = (.error (.notAPair elements.length), l) := by
  refine ⟨fun m hm place o hplace => ?_, fun E _ _ m l => ⟨fun key value => rfl, ?_⟩⟩
  · have h := coherent_of_population hp hS hms
    exact (h.keyed m hm).adjoinsUnion (h.keyed o (List.mem_of_getElem? hplace)) hS hrefl hT hplace
  · intro elements hlen
    unfold Map.adjoinList
    split
    · exact absurd rfl hlen
    · rfl

/-- A map of one key, with the ledger of its run. -/
def oneKeyMap : Map Bool Bool × Ledger := Map.empty.insertEntry ⟨true, true⟩ Ledger.empty

/-- Another value for this key, later in the same run. -/
def otherValueMap : Map Bool Bool × Ledger := Map.empty.insertEntry ⟨true, false⟩ oneKeyMap.2

/-- The map with a further key. -/
def overlappingMap : Map Bool Bool × Ledger :=
  otherValueMap.1.insertEntry ⟨false, true⟩ otherValueMap.2

/-- The union of two maps with one key in common binds it to the value of the added map. -/
theorem adjoinsUnion_overlappingMap :
    Contract (Set.univ : Set Bool) ∧ (∀ k ∈ (Set.univ : Set Bool), equiv k k = true) ∧
      EquivOn (Set.univ : Set Bool) (fun v w => v == w) ∧
      ∃ l ms, Population (K := Bool) (V := Bool) l ms ∧ StoredIn Set.univ Set.univ ms ∧
        oneKeyMap.1 ∈ ms ∧ ms[0]? = some overlappingMap.1 ∧
        ∃ m l', Session.Addend.addTo ms oneKeyMap.1 (.map 0) l = (.ok m, l') ∧ m.count = 2 ∧
          m.get? (Probe.ofKey true) = some false ∧ m.get? (Probe.ofKey false) = some true := by
  have hrefl : ∀ k ∈ (Set.univ : Set Bool), equiv k k = true := fun k _ => beq_self_eq_true k
  have hT : EquivOn (Set.univ : Set Bool) (fun v w => v == w) := equivOn_beq _
  have hp : Population overlappingMap.2
      [overlappingMap.1, otherValueMap.1, oneKeyMap.1, (Map.empty : Map Bool Bool)] :=
    ((Population.start.empty.insert ⟨true, true⟩ List.mem_cons_self).insert ⟨true, false⟩
      (List.mem_cons_of_mem _ List.mem_cons_self)).insert ⟨false, true⟩ List.mem_cons_self
  have hms := storedIn_univ
    [overlappingMap.1, otherValueMap.1, oneKeyMap.1, (Map.empty : Map Bool Bool)]
  have hmem : oneKeyMap.1 ∈
      [overlappingMap.1, otherValueMap.1, oneKeyMap.1, (Map.empty : Map Bool Bool)] := by simp
  have hunion := (adjoinsUnion_of_population hp contract_bool hrefl hT hms).1 _ hmem 0 _ rfl
  obtain ⟨m, l', hadd, hunites⟩ := hunion.map overlappingMap.2
  obtain ⟨v, hv, hsame⟩ := hunites.get?_of_some true trivial ⟨true, false⟩ rfl
  obtain ⟨w, hw, hsame'⟩ := hunites.get?_of_some false trivial ⟨false, true⟩ rfl
  obtain rfl : v = false := eq_of_beq hsame
  obtain rfl : w = true := eq_of_beq hsame'
  refine ⟨contract_bool, hrefl, hT, _, _, hp, hms, hmem, rfl, m, l', hadd, ?_, hv, hw⟩
  have hlist : overlappingMap.1.toList = [⟨true, false⟩, ⟨false, true⟩] := by
    rw [Map.toList_eq]
    rfl
  rw [hunites.count_eq, hlist]
  rfl

end HashTrie
