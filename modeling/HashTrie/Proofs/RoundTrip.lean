import HashTrie.Map.Stream
import HashTrie.Proofs.Invariant
import HashTrie.Proofs.JsonText
import HashTrie.Proofs.Rebuilding

/-!
# Maps come back from what is written of them

A map is written as its walk, and a map that is read is built from the entries in the order in which
they come. So the map that is read back has the walk of the one that was written, with the same
count and the same hashes, and is written in the same way again, although its trie may be another
one (`roundTrips_of_reachable`). Whatever the format, if it reads back the entries that it has
written, what was written of a map stays the same when it is read and written once more. The text of
a map stays the same, and so does that of a map of maps, although the maps that are its values are
not the same afterwards.
-/

namespace HashTrie

variable {K V : Type}

/-! ## Streams -/

theorem Map.absorb_map_ok [HashEquiv K] [BEq V] {E : Type} (m : Map K V) (es : List (Entry K V))
    (l : Ledger) :
    m.absorb (es.map (Except.ok : Entry K V → Except E (Entry K V))) l =
      (.ok (m.insertAll es l).1, (m.insertAll es l).2) := by
  induction es generalizing m l with
  | nil => rfl
  | cons e es ih => exact ih _ _

/-- An entry that cannot be read ends the reading, whatever follows it. -/
theorem Map.absorb_error [HashEquiv K] [BEq V] {E : Type} (m : Map K V) (es : List (Entry K V))
    (err : E) (items : List (Except E (Entry K V))) (l : Ledger) :
    m.absorb (es.map Except.ok ++ .error err :: items) l =
      (.error err, (m.insertAll es l).2) := by
  induction es generalizing m l with
  | nil => rfl
  | cons e es ih => exact ih _ _

/-- Whether reading a list of entries is building a map of them, where of the values of a key the
last one counts. -/
structure ReadsAsBuilt [HashEquiv K] [BEq V] (es : List (Entry K V)) : Prop where
  ofStream_eq : ∀ {E : Type} (l : Ledger),
    Map.ofStream (es.map (Except.ok : Entry K V → Except E (Entry K V))) l =
      (.ok (Map.ofEntries es l).1, (Map.ofEntries es l).2)
  /-- No map is made of entries behind which one cannot be read. -/
  ofStream_error : ∀ {E : Type} (err : E) (items : List (Except E (Entry K V))) (l : Ledger),
    Map.ofStream (es.map Except.ok ++ .error err :: items) l =
      (.error err, (Map.ofEntries es l).2)
  /-- The key of an entry finds its value when no later key is equivalent to what it finds. -/
  findsValue : ∀ before e after, es = before ++ e :: after → equiv e.key e.key = true →
    (∀ y ∈ after, ∀ k, equiv e.key k = true → equiv y.key k = false) →
    ∀ l, FindsValue e (Map.ofEntries es l).1

/-- Whether what a format writes of a map is read, at any time, as a map with the same walk, of
which the same is written again. -/
def Map.WrittenReturns [HashEquiv K] [BEq V] [HashEquiv V] {T E : Type}
    (write : EntryStream K V → T) (read : T → List (Except E (Entry K V))) (m : Map K V) : Prop :=
  ∀ l, ∃ m' l', Map.ofStream (read (write m.stream)) l = (.ok m', l') ∧ m.Restores m' ∧
    write m'.stream = write m.stream

/-- Whether the stream of a map is its walk, of the length that is announced, and is read as a map
with the same walk, in which the stream is the same again. -/
structure Map.RoundTrips [HashEquiv K] [BEq V] [HashEquiv V] (m : Map K V) : Prop where
  announced_eq : m.stream.announced = some m.stream.entries.length
  entries_eq : m.stream.entries = m.toList
  ofStream_entries : ∀ {E : Type} (l : Ledger), ∃ m' l',
    Map.ofStream (m.stream.entries.map (Except.ok : Entry K V → Except E (Entry K V))) l =
      (.ok m', l') ∧ m.Restores m'
  /-- This is so in every format that reads back the entries that it has written of the map. -/
  writtenReturns : ∀ {T E : Type} (write : EntryStream K V → T)
    (read : T → List (Except E (Entry K V))),
    read (write m.stream) = m.stream.entries.map Except.ok → m.WrittenReturns write read

theorem Map.Reachable.exists_ofStream_eq [HashEquiv K] [LawfulHashEquiv K] [BEq V] [HashEquiv V]
    {m : Map K V} (hm : m.Reachable) {E : Type} (l : Ledger) : ∃ m' l',
    Map.ofStream (m.stream.entries.map (Except.ok : Entry K V → Except E (Entry K V))) l =
      (.ok m', l') ∧ m.Restores m' :=
  ⟨_, _, Map.empty.absorb_map_ok m.toList l, hm.restores_ofEntries l⟩

theorem Map.Reachable.roundTrips [HashEquiv K] [LawfulHashEquiv K] [BEq V] [HashEquiv V]
    {m : Map K V} (hm : m.Reachable) : m.RoundTrips where
  announced_eq := congrArg some hm.wellFormed.count_eq
  entries_eq := rfl
  ofStream_entries l := hm.exists_ofStream_eq l
  writtenReturns write read hread l := by
    obtain ⟨m', l', hread', hrestores⟩ := hm.exists_ofStream_eq l
    exact ⟨m', l', hread ▸ hread', hrestores, congrArg write hrestores.stream_eq⟩

/-! ## Texts -/

/-- Whether a map has a text, and the map that is made of this text, at any time, has the same walk
and the same text. -/
def Map.TextReturns [HashEquiv K] [BEq V] [HashEquiv V] [MemberName K] [JsonWritten V]
    (name : Json.Reader K) (value : Json.Reader V) (m : Map K V) : Prop :=
  ∃ text members, jsonText? m = some text ∧ (Json.Reader.object name value).run text = .ok members ∧
    ∀ l, jsonText? (Map.ofMembers members l).1 = some text ∧ m.Restores (Map.ofMembers members l).1

/-- **The text of a map is a fixed point of reading and writing**, for any keys and values that are
read as they were written. -/
theorem Map.Reachable.textReturns [HashEquiv K] [LawfulHashEquiv K] [BEq V] [HashEquiv V]
    [MemberName K] [JsonWritten V] {m : Map K V} (hm : m.Reachable) {name : Json.Reader K}
    {value : Json.Reader V}
    (hread : ∀ e ∈ m.toList, ReadsName name e.key ∧ ReadsAs value e.value e.value) :
    m.TextReturns name value := by
  have hmembers : List.Forall₂ (ReadsMember name value) m.toList (m.toList.map Entry.toPair) := by
    rw [List.forall₂_map_right_iff, List.forall₂_same]
    exact fun e he => ⟨(hread e he).1, rfl, (hread e he).2⟩
  obtain ⟨text, htext, hrun⟩ := (readsAs_object hmembers).exists_jsonText?_eq
  have hpairs : (m.toList.map Entry.toPair).map Entry.ofPair = m.toList := by
    rw [List.map_map]
    exact List.map_id m.toList
  refine ⟨text, _, htext, hrun, fun l => ?_⟩
  have hrestores := hm.restores_ofEntries l
  rw [Map.ofMembers, hpairs, jsonText?, written?_eq_of_toList_eq hrestores.toList_eq]
  exact ⟨htext, hrestores⟩

/-! ## Texts of nested maps -/

/-- Whether what is read of the text of a value is built, at any time, into a value with the same
text. -/
def TextStays {B : Type} [JsonWritten V] (value : Json.Reader B) (build : B → Build V) (v : V) :
    Prop :=
  ∃ b, ReadsAs value v b ∧ ∀ l, JsonWritten.written? (build b l).1 = JsonWritten.written? v

theorem TextStays.of_readsAs [JsonWritten V] {value : Json.Reader V} {v : V}
    (h : ReadsAs value v v) : TextStays value pure v :=
  ⟨v, h, fun _ => rfl⟩

theorem exists_forall₂ {A B : Type} {R : A → B → Prop} {as : List A}
    (h : ∀ a ∈ as, ∃ b, R a b) : ∃ bs, List.Forall₂ R as bs := by
  induction as with
  | nil => exact ⟨[], .nil⟩
  | cons a as ih =>
    obtain ⟨⟨b, hb⟩, has⟩ := List.forall_mem_cons.mp h
    obtain ⟨bs, hbs⟩ := ih has
    exact ⟨b :: bs, .cons hb hbs⟩

section Nested

variable [HashEquiv K] [LawfulHashEquiv K] [BEq V] [MemberName K] [JsonWritten V] {B : Type}
  {build : B → Build V}

/-- Members whose keys are fresh are put in one behind the other, each with a value that is written
as the one that stands for it. -/
theorem Refines.ofMembersBuilt {m : Map K V} {d : Dictionary K V} (h : Refines m d)
    {es : List (Entry K V)} {members : List (K × B)}
    (hmembers : List.Forall₂ (fun e member => member.1 = e.key ∧
      ∀ l, JsonWritten.written? (build member.2 l).1 = JsonWritten.written? e.value) es members)
    (hes : FreshKeys (d ++ es)) (l : Ledger) :
    ∃ es', Refines (m.ofMembersBuilt build members l).1 (d ++ es') ∧
      es'.map Entry.key = es.map Entry.key ∧ Map.membersOf? es' = Map.membersOf? es := by
  induction hmembers generalizing m d l with
  | nil =>
    refine ⟨[], ?_, rfl, rfl⟩
    rw [List.append_nil]
    exact h
  | @cons e member es members hmember _ ih =>
    obtain ⟨k, b⟩ := member
    obtain ⟨hkey, hwritten⟩ := hmember
    obtain rfl : k = e.key := hkey
    -- the entry with the value that is built takes the place of the one that was written
    obtain ⟨e', he'⟩ : ∃ e' : Entry K V, e' = ⟨e.key, (build b l).1⟩ := ⟨_, rfl⟩
    have hkey : e'.key = e.key := by rw [he']
    have hfresh : FreshKeys (d ++ [e'] ++ es) := hes.of_map_key_eq (by simp [hkey])
    have hd := hfresh.sublist (List.sublist_append_left (d ++ [e']) es)
    have hinsert := h.insertEntry_of_fresh (freshKeys_concat.mp hd).2 (build b l).2
    obtain ⟨es', hr, hkeys, hms⟩ := ih hinsert hfresh (m.insertEntry e' (build b l).2).2
    refine ⟨e' :: es', ?_, by simp [hkey, hkeys],
      membersOf?_cons_congr hkey (he' ▸ hwritten l) hms⟩
    rw [List.append_cons]
    rw [he'] at hr ⊢
    exact hr

/-- **Where the texts of the values stay the same, the text of a map does**, so it does for maps
that are nested in any depth. -/
theorem Map.Reachable.textStays [HashEquiv V] {m : Map K V} (hm : m.Reachable)
    {name : Json.Reader K} {value : Json.Reader B}
    (hread : ∀ e ∈ m.toList, ReadsName name e.key ∧ TextStays value build e.value) :
    TextStays (Json.Reader.object name value) (Map.empty.ofMembersBuilt build) m := by
  have hexists : ∀ e ∈ m.toList, ∃ member : K × B, ReadsMember name value e member ∧
      ∀ l, JsonWritten.written? (build member.2 l).1 = JsonWritten.written? e.value := by
    intro e he
    obtain ⟨hname, b, hvalue, hbuild⟩ := hread e he
    exact ⟨(e.key, b), ⟨hname, rfl, hvalue⟩, hbuild⟩
  obtain ⟨members, hmembers⟩ := exists_forall₂ hexists
  refine ⟨members, readsAs_object (hmembers.imp fun _ _ h => h.1), fun l => ?_⟩
  obtain ⟨es, hr, hkeys, hms⟩ := refines_empty.ofMembersBuilt
    (hmembers.imp fun _ _ h => ⟨h.1.key_eq, h.2⟩) hm.freshKeys l
  have hlist := hr.toList_eq (hm.wellFormed.sliceSorted.of_map_key_eq hkeys)
  show (Map.membersOf? (Map.toList _)).map Json.object = (Map.membersOf? m.toList).map Json.object
  rw [hlist, ← hms]
  rfl

end Nested

/-- The text of a map of maps of integers stays the same. -/
theorem textStays_mapOfMaps {m : Map String (Map String Int64)} (hm : m.Reachable)
    (hvalues : ∀ e ∈ m.toList, e.value.Reachable) :
    TextStays (.object .stringName (.object .stringName .integer))
      (Map.empty.ofMembersBuilt (Map.empty.ofMembersBuilt pure)) m := by
  have hinner : ∀ inner : Map String Int64, inner.Reachable →
      TextStays (.object .stringName .integer) (Map.empty.ofMembersBuilt pure) inner :=
    fun inner hinner => hinner.textStays fun e _ =>
      ⟨readsName_string e.key, .of_readsAs (readsAs_integer e.value)⟩
  exact hm.textStays fun e he => ⟨readsName_string e.key, hinner e.value (hvalues e he)⟩

/-! ## Maps come back -/

/-- **Maps come back from what is written of them.** The stream of a map that can be made announces
its length and is the walk; whatever entries a stream has, reading it is building a map of them; and
what is read from the stream of a map has the same walk. So what a format writes of a map, if it
reads the entries back, is a fixed point of reading and writing. The text of a map with strings as
keys is one, too, for values that are read as they were written, as strings and integers are, and
for values whose texts stay the same, as maps of such values. -/
theorem roundTrips_of_reachable [HashEquiv K] [LawfulHashEquiv K] [BEq V] [HashEquiv V]
    {W B : Type} [BEq W] [HashEquiv W] [JsonWritten W] :
    (∀ m : Map K V, m.Reachable → m.RoundTrips) ∧
      (∀ es : List (Entry K V), ReadsAsBuilt es) ∧
      (∀ (value : Json.Reader W) (m : Map String W), m.Reachable →
        (∀ e ∈ m.toList, ReadsAs value e.value e.value) →
        m.TextReturns Json.Reader.stringName value) ∧
      (∀ (value : Json.Reader B) (build : B → Build W) (m : Map String W), m.Reachable →
        (∀ e ∈ m.toList, TextStays value build e.value) →
        TextStays (Json.Reader.object Json.Reader.stringName value)
          (Map.empty.ofMembersBuilt build) m) ∧
      (∀ s, ReadsAs Json.Reader.string s s) ∧ ∀ i, ReadsAs Json.Reader.integer i i := by
  refine ⟨fun m hm => hm.roundTrips, fun es => ⟨Map.empty.absorb_map_ok es,
    Map.empty.absorb_error es, ?_⟩, ?_, ?_,
    readsAs_string, readsAs_integer⟩
  · rintro before e after rfl hself hafter l
    exact findsValue_ofEntries hself hafter l
  · exact fun value m hm hread =>
      hm.textReturns fun e he => ⟨readsName_string e.key, hread e he⟩
  · exact fun value build m hm hread =>
      hm.textStays fun e he => ⟨readsName_string e.key, hread e he⟩

/-- A map that had two keys with one first slice, and lost one of them. -/
def thinnedMap : Map String Int64 :=
  Map.ofEdits [.insert ⟨"a", 1⟩, .insert ⟨"s", 2⟩, .insert ⟨"c", 3⟩, .erase (Probe.ofKey "s")]

/-- A map as the list of its pairs. -/
def writePairs (s : EntryStream K V) : List (K × V) := s.entries.map Entry.toPair

/-- The entries of a list of pairs, all of which can be read. -/
def readPairs (pairs : List (K × V)) : List (Except Unit (Entry K V)) :=
  pairs.map fun p => .ok (Entry.ofPair p)

/-- The thinned map still has the node of both keys; the map that is read from its stream, or from
its text, has none, and the same text. -/
theorem roundTrips_thinnedMap :
    thinnedMap.RoundTrips ∧ (thinnedMap.subtree? [26]).isSome = true ∧
      ((Map.ofEntries thinnedMap.toList Ledger.empty).1.subtree? [26]).isSome = false ∧
      thinnedMap.WrittenReturns writePairs readPairs ∧
      thinnedMap.TextReturns Json.Reader.stringName Json.Reader.integer ∧
      jsonText? thinnedMap = some "\x7b\"c\":3,\"a\":1\x7d" := by
  have hm : thinnedMap.Reachable := Map.reachable_ofEdits _
  obtain ⟨hstream, -, htext, -, -, hinteger⟩ :=
    roundTrips_of_reachable (K := String) (V := Int64) (W := Int64) (B := Int64)
  have hpairs : readPairs (writePairs thinnedMap.stream) =
      thinnedMap.stream.entries.map Except.ok := by
    rw [readPairs, writePairs, List.map_map]
    rfl
  exact ⟨hstream _ hm, by decide +kernel, by decide +kernel,
    (hstream _ hm).writtenReturns writePairs readPairs hpairs,
    htext Json.Reader.integer _ hm fun e _ => hinteger e.value, by decide +kernel⟩

end HashTrie
