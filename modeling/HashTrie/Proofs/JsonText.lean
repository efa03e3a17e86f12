import HashTrie.Json.MapText
import HashTrie.Proofs.ReadBack
import Mathlib.Data.List.Forall2

/-!
# The text of a map

The text of a map is the object of its entries in the order of the walk. A reader takes the members
off one by one, in the same order (`readsAs_object`), provided that the names and the values are
read themselves (`ReadsName`, `ReadsAs`). Strings and integers are read as they are. What is read of
a value need not be a value of its kind: of a map the members are read. The number of members is
bounded by the length of the text, so the bound that the reader puts on them is never reached.
-/

namespace HashTrie

namespace Json

/-! ## Objects -/

/-- The characters of the members of an object, with a comma before each but the first. -/
def memberChars : Bool → List (String × Json) → List Char
  | _, [] => []
  | first, (name, value) :: ms =>
    (if first then [] else [',']) ++ quoteChars name.toList ++ ':' :: value.compress.toList ++
      memberChars false ms

theorem toList_intercalate_compressMembers (ms : List (String × Json)) :
    (String.intercalate "," (compressMembers ms)).toList = memberChars true ms := by
  induction ms with
  | nil => rfl
  | cons m ms ih =>
    rw [String.toList_intercalate] at *
    cases ms with
    | nil => simp [compressMembers, memberChars, quote]
    | cons m' ms =>
      have hfirst : memberChars true (m :: m' :: ms) =
          (quote m.1 ++ ":" ++ m.2.compress).toList ++ [','] ++ memberChars true (m' :: ms) := by
        simp [memberChars, quote]
      rw [compressMembers, compressMembers, List.map_cons, List.map_cons,
        List.intercalate_cons_cons, ← List.map_cons, ← compressMembers, ih, hfirst]
      rfl

theorem toList_compress_object (ms : List (String × Json)) :
    (compress (.object ms)).toList = '{' :: memberChars true ms ++ ['}'] := by
  rw [compress, String.toList_append, String.toList_append, toList_intercalate_compressMembers]
  rfl

theorem length_le_length_memberChars (first : Bool) (ms : List (String × Json)) :
    ms.length ≤ (memberChars first ms).length := by
  induction ms generalizing first with
  | nil => exact Nat.le_refl _
  | cons m ms ih =>
    have hrest := ih false
    simp only [memberChars, List.length_append, List.length_cons]
    omega

/-- What follows the value of a member closes it. -/
theorem closes_memberChars (ms : List (String × Json)) (rest : List Char) :
    Closes (memberChars false ms ++ '}' :: rest) := by
  cases ms with
  | nil => exact closes_cons (.inr (.inr (.inl rfl))) rest
  | cons m ms => exact closes_cons (.inl rfl) _

namespace Reader

variable {κ ν : Type} {name : Reader κ} {value : Reader ν}

theorem hasMember_comma (first : Bool) (s : List Char) :
    hasMember first ((if first then [] else [',']) ++ '"' :: s) = .ok (true, '"' :: s) := by
  cases first <;> rfl

/-- One member is read, and then the others. -/
theorem members_of_hasMember {first : Bool} {limit : Nat} {s s' named rest rest' : List Char}
    {k : κ} {v : ν} {ms : List (κ × ν)} (hmember : hasMember first s = .ok (true, named))
    (hname : name named = .ok (k, ':' :: s')) (hvalue : value s' = .ok (v, rest))
    (hms : members name value false limit rest = .ok (ms, rest')) :
    members name value first (limit + 1) s = .ok ((k, v) :: ms, rest') := by
  have hcolon : colon (':' :: s') = .ok ((), s') := rfl
  rw [members, bind_of_ok hmember]
  simp only [if_true]
  rw [bind_of_ok hname, bind_of_ok hcolon, bind_of_ok hvalue, bind_of_ok hms]
  rfl

theorem members_end (first : Bool) (limit : Nat) (rest : List Char) :
    members name value first limit ('}' :: rest) = .ok ([], '}' :: rest) := by
  cases limit <;> rfl

theorem object_of_members {s rest : List Char} {ms : List (κ × ν)}
    (hms : members name value true s.length s = .ok (ms, '}' :: rest)) :
    object name value ('{' :: s) = .ok (ms, rest) := by
  have hpeek : peekSolid ('{' :: s) = .ok (some '{', '{' :: s) := rfl
  have hdrop : drop ('{' :: s) = .ok ((), s) := rfl
  have hroom : room s = .ok (s.length, s) := rfl
  have hend : endObject ('}' :: rest) = .ok ((), rest) := rfl
  unfold object
  rw [bind_of_ok hpeek]
  simp only []
  rw [bind_of_ok hdrop, bind_of_ok hroom, bind_of_ok hms, bind_of_ok hend]
  rfl

end Reader

end Json

/-! ## Maps -/

open Json

variable {K V : Type}

/-- Whether a key has a name and a reader takes it back from this name. -/
def ReadsName [MemberName K] (name : Reader K) (k : K) : Prop :=
  ∃ s, MemberName.memberName? k = some s ∧
    ∀ rest, name (quoteChars s.toList ++ rest) = .ok (k, rest)

/-- Whether a value is written, and a reader takes something off its text. -/
def ReadsAs {B : Type} [JsonWritten V] (value : Reader B) (v : V) (b : B) : Prop :=
  ∃ j, JsonWritten.written? v = some j ∧
    ∀ rest, Closes rest → value (j.compress.toList ++ rest) = .ok (b, rest)

theorem readsName_string (s : String) : ReadsName Reader.stringName s := by
  refine ⟨s, rfl, fun rest => ?_⟩
  rw [quoteChars, List.append_assoc]
  exact Reader.stringTail_flatMap s rest

theorem readsName_integer (i : Int64) : ReadsName Reader.integerName i :=
  ⟨toString i.toInt, rfl, Reader.integerName_quoteChars i⟩

theorem readsAs_string (s : String) : ReadsAs Reader.string s s := by
  refine ⟨.text s, rfl, fun rest _ => ?_⟩
  rw [compress, quote, String.toList_ofList, quoteChars, List.append_assoc]
  exact Reader.stringTail_flatMap s rest

theorem readsAs_integer (i : Int64) : ReadsAs Reader.integer i i :=
  ⟨.integer i.toInt, rfl, fun rest hrest => by
    rw [compress]
    exact Reader.integer_toString i hrest⟩

/-- A reader that takes something off the text of a value reads it from the whole text. -/
theorem ReadsAs.exists_jsonText?_eq {B : Type} [JsonWritten V] {value : Reader B} {v : V} {b : B}
    (h : ReadsAs value v b) : ∃ text, jsonText? v = some text ∧ value.run text = .ok b := by
  obtain ⟨j, hj, hread⟩ := h
  have hall := hread [] fun c hc => by cases hc
  rw [List.append_nil] at hall
  refine ⟨j.compress, congrArg (Option.map compress) hj, ?_⟩
  show (value j.compress.toList).bind _ = _
  rw [hall]
  rfl

section Members

variable [MemberName K] [JsonWritten V] {B : Type} {name : Reader K} {value : Reader B}

theorem membersOf?_cons {e : Entry K V} {es : List (Entry K V)} {s : String} {j : Json}
    {ms : List (String × Json)} (hs : MemberName.memberName? e.key = some s)
    (hj : JsonWritten.written? e.value = some j) (hms : Map.membersOf? es = some ms) :
    Map.membersOf? (e :: es) = some ((s, j) :: ms) := by
  unfold Map.membersOf? at *
  simp only [List.mapM_cons, hs, hj, hms]
  rfl

/-- What is written of an entry depends on the key and on what is written of the value. -/
theorem membersOf?_cons_congr {e e' : Entry K V} {es es' : List (Entry K V)} (hkey : e'.key = e.key)
    (hvalue : JsonWritten.written? e'.value = JsonWritten.written? e.value)
    (hes : Map.membersOf? es' = Map.membersOf? es) :
    Map.membersOf? (e' :: es') = Map.membersOf? (e :: es) := by
  unfold Map.membersOf? at *
  simp only [List.mapM_cons, hkey, hvalue, hes]

/-- Whether a member is taken off the text of an entry: its key by its name, and something by its
value. -/
structure ReadsMember (name : Reader K) (value : Reader B) (e : Entry K V) (member : K × B) :
    Prop where
  name : ReadsName name e.key
  key_eq : member.1 = e.key
  value : ReadsAs value e.value member.2

/-- The members of written entries are read in the order in which they were written. -/
theorem exists_membersOf?_eq {es : List (Entry K V)} {members : List (K × B)}
    (h : List.Forall₂ (ReadsMember name value) es members) :
    ∃ ms, Map.membersOf? es = some ms ∧ es.length = ms.length ∧
      ∀ first limit rest, es.length ≤ limit →
        Reader.members name value first limit (memberChars first ms ++ '}' :: rest) =
          .ok (members, '}' :: rest) := by
  induction h with
  | nil => exact ⟨[], rfl, rfl, fun first limit rest _ => Reader.members_end first limit rest⟩
  | @cons e member es members hmember _ ih =>
    obtain ⟨⟨s, hs, hname⟩, hkey, j, hj, hvalue⟩ := hmember
    obtain ⟨ms, hms, hlength, hread⟩ := ih
    refine ⟨(s, j) :: ms, membersOf?_cons hs hj hms, congrArg (· + 1) hlength,
      fun first limit rest hlimit => ?_⟩
    obtain ⟨limit, rfl⟩ : ∃ n, limit = n + 1 :=
      ⟨limit - 1, by rw [List.length_cons] at hlimit; omega⟩
    have hmore := hread false limit rest (Nat.le_of_succ_le_succ hlimit)
    obtain ⟨k, b⟩ := member
    obtain rfl : k = e.key := hkey
    rw [memberChars, List.append_assoc, List.append_assoc, List.append_assoc]
    exact Reader.members_of_hasMember (Reader.hasMember_comma first _) (hname _)
      (hvalue _ (closes_memberChars ms rest)) hmore

/-- **The members of a map are taken off its text, in the order of the walk.** -/
theorem readsAs_object {m : Map K V} {members : List (K × B)}
    (h : List.Forall₂ (ReadsMember name value) m.toList members) :
    ReadsAs (Reader.object name value) m members := by
  obtain ⟨ms, hms, hlength, hread⟩ := exists_membersOf?_eq h
  refine ⟨.object ms, congrArg (Option.map _) hms, fun rest _ => ?_⟩
  have hbound : m.toList.length ≤ (memberChars true ms ++ '}' :: rest).length := by
    have := length_le_length_memberChars true ms
    simp only [List.length_append]
    omega
  rw [toList_compress_object, List.append_assoc]
  exact Reader.object_of_members (hread true _ rest hbound)

theorem written?_eq_of_toList_eq {m m' : Map K V} (h : m'.toList = m.toList) :
    JsonWritten.written? m' = JsonWritten.written? m :=
  congrArg (fun es => (Map.membersOf? es).map Json.object) h

end Members

end HashTrie
