import HashTrie.Json.Reader
import HashTrie.Json.Tree
import HashTrie.Map.Iteration

/-!
# Maps as JSON texts

A map is written as an object with its entries in the order of iteration. The names of an object are
strings, so only keys that have a name can be written: texts, and integers by their digits. Reading
an object inserts its members in the order of the text, so the last value of a name counts.
-/

namespace HashTrie

/-- The name that a key has in an object, if it has one. -/
class MemberName (κ : Type) where
  memberName? : κ → Option String

/-- The JSON that a value is written as, if it can be written. -/
class JsonWritten (ν : Type) where
  written? : ν → Option Json

instance : MemberName String := ⟨some⟩

instance : MemberName Int64 := ⟨fun n => some (toString n.toInt)⟩

instance {α : Type} : MemberName (List α) := ⟨fun _ => none⟩

instance : JsonWritten Int64 := ⟨fun n => some (.integer n.toInt)⟩

instance : JsonWritten String := ⟨fun s => some (.text s)⟩

instance {α : Type} [JsonWritten α] : JsonWritten (Option α) where
  written?
    | none => some .null
    | some a => JsonWritten.written? a

instance {α : Type} [JsonWritten α] : JsonWritten (List α) :=
  ⟨fun as => (as.mapM JsonWritten.written?).map Json.array⟩

instance {K V : Type} [JsonWritten K] [JsonWritten V] : JsonWritten (Entry K V) where
  written? e := do
    let key ← JsonWritten.written? e.key
    let value ← JsonWritten.written? e.value
    return .array [key, value]

/-- The text that a value is written as. -/
def jsonText? {ν : Type} [JsonWritten ν] (v : ν) : Option String :=
  (JsonWritten.written? v).map Json.compress

namespace Map

variable {K V : Type}

/-- The members of the object that a list of entries is written as. -/
def membersOf? [MemberName K] [JsonWritten V] (es : List (Entry K V)) :
    Option (List (String × Json)) :=
  es.mapM fun e => do
    let name ← MemberName.memberName? e.key
    let value ← JsonWritten.written? e.value
    return (name, value)

instance [MemberName K] [JsonWritten V] : JsonWritten (Map K V) :=
  ⟨fun m => (membersOf? m.toList).map Json.object⟩

/-- The map of the members of an object. -/
def ofMembers [HashEquiv K] [BEq V] (ms : List (K × V)) : Build (Map K V) :=
  ofEntries (ms.map Entry.ofPair)

/-- The map of the members of an object whose values are built on the way. -/
def ofMembersBuilt {B : Type} [HashEquiv K] [BEq V] (build : B → Build V) (m : Map K V) :
    List (K × B) → Build (Map K V)
  | [] => pure m
  | (key, b) :: ms => do
    let value ← build b
    (← m.insert key value).ofMembersBuilt build ms

end Map

end HashTrie
