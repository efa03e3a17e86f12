import HashTrie.Json.Tree
import HashTrie.Map.Text
import HashTrie.Text.Quoted
import HashTrie.Value.Basic

/-!
# Texts of values

Every value has a JSON form. For people, integers, texts, pinned values, vectors, entries and maps
have a text of their own, and any other value is shown by its compact JSON form.
-/

namespace HashTrie

/-- A form in JSON. -/
class JsonForm (α : Type) where
  jsonForm : α → Json

export JsonForm (jsonForm)

/-- The value as the only member of an object that names its kind. -/
def Json.tagged (kind : String) (form : Json) : Json := .object [(kind, form)]

/-- An entry as an array of its key and its value. -/
def Json.ofEntry {K V : Type} [JsonForm K] [JsonForm V] (e : Entry K V) : Json :=
  .array [jsonForm e.key, jsonForm e.value]

/-- The JSON form of a scalar. -/
def Scalar.json : Scalar → Json
  | nil => .null
  | boolean b => .boolean b
  | integer n => .integer n.toInt
  | text s => .text s
  | char c => .tagged "char" (.text c.toString)
  | int8 n => .tagged "i8" (.integer n.toInt)
  | int16 n => .tagged "i16" (.integer n.toInt)
  | int32 n => .tagged "i32" (.integer n.toInt)
  | uint8 n => .tagged "u8" (.integer n.toNat)
  | uint16 n => .tagged "u16" (.integer n.toNat)
  | uint32 n => .tagged "u32" (.integer n.toNat)
  | uint64 n => .tagged "u64" (.integer n.toNat)
  | signedWord n => .tagged "isize" (.integer n.toInt)
  | unsignedWord n => .tagged "usize" (.integer n.toNat)
  | pinned name hash tag =>
    let tagMember := if tag = 0 then [] else [("t", Json.integer tag.toInt)]
    .object (("h", .integer hash.toNat) :: ("k", .integer name.toInt) :: tagMember)
  | unequal n => .tagged "noteq" (.integer n.toInt)
  | lonely n => .tagged "never" (.integer n.toInt)

instance : JsonForm Scalar := ⟨Scalar.json⟩

instance : Inspect Scalar where
  inspect
    | .integer n => toString n.toInt
    | .text s => Quoted.quote s
    | .pinned name _ _ => "k" ++ toString name.toInt
    | s => s.json.compress

namespace Layer

variable {α : Type}

/-- The JSON form of a value, given the forms of its parts. -/
def json [JsonForm α] : Layer α → Json
  | scalar s => s.json
  | vector elements => .array (elements.map jsonForm)
  | entry e => .tagged "entry" (Json.ofEntry e)
  | map m => .tagged "map" (.array (m.toList.map Json.ofEntry))
  | option none => .tagged "none" .null
  | option (some part) => .tagged "some" (jsonForm part)
  | boxed part => .tagged "box" (jsonForm part)
  | borrowed part => .tagged "ref" (jsonForm part)
  | shared cell => .tagged "rc" (jsonForm cell.value)
  | sharedAtomic cell => .tagged "arc" (jsonForm cell.value)

instance [JsonForm α] : JsonForm (Layer α) := ⟨json⟩

instance [JsonForm α] [Inspect α] : Inspect (Layer α) where
  inspect
    | scalar s => inspect s
    | vector elements => inspect elements
    | entry e => inspect e
    | map m => inspect m
    | v => v.json.compress

end Layer

namespace Value

@[reducible] instance jsonFormInstance : (depth : Nat) → JsonForm (Value depth)
  | 0 => inferInstanceAs (JsonForm Scalar)
  | depth + 1 =>
    let _ := jsonFormInstance depth
    inferInstanceAs (JsonForm (Layer (Value depth)))

@[reducible] instance inspectInstance : (depth : Nat) → Inspect (Value depth)
  | 0 => inferInstanceAs (Inspect Scalar)
  | depth + 1 =>
    let _ := inspectInstance depth
    inferInstanceAs (Inspect (Layer (Value depth)))

end Value

end HashTrie
