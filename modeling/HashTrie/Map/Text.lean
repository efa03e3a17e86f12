import HashTrie.Map.Iteration

/-!
# Texts of maps and sequences

How entries, lists, maps and sequences are written for people to read. What a value looks like is
given by the class `Inspect`.
-/

namespace HashTrie

/-- A text for people to read. -/
class Inspect (α : Type) where
  inspect : α → String

export Inspect (inspect)

/-- Texts between two brackets, with commas in between. -/
def bracketed (left right : String) (texts : List String) : String :=
  left ++ String.intercalate ", " texts ++ right

instance {α : Type} [Inspect α] : Inspect (List α) :=
  ⟨fun xs => bracketed "[" "]" (xs.map inspect)⟩

instance {K V : Type} [Inspect K] [Inspect V] : Inspect (Entry K V) :=
  ⟨fun e => "MapEntry \x7b key: " ++ inspect e.key ++ ", value: " ++ inspect e.value ++ " \x7d"⟩

instance {K V : Type} [Inspect K] [Inspect V] : Inspect (Map K V) :=
  ⟨fun m => bracketed "\x7b" "\x7d"
    (m.toList.map fun e => inspect e.key ++ ": " ++ inspect e.value)⟩

instance {K V : Type} [Inspect K] [Inspect V] : Inspect (Seq K V) :=
  ⟨fun s => bracketed "[" "]" (s.toList.map fun e =>
    "(" ++ inspect e.key ++ ", " ++ inspect e.value ++ ")")⟩

end HashTrie
