import HashTrie.Map.Adjoin
import HashTrie.Map.Metadata
import HashTrie.Map.Text
import HashTrie.Value.Basic

/-!
# Commands and answers

A workspace holds named maps and named sequences over one type of values, and is driven by commands.
Each command gets one answer. A command that makes a map names the register that it stores the map
in, and, when it starts from another map, the register of that one.
-/

namespace HashTrie

/-- What can be added to a map at once. -/
inductive Addend (α : Type) where
  | entry (e : Entry α α)
  | list (elements : List α)
  /-- The map in this register. -/
  | map (name : String)
  /-- The sequence in this register. -/
  | seq (name : String)

/-- How a map is made from nothing. -/
inductive Creation (α : Type) where
  | empty
  | singleton (e : Entry α α)
  | ofEntries (es : List (Entry α α))

/-- How a map is made from a given one. -/
inductive Update (α : Type) where
  | extend (es : List (Entry α α))
  | copy
  | insert (e : Entry α α)
  | insertNew (e : Entry α α)
  | erase (key : α)
  | adjoin (addend : Addend α)
  /-- Attach the map in this register as metadata, or none. -/
  | withMetadata (name : Option String)
  | cleared

/-- A run of many updates. -/
inductive Bulk (α : Type) where
  | insert (es : List (Entry α α))
  | erase (keys : List α)

/-- How the entries of a map are reduced without a start. -/
inductive Reduction where
  | left
  | right
  | mix
  deriving DecidableEq

/-- What can be asked of a map without changing it. -/
inductive Query (α : Type) where
  | find (key : α)
  | get (key : α)
  | getD (key : α) (default : α)
  | getAll (keys : List α)
  | contains (key : α)
  | count
  | isEmpty
  | shape
  | entries
  | keys
  | values
  | text
  | cursor (calls : List Cursor.Call)
  | iter (calls : List IterCall)
  | seqIter (calls : List IterCall)
  /-- The sum of the numbers in keys and values, from this start. -/
  | sum (start : Int64)
  /-- The base-31 polynomial of the hashes of keys and values. -/
  | polynomial
  | reduce (how : Reduction)
  /-- Equality with the map in this register. -/
  | equal (name : String)
  /-- Equivalence with the map in this register. -/
  | equivalent (name : String)
  | metadata

/-- What can be asked of a sequence. -/
inductive SeqQuery where
  | first
  | count
  | entries
  | text
  deriving DecidableEq

/-- One step of a program. -/
inductive Command (α : Type) where
  | create (target : String) (creation : Creation α)
  | update (source target : String) (update : Update α)
  | bulk (source target : String) (bulk : Bulk α) (counts : Bool)
  | takeMetadata (source target : String)
  | dropMap (name : String)
  | ask (source : String) (query : Query α)
  | hash (source : String)
  | pairHash (source : String)
  | startSeq (source target : String)
  | nextSeq (source target : String)
  | copySeq (source target : String)
  | askSeq (source : String) (query : SeqQuery)
  /-- The entries of a sequence, which is then gone. -/
  | consumeSeq (source : String)

/-- What a made map shows of itself. -/
structure Report (α : Type) where
  count : Nat
  shape : Shape
  /-- The entries, where they are wanted. -/
  entries : Option (List (Entry α α))

/-- The answer to a command. -/
inductive Answer (α : Type) where
  | made (report : Report α) (events : List Event)
  /-- The result of a run of updates, with the events by the index of the update that caused them,
  and the count after each update where it is wanted. -/
  | bulk (report : Report α) (events : List (Nat × Event)) (counts : Option (List Nat))
  | refused (e : MapError)
  | nothing
  | found (e : Option (Entry α α))
  | entry (e : Entry α α)
  | value? (v : Option α)
  | value (v : α)
  | values? (vs : List (Option α))
  | flag (b : Bool)
  | number (n : Int)
  | shape (s : Shape)
  | entries (es : List (Entry α α))
  | entries? (es : Option (List (Entry α α)))
  | values (vs : List α)
  | text (s : String)
  | cursor (replies : List (Cursor.Reply α α))
  | iter (replies : List (IterReply α α))
  /-- The current entry of a stored sequence, and whether the sequence runs over an array node. -/
  | position (isArray : Bool) (first : Entry α α)

/-- Why a command has no answer. -/
inductive Misuse where
  | noMap (name : String)
  | noSeq (name : String)
  /-- The sequence in this register stands at no entry. -/
  | offEntry (name : String)

end HashTrie
