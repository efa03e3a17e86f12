/-!
# Structural events

Updates of a trie may change the kind of one of its nodes. Each such change is an event. A ledger
records the events of a run in order, and supplies the stamps that tell roots apart: every root made
in a run gets a stamp of its own, so two maps with one stamp share one trie.
-/

namespace HashTrie

/-- A change of a node's kind. -/
inductive Event where
  /-- Two keys with this full hash met, and now share a collision node. -/
  | collided (hash : UInt32)
  /-- A full bitmap node at this shift became an array node with this many children. -/
  | promoted (shift : Nat) (children : Nat)
  /-- An array node became a bitmap node with this many children. -/
  | packed (children : Nat)
  deriving DecidableEq

/-- The text that names the kind of an event. -/
def Event.message : Event → String
  | collided _ => "creating hash collision node"
  | promoted .. => "promoting bitmap node to array node"
  | packed _ => "packing array node into bitmap node"

/-- An outcome together with the events that led to it. -/
structure Traced (R : Type) where
  outcome : R
  events : List Event

/-- Change the outcome and keep the events. -/
def Traced.map {R S : Type} (f : R → S) (t : Traced R) : Traced S :=
  ⟨f t.outcome, t.events⟩

/-- An outcome without events. -/
def Traced.silent {R : Type} (outcome : R) : Traced R :=
  ⟨outcome, []⟩

/-- The next free stamp, and the events so far. -/
structure Ledger where
  nextStamp : Nat
  events : List Event
  deriving DecidableEq

/-- The ledger of a run that has not begun. -/
def Ledger.empty : Ledger := ⟨0, []⟩

/-- A computation that may stamp roots and record events. -/
abbrev Build (α : Type) : Type := StateM Ledger α

namespace Build

variable {α : Type}

/-- A stamp that was never handed out before. -/
def freshStamp : Build Nat := fun ledger =>
  (ledger.nextStamp, { ledger with nextStamp := ledger.nextStamp + 1 })

/-- Add events at the end of the ledger. -/
def record (events : List Event) : Build Unit := fun ledger =>
  ((), { ledger with events := ledger.events ++ events })

/-- Run a computation and hand out the events it records, leaving the ledger's events alone. -/
def observe (build : Build α) : Build (α × List Event) := fun ledger =>
  let (a, after) := build { ledger with events := [] }
  ((a, after.events), { after with events := ledger.events })

@[simp] theorem freshStamp_run (ledger : Ledger) :
    freshStamp ledger = (ledger.nextStamp, { ledger with nextStamp := ledger.nextStamp + 1 }) :=
  rfl

@[simp] theorem record_run (events : List Event) (ledger : Ledger) :
    record events ledger = ((), { ledger with events := ledger.events ++ events }) := rfl

end Build

end HashTrie
