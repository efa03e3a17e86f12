import HashTrie.Workspace.Command

/-!
# Running commands

`Workspace.step` runs one command, and `Workspace.run` a list of them. A refused command leaves the
workspace as it was. The hashes that a command asks for are remembered by the map in its register.
-/

namespace HashTrie

/-- Named maps and named sequences. -/
structure Workspace (α : Type) where
  maps : List (String × Map α α)
  seqs : List (String × Seq α α)

/-- What a made map shows of itself. -/
def Map.report {α : Type} (m : Map α α) (full : Bool) : Report α :=
  ⟨m.count, m.shape, if full then some m.toList else none⟩

namespace Workspace

variable {α : Type}

/-- The workspace at the start of a program: one empty map, named `a`. -/
def initial : Workspace α := ⟨[("a", Map.empty)], []⟩

/-- Bind a name in a list of registers. -/
def bind {β : Type} (registers : List (String × β)) (name : String) (b : β) : List (String × β) :=
  (name, b) :: registers.filter fun r => r.1 != name

/-- Drop a name from a list of registers. -/
def unbind {β : Type} (registers : List (String × β)) (name : String) : List (String × β) :=
  registers.filter fun r => r.1 != name

/-- The map in a register. -/
def map (w : Workspace α) (name : String) : Except Misuse (Map α α) :=
  match w.maps.lookup name with
  | some m => .ok m
  | none => .error (.noMap name)

/-- The sequence in a register. -/
def seq (w : Workspace α) (name : String) : Except Misuse (Seq α α) :=
  match w.seqs.lookup name with
  | some s => .ok s
  | none => .error (.noSeq name)

/-- Store a map. -/
def putMap (w : Workspace α) (name : String) (m : Map α α) : Workspace α :=
  { w with maps := bind w.maps name m }

/-- Store a sequence. -/
def putSeq (w : Workspace α) (name : String) (s : Seq α α) : Workspace α :=
  { w with seqs := bind w.seqs name s }

/-- A computation that may stamp roots, record events, and be misused. -/
abbrev Run (β : Type) : Type := ExceptT Misuse Build β

/-- Run a computation and hand out the events it records, unless it is misused. -/
def observe {β : Type} (run : Run β) : Run (β × List Event) :=
  ExceptT.mk do
    let (result, events) ← Build.observe (ExceptT.run run)
    return result.map fun b => (b, events)

variable [HashEquiv α] [BEq α]

/-- Add to a map. -/
def addTo (w : Workspace α) (m : Map α α) : Addend α → Run (Except MapError (Map α α))
  | .entry e => Except.ok <$> (m.insertEntry e : Build _)
  | .list elements => (m.adjoinList elements : Build _)
  | .map name => do Except.ok <$> (m.adjoinMap (← w.map name) : Build _)
  | .seq name => do Except.ok <$> (m.adjoinSeq (← w.seq name) : Build _)

/-- Make a map from nothing. -/
def create : Creation α → Build (Map α α)
  | .empty => pure Map.empty
  | .singleton e => Map.singleton e.key e.value
  | .ofEntries es => Map.ofEntries es

/-- Make a map from a given one. -/
def update (w : Workspace α) (m : Map α α) : Update α → Run (Except MapError (Map α α))
  | .extend es => Except.ok <$> (m.insertAll es : Build _)
  | .copy => return .ok m
  | .insert e => Except.ok <$> (m.insertEntry e : Build _)
  | .insertNew e => (m.insertNew e.key e.value : Build _)
  | .erase key => Except.ok <$> (m.erase (Probe.ofKey key) : Build _)
  | .adjoin addend => w.addTo m addend
  | .withMetadata none => return .ok (m.withMetadata none)
  | .withMetadata (some name) => do return .ok (m.withMetadata (some (← w.map name)))
  | .cleared => return .ok m.cleared

/-- Apply updates one after the other, with the events and the count of each. -/
def applyAll (m : Map α α) :
    List (Map α α → Build (Map α α)) → Build (Map α α × List (List Event × Nat))
  | [] => return (m, [])
  | update :: updates => do
    let (m, events) ← Build.observe (update m)
    let (last, rest) ← applyAll m updates
    return (last, (events, m.count) :: rest)

/-- The updates of a run. -/
def Bulk.updates : Bulk α → List (Map α α → Build (Map α α))
  | .insert es => es.map fun e m => m.insertEntry e
  | .erase keys => keys.map fun key m => m.erase (Probe.ofKey key)

/-- Combine two entries by the base-31 polynomial of their numbers. -/
def mixEntries [Numeral α] (a b : Entry α α) : Entry α α :=
  let mix (x y : α) : α := Numeral.ofInt64 (31 * Numeral.toInt64 x + Numeral.toInt64 y)
  ⟨mix a.key b.key, mix a.value b.value⟩

/-- Combine two entries. -/
def Reduction.apply [Numeral α] : Reduction → Entry α α → Entry α α → Entry α α
  | .left, a, _ => a
  | .right, _, b => b
  | .mix, a, b => mixEntries a b

/-- Answer a query about a map. -/
def answer [Numeral α] [Inspect α] (w : Workspace α) (m : Map α α) :
    Query α → Except Misuse (Answer α)
  | .find key => .ok (.found (m.find? (Probe.ofKey key)))
  | .get key => .ok (.value? (m.get? (Probe.ofKey key)))
  | .getD key default => .ok (.value (m.getD (Probe.ofKey key) default))
  | .getAll keys => .ok (.values? (keys.map fun key => m.get? (Probe.ofKey key)))
  | .contains key => .ok (.flag (m.contains (Probe.ofKey key)))
  | .count => .ok (.number m.count)
  | .isEmpty => .ok (.flag m.isEmpty)
  | .shape => .ok (.shape m.shape)
  | .entries => .ok (.entries m.toList)
  | .keys => .ok (.values m.keys)
  | .values => .ok (.values m.values)
  | .text => .ok (.text (inspect m))
  | .cursor calls => .ok (.cursor (m.cursor.replies calls))
  | .iter calls => .ok (.iter (m.iter.replies calls))
  | .seqIter calls => .ok (.iter (m.seqIter.replies calls))
  | .sum start =>
    let add (sum : Int64) (e : Entry α α) : Int64 :=
      sum + Numeral.toInt64 e.key + Numeral.toInt64 e.value
    .ok (.number (m.fold add start).toInt)
  | .polynomial =>
    let step (h : UInt32) (e : Entry α α) : UInt32 :=
      (h * 31 + HashEquiv.hash e.key) * 31 + HashEquiv.hash e.value
    .ok (.number (m.fold step 1).toNat)
  | .reduce how => .ok (.found (m.reduce? (Reduction.apply how)))
  | .equal name => do return .flag (m == (← w.map name))
  | .equivalent name => do return .flag (equiv m (← w.map name))
  | .metadata => .ok (.entries? (m.metadata.map Map.toList))

/-- Answer a query about a sequence. -/
def answerSeq [Inspect α] (name : String) (s : Seq α α) : SeqQuery → Except Misuse (Answer α)
  | .first =>
    match s.first with
    | .ok e => .ok (.entry e)
    | .error _ => .error (.offEntry name)
  | .count => .ok (.number s.count)
  | .entries => .ok (.entries s.toList)
  | .text => .ok (.text (inspect s))

/-- Store a sequence, if there is one, and show where it stands. -/
def storeSeq (w : Workspace α) (name : String) :
    Option (Seq α α) → Except Misuse (Workspace α × Answer α)
  | none => .ok (w, .nothing)
  | some s =>
    match s.first with
    | .ok e => .ok (w.putSeq name s, .position s.isArray e)
    | .error _ => .error (.offEntry name)

/-- Run one command. The entries of made maps are shown where `full` says so. -/
def step [Numeral α] [Inspect α] (full : Bool) (w : Workspace α) :
    Command α → Run (Workspace α × Answer α)
  | .create target creation => do
    let (m, events) ← (Build.observe (create creation) : Build _)
    return (w.putMap target m, .made (m.report full) events)
  | .update source target update => do
    let (result, events) ← observe (w.update (← w.map source) update)
    match result with
    | .ok m => return (w.putMap target m, .made (m.report full) events)
    | .error e => return (w, .refused e)
  | .bulk source target updates counts => do
    let m ← w.map source
    let (made, trail) ← (applyAll m (Bulk.updates updates) : Build _)
    let indexed := trail.zipIdx.flatMap fun (step, i) => step.1.map fun event => (i, event)
    let counts := if counts then some (trail.map Prod.snd) else none
    return (w.putMap target made, .bulk (made.report full) indexed counts)
  | .takeMetadata source target => do
    let m ← w.map source
    match m.metadata with
    | none => return (w, .nothing)
    | some metadata => return (w.putMap target metadata, .made (metadata.report full) [])
  | .dropMap name => return ({ w with maps := unbind w.maps name }, .nothing)
  | .ask source query => do return (w, ← w.answer (← w.map source) query)
  | .hash source => do
    let m := (← w.map source).rememberHash
    return (w.putMap source m, .number m.hash.toNat)
  | .pairHash source => do
    let m := (← w.map source).rememberPairHash
    return (w.putMap source m, .number m.pairHash.toNat)
  | .startSeq source target => do w.storeSeq target (← w.map source).seq?
  | .nextSeq source target => do w.storeSeq target (← w.seq source).next?
  | .copySeq source target => do w.storeSeq target (some (← w.seq source))
  | .askSeq source query => do return (w, ← answerSeq source (← w.seq source) query)
  | .consumeSeq source => do
    let s ← w.seq source
    return ({ w with seqs := unbind w.seqs source }, .entries s.toList)

/-- Run commands one after the other. -/
def run [Numeral α] [Inspect α] (full : Bool) (w : Workspace α) :
    List (Command α) → Run (Workspace α × List (Answer α))
  | [] => return (w, [])
  | command :: commands => do
    let (w, answer) ← w.step full command
    let (w, answers) ← run full w commands
    return (w, answer :: answers)

end Workspace

end HashTrie
