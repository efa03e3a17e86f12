import HashTrie.Hash.Bytes
import HashTrie.Json.MapText
import HashTrie.Map.History
import HashTrie.Value.Series
import HashTrie.Value.Text
import HashTrie.Workspace.Run
import HashTrie.Proofs.Slices
import HashTrie.Proofs.Branch
import HashTrie.Proofs.Edits
import HashTrie.Proofs.Lookup
import HashTrie.Proofs.Removal
import HashTrie.Proofs.Joining
import HashTrie.Proofs.Insertion
import HashTrie.Proofs.Updates
import HashTrie.Proofs.Invariant
import HashTrie.Proofs.Runs
import HashTrie.Proofs.Frame
import HashTrie.Proofs.Groups
import HashTrie.Proofs.Order
import HashTrie.Proofs.Refinement
import HashTrie.Proofs.IterationOrder
import HashTrie.Proofs.Walks
import HashTrie.Proofs.Totality
import HashTrie.Proofs.Search
import HashTrie.Proofs.Population
import HashTrie.Proofs.Comparison
import HashTrie.Proofs.Extensionality
import HashTrie.Proofs.Contracts
import HashTrie.Proofs.Matching
import HashTrie.Proofs.Nesting
import HashTrie.Proofs.Protocol
import HashTrie.Proofs.Sequences
import HashTrie.Proofs.ArrayNodes
import HashTrie.Proofs.Kinds
import HashTrie.Proofs.Ledgers
import HashTrie.Proofs.RootKinds
import HashTrie.Map.Stream
import HashTrie.Proofs.Remembering
import HashTrie.Proofs.Indifference
import HashTrie.Proofs.Cells
import HashTrie.Map.Handled
import HashTrie.Proofs.NoOps
import HashTrie.Proofs.Rebuilding
import HashTrie.Proofs.JsonText
import HashTrie.Proofs.RoundTrip
import HashTrie.Proofs.Mixers
import HashTrie.Proofs.Blocks
import HashTrie.Proofs.ByteWise
import HashTrie.Proofs.Changes
import HashTrie.Proofs.Union
import HashTrie.Proofs.Alignment
import HashTrie.Proofs.Members
