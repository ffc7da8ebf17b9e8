import FactGraph.Attempt
import FactGraph.Binary64
import FactGraph.Binary64.Decimal
import FactGraph.Checksum
import FactGraph.Cli
import FactGraph.Cli.Argument
import FactGraph.Cli.Command
import FactGraph.Cli.Options
import FactGraph.Cli.Usage
import FactGraph.Counters
import FactGraph.Digest
import FactGraph.Digest.Grouping
import FactGraph.Digest.Sha256
import FactGraph.Disk
import FactGraph.Encoding
import FactGraph.Encoding.Decode
import FactGraph.Fact
import FactGraph.Forward
import FactGraph.Index
import FactGraph.Index.Buckets
import FactGraph.LogicError
import FactGraph.Matching
import FactGraph.NTriples.Reader
import FactGraph.NTriples.Writer
import FactGraph.Node
import FactGraph.Numeral
import FactGraph.Proof
import FactGraph.Proof.Check
import FactGraph.Proofs.Acceptance
import FactGraph.Proofs.Accounting
import FactGraph.Proofs.Assembly
import FactGraph.Proofs.Atomicity
import FactGraph.Proofs.Balance
import FactGraph.Proofs.Bindings
import FactGraph.Proofs.Boundness
import FactGraph.Proofs.Burst
import FactGraph.Proofs.Candidates
import FactGraph.Proofs.Canonical
import FactGraph.Proofs.Chains
import FactGraph.Proofs.Check
import FactGraph.Proofs.Checksum
import FactGraph.Proofs.Closing
import FactGraph.Proofs.Compaction
import FactGraph.Proofs.Comparison
import FactGraph.Proofs.Completeness
import FactGraph.Proofs.Concord
import FactGraph.Proofs.Conflicts
import FactGraph.Proofs.Confluence
import FactGraph.Proofs.Consequence
import FactGraph.Proofs.Counts
import FactGraph.Proofs.Damage
import FactGraph.Proofs.Decoding
import FactGraph.Proofs.Depth
import FactGraph.Proofs.Digits
import FactGraph.Proofs.Disk
import FactGraph.Proofs.Document
import FactGraph.Proofs.Doubles
import FactGraph.Proofs.Encoding
import FactGraph.Proofs.Enumeration
import FactGraph.Proofs.Exactness
import FactGraph.Proofs.Export
import FactGraph.Proofs.Extension
import FactGraph.Proofs.Fidelity
import FactGraph.Proofs.Fingerprint
import FactGraph.Proofs.Floating
import FactGraph.Proofs.Foresight
import FactGraph.Proofs.Form
import FactGraph.Proofs.Forward
import FactGraph.Proofs.Gatekeeping
import FactGraph.Proofs.Grammar
import FactGraph.Proofs.Grounds
import FactGraph.Proofs.Identifiers
import FactGraph.Proofs.Import
import FactGraph.Proofs.Index
import FactGraph.Proofs.Interchange
import FactGraph.Proofs.Join
import FactGraph.Proofs.Journal
import FactGraph.Proofs.Justification
import FactGraph.Proofs.Keys
import FactGraph.Proofs.Labels
import FactGraph.Proofs.Lines
import FactGraph.Proofs.Literal
import FactGraph.Proofs.Lookup
import FactGraph.Proofs.Loops
import FactGraph.Proofs.Matching
import FactGraph.Proofs.Materialization
import FactGraph.Proofs.Monotonicity
import FactGraph.Proofs.Nearness
import FactGraph.Proofs.Numeral
import FactGraph.Proofs.Objections
import FactGraph.Proofs.Objects
import FactGraph.Proofs.Order
import FactGraph.Proofs.Outcome
import FactGraph.Proofs.Overlay
import FactGraph.Proofs.Page
import FactGraph.Proofs.Paging
import FactGraph.Proofs.Progress
import FactGraph.Proofs.Proximity
import FactGraph.Proofs.Reachability
import FactGraph.Proofs.Reading
import FactGraph.Proofs.Rearrangement
import FactGraph.Proofs.Recall
import FactGraph.Proofs.Recognition
import FactGraph.Proofs.Recovery
import FactGraph.Proofs.Recursion
import FactGraph.Proofs.Refinement
import FactGraph.Proofs.Refusal
import FactGraph.Proofs.Relations
import FactGraph.Proofs.Renaming
import FactGraph.Proofs.Repair
import FactGraph.Proofs.Report
import FactGraph.Proofs.Resolution
import FactGraph.Proofs.Resumption
import FactGraph.Proofs.Rounding
import FactGraph.Proofs.Rulebook
import FactGraph.Proofs.Search
import FactGraph.Proofs.Session
import FactGraph.Proofs.Size
import FactGraph.Proofs.Soundness
import FactGraph.Proofs.Spelling
import FactGraph.Proofs.Staleness
import FactGraph.Proofs.Statistics
import FactGraph.Proofs.Storage
import FactGraph.Proofs.Store
import FactGraph.Proofs.StoreWork
import FactGraph.Proofs.Substitution
import FactGraph.Proofs.Task
import FactGraph.Proofs.Termination
import FactGraph.Proofs.Ties
import FactGraph.Proofs.Traversal
import FactGraph.Proofs.Unfolding
import FactGraph.Proofs.Unification
import FactGraph.Proofs.Validation
import FactGraph.Proofs.Variants
import FactGraph.Proofs.View
import FactGraph.Proofs.Word
import FactGraph.Report
import FactGraph.Rule
import FactGraph.Rule.Draft
import FactGraph.Rule.Guard
import FactGraph.Rulebook
import FactGraph.Rulebook.Standard
import FactGraph.Search
import FactGraph.Search.Agenda
import FactGraph.Search.Bindings
import FactGraph.Search.Goal
import FactGraph.Storage
import FactGraph.Storage.Address
import FactGraph.Storage.Cells
import FactGraph.Storage.DiskWork
import FactGraph.Storage.Journal
import FactGraph.Storage.Journal.Entry
import FactGraph.Storage.Kind
import FactGraph.Storage.Location
import FactGraph.Storage.Memory
import FactGraph.Storage.Table
import FactGraph.Storage.Table.Companion
import FactGraph.Storage.Table.Image
import FactGraph.Storage.Table.Opening
import FactGraph.Store
import FactGraph.Store.Exchange
import FactGraph.Store.Overlay
import FactGraph.Store.Page
import FactGraph.Store.Traversal
import FactGraph.StoreError
import FactGraph.Substitution
import FactGraph.Term
import FactGraph.Text
import FactGraph.Validation
import FactGraph.Value
import FactGraph.View
import FactGraph.Word
import FactGraph.Main
