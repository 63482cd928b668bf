import RemyCC.Relational.Outcome
import RemyCC.Relational.Run
import RemyCC.Relational.Table
import RemyCC.Text
import RemyCC.Text.Words
import RemyCC.Text.Pattern
import RemyCC.Relational.Query
import RemyCC.Relational.Keyed
import RemyCC.Index.Schema
import RemyCC.Index.Writer
import RemyCC.Index.Bindings
import RemyCC.Index.Resolve
import RemyCC.Index.TraitBases
import RemyCC.Index.Synth
import RemyCC.Rounding
import RemyCC.Index.Clusters
import RemyCC.Index.Groups
import RemyCC.Index.Postprocess
import RemyCC.Index.Scan
import RemyCC.Index.Content
import RemyCC.Index.Reads
import RemyCC.Index.Settle
import RemyCC.Index.Frames
import RemyCC.Index.Housed
import RemyCC.Index.Tracking
import RemyCC.Index.Formed
import RemyCC.Index.Changes
import RemyCC.Index.Anchored
import RemyCC.Index.Convergence
import RemyCC.Index.Reach
import RemyCC.Index.Fresh
import RemyCC.Index.Upkeep
import RemyCC.Json.Value
import RemyCC.Json.Print
import RemyCC.Json.Parse
import RemyCC.Json.RoundTrip
import RemyCC.State.Schema
import RemyCC.State.Paths
import RemyCC.State.Store
import RemyCC.State.Statements
import RemyCC.State.Operations
import RemyCC.State.Submission
import RemyCC.State.Lifecycle
import RemyCC.State.Recovery
import RemyCC.State.Evolution
import RemyCC.State.Runs
import RemyCC.State.Claiming
import RemyCC.State.Migration
import RemyCC.State.Queue
import RemyCC.State.Readings
import RemyCC.State.Fold
import RemyCC.State.FullScan
import RemyCC.State.Target
import RemyCC.Scheduler.Loop
import RemyCC.Scheduler.Agreement
import RemyCC.Scheduler.Interleavings
import RemyCC.Relational.Grouping
import RemyCC.Discovery.Fnmatch
import RemyCC.Discovery.Glob
import RemyCC.Discovery.Globbing
import RemyCC.Discovery.Config
import RemyCC.Discovery.Walk
import RemyCC.Opening.Steps
import RemyCC.Opening.Backup
import RemyCC.Index.Project
import RemyCC.Index.Listing
import RemyCC.Opening.Escalation
import RemyCC.Json.Object
import RemyCC.Install.Settings
import RemyCC.Install.Merge
import RemyCC.Install.Undo
import RemyCC.Install.Restore
import RemyCC.Install.Absorb
import RemyCC.Install.Idempotence
import RemyCC.Install.Rerun
import RemyCC.Index.Members
import RemyCC.Retrieval.Documents
import RemyCC.Retrieval.Store
import RemyCC.Retrieval.Refines
import RemyCC.Retrieval.Lookups
import RemyCC.Retrieval.Projected
import RemyCC.Retrieval.Clustering
import RemyCC.Retrieval.Dated
import RemyCC.Retrieval.Consistent
import RemyCC.Retrieval.Detection
import RemyCC.State.Publication
import RemyCC.Index.Labels
import RemyCC.State.Freshness
import RemyCC.Server.Protocol
import RemyCC.Server.Connection
import RemyCC.Server.Fatal
import RemyCC.Server.Framing
import RemyCC.Server.Survival
import RemyCC.Json.Layout
import RemyCC.Server.Wire
import RemyCC.Server.Replies
import RemyCC.Index.Selection
import RemyCC.Index.Emission
import RemyCC.Index.Dispatch
import RemyCC.Index.Traces
import RemyCC.Index.Overrides
import RemyCC.Index.Partition
import RemyCC.Index.Bases
import RemyCC.Search.Distance
import RemyCC.Search.Levels
import RemyCC.Search.Trees
import RemyCC.Mcp.Callers
import RemyCC.Mcp.Paths
import RemyCC.Mcp.Shortest
import RemyCC.Mcp.Merging
import RemyCC.Index.Tokens
import RemyCC.Mcp.Tokens
import RemyCC.Mcp.Ratio
import RemyCC.Mcp.Longest
import RemyCC.Mcp.Matching
import RemyCC.Files.Tree
import RemyCC.Files.Links
import RemyCC.Install.Files
import RemyCC.Install.Swap
import RemyCC.Install.Manifest
import RemyCC.Install.Deploy
import RemyCC.Install.Frames
import RemyCC.Install.Probe
import RemyCC.Install.Uninstall
import RemyCC.Install.Records
import RemyCC.Hook.Enrichment
import RemyCC.Hook.Callers
import RemyCC.Hook.SourcePaths
import RemyCC.Hook.Agreement
import RemyCC.Python.Literals
import RemyCC.Python.Repr
import RemyCC.Python.Dumps
import RemyCC.Python.Identity
import RemyCC.Python.Loads
import RemyCC.Retrieval.Readers
import RemyCC.Retrieval.Agreement
import RemyCC.Hook.Permission
import RemyCC.Python.Parameters
import RemyCC.Python.ParameterItems
import RemyCC.Python.Signatures
import RemyCC.Text.Digest
import RemyCC.Index.Contents
import RemyCC.Mcp.Freshness
import RemyCC.Retrieval.Hashed
import RemyCC.Mcp.Navigate
import RemyCC.Retrieval.Ledger
import RemyCC.Retrieval.Charges
import RemyCC.Retrieval.Docstrings
import RemyCC.Json.Keys
import RemyCC.Install.DeadHooks
import RemyCC.Install.Legacy
import RemyCC.Text.Lexemes
import RemyCC.Index.SymbolHash
import RemyCC.Text.Decimal
import RemyCC.Python.Floats
import RemyCC.Files.Lexical
import RemyCC.Discovery.RelPaths
import RemyCC.Retrieval.Pruning
import RemyCC.Python.Numbers
import RemyCC.Settings.Fields
import RemyCC.Settings.Document
import RemyCC.Settings.Migrating
import RemyCC.Settings.Lossless
import RemyCC.Retrieval.Propagation
import RemyCC.Retrieval.Heard
import RemyCC.Text.Backtracking
import RemyCC.Index.PythonPatterns
import RemyCC.Index.EventEdges
import RemyCC.Index.CPatterns
import RemyCC.Text.CSource
import RemyCC.Index.CComments
import RemyCC.Index.RustImports
import RemyCC.Index.RustModules
import RemyCC.Index.RustUses
import RemyCC.Text.Marks
import RemyCC.Json.Shape
import RemyCC.Worker.Report
import RemyCC.Worker.Evaluate
import RemyCC.Worker.Capture
import RemyCC.Worker.Stages
import RemyCC.Worker.Agreement
import RemyCC.Worker.Accepted
import RemyCC.Scheduler.Drain
import RemyCC.Server.Daemon
import RemyCC.Text.Erasing
import RemyCC.Text.MarkedBlocks
import RemyCC.Injection.ClaudeMd
import RemyCC.Injection.Readings
import RemyCC.Injection.Runs
import RemyCC.Install.Foreign
import RemyCC.Ui.Hidden
import RemyCC.Ui.Service
import RemyCC.Ui.Host
import RemyCC.Logging
