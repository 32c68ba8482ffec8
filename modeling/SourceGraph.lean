import SourceGraph.Artifact.Basic
import SourceGraph.Artifact.Document
import SourceGraph.Artifact.Names
import SourceGraph.Command.Arguments
import SourceGraph.Command.Basic
import SourceGraph.Command.Run
import SourceGraph.Decimal
import SourceGraph.Digest
import SourceGraph.Disk.Basic
import SourceGraph.Disk.Enumerate
import SourceGraph.Disk.Listing
import SourceGraph.Extract.Basic
import SourceGraph.Extract.Python
import SourceGraph.Extract.Recording
import SourceGraph.Extract.Script
import SourceGraph.FileId
import SourceGraph.FolderTree
import SourceGraph.Glob.Basic
import SourceGraph.Glob.Parser
import SourceGraph.Graph.Basic
import SourceGraph.Graph.Document
import SourceGraph.Graph.Fragment
import SourceGraph.Import.Target
import SourceGraph.Json.Basic
import SourceGraph.Json.General
import SourceGraph.Json.Parser
import SourceGraph.Json.Printer
import SourceGraph.Json.Record
import SourceGraph.Language.Basic
import SourceGraph.Language.Builtins
import SourceGraph.Main
import SourceGraph.Path
import SourceGraph.Percent
import SourceGraph.Proofs.Batch
import SourceGraph.Proofs.BatchOrder
import SourceGraph.Proofs.CallOwners
import SourceGraph.Proofs.CallSites
import SourceGraph.Proofs.Cycle
import SourceGraph.Proofs.Declarations
import SourceGraph.Proofs.Description
import SourceGraph.Proofs.Detection
import SourceGraph.Proofs.Disk
import SourceGraph.Proofs.Document
import SourceGraph.Proofs.EntityIds
import SourceGraph.Proofs.Exchange
import SourceGraph.Proofs.Expansion
import SourceGraph.Proofs.Exports
import SourceGraph.Proofs.FolderListing
import SourceGraph.Proofs.FolderNodes
import SourceGraph.Proofs.FolderOrder
import SourceGraph.Proofs.FolderRemoval
import SourceGraph.Proofs.FolderTree
import SourceGraph.Proofs.Freshness
import SourceGraph.Proofs.FunctionCalls
import SourceGraph.Proofs.Glob
import SourceGraph.Proofs.Holdings
import SourceGraph.Proofs.Ignoring
import SourceGraph.Proofs.ImportOrder
import SourceGraph.Proofs.Joining
import SourceGraph.Proofs.Json
import SourceGraph.Proofs.Linking
import SourceGraph.Proofs.Listing
import SourceGraph.Proofs.MemberNames
import SourceGraph.Proofs.ModuleLevels
import SourceGraph.Proofs.Naming
import SourceGraph.Proofs.Ownership
import SourceGraph.Proofs.Path
import SourceGraph.Proofs.QuietPeriod
import SourceGraph.Proofs.Rebuild
import SourceGraph.Proofs.Reflection
import SourceGraph.Proofs.Refreshing
import SourceGraph.Proofs.Reopen
import SourceGraph.Proofs.Resolution
import SourceGraph.Proofs.Respelling
import SourceGraph.Proofs.Retry
import SourceGraph.Proofs.RetryBatch
import SourceGraph.Proofs.RoundTrip
import SourceGraph.Proofs.Runs
import SourceGraph.Proofs.Saving
import SourceGraph.Proofs.Scoping
import SourceGraph.Proofs.SelfCalls
import SourceGraph.Proofs.SiteIds
import SourceGraph.Proofs.Slice
import SourceGraph.Proofs.Sources
import SourceGraph.Proofs.Spelling
import SourceGraph.Proofs.Storage
import SourceGraph.Proofs.Supported
import SourceGraph.Proofs.Targets
import SourceGraph.Proofs.Text
import SourceGraph.Proofs.TidyPath
import SourceGraph.Proofs.Timestamp
import SourceGraph.Proofs.Traces
import SourceGraph.Proofs.Tracker
import SourceGraph.Proofs.TrackerHistory
import SourceGraph.Resolution
import SourceGraph.Settings.Basic
import SourceGraph.Settings.Discovery
import SourceGraph.Store.Basic
import SourceGraph.Store.Document
import SourceGraph.SyntaxTree
import SourceGraph.Text.Blank
import SourceGraph.Text.Bytes
import SourceGraph.Text.Cut
import SourceGraph.Timestamp
import SourceGraph.Toml.Basic
import SourceGraph.Toml.Document
import SourceGraph.Toml.Parser
import SourceGraph.Toolkit
import SourceGraph.Tracker.Basic
import SourceGraph.Tracker.Candidate
import SourceGraph.Tracker.Document
import SourceGraph.Watch.Batch
import SourceGraph.Watch.Ignore
import SourceGraph.Watch.Library
import SourceGraph.Watch.Watcher
import SourceGraph.Workspace.Basic
import SourceGraph.Workspace.Report
