import PiFabric.Foundation.JsString
import PiFabric.Foundation.Utf8
import PiFabric.Foundation.Json
import PiFabric.Foundation.JsonRoundTrip
import PiFabric.Foundation.JsMap
import PiFabric.Foundation.JsonObject
import PiFabric.Foundation.LineLog
import PiFabric.Foundation.Sha256
import PiFabric.Foundation.NumberValue
import PiFabric.Foundation.HashChain
import PiFabric.Foundation.Paging
import PiFabric.Foundation.ObjectKeys
import PiFabric.Foundation.Outcome
import PiFabric.Foundation.PathPattern
import PiFabric.Scope.Resource
import PiFabric.Scope.Coverage
import PiFabric.Scope.Grants
import PiFabric.Scope.Authority
import PiFabric.Scope.Launch
import PiFabric.Ledger.Record
import PiFabric.Ledger.Memory
import PiFabric.Ledger.Originals
import PiFabric.Ledger.Operations
import PiFabric.Ledger.Plans
import PiFabric.Ledger.Recovery
import PiFabric.Ledger.Progress
import PiFabric.Records.Chain
import PiFabric.Records.Verify
import PiFabric.Records.Append
import PiFabric.Records.Evidence
import PiFabric.Records.Page
import PiFabric.Records.Inbox
import PiFabric.Records.Delivery
import PiFabric.State.Kernel
import PiFabric.State.File
import PiFabric.State.Revisions
import PiFabric.Slots.Retry
import PiFabric.Leases.Incarnations
import PiFabric.Decisions.Resolution
import PiFabric.Foundation.Interleaving
import PiFabric.Timeline.Runs
import PiFabric.Grants.Runs
import PiFabric.Wake.Runs
import PiFabric.Foundation.Ordinals
import PiFabric.State.Refinement
import PiFabric.Foundation.Directories
import PiFabric.Locks.World
import PiFabric.Locks.Custody
import PiFabric.Locks.Rules
import PiFabric.Locks.Programs
import PiFabric.Locks.Recoverers
import PiFabric.Locks.FenceRuns
import PiFabric.Locks.CustodyRuns
import PiFabric.Foundation.Faulty
import PiFabric.Completions.Spool
import PiFabric.Completions.Claims
import PiFabric.Completions.Sections
import PiFabric.Completions.Pending
import PiFabric.Completions.Owners
import PiFabric.Completions.Runs
import PiFabric.Foundation.Samples
import PiFabric.Records.Lsn
import PiFabric.Records.Admission
import PiFabric.Records.AdmissionRuns
import PiFabric.EventLog.Publish
import PiFabric.Foundation.SingleRunner
import PiFabric.Records.Relay
import PiFabric.State.Shadow
import PiFabric.State.ShadowRuns
import PiFabric.State.ShadowRequests
import PiFabric.Foundation.JsValue
import PiFabric.Records.Kinds
import PiFabric.Records.Grammar
import PiFabric.Records.Pages
import PiFabric.Records.History
import PiFabric.EventLog.Scan
import PiFabric.EventLog.Hints
import PiFabric.EventLog.Tail
import PiFabric.EventLog.Readers
import PiFabric.Records.Frontier
import PiFabric.Decisions.Deadlines
import PiFabric.Foundation.JsonText
import PiFabric.Speculation.Extractor
import PiFabric.Speculation.Extraction
import PiFabric.Decisions.Retention
import PiFabric.Scope.Canonical
import PiFabric.Scope.Sender
import PiFabric.State.Batches
import PiFabric.Foundation.JsonBytes
import PiFabric.State.Encoding
import PiFabric.State.Namespaces
import PiFabric.State.Snapshots
import PiFabric.State.Rewrites
import PiFabric.State.Commits
import PiFabric.State.Signals
import PiFabric.State.Readback
import PiFabric.State.SignalledReads
import PiFabric.Timeline.Sessions
import PiFabric.Timeline.Reports
import PiFabric.Timeline.Alone
import PiFabric.Timeline.Rollback
import PiFabric.Timeline.Retry
import PiFabric.Foundation.Literals
import PiFabric.Compaction.Context
import PiFabric.Compaction.Streaming
import PiFabric.Compaction.Repair
import PiFabric.Activation.Filter
import PiFabric.Activation.Unsure
import PiFabric.Activation.Filling
import PiFabric.Activation.Normal
import PiFabric.Foundation.Ancestry
import PiFabric.Sessions.Branch
import PiFabric.Sessions.Tree
import PiFabric.Sessions.CursorRuns
import PiFabric.Sessions.Receipts
import PiFabric.Sessions.ReceiptRuns
import PiFabric.Foundation.Bisect
import PiFabric.Foundation.TextBytes
import PiFabric.Actors.LogStore
import PiFabric.Actors.LogBounds
import PiFabric.Foundation.LinkedTree
import PiFabric.Guard.WriteGuard
import PiFabric.Guard.Confinement
import PiFabric.Projector.Repairs
import PiFabric.ReadJournal.TombstonePatch
import PiFabric.Records.LineReader
import PiFabric.Archive.Sha256Runs
import PiFabric.RootInbox.Rounds
import PiFabric.Foundation.Settling
import PiFabric.Memory.Entries
import PiFabric.Memory.Digest
import PiFabric.Memory.CacheMetrics
import PiFabric.Memory.CacheFiles
import PiFabric.Memory.CacheLoads
import PiFabric.Memory.CacheRoundTrips
import PiFabric.Memory.Query
import PiFabric.Memory.Search
import PiFabric.Memory.SearchCoverage
import PiFabric.Compaction.Cut
import PiFabric.Compaction.CutSound
import PiFabric.Compaction.CutFound
import PiFabric.Ownership.Facts
import PiFabric.Ownership.Observation
import PiFabric.Ownership.Readings
import PiFabric.Ownership.Validation
import PiFabric.Ownership.Checks
import PiFabric.EventLog.Cursors
import PiFabric.Foundation.SortedMerge
import PiFabric.Delta.Feed
import PiFabric.Delta.Changes
import PiFabric.Delta.Histories
import PiFabric.Delta.Snapshot
import PiFabric.Delta.Apply
import PiFabric.Delta.Refresh
import PiFabric.Schedules.File
import PiFabric.Schedules.Runs
import PiFabric.Foundation.Footprints
import PiFabric.Effects.Policy
import PiFabric.Effects.Independence
import PiFabric.Effects.Rollback
import PiFabric.State.CompareAndSet
import PiFabric.Timeline.Currency
