import Peql.Lib.Runs
import Peql.Lib.Lookup
import Peql.Lib.Reported
import Peql.Lib.Extreme
import Peql.Lib.Tagged
import Peql.Lib.Percent
import Peql.Lib.Debug
import Peql.Lib.Utf8
import Peql.Lib.Arrivals
import Peql.Error
import Peql.Atomic
import Peql.Budget
import Peql.Gate.Plan
import Peql.Parcel
import Peql.Violation
import Peql.Manifest
import Peql.Manifest.Certificate
import Peql.Facts
import Peql.Facts.Combine
import Peql.Facts.Fold
import Peql.Iceberg.Table
import Peql.Iceberg.Commit
import Peql.Iceberg.Writers
import Peql.Gate.Barrier
import Peql.Gate.Sound
import Peql.Gate.Visit
import Peql.Gate.Gating
import Peql.Gate.View
import Peql.Gate.Stored
import Peql.Iceberg.Rows
import Peql.Atomic.Whole
import Peql.Files.Calls
import Peql.Files.Accurate
import Peql.Lib.Effects
import Peql.Lib.Disk
import Peql.Cache
import Peql.Cache.Accounting
import Peql.Engine.State
import Peql.Engine.Facts
import Peql.Engine.Query
import Peql.Engine.Invisible
import Peql.Engine.Kept
import Peql.Engine.Named
import Peql.Engine.References
import Peql.Engine.Searched
import Peql.Engine.Refusal
import Peql.Budget.Shared
import Peql.Engine.PerCaller
import Peql.Engine.Reconciled
import Peql.Engine.Decisions
import Peql.Engine.Snapshots
import Peql.Publish.Tree
import Peql.Publish.Write
import Peql.Publish.Left
import Peql.Publish.Frame
import Peql.Publish.Failed
import Peql.Iceberg.Finish
import Peql.Store.Dir
import Peql.Store.Open
import Peql.Store.Reopen
import Peql.Store.Stale
import Peql.Engine.Write
import Peql.Engine.Tells
import Peql.Engine.Knows
import Peql.Manifest.Owned
import Peql.Publish.Upload
import Peql.Files.Footer
import Peql.Iceberg.Schema
import Peql.Iceberg.Seen
import Peql.Iceberg.Types
import Peql.Iceberg.Required
import Peql.Iceberg.Evolve
import Peql.Iceberg.Versions
import Peql.Iceberg.Retry
import Peql.Iceberg.Carried
import Peql.Iceberg.Attempts
import Peql.Engine.Rebuilt
import Peql.Violation.Split
import Peql.Engine.Parts
import Peql.Engine.Fingerprint
import Peql.Engine.Fleet
import Peql.Engine.Unmoved
import Peql.Flight
import Peql.Flight.Session
import Peql.Engine.History
import Peql.Engine.Published
import Peql.Engine.Truth
import Peql.Engine.Counted
import Peql.Engine.Handled
import Peql.Engine.Deciding
import Peql.Engine.Shares
import Peql.Engine.Stored
import Peql.Engine.Stamps
import Peql.Engine.Laid
import Peql.Flight.Ingests
import Peql.Guard
import Peql.Functions
import Peql.Functions.Register
import Peql.Functions.Dir
import Peql.Functions.Reopened
import Peql.Functions.Bundle
import Peql.Shape
import Peql.Vector
import Peql.Vector.Expand
import Peql.Engine.Serving
import Peql.Engine.Served
