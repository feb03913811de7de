import Omoplata.Lib.EditScript
import Omoplata.Lib.Lcs
import Omoplata.Lib.BTreeMap
import Omoplata.Lib.Optimistic
import Omoplata.Lib.Weave
import Omoplata.Lib.Locked
import Omoplata.Lib.Staged
import Omoplata.Lib.Durable
import Omoplata.Lib.Chain
import Omoplata.Lib.Classes
import Omoplata.Lib.Brackets
import Omoplata.Lib.Blocks
import Omoplata.Lib.FileSystem
import Omoplata.Lib.Listing
import Omoplata.Lib.Table
import Omoplata.Lib.Walk
import Omoplata.Lib.Gather
import Omoplata.Lib.Chunks
import Omoplata.Lib.Varint
import Omoplata.Lib.Topological
import Omoplata.Algebra.Doc
import Omoplata.Algebra.Patch
import Omoplata.Algebra.Commute
import Omoplata.Algebra.Merge
import Omoplata.Algebra.Added
import Omoplata.Algebra.Kernel
import Omoplata.Algebra.Machine
import Omoplata.Algebra.Twin
import Omoplata.Algebra.Rebase
import Omoplata.Algebra.Relabel
import Omoplata.Algebra.Stack
import Omoplata.Algebra.Resolution
import Omoplata.Store.Closure
import Omoplata.Store.Fill
import Omoplata.Store.IdText
import Omoplata.Store.Object
import Omoplata.Store.Repository
import Omoplata.Store.Path
import Omoplata.Store.Spelling
import Omoplata.Store.Lock
import Omoplata.Identity
import Omoplata.Identity.Definition
import Omoplata.Identity.Matching
import Omoplata.Identity.Change
import Omoplata.Identity.DefinitionGraph
import Omoplata.Identity.Supersession
import Omoplata.Drivers.Driver
import Omoplata.Drivers.Rust
import Omoplata.Drivers.Select
import Omoplata.Drivers.Diff3
import Omoplata.Drivers.Segment
import Omoplata.Drivers.Pairing
import Omoplata.Drivers.Gaps
import Omoplata.Drivers.Assembly
import Omoplata.Drivers.TakeSide
import Omoplata.Drivers.Additions
import Omoplata.Drivers.Markers
import Omoplata.Drivers.Carried
import Omoplata.Drivers.Rescan
import Omoplata.Drivers.Retained
import Omoplata.Drivers.Duplicate
import Omoplata.Work.Error
import Omoplata.Work.OpLog
import Omoplata.Work.LogFile
import Omoplata.Work.Crash
import Omoplata.Work.Loaded
import Omoplata.Work.Workspace
import Omoplata.Work.Queue
import Omoplata.Work.Batch
import Omoplata.Work.Support
import Omoplata.Work.Checkout
import Omoplata.Work.Folder
import Omoplata.Work.Snapshot
import Omoplata.Work.Remote
import Omoplata.Work.Restore
import Omoplata.Work.RoundTrip
import Omoplata.Work.Flat
import Omoplata.Work.Placed
import Omoplata.Work.Autorebase
import Omoplata.Work.Recorded
import Omoplata.Work.Edges
import Omoplata.Work.Axes
import Omoplata.Work.History
import Omoplata.Work.Revset
import Omoplata.Work.RevsetGrammar
import Omoplata.Work.RevsetParser
import Omoplata.Work.RevsetEval
import Omoplata.Cli.Repo
import Omoplata.Cli.Land
import Omoplata.Cli.Gates
import Omoplata.Cli.Push
import Omoplata.Cli.Reconcile
import Omoplata.Cli.Fold
import Omoplata.Cli.Trunk
import Omoplata.Cli.Kept
import Omoplata.Cli.Interleaving
import Omoplata.Cli.Approval
import Omoplata.Cli.Backport
import Omoplata.Cli.Batch
import Omoplata.Cli.Refusal
import Omoplata.Cli.Strict
import Omoplata.Cli.Switch
import Omoplata.Cli.Alone
import Omoplata.Cli.Author
import Omoplata.Cli.Authored
import Omoplata.Cli.Order
import Omoplata.Cli.Publication
import Omoplata.Cli.Membership
import Omoplata.Cli.Record
import Omoplata.Cli.Fetch
import Omoplata.Cli.Http
import Omoplata.Cli.Serve
import Omoplata.Cli.Transport
import Omoplata.Cli.Token
import Omoplata.Cli.Diff
import Omoplata.Lib.Codec
import Omoplata.Lib.Sha
import Omoplata.Git.Object
import Omoplata.Git.Import
import Omoplata.Git.Pack
import Omoplata.Git.Numbers
import Omoplata.Git.Delta
import Omoplata.Git.Index
import Omoplata.Git.Deferral
import Omoplata.Git.Passes
import Omoplata.Git.Repo
import Omoplata.Git.Gate
import Omoplata.Git.Kinds
import Omoplata.Git.Log
import Omoplata.Git.Export
import Omoplata.Git.Written
import Omoplata.Git.Reproduce
import Omoplata.Git.Fetch
import Omoplata.Git.Mirror
import Omoplata.Lib.Puts
import Omoplata.Lib.Entries
import Omoplata.Work.Registry
import Omoplata.Git.Lossy
import Omoplata.Git.Headers
import Omoplata.Git.Hex
import Omoplata.Git.Pkt
import Omoplata.Git.Advertisement
import Omoplata.Git.Confined
import Omoplata.Cli.MergeFile
