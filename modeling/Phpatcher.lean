import Phpatcher.Basis.Bytes
import Phpatcher.Basis.Lines
import Phpatcher.Basis.Words
import Phpatcher.Basis.Marks
import Phpatcher.Basis.Decimal
import Phpatcher.Basis.Fallible
import Phpatcher.Basis.Frozen
import Phpatcher.Basis.Refines
import Phpatcher.Basis.Lanes
import Phpatcher.Basis.PhpSource
import Phpatcher.Basis.Checked
import Phpatcher.Basis.Splice
import Phpatcher.Basis.Sorted
import Phpatcher.Basis.Buckets
import Phpatcher.Basis.Codec
import Phpatcher.Basis.Cursor
import Phpatcher.Basis.Traced
import Phpatcher.Basis.Views
import Phpatcher.Basis.Printf
import Phpatcher.Basis.Transition
import Phpatcher.Basis.Progress
import Phpatcher.Basis.Channel
import Phpatcher.Basis.Tickets
import Phpatcher.Basis.HookChain
import Phpatcher.Basis.Listing
import Phpatcher.Core.Patch
import Phpatcher.Core.Apply
import Phpatcher.Core.ApplyViews
import Phpatcher.Core.Reader
import Phpatcher.Core.Machine
import Phpatcher.Core.Guards
import Phpatcher.Core.Paths
import Phpatcher.Core.Bundle
import Phpatcher.Core.Format
import Phpatcher.Core.Scan
import Phpatcher.Core.Parsing
import Phpatcher.Core.Prefixes
import Phpatcher.Glue.Resolver
import Phpatcher.Glue.Machine
import Phpatcher.Glue.World
import Phpatcher.Glue.Patched
import Phpatcher.Glue.Hooks
import Phpatcher.Glue.Startup
import Phpatcher.Glue.Racing
import Phpatcher.Glue.System
import Phpatcher.Glue.Freshness
import Phpatcher.Glue.Threads
import Phpatcher.Glue.Lifecycle
import Phpatcher.Glue.Stats
import Phpatcher.Tools.Diff
import Phpatcher.Tools.CommandLines
import Phpatcher.Tools.Directive
import Phpatcher.Tools.MatcherCore
import Phpatcher.Tools.Corpus
import Phpatcher.Tools.Normalize
import Phpatcher.Tools.NormalizerPipe
import Phpatcher.Tools.Coprocess
import Phpatcher.Tools.Generate
import Phpatcher.Tools.ChangesMain
import Phpatcher.Tools.PoolShutdown
import Phpatcher.Tools.Indexer
import Phpatcher.Tools.WorkerPool
import Phpatcher.Tools.IndexFile
import Phpatcher.Tools.IndexerMain
import Phpatcher.Tools.CorpusAccess
import Phpatcher.Tools.IndexAccess
import Phpatcher.Tools.Splitters
import Phpatcher.Tools.SplitViews
import Phpatcher.Tools.CorpusCache
import Phpatcher.Tools.Matcher
import Phpatcher.Theorems.OriginalLines
import Phpatcher.Theorems.ZeroCopy
import Phpatcher.Theorems.OrderIndependence
import Phpatcher.Theorems.NoOverflow
import Phpatcher.Theorems.DiffReproduces
import Phpatcher.Theorems.PlainText
import Phpatcher.Theorems.Comparisons
import Phpatcher.Theorems.References
import Phpatcher.Theorems.Directives
import Phpatcher.Theorems.Padding
import Phpatcher.Theorems.Emission
import Phpatcher.Theorems.ContentHash
import Phpatcher.Theorems.CorpusLossless
import Phpatcher.Theorems.GeneratorsAgree
import Phpatcher.Theorems.CorpusViews
import Phpatcher.Theorems.NormalizedCorpus
import Phpatcher.Theorems.NormalizedKeys
import Phpatcher.Theorems.ResponseDecoding
import Phpatcher.Theorems.HalfDuplex
import Phpatcher.Theorems.Answered
import Phpatcher.Theorems.ProtocolBounds
import Phpatcher.Theorems.LineNumbers
import Phpatcher.Theorems.BasenameFilter
import Phpatcher.Theorems.IndexInvariant
import Phpatcher.Theorems.BundleFormat
import Phpatcher.Theorems.Concatenation
import Phpatcher.Theorems.GeneratedBundle
import Phpatcher.Theorems.CreatedFile
import Phpatcher.Theorems.CreatedSections
import Phpatcher.Theorems.FailedParse
import Phpatcher.Theorems.Terminators
import Phpatcher.Theorems.Printers
import Phpatcher.Theorems.WholeBundle
import Phpatcher.Theorems.TreeRoundTrip
import Phpatcher.Theorems.FailClosed
import Phpatcher.Theorems.FailStub
import Phpatcher.Theorems.NeverAHybrid
import Phpatcher.Theorems.HaltCompiler
import Phpatcher.Theorems.CurrentBytes
import Phpatcher.Theorems.Deployment
import Phpatcher.Theorems.WriteOnce
import Phpatcher.Theorems.Linearizable
import Phpatcher.Theorems.Snapshots
import Phpatcher.Theorems.HookChains
import Phpatcher.Theorems.Account
import Phpatcher.Theorems.ModesAgree
import Phpatcher.Theorems.Factorization
import Phpatcher.Theorems.Maximality
import Phpatcher.Theorems.MovedBlock
import Phpatcher.Theorems.Reaping
import Phpatcher.Theorems.ParallelIndex
import Phpatcher.Theorems.Interleavings
import Phpatcher.Theorems.IndexRoundTrip
import Phpatcher.Theorems.IndexContents
import Phpatcher.Theorems.IndexSummary
import Phpatcher.Theorems.LoadedIndex
import Phpatcher.Theorems.CacheIdentity
import Phpatcher.Theorems.VirtualSpelling
