import Holos.Lib.SortedSet
import Holos.Lib.StableSort
import Holos.Lib.Mapping
import Holos.Core
import Holos.Store.Index
import Holos.Store.IndexTheorems
import Holos.Store.Store
import Holos.Security.Policy
import Holos.Security.PolicyTheorems
import Holos.Engine.View
import Holos.Engine.ViewTheorems
import Holos.Sparql.Algebra
import Holos.Engine.Range
import Holos.Engine.Reach
import Holos.Engine.ReachTheorems
import Holos.Engine.Bindjoin.Plan
import Holos.Engine.Bindjoin.Evaluate
import Holos.Engine.Bindjoin.Trace
import Holos.Engine.Bindjoin.Stream
import Holos.Sparql.Semantics
import Holos.Engine.Bindjoin.Meaning
import Holos.Engine.Bindjoin.Probe
import Holos.Engine.Bindjoin.Closure
import Holos.Engine.Bindjoin.Loop
import Holos.Engine.Bindjoin.Collect
import Holos.Lib.FileMerge
import Holos.Lib.Keyed
import Holos.Lib.Interner
import Holos.Lib.Int64
import Holos.Vocab
import Holos.Inline
import Holos.Store.Dictionary
import Holos.Store.DictionaryTheorems
import Holos.Lib.Bytes
import Holos.Lib.Between
import Holos.Lib.Counter
import Holos.Lib.Overlay
import Holos.Lib.Version
import Holos.Store.Codec
import Holos.Store.Bounds
import Holos.Store.Contents
import Holos.Store.Storage
import Holos.Store.Memory
import Holos.Store.MemoryTheorems
import Holos.Store.Rocks
import Holos.Store.RocksTheorems
import Holos.Store.RocksDictionary
import Holos.Store.RocksScope
import Holos.Store.RocksRows
import Holos.Store.Bulk
import Holos.Store.BulkTheorems
import Holos.Store.BulkDictionary
import Holos.Store.Generation
import Holos.Store.RocksGeneration
import Holos.Store.BulkGeneration
import Holos.Engine.Bindjoin.Variables
import Holos.Engine.Bindjoin.Leaves
import Holos.Engine.Bindjoin.Hoist
import Holos.Engine.Bindjoin.Rows
import Holos.Engine.Bindjoin.Answers
import Holos.Engine.Bindjoin.Operators
import Holos.Lib.Effect
import Holos.Store.Backend
import Holos.Engine.World
import Holos.Engine.WorldTheorems
import Holos.Store.MemoryBackend
import Holos.Holon.Model
import Holos.Holon.Event
import Holos.Shacl.EngineRun
import Holos.Holon.Registry
import Holos.Holon.Tick
import Holos.Holon.Branch
import Holos.Lib.Edits
import Holos.Engine.WorldQuads
import Holos.Holon.RegistryTheorems
import Holos.Holon.TickTheorems
import Holos.Holon.TickRuns
import Holos.Holon.BranchTheorems
import Holos.Holon.History
import Holos.Shacl.EngineRunTheorems
import Holos.Holon.RulesTheorems
import Holos.Store.RocksFailure
import Holos.Store.HashedKeys
import Holos.Lib.MergeSort
import Holos.Store.BulkFiles
import Holos.Store.DictSort
import Holos.Store.DictSortTheorems
import Holos.InlineOrder
import Holos.Calendar
import Holos.InlineTheorems
import Holos.Engine.RangeTheorems
import Holos.Lib.Apart
import Holos.Lib.Held
import Holos.Engine.SpillRows
import Holos.Engine.TopK
import Holos.Engine.Bindjoin.Abandon
import Holos.Engine.TopKTheorems
import Holos.Engine.Access
import Holos.Engine.AccessTheorems
import Holos.Engine.Load
import Holos.Engine.LoadThreads
import Holos.Engine.SessionWrites
import Holos.Server.Gsp
import Holos.Server.GspReads
import Holos.Server.Documents
import Holos.Server.GspWrites
import Holos.Engine.Spill
import Holos.Engine.SpillRecords
import Holos.Engine.SpillDistinct
import Holos.Engine.SpillSort
import Holos.Lib.Fallback
import Holos.Lib.Find
import Holos.Engine.KeyOrder
import Holos.Engine.KeyOrderTheorems
import Holos.Lib.Saturation
import Holos.Engine.Rules
import Holos.Engine.Idle
import Holos.Engine.RulesFixpoint
import Holos.Lib.Worklist
import Holos.Engine.Entailment
import Holos.Engine.EntailmentClosure
import Holos.Engine.EntailmentTheorems
import Holos.Sparql.Sequences
import Holos.Engine.Distinct
import Holos.Engine.DistinctTheorems
import Holos.Shacl.BridgeRuns
import Holos.Shacl.BridgeTheorems
import Holos.Holon.RegistryLoads
import Holos.Holon.BranchCopies
import Holos.Lib.PathExpr
import Holos.Shacl.Access
import Holos.Shacl.Paths
import Holos.Shacl.PathTheorems
import Holos.Lib.Sweep
import Holos.Shacl.Shapes
import Holos.Shacl.Validate
import Holos.Shacl.ClassTheorems
import Holos.Lib.Binary
import Holos.Shacl.Compare
import Holos.Shacl.CompareTheorems
import Holos.Shacl.Incremental
import Holos.Shacl.IncrementalTheorems
import Holos.Lib.Labels
import Holos.Lib.Utf8
import Holos.Lib.Percent
import Holos.Lib.Text
import Holos.Lib.Assoc
import Holos.Stats.Statistics
import Holos.Stats.StatisticsTheorems
import Holos.Lib.Cursor
import Holos.Stats.Snapshot
import Holos.Stats.SnapshotTheorems
import Holos.Lib.Greedy
import Holos.Sparql.Meaning
import Holos.Stats.Reorder
import Holos.Stats.ReorderTheorems
import Holos.Sparql.Scope
import Holos.Engine.Service
import Holos.Engine.ServiceTheorems
import Holos.Engine.Percent
import Holos.Engine.PercentTheorems
import Holos.Engine.Substring
import Holos.Engine.Spatial
import Holos.Engine.SpatialTheorems
import Holos.Security.Principals
import Holos.Server.Http
import Holos.Server.HttpTheorems
import Holos.Server.Principals
import Holos.Server.Multipart
import Holos.Server.MultipartTheorems
import Holos.Server.Dispatch
import Holos.Server.DispatchTheorems
import Holos.Shacl.Checks
import Holos.Engine.SessionPolicy
import Holos.Engine.SessionRuns
import Holos.Store.RocksBackend
import Holos.Lib.Collect
import Holos.Lib.Slice
import Holos.ShaclEngine.Graph
import Holos.ShaclEngine.GraphTheorems
import Holos.ShaclEngine.Rules
import Holos.ShaclEngine.RulesTheorems
import Holos.Lib.Levels
import Holos.ShaclEngine.Path
import Holos.ShaclEngine.PathTheorems
import Holos.ShaclEngine.Inference
import Holos.Store.RocksReopen
import Holos.Store.Naming
import Holos.Engine.SessionCurrent
import Holos.Engine.Update
import Holos.Engine.WorldRules
import Holos.Engine.UpdateTheorems
import Holos.Engine.Ledger
import Holos.Engine.LedgerTheorems
import Holos.Engine.Tiers
import Holos.Engine.Crashes
import Holos.Engine.UpdateRuns
import Holos.Engine.Equality
import Holos.Engine.EqualityTheorems
