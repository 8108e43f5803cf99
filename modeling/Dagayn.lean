import Dagayn.Runs
import Dagayn.Dict
import Dagayn.RwLock
import Dagayn.GraphLock
import Dagayn.RwLockInv
import Dagayn.GraphLockInv
import Dagayn.TaskQueue
import Dagayn.TaskQueueInv
import Dagayn.Store
import Dagayn.FtsSync
import Dagayn.CallPasses
import Dagayn.Distinct
import Dagayn.Reexports
import Dagayn.TestedBy
import Dagayn.CallTargets
import Dagayn.ScipOverlay
import Dagayn.TestedByInv
import Dagayn.Markdown
import Dagayn.TargetNames
import Dagayn.FileTable
import Dagayn.WorkTree
import Dagayn.Update
import Dagayn.UpdateInv
import Dagayn.HeadStamp
import Dagayn.GraphSync
import Dagayn.BatchRows
import Dagayn.EmbeddingCache
import Dagayn.BatchEncoding
import Dagayn.StoreColumns
import Dagayn.EmbeddingStore
import Dagayn.ParsedFile
import Dagayn.FullBuild
import Dagayn.SkippedUpdates
import Dagayn.Wildcard
import Dagayn.IgnorePatterns
import Dagayn.Entries
import Dagayn.JsonText
import Dagayn.PyJson
import Dagayn.TaskPayload
import Dagayn.McpRelay
import Dagayn.GitPath
import Dagayn.Lines
import Dagayn.UnifiedDiff
import Dagayn.PyUnicode
import Dagayn.RenameEdit
import Dagayn.Difflib
import Dagayn.DiffHunks
import Dagayn.ApplyRefactor
import Dagayn.SimpleCycles
import Dagayn.Cycles
import Dagayn.Bridges
import Dagayn.Levels
import Dagayn.ImpactRadius
import Dagayn.WatchDaemon
import Dagayn.WatchDaemonInv
import Dagayn.Communities
import Dagayn.Grouping
import Dagayn.Lookups
import Dagayn.ReexportChains
import Dagayn.ImportTargets
import Dagayn.Lowercase
import Dagayn.KeywordQuery
import Dagayn.JsonFields
import Dagayn.MarkdownRefs
import Dagayn.ImplMembers
import Dagayn.Tally
import Dagayn.CommunityNames
import Dagayn.CommunityDetection
import Dagayn.CommunityParts
import Dagayn.IncrementalCommunities
import Dagayn.Alphanumeric
import Dagayn.ScipIndex
import Dagayn.ScipOutcomes
import Dagayn.Records
import Dagayn.VcsRecords
import Dagayn.Dependents
import Dagayn.NormalizeCode
import Dagayn.Signatures
import Dagayn.BaseSymbols
import Dagayn.Casefold
import Dagayn.Coverage
import Dagayn.UpdatePlan
import Dagayn.TestInference
import Dagayn.TestWalk
import Dagayn.Least
import Dagayn.TestWalkHops
import Dagayn.TestWalkOrders
import Dagayn.NearestTest
import Dagayn.CodeLayout
import Dagayn.ParamShape
import Dagayn.Condensation
import Dagayn.StronglyConnected
import Dagayn.BackwardEdges
import Dagayn.CycleCut
import Dagayn.JsonPaths
import Dagayn.OutputBudget
import Dagayn.ImportCycles
import Dagayn.QueryPages
import Dagayn.ByteSlices
import Dagayn.ReturnTypes
import Dagayn.HopSearch
import Dagayn.CallerWalk
import Dagayn.CallerHops
import Dagayn.SameFileCalls
import Dagayn.ImportScopes
import Dagayn.DeadCodeVerify
import Dagayn.AliasPatterns
import Dagayn.Jsonc
import Dagayn.JsoncLayout
import Dagayn.RustBlanks
import Dagayn.RustTokens
import Dagayn.StackWalk
import Dagayn.CfgTest
import Dagayn.CrateModules
import Dagayn.MarkdownHeadings
import Dagayn.Notebook
import Dagayn.MarkdownBodies
import Dagayn.MarkdownFences
import Dagayn.RelativeTargets
import Dagayn.DetectLanguage
import Dagayn.Discovery
import Dagayn.TopScores
import Dagayn.CommandWords
import Dagayn.JapaneseFts
import Dagayn.LineCursor
import Dagayn.MaskBytes
import Dagayn.NameResolution
import Dagayn.PosixResolve
import Dagayn.RealPath
import Dagayn.DepthFirst
import Dagayn.ReferencePasses
