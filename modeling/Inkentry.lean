import Inkentry.Lib.SortedSet
import Inkentry.Lib.Staged
import Inkentry.Lib.Transaction
import Inkentry.Index.Chunk
import Inkentry.Index.Chunker
import Inkentry.Index.Markdown
import Inkentry.Index.Syntax
import Inkentry.Index.Walk
import Inkentry.Index.RubyBody
import Inkentry.Index.Gaps
import Inkentry.Index.ChunkBound
import Inkentry.Lib.TextSlices
import Inkentry.Index.Held
import Inkentry.Index.GapCover
import Inkentry.Index.CodeKept
import Inkentry.Index.EmbedPhase
import Inkentry.Index.Db
import Inkentry.Index.FileView
import Inkentry.Index.Parse
import Inkentry.Index.FileStage
import Inkentry.Index.Phases
import Inkentry.Index.RunView
import Inkentry.Index.Resume
import Inkentry.Index.Vectors
import Inkentry.Index.Incremental
import Inkentry.Lib.FirstMin
import Inkentry.Lib.IdemFold
import Inkentry.Lib.IpAddr
import Inkentry.Lib.Memo
import Inkentry.Anchors.Pass
import Inkentry.Anchors.Reconcile
import Inkentry.Lib.OrderLimit
import Inkentry.Lib.OrderedCut
import Inkentry.Lib.Cursor
import Inkentry.Lib.KeyedStamp
import Inkentry.Lib.Pass
import Inkentry.Record
import Inkentry.GitNotes.Archive
import Inkentry.GitNotes.Body
import Inkentry.GitNotes.Fold
import Inkentry.GitNotes.FoldSpec
import Inkentry.GitNotes.FoldOrder
import Inkentry.Lib.Runs
import Inkentry.Lib.SplitQueue
import Inkentry.Lib.SharedCell
import Inkentry.Lib.SortedMap
import Inkentry.OrgTokens
import Inkentry.CloudSession.World
import Inkentry.CloudSession.SingleUse
import Inkentry.CloudApi.PagedReads
import Inkentry.CloudSession.Renewal
import Inkentry.GitNotes.Repo
import Inkentry.GitNotes.Update
import Inkentry.Lib.TextLines
import Inkentry.Lib.SplitText
import Inkentry.Lib.WordRuns
import Inkentry.Lib.JoinedText
import Inkentry.Harvest.GitLog
import Inkentry.Harvest.Loop
import Inkentry.Harvest.LoopRun
import Inkentry.Harvest.Sessions
import Inkentry.Harvest.StripAnsi
import Inkentry.Lib.Utf8
import Inkentry.Memory.Store
import Inkentry.Memory.PointInTime
import Inkentry.Memory.PointInTimeRun
import Inkentry.Memory.SourceRefs
import Inkentry.Memory.WriteThrough
import Inkentry.Memory.Alignment
import Inkentry.Memory.Dedupe
import Inkentry.Memory.DedupeRun
import Inkentry.Memory.DedupeEdges
import Inkentry.Memory.Reconcile
import Inkentry.Memory.ReconcileRun
import Inkentry.Memory.Succession
import Inkentry.Memory.Tags
import Inkentry.Memory.Sync
import Inkentry.Server.Feed
import Inkentry.Relay.Session
import Inkentry.Relay.World
import Inkentry.Relay.CursorSafety
import Inkentry.Relay.Sharing
import Inkentry.Sync.Round
import Inkentry.Sync.LostEntries
import Inkentry.Lib.NearestCut
import Inkentry.Lib.OffsetPages
import Inkentry.Lib.GreedyPack
import Inkentry.Lib.OverlapWindows
import Inkentry.Tokens
import Inkentry.Context.Budget
import Inkentry.Context.Selection
import Inkentry.Candidates
import Inkentry.Memory.Search
import Inkentry.Memory.SearchCompleteness
import Inkentry.Server.ClientIp
import Inkentry.Server.Columns
import Inkentry.Search.Lexical
import Inkentry.Search.Agreement
import Inkentry.Server.Db
import Inkentry.Server.Writes
import Inkentry.Server.Projects
import Inkentry.Server.Batch
import Inkentry.Server.BatchRun
import Inkentry.Server.Repush
import Inkentry.Server.Resolutions
import Inkentry.Server.Search
import Inkentry.Server.AddNote
import Inkentry.Server.ProjectDims
import Inkentry.Server.BatchTextOnly
import Inkentry.Server.SameEntries
import Inkentry.Server.TextOnly
import Inkentry.Server.Stream
import Inkentry.Server.Isolation
import Inkentry.Carrier.Import
import Inkentry.Memory.FileLinks
import Inkentry.Carrier.Completeness
import Inkentry.Carrier.ImportIsolation
import Inkentry.Carrier.ReadPath
import Inkentry.Carrier.ImportMarker
import Inkentry.Carrier.MergeMarker
import Inkentry.Carrier.Convergence
import Inkentry.Carrier.PublishRuns
import Inkentry.Dump.Record
import Inkentry.Dump.Reader
import Inkentry.Dump.ReaderSpec
import Inkentry.Dump.Wire
import Inkentry.Dump.Container
import Inkentry.Dump.ReaderOrder
import Inkentry.Dump.Quotient
import Inkentry.Dump.Import
import Inkentry.Dump.StorePasses
import Inkentry.Dump.Reimport
import Inkentry.Dump.FreshStores
import Inkentry.Dump.Atomicity
import Inkentry.Succession
import Inkentry.Lib.RandomSurfer
import Inkentry.Index.PageRank
import Inkentry.Lib.GreedyRank
import Inkentry.Index.Mmr
import Inkentry.ServerKeys
import Inkentry.OrgResolution
import Inkentry.Index.Rebuild
import Inkentry.Lib.Firsts
import Inkentry.Lib.RankFusion
import Inkentry.Search.Hybrid
import Inkentry.Search.RowIds
import Inkentry.Lib.Leaders
import Inkentry.Search.AllDbs
import Inkentry.Lib.FirstCut
import Inkentry.Lib.Lowercase
import Inkentry.ProjectId
import Inkentry.Lib.IpText
import Inkentry.Lib.Whatwg
import Inkentry.Lib.WhatwgText
import Inkentry.Lib.Thinning
import Inkentry.Transport
import Inkentry.Lib.WhatwgPath
import Inkentry.ProjectUrl
import Inkentry.Sync.Retry
import Inkentry.Lib.Utf8Chunks
import Inkentry.Lib.EventStream
import Inkentry.Llm.Events
import Inkentry.Llm.Decoding
import Inkentry.Llm.Completion
import Inkentry.GitNotes.Batch
import Inkentry.Memory.PullOrder
import Inkentry.Sync.PagedPull
import Inkentry.Relay.PushResults
import Inkentry.Sync.Resumption
import Inkentry.Superseding
import Inkentry.Lib.ParentTree
import Inkentry.Graph.Locals
import Inkentry.Graph.Scoping
import Inkentry.Index.RubyRuns
import Inkentry.CandidateBands
import Inkentry.Memory.FilePlaces
import Inkentry.GitNotes.CatFile
import Inkentry.Lib.Base64Url
import Inkentry.CloudSession.AccessToken
import Inkentry.Lib.FixedWindow
import Inkentry.Server.RateLimiter
import Inkentry.Server.RateWindows
import Inkentry.Server.Repair
import Inkentry.Server.RepairSweep
import Inkentry.Storage.MigrationLadder
import Inkentry.Storage.LadderRuns
