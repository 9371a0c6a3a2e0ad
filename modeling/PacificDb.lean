import PacificDb.Compression.Codec
import PacificDb.Compression.RoundTrip
import PacificDb.Engine.Delete
import PacificDb.Engine.Find
import PacificDb.Engine.OneDocument
import PacificDb.Engine.Projection
import PacificDb.Engine.Stamp
import PacificDb.Engine.Update
import PacificDb.Engine.VersionOrder
import PacificDb.Index.Directory
import PacificDb.Index.History
import PacificDb.Index.Log
import PacificDb.Index.Segment
import PacificDb.Index.State
import PacificDb.Json
import PacificDb.JsonText.Document
import PacificDb.JsonText.Escape
import PacificDb.JsonText.Number
import PacificDb.JsonText.Prefix
import PacificDb.Lib.BestFirst
import PacificDb.Lib.Bitmap
import PacificDb.Lib.Bytes
import PacificDb.Lib.Checks
import PacificDb.Lib.Decimal
import PacificDb.Lib.Intervals
import PacificDb.Lib.JsonGrammar
import PacificDb.Lib.KWayMerge
import PacificDb.Lib.KeyedOrder
import PacificDb.Lib.LastMax
import PacificDb.Lib.Lz77
import PacificDb.Lib.Machine
import PacificDb.Lib.OrderStatistic
import PacificDb.Lib.Path
import PacificDb.Lib.PriorityQueue
import PacificDb.Lib.Ranges
import PacificDb.Lib.ReadModifyWrite
import PacificDb.Lib.Reader
import PacificDb.Lib.SameOn
import PacificDb.Lib.Sha256
import PacificDb.Lib.SortedBlocks
import PacificDb.Lib.SortedMap
import PacificDb.Lsm.Checkpoint
import PacificDb.Lsm.Collection
import PacificDb.Lsm.CollectionKey
import PacificDb.Lsm.Compaction
import PacificDb.Lsm.Digest
import PacificDb.Lsm.Documents
import PacificDb.Lsm.Drop
import PacificDb.Lsm.Files
import PacificDb.Lsm.IndexedLookup
import PacificDb.Lsm.Layers
import PacificDb.Lsm.Listed
import PacificDb.Lsm.LiveReplay
import PacificDb.Lsm.Manifest
import PacificDb.Lsm.ManifestText
import PacificDb.Lsm.MergedScan
import PacificDb.Lsm.PointReads
import PacificDb.Lsm.Progress
import PacificDb.Lsm.Publish
import PacificDb.Lsm.Reads
import PacificDb.Lsm.Recency
import PacificDb.Lsm.RowView
import PacificDb.Lsm.SettledReads
import PacificDb.Lsm.Snapshot
import PacificDb.Lsm.Visibility
import PacificDb.Media.Chunks
import PacificDb.Media.Inventory
import PacificDb.Media.NewChunk
import PacificDb.Media.Progress
import PacificDb.Media.Upload
import PacificDb.Media.UploadKeeps
import PacificDb.Media.UploadRuns
import PacificDb.Query.Aggregate
import PacificDb.Query.Meaning
import PacificDb.Query.Parser
import PacificDb.Query.PlainFilters
import PacificDb.Raft.Backoff
import PacificDb.Raft.CacheExact
import PacificDb.Raft.CommitOrder
import PacificDb.Raft.Election
import PacificDb.Raft.Follower
import PacificDb.Raft.GroupFsync
import PacificDb.Raft.Install
import PacificDb.Raft.LastPosition
import PacificDb.Raft.LeaderLog
import PacificDb.Raft.LogAppend
import PacificDb.Raft.LogFile
import PacificDb.Raft.LogRewrite
import PacificDb.Raft.Node
import PacificDb.Raft.Payload
import PacificDb.Raft.Position
import PacificDb.Raft.Quorum
import PacificDb.Raft.RecoveryFence
import PacificDb.Raft.Replay
import PacificDb.Raft.Replicas
import PacificDb.Raft.SnapshotEnvelope
import PacificDb.Raft.SnapshotPublish
import PacificDb.Raft.Standalone
import PacificDb.Raft.TermCache
import PacificDb.Security.Crashes
import PacificDb.Security.Operations
import PacificDb.Security.Records
import PacificDb.Security.Store
import PacificDb.Server.Framing
import PacificDb.Shard.Boot
import PacificDb.Shard.Map
import PacificDb.Shard.Partition
import PacificDb.Shard.Runs
import PacificDb.Shard.SplitKey
import PacificDb.Sst.Bloom
import PacificDb.Sst.Decode
import PacificDb.Sst.Extents
import PacificDb.Sst.File
import PacificDb.Sst.Find
import PacificDb.Sst.Layout
import PacificDb.Sst.LazyRow
import PacificDb.Sst.Msgpack
import PacificDb.Sst.ReadBack
import PacificDb.Sst.RoundTrip
import PacificDb.Sst.RowBytes
import PacificDb.Sst.Value
import PacificDb.Sst.ValueRoundTrip
import PacificDb.Storage.Containment
import PacificDb.Storage.Identifier
import PacificDb.Tasks.Bookkeeping
import PacificDb.Tasks.Queue
import PacificDb.Tasks.Shard
import PacificDb.Ttl.Reaper
import PacificDb.Vector.Coverage
import PacificDb.Vector.Freshness
import PacificDb.Vector.Generation
import PacificDb.Vector.Graph
import PacificDb.Vector.History
import PacificDb.Vector.Hnsw
import PacificDb.Vector.Journal
import PacificDb.Vector.Links
import PacificDb.Vector.Operations
import PacificDb.Vector.Ordinary
import PacificDb.Vector.Reachable
import PacificDb.Vector.Score
import PacificDb.Vector.Served
import PacificDb.Vector.Source
import PacificDb.Wal.Append
import PacificDb.Wal.Crash
import PacificDb.Wal.Format
import PacificDb.Wal.GroupCommit
import PacificDb.Wal.Layout
import PacificDb.Wal.Legacy
import PacificDb.Wal.Lifetime
import PacificDb.Wal.Logical
import PacificDb.Wal.Reclaim
import PacificDb.Wal.Recovery
import PacificDb.Wal.RoundTrip
import PacificDb.Wal.Scan
import PacificDb.Wal.Segments
import PacificDb.Wal.Surviving
