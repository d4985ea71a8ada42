import BwGraph.Lib.Lww
import BwGraph.Lib.Chain
import BwGraph.Lib.Bytes
import BwGraph.Lib.Run
import BwGraph.Lib.OrdMap
import BwGraph.Lib.WriteBack
import BwGraph.Lib.ForkJoin
import BwGraph.Lib.Walk
import BwGraph.Lib.Forest
import BwGraph.Lib.Plurality
import BwGraph.Lib.ProbeTable
import BwGraph.Lib.CountingSort
import BwGraph.Lib.DList
import BwGraph.Lib.RankedForest
import BwGraph.Lib.Varint
import BwGraph.Lib.BreadthFirst
import BwGraph.Lib.Labelling
import BwGraph.Lib.FreshDigraph
import BwGraph.Lib.BinarySearch
import BwGraph.Lib.Rows
import BwGraph.Common.Type
import BwGraph.Common.PtvCodec
import BwGraph.Common.PtvIter
import BwGraph.Common.Latch
import BwGraph.Io.Csr
import BwGraph.Io.Slots
import BwGraph.Io.Delta
import BwGraph.Io.PageData
import BwGraph.Io.Builder
import BwGraph.Io.Index
import BwGraph.Io.Capacity
import BwGraph.Io.IndexMatrix
import BwGraph.Io.CsrObject
import BwGraph.Io.CsrRegions
import BwGraph.Io.CsrPageBuilder
import BwGraph.Io.CsrLinks
import BwGraph.Io.CsrInsert
import BwGraph.Io.CsrBounds
import BwGraph.Storage.DiskManager
import BwGraph.Storage.PageFile
import BwGraph.Buf.BufPool
import BwGraph.Buf.PageMap
import BwGraph.Buf.PageMapRun
import BwGraph.Buf.DeltaPool
import BwGraph.Buf.DeltaFlusher
import BwGraph.Buf.FramePool
import BwGraph.Buf.FrameSound
import BwGraph.Buf.FrameLists
import BwGraph.Buf.Eviction
import BwGraph.Index.VertexIndex
import BwGraph.Index.Reclaim
import BwGraph.Index.VertexFile
import BwGraph.Part.Reorder
import BwGraph.Part.Smo
import BwGraph.Part.Merge
import BwGraph.Part.Replace
import BwGraph.Part.Publish
import BwGraph.Part.BlockGraph
import BwGraph.Part.PageSize
import BwGraph.Part.SplitPacking
import BwGraph.Part.ReorderCom
import BwGraph.Part.ReorderPlain
import BwGraph.Part.BfsReorder
import BwGraph.Part.Partition
import BwGraph.Part.CompressIds
import BwGraph.Part.PartPages
import BwGraph.Part.Sparse
import BwGraph.Io.CsrTimestamps
import BwGraph.Io.CsrRecords
import BwGraph.Part.PartitionFile
import BwGraph.Io.CsrRebuild
import BwGraph.Io.CsrDeltas
import BwGraph.Db.State
import BwGraph.Db.Dyn
import BwGraph.Db.Invariant
import BwGraph.Db.Consolidation
import BwGraph.Db.Run
import BwGraph.Db.Build
import BwGraph.Db.BuildPacked
import BwGraph.Db.Refinement
import BwGraph.Db.Unpublished
import BwGraph.Db.Reopen
import BwGraph.Db.Direct
import BwGraph.Db.SlotRuns
import BwGraph.Db.IndexFile
import BwGraph.Db.IndexImage
import BwGraph.Db.Tat
import BwGraph.Db.TatLevels
import BwGraph.Db.TatTree
import BwGraph.Db.TatComplete
import BwGraph.Db.TatSmo
import BwGraph.Db.TatRun
import BwGraph.Db.PageNumbers
import BwGraph.Db.NumberRuns
import BwGraph.Db.TatSplit
import BwGraph.Db.External
import BwGraph.Db.GiantCodec
import BwGraph.Db.GiantDeltas
import BwGraph.Db.PropertyStore
import BwGraph.Db.Vertices
import BwGraph.Db.Pending
import BwGraph.Db.Virtual
import BwGraph.Db.Manual
import BwGraph.Db.Updates
import BwGraph.Db.Logged
import BwGraph.Db.Cached
import BwGraph.Db.DeltaRead
import BwGraph.Db.DeleteVertex
import BwGraph.Db.VertexBatch
import BwGraph.Db.Housed
import BwGraph.Db.NewVertex
import BwGraph.Algo.Bfs
import BwGraph.Algo.Wcc
import BwGraph.Algo.EdgeMap
import BwGraph.Algo.WccSv
import BwGraph.Algo.WccMap
import BwGraph.Algo.Cdlp
import BwGraph.Algo.CdlpVotes
import BwGraph.Algo.Scan
import BwGraph.Algo.PageScan
import BwGraph.Algo.CdlpMap
import BwGraph.Algo.BfsMap
import BwGraph.Algo.BfsBlock
import BwGraph.Algo.BfsBlockParallel
import BwGraph.Mem.SmallGraph
import BwGraph.Mem.SubMap
import BwGraph.Mem.SubCom
import BwGraph.Mem.GraphFile
import BwGraph.Mem.GraphText
import BwGraph.Mem.HasEdge
import BwGraph.Mem.SampleWalk
import BwGraph.Mem.FromPage
import BwGraph.Mem.VertexSet
import BwGraph.Conc.Model
import BwGraph.Conc.Chains
import BwGraph.Txn.Manager
import BwGraph.Txn.Db
import BwGraph.Txn.Txn
import BwGraph.Txn.Run
import BwGraph.Txn.Cleanup
import BwGraph.Txn.Snapshot
import BwGraph.Txn.Serial
import BwGraph.Txn.History
import BwGraph.Txn.Smo
import BwGraph.Txn.Replacement
import BwGraph.Txn.Consolidation
import BwGraph.Txn.Deferred
import BwGraph.Txn.Reopen
