import MonadServices.Archive.Alloy
import MonadServices.Archive.ArchiveWorker
import MonadServices.Archive.BftArchiveWorker
import MonadServices.Archive.BlockRepr
import MonadServices.Archive.BlockWriter
import MonadServices.Archive.BlockWriterStream
import MonadServices.Archive.CallFrame
import MonadServices.Archive.Checker
import MonadServices.Archive.CheckerOrder
import MonadServices.Archive.CheckerWorker
import MonadServices.Archive.CircuitBreaker
import MonadServices.Archive.Dynamo
import MonadServices.Archive.FaultChunks
import MonadServices.Archive.FaultFixer
import MonadServices.Archive.FolderArchiver
import MonadServices.Archive.FolderArchiverSafe
import MonadServices.Archive.Fs
import MonadServices.Archive.IndexRepr
import MonadServices.Archive.IndexWorker
import MonadServices.Archive.Kv
import MonadServices.Archive.LogsIndex
import MonadServices.Archive.MigrateCapped
import MonadServices.Archive.Mongo
import MonadServices.Archive.MongoRace
import MonadServices.Archive.Offsets
import MonadServices.Archive.PartialReads
import MonadServices.Archive.RecheckMetrics
import MonadServices.Archive.Rechecker
import MonadServices.Archive.Scanner
import MonadServices.Archive.ScannerSafe
import MonadServices.Archive.TraceCodec
import MonadServices.Archive.TxIndex
import MonadServices.Archive.Worker
import MonadServices.Lib.Action
import MonadServices.Lib.Broadcast
import MonadServices.Lib.Buffered
import MonadServices.Lib.Bytes
import MonadServices.Lib.Checked
import MonadServices.Lib.Chunks
import MonadServices.Lib.Classes
import MonadServices.Lib.Collect
import MonadServices.Lib.Compare
import MonadServices.Lib.Decimal
import MonadServices.Lib.DepthList
import MonadServices.Lib.DepthTree
import MonadServices.Lib.Extend
import MonadServices.Lib.Faulty
import MonadServices.Lib.FileTree
import MonadServices.Lib.Followers
import MonadServices.Lib.Frontier
import MonadServices.Lib.Hex
import MonadServices.Lib.Inevitable
import MonadServices.Lib.IterOrder
import MonadServices.Lib.Json
import MonadServices.Lib.Loop
import MonadServices.Lib.Multimap
import MonadServices.Lib.PrefixSum
import MonadServices.Lib.Publish
import MonadServices.Lib.QueueWalk
import MonadServices.Lib.Range
import MonadServices.Lib.Recent
import MonadServices.Lib.Result
import MonadServices.Lib.Rlp
import MonadServices.Lib.RlpWalk
import MonadServices.Lib.Slots
import MonadServices.Lib.SortedMap
import MonadServices.Primitives
import MonadServices.Query.AncestorStatus
import MonadServices.Query.BlobStore
import MonadServices.Query.Cell
import MonadServices.Query.Family
import MonadServices.Query.InMemoryMetaStore
import MonadServices.Query.IndexRange
import MonadServices.Query.KeyCodec
import MonadServices.Query.MetaTable
import MonadServices.Query.Read
import MonadServices.Query.Record
import MonadServices.Query.SqliteMetaStore
import MonadServices.Query.Tables
import MonadServices.Query.TraceAddress
import MonadServices.Query.Validate.Complete
import MonadServices.Query.Writer.Basic
import MonadServices.Query.Writer.BitmapStage
import MonadServices.Query.Writer.Commit
import MonadServices.Query.Writer.Exactness
import MonadServices.Query.Writer.Flush
import MonadServices.Query.Writer.PageStats
import MonadServices.Query.Writer.Recovery
import MonadServices.Query.Writer.Run
import MonadServices.Rpc.BlockBuffer
import MonadServices.Rpc.BlockBufferRace
import MonadServices.Rpc.BlockBufferRetention
import MonadServices.Rpc.BlockReference
import MonadServices.Rpc.Blocks
import MonadServices.Rpc.CallRequest
import MonadServices.Rpc.CallTree
import MonadServices.Rpc.CollectLogs
import MonadServices.Rpc.EstimateGas
import MonadServices.Rpc.EthCall
import MonadServices.Rpc.EthCallHandler
import MonadServices.Rpc.EventServer
import MonadServices.Rpc.FeeHistory
import MonadServices.Rpc.FeeHistoryRewards
import MonadServices.Rpc.FillTransaction
import MonadServices.Rpc.GetLogs
import MonadServices.Rpc.GetLogsAtHash
import MonadServices.Rpc.Grouping
import MonadServices.Rpc.JsonSerializedLen
import MonadServices.Rpc.Jsonrpc
import MonadServices.Rpc.LogIndex
import MonadServices.Rpc.Receipts
import MonadServices.Rpc.RpcHandler
import MonadServices.Rpc.SendRawTransactionSync
import MonadServices.Rpc.SimulateFees
import MonadServices.Rpc.TxPoolBridge
import MonadServices.Rpc.TxPoolState
import MonadServices.Rpc.Websocket
import MonadServices.Rpc.WebsocketHandler
