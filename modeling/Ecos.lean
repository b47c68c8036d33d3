import Ecos.Go.Path
import Ecos.Go.Strings
import Ecos.Go.Bufio
import Ecos.Go.Idutil
import Ecos.Logic.Machine
import Ecos.Logic.KeyLog
import Ecos.ByteMap
import Ecos.Infos
import Ecos.Object
import Ecos.ObjectId
import Ecos.RaftNode
import Ecos.RaftPublish
import Ecos.RaftSnapshot
import Ecos.Alaya.MetaStorage
import Ecos.Alaya.Recovery
import Ecos.Alaya.Service
import Ecos.Moon.InfoStorage
import Ecos.Moon.RocksDBInfoStorage
import Ecos.Moon.InfoListing
import Ecos.Moon.InfoSnapshot
import Ecos.Moon.InfoRegister
import Ecos.Moon.Proposals
import Ecos.Restart
import Ecos.CrashRecovery
import Ecos.Client.Writer
import Ecos.Client.Upload
import Ecos.Client.BlockPlacement
import Ecos.Client.Blocks
import Ecos.Client.Filling
import Ecos.Client.Closing
import Ecos.Client.UploadOutcome
import Ecos.Client.Reader
import Ecos.Client.ReadStream
import Ecos.Client.RoundTrip
import Ecos.Gaia.Transporter
import Ecos.Gaia.UploadBlockData
import Ecos.Gaia.StoredBlock
import Ecos.Rainbow.Message
import Ecos.Rainbow.Handlers
import Ecos.Rainbow.Framing
import Ecos.BlockReferences
import Ecos.Alaya.Pipelines
import Ecos.Alaya.RaftNodes
import Ecos.Alaya.RaftStart
import Ecos.Alaya.RaftGroups
import Ecos.Alaya.ConfChange
import Ecos.Watcher
import Ecos.Moon.Observers
import Ecos.Logic.Custody
import Ecos.Client.ChunkPool
import Ecos.Client.Multipart
import Ecos.Rainbow.MetaSync
import Ecos.Rainbow.Coherence
import Ecos.Cloud.Sun
import Ecos.Rainbow.Routing
import Ecos.Rainbow.SyncLoop
import Ecos.Gaia.UploadSafety
import Ecos.Client.UploadBlock
import Ecos.Client.VolumeOperator
import Ecos.Client.ListObjects
import Ecos.Gateway.DeleteBucket
import Ecos.Logic.Ledger
import Ecos.Client.WriterBlocks
import Ecos.Client.PartBlocks
import Ecos.OrphanedBlocks
import Ecos.Client.WritePart
import Ecos.Client.Completion
import Ecos.Client.Abort
import Ecos.Go.Int64
import Ecos.Go.Lines
import Ecos.Client.Seek
import Ecos.Client.FailedRead
import Ecos.Client.ContentAddress
import Ecos.Gateway.RangeRequest
import Ecos.Gateway.StreamingPut
import Ecos.Gaia.DeleteBlock
import Ecos.Rainbow.BlockRequest
import Ecos.Alaya.Acknowledge
import Ecos.Logic.Changes
import Ecos.Alaya.Reconfiguration
import Ecos.Watcher.Monitor
import Ecos.BucketId
import Ecos.Watcher.Reports
import Ecos.Client.PartInfo
import Ecos.Client.ChunkAlignment
import Ecos.Client.ObjectHash
import Ecos.Logic.Tiling
import Ecos.Client.Spans
import Ecos.RaftCompaction
import Ecos.Watcher.CommitTimer
import Ecos.Moon.AddNode
import Ecos.Etcd.Wal
import Ecos.RaftWal
import Ecos.RaftCrash
import Ecos.Go.BufioReader
import Ecos.Client.Download
import Ecos.Logic.Refinement
import Ecos.ObjectMap
import Ecos.ObjectStore.Progress
import Ecos.Logic.LogPrefix
import Ecos.Alaya.Consistency
