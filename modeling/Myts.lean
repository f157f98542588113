import Myts.Hh.Theorems.Restart
import Myts.Hh.Theorems.NodeProcessor
import Myts.Meta.Theorems.Replicas
import Myts.Meta.Theorems.Senders
import Myts.Meta.Theorems.TimeAxis
import Myts.Data.Theorems.Writer
import Myts.Data.Theorems.Pool
import Myts.Meta.Theorems.Client
import Myts.Restore.Theorems.Service
import Myts.Data.Theorems.ShardMapper
import Myts.Data.Theorems.Rpc
import Myts.Retention.Theorems.Service
import Myts.Tsm1.Theorems.Segments
import Myts.Tsm1.Theorems.Compaction
import Myts.Hh.Theorems.Cursor
import Myts.Hh.Theorems.DiskUsage
import Myts.Meta.Theorems.Placement
import Myts.Tsm1.Theorems.Snapshot
import Myts.Meta.Theorems.Planning
import Myts.Hh.Theorems.Service
import Myts.Data.Theorems.Encode
import Myts.Meta.Theorems.Precreate
import Myts.Meta.Theorems.Requests
import Myts.Data.Theorems.MetaExecutor
import Myts.Hh.Theorems.Lifecycle
import Myts.Meta.Theorems.Removal
import Myts.Meta.Theorems.Auth
import Myts.Data.Theorems.RemoteIterator
import Myts.Data.Theorems.Cost
import Myts.Tsm1.Theorems.CompositeKey
import Myts.Tsm1.Theorems.Enabling
import Myts.Tsm1.Theorems.FullyCompacted
import Myts.Tsm1.Theorems.Measurement
import Myts.Tsm1.Theorems.GroupCommit
import Myts.Tsm1.Theorems.Iterator
import Myts.Tsm1.Theorems.Replace
import Myts.Tsm1.Theorems.Merge
import Myts.Tsm1.Theorems.Ring
import Myts.Tsm1.Theorems.TombstoneFile
import Myts.Tsm1.Theorems.TombstoneStats
import Myts.Tsm1.Theorems.CacheDelete
import Myts.Tsm1.Theorems.CacheSize
import Myts.Tsm1.Theorems.Fanout
import Myts.Tsm1.Theorems.WalPool
import Myts.Tsm1.Theorems.Decoder
import Myts.Tsm1.Theorems.Summary
import Myts.Tsm1.Theorems.BlockIterator
import Myts.Tsm1.Theorems.Cost
