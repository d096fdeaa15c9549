import CrowDB.Paxos.AcceptorRun
import CrowDB.Cluster.Durability
import CrowDB.Cluster.ReadIndex
import CrowDB.Cluster.Tenures
import CrowDB.Cluster.Handover
import CrowDB.Cluster.Membership
import CrowDB.Cluster.Retention
import CrowDB.Wal.GcReplay
import CrowDB.Wal.SegmentRecovery
import CrowDB.Cluster.Coalesce
import CrowDB.Kv.JournalScan
import CrowDB.DiskDb.ZoneSafety
import CrowDB.DiskDb.ZoneCalls
import CrowDB.ChunkDb.Cursor
import CrowDB.ChunkKv.WriteFence
import CrowDB.ChunkKv.AtMostOnce
import CrowDB.ChunkKv.Batching
import CrowDB.ChunkKv.SplitRecovery
import CrowDB.Iceberg.CommitOnce
import CrowDB.ChunkKv.PartitionScan
import CrowDB.BTree.AsyncScan
import CrowDB.ChunkStream.Retention
