import CosmoOS.Lib.Fallible
import CosmoOS.Cosmofs.Pool
import CosmoOS.Cosmofs.State
import CosmoOS.Cosmofs.Space
import CosmoOS.Cosmofs.Buf
import CosmoOS.Cosmofs.Extent
import CosmoOS.Cosmofs.ExtentMap
import CosmoOS.Cosmofs.ExtentStore
import CosmoOS.Cosmofs.Rollback
import CosmoOS.Cosmofs.Directory
import CosmoOS.Cosmofs.Dirent
import CosmoOS.Cosmofs.DirBlocks
import CosmoOS.Cosmofs.Namespace
import CosmoOS.Cosmofs.Rename
import CosmoOS.Lib.Tally
import CosmoOS.Cosmofs.LinkCount
import CosmoOS.Cosmofs.NameOps
import CosmoOS.Cosmofs.RenameCount
import CosmoOS.Cosmofs.Counters
import CosmoOS.Lib.SlotTree
import CosmoOS.Cosmofs.Cow
import CosmoOS.Cosmofs.Csum
import CosmoOS.Cosmofs.CsumTree
import CosmoOS.Cosmofs.CsumFree
import CosmoOS.Cosmofs.InodeMap
import CosmoOS.Lib.Lz77
import CosmoOS.Lz4.Format
import CosmoOS.Lz4.Decode
import CosmoOS.Lz4.Compress
import CosmoOS.Storage.Pool
import CosmoOS.Storage.Copies
import CosmoOS.Storage.Mirror
import CosmoOS.Cosmofs.Resilver
import CosmoOS.Cosmofs.ResilverCopy
import CosmoOS.Cosmofs.ResilverWalk
import CosmoOS.Cosmofs.ResilverFinish
import CosmoOS.Cosmofs.ResilverRun
import CosmoOS.Lib.Dyadic
import CosmoOS.Memory.Buddy
import CosmoOS.Lib.Transition
import CosmoOS.Memory.Asid
import CosmoOS.Lib.Segments
import CosmoOS.Memory.Regions
import CosmoOS.Memory.UserSpace
import CosmoOS.Memory.SpaceRuns
import CosmoOS.Lib.Holders
import CosmoOS.Memory.CowFork
import CosmoOS.Core.Quiesce
import CosmoOS.Core.QuiesceRuns
import CosmoOS.Scheduler.Mutex
import CosmoOS.Scheduler.RunQueues
import CosmoOS.Scheduler.Balance
import CosmoOS.Object.Refcount
import CosmoOS.Object.Handles
import CosmoOS.Lib.Serial
import CosmoOS.Network.Tcp
import CosmoOS.Network.TcpReset
import CosmoOS.Network.TcpRexmit
import CosmoOS.Network.TcpSender
import CosmoOS.Network.TcpCalls
import CosmoOS.Network.TcpRuns
import CosmoOS.Network.TcpStates
import CosmoOS.Network.TcpStream
import CosmoOS.Network.TcpWindow
import CosmoOS.Network.TcpFin
import CosmoOS.Network.TcpPersist
import CosmoOS.Lib.Reassembly
import CosmoOS.Network.TcpQueue
import CosmoOS.Network.TcpKept
import CosmoOS.Network.TcpReceive
import CosmoOS.Lib.OnesComplement
import CosmoOS.Network.Cksum
import CosmoOS.Network.Firewall
import CosmoOS.Network.FirewallFlows
import CosmoOS.Network.FirewallShares
import CosmoOS.Ipc.UnixLocks
import CosmoOS.Core.Timer
import CosmoOS.Ipc.FutexTimeout
import CosmoOS.Cosmofs.Layout
import CosmoOS.Pkg.Kept
