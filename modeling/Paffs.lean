import Paffs.AddressCache.Device
import Paffs.AddressCache.Evictions
import Paffs.AddressCache.Map
import Paffs.AddressCache.PageAddressCache
import Paffs.AddressCache.PathSpec
import Paffs.AddressCache.Represents
import Paffs.AddressCache.StateSpec
import Paffs.Area.AreaManagement
import Paffs.Area.Buffer
import Paffs.Area.Collecting
import Paffs.Area.Device
import Paffs.Area.DirtyCount
import Paffs.Area.Flash
import Paffs.Area.Format
import Paffs.Area.Frame
import Paffs.Area.Guarded
import Paffs.Area.Interrupted
import Paffs.Area.Loading
import Paffs.Area.Logged
import Paffs.Area.Mounting
import Paffs.Area.NextBestArea
import Paffs.Area.Operations
import Paffs.Area.PageStatus
import Paffs.Area.Placement
import Paffs.Area.Reading
import Paffs.Area.Recovery
import Paffs.Area.Replay
import Paffs.Area.SummaryCache
import Paffs.Area.SummaryFormat
import Paffs.Area.WritableArea
import Paffs.Common.BitList
import Paffs.Common.BitListSearch
import Paffs.Common.Types
import Paffs.DataIO.Bytes
import Paffs.DataIO.File
import Paffs.DataIO.FileSpec
import Paffs.DataIO.Read
import Paffs.DataIO.Reserved
import Paffs.DataIO.Run
import Paffs.DataIO.Shared
import Paffs.DataIO.Tail
import Paffs.DataIO.Tracked
import Paffs.DataIO.Truncate
import Paffs.DataIO.Write
import Paffs.Device.FileTree
import Paffs.Device.Files
import Paffs.Device.Lookup
import Paffs.Device.Mirrors
import Paffs.Device.Names
import Paffs.Device.Namespace
import Paffs.Device.Objects
import Paffs.Device.Paths
import Paffs.Device.PowerLoss
import Paffs.Device.Recovery
import Paffs.Device.Refinement
import Paffs.Device.Restoring
import Paffs.Device.Sessions
import Paffs.Device.Unique
import Paffs.Directory.Entries
import Paffs.Directory.Map
import Paffs.Directory.ParserSafety
import Paffs.Directory.Parsing
import Paffs.Directory.Records
import Paffs.Directory.Shared
import Paffs.Driver.Simu
import Paffs.Driver.YaffsEcc
import Paffs.Inodes.Pool
import Paffs.Inodes.References
import Paffs.Journal.Atomicity
import Paffs.Journal.PageStateMachine
import Paffs.Journal.Replay
import Paffs.Journal.Success
import Paffs.Journal.TreeRecovery
import Paffs.Lib.Ascending
import Paffs.Lib.Bytes
import Paffs.Lib.Layout
import Paffs.Lib.Resume
import Paffs.Lib.Tiling
import Paffs.Lib.Writes
import Paffs.Persistence.Dispatch
import Paffs.Persistence.Entry
import Paffs.Persistence.Journal
import Paffs.Persistence.Layout
import Paffs.Persistence.Mram
import Paffs.Persistence.Position
import Paffs.Persistence.Raw
import Paffs.Persistence.RoundTrip
import Paffs.Persistence.Safety
import Paffs.Persistence.View
import Paffs.Superblock.Chain
import Paffs.Superblock.ChainElement
import Paffs.Superblock.ChainPages
import Paffs.Superblock.ChainRuns
import Paffs.Superblock.Index
import Paffs.Superblock.RoundTrip
import Paffs.Superblock.SuperChain
import Paffs.Superblock.SuperChainRuns
import Paffs.Superblock.SuperChainSpec
import Paffs.Tree.Btree
import Paffs.Tree.BtreeSpec
import Paffs.Tree.Cache
import Paffs.Tree.CacheCommit
import Paffs.Tree.CacheSpec
import Paffs.Tree.CachedInsert
import Paffs.Tree.CachedInsertSpec
import Paffs.Tree.CommitSpec
import Paffs.Tree.Delete
import Paffs.Tree.DeleteSpec
import Paffs.Tree.Evict
import Paffs.Tree.FreeNodes
import Paffs.Tree.InsertSpec
import Paffs.Tree.Invariant
import Paffs.Tree.Locks
import Paffs.Tree.Map
import Paffs.Tree.Node
import Paffs.Tree.Shape
