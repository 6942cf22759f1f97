import Llbt.Lib.Bytes
import Llbt.Crc32c
import Llbt.Journal.Format
import Llbt.Journal.Record
import Llbt.Journal.Append
import Llbt.Journal.Crash
import Llbt.Db.Protection
import Llbt.Db.Open
import Llbt.FileHeader
import Llbt.Versions.Handle
import Llbt.GroupCommit.Isolation
import Llbt.GroupCommit.Closures
import Llbt.GroupCommit.Tickets
import Llbt.BPlusTree.Refine
import Llbt.Leaf.Strings
import Llbt.Leaf.SmallBlobs
import Llbt.Journal.Corruption
import Llbt.Encryption.Mappings
import Llbt.Encryption.Positions
import Llbt.FreeSpace.InMemory
import Llbt.FreeSpace.BackdateChecks
import Llbt.FreeSpace.Evacuation
import Llbt.BPlusTree.Bulk
import Llbt.BPlusTree.Sorted
import Llbt.Leaf.Classes
import Llbt.Leaf.Normalize
import Llbt.Leaf.BlockSplit
import Llbt.IntArray.Runs
import Llbt.IntArray.Bounds
import Llbt.IntArray.Unsigned
import Llbt.IntArray.GetChunk
import Llbt.TransactLog
import Llbt.Base64
import Llbt.Matchlike
import Llbt.CondVar
import Llbt.NamedRoots
