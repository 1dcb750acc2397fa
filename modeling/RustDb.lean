import RustDb.Lib.Bytes
import RustDb.Lib.SortedList
import RustDb.Lib.Prog
import RustDb.Lib.Contract
import RustDb.Lib.SearchTree
import RustDb.Types
import RustDb.Schema
import RustDb.Page.Basic
import RustDb.Page.Leaf
import RustDb.Page.Internal
import RustDb.Page.Split
import RustDb.Page.Borrow
import RustDb.Page.Meta
import RustDb.Bpm.Ops
import RustDb.Bpm.Eviction
import RustDb.Table
import RustDb.BTree.Tree
import RustDb.BTree.Rep
import RustDb.BTree.Get
import RustDb.BTree.Routing
import RustDb.BTree.SplitLoop
import RustDb.BTree.Insert
import RustDb.BTree.Merge
import RustDb.BTree.Borrow
import RustDb.BTree.Rebalance
import RustDb.BTree.Delete
import RustDb.Codec.Fields
import RustDb.Codec.Page
import RustDb.Codec.RoundTrip
import RustDb.Codec.Safety
import RustDb.Codec.Slots
import RustDb.Codec.Sizes
import RustDb.Codec.Errors
import RustDb.Lib.OrdMap
import RustDb.Page.LeafMap
import RustDb.Page.Siblings
import RustDb.Page.Separators
import RustDb.Page.Intact
import RustDb.FreeList
import RustDb.Disk.FileDisk
import RustDb.Bpm.Transparent
import RustDb.Bpm.Serve
import RustDb.Bpm.Threads
import RustDb.Create
import RustDb.Lib.Pack
import RustDb.Vacuum
import RustDb.Vacuum.Tree
import RustDb.Vacuum.Run
import RustDb.Allocate
import RustDb.Calls
import RustDb.Requests
import RustDb.Lib.Text
import RustDb.RawText
import RustDb.Lib.Gf2
import RustDb.Lib.Crc
import RustDb.Codec.Burst
import RustDb.Accounting
import RustDb.Runs
import RustDb.Bpm.Stands
import RustDb.Pooled
