import Furious.Compiler.Codegen
import Furious.Compiler.Planner
import Furious.Compiler.Registration
import Furious.Compiler.Variables
import Furious.Tx.Collecting
import Furious.Tx.Reclaiming
import Furious.Tx.Runs
import Furious.Tx.Timestamps
import Furious.Library.Inorder
import Furious.BTree.WellFormed
import Furious.Data.BlockCluster
import Furious.Data.BlockIter
import Furious.Data.Counters
import Furious.Data.Lifetimes
import Furious.Data.RawBitmap
import Furious.Data.Slots
import Furious.Data.Storage
import Furious.Data.TempTables
import Furious.Task.Emission
import Furious.Data.Cascade
import Furious.Data.Gather
import Furious.Data.Hashtable
import Furious.Data.Metadata
import Furious.Data.Reftable
import Furious.Memory.PageAllocator
import Furious.Memory.PoolFlush
import Furious.Memory.StackFlush
import Furious.Memory.Statistics
import Furious.Data.CascadeRuns
import Furious.Data.WorldRuns
import Furious.Task.Frames
import Furious.Query.Additions
import Furious.Query.PairRuns
