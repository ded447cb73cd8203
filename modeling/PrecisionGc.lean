import PrecisionGc.Library.ByteStore
import PrecisionGc.Library.Except
import PrecisionGc.Library.While
import PrecisionGc.Library.Frontier
import PrecisionGc.Library.LinkedList
import PrecisionGc.Library.Runs
import PrecisionGc.Library.Regions
import PrecisionGc.Library.Words
import PrecisionGc.Library.BoundaryTags
import PrecisionGc.Library.WordStore
import PrecisionGc.Library.DigitalTree
import PrecisionGc.Library.Ring
import PrecisionGc.Model.Memory
import PrecisionGc.Model.Queue
import PrecisionGc.Model.Trace
import PrecisionGc.Model.Collect
import PrecisionGc.Model.Init
import PrecisionGc.Model.Mutator
import PrecisionGc.Model.SysAlloc
import PrecisionGc.Model.Dlmalloc
import PrecisionGc.Model.Blocks
import PrecisionGc.Model.Bins
import PrecisionGc.Model.Program
import PrecisionGc.Theory.TypeLayout
import PrecisionGc.Theory.Environment
import PrecisionGc.Theory.BlockStore
import PrecisionGc.Verify.Queue
import PrecisionGc.Verify.Trace
import PrecisionGc.Verify.Elements
import PrecisionGc.Verify.Links
import PrecisionGc.Verify.Heap
import PrecisionGc.Verify.Roots
import PrecisionGc.Verify.Mark
import PrecisionGc.Verify.Visits
import PrecisionGc.Verify.Lookup
import PrecisionGc.Theory.AbstractHeap
import PrecisionGc.Verify.Splice
import PrecisionGc.Verify.Sweep
import PrecisionGc.Verify.Steps
import PrecisionGc.Verify.Collection
import PrecisionGc.Verify.Allocation
import PrecisionGc.Verify.Detach
import PrecisionGc.Verify.Realloc
import PrecisionGc.Verify.Calls
import PrecisionGc.Verify.Runs
import PrecisionGc.Verify.Spares
import PrecisionGc.Verify.Survivors
import PrecisionGc.Verify.Progress
import PrecisionGc.Verify.Quiet
import PrecisionGc.Verify.RunResults
import PrecisionGc.Verify.Contents
import PrecisionGc.Verify.Failure
import PrecisionGc.Verify.Recognised
import PrecisionGc.Verify.AddressRange
import PrecisionGc.Verify.WorkQueue
import PrecisionGc.Verify.Mutex
import PrecisionGc.Verify.Retention
import PrecisionGc.Verify.StackBase
import PrecisionGc.Verify.SysAlloc
import PrecisionGc.Verify.Extension
import PrecisionGc.Verify.FootprintLimit
import PrecisionGc.Verify.Trigger
import PrecisionGc.Verify.Accounting
import PrecisionGc.Verify.Tiling
import PrecisionGc.Verify.Exchange
import PrecisionGc.Verify.Neighbours
import PrecisionGc.Verify.Coalesce
import PrecisionGc.Verify.Placement
import PrecisionGc.Verify.Release
import PrecisionGc.Verify.Requests
import PrecisionGc.Verify.Freeing
import PrecisionGc.Verify.Resizing
import PrecisionGc.Verify.Bytes
import PrecisionGc.Verify.Alignment
import PrecisionGc.Verify.BulkFree
import PrecisionGc.Verify.Program
import PrecisionGc.Verify.ProgramResults
import PrecisionGc.Verify.BinIndex
import PrecisionGc.Verify.BinTrees
import PrecisionGc.Verify.BinUnlink
import PrecisionGc.Verify.SmallBins
import PrecisionGc.Verify.Bins
import PrecisionGc.Verify.BinRuns
import PrecisionGc.Verify.BinSearch
import PrecisionGc.Verify.BinServe
