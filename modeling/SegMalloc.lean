import SegMalloc.Memory
import SegMalloc.Header
import SegMalloc.Block
import SegMalloc.FreeList
import SegMalloc.Coalesce
import SegMalloc.FindFit
import SegMalloc.Api
import SegMalloc.Checker
import SegMalloc.Layout
import SegMalloc.Links
import SegMalloc.SegLists
import SegMalloc.Invariant
import SegMalloc.Merge
import SegMalloc.CoalesceSpec
import SegMalloc.FreeSpec
import SegMalloc.FitSpec
import SegMalloc.AllocSpec
import SegMalloc.Table
import SegMalloc.MallocSpec
import SegMalloc.ApiSpec
import SegMalloc.CheckerSpec
import SegMalloc.Run
import SegMalloc.Reachable
import SegMalloc.Calls
import SegMalloc.CheckerAccepts
import SegMalloc.Abstraction
import SegMalloc.Reuse
import SegMalloc.Growth
import SegMalloc.BestFit
import SegMalloc.Client
import SegMalloc.Footprint
import SegMalloc.Undo
import SegMalloc.Canonical
import SegMalloc.Fragmentation
import SegMalloc.ClientStores
import SegMalloc.AbstractFit
