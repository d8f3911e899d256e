import LinearScan.Location
import LinearScan.SpillSlots
import LinearScan.SpillLaw
import LinearScan.ReachingDefs
import LinearScan.Liveness
import LinearScan.Resolve
import LinearScan.ResolveEdge
import LinearScan.LiveRange
import LinearScan.Allocator
import LinearScan.SplitAt
import LinearScan.FingerCache
import LinearScan.AllocateLoop
import LinearScan.Intersect
import LinearScan.Build
import LinearScan.LoopInv
import LinearScan.Cover
import LinearScan.CheapEvict
import LinearScan.BuildShape
import LinearScan.BuildInv
import LinearScan.BuildWalk
import LinearScan.BuildDefs
import LinearScan.BuildEntry
import LinearScan.BuildBlocks
import LinearScan.Occupancy
import LinearScan.RangeCut
import LinearScan.FreeRegister
import LinearScan.Evict
import LinearScan.AnyRegister
import LinearScan.Advance
import LinearScan.Worklist
