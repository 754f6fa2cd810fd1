import CycleJoin.Processor.IntersectMultiway.Correct
import CycleJoin.Processor.IntersectMultiway.LoopState
import CycleJoin.Processor.SharedBuild.Exact
import CycleJoin.Processor.SharedBuild.Selection
import CycleJoin.Processor.SharedBuild.Dump
import CycleJoin.Planner.JoinKeys
import CycleJoin.Planner.Recursion
import CycleJoin.Storage.UpdateInfo.Links
import CycleJoin.Storage.UpdateInfo.Isolation
import CycleJoin.Storage.VersionInfo.Visibility
import CycleJoin.Storage.FreeSpace.Accounting
import CycleJoin.Storage.DiskArray.Runs
import CycleJoin.Storage.Compression.RoundTrip
import CycleJoin.Storage.Compression.ReadPaths
import CycleJoin.Storage.BufferManager.OptimisticRead
import CycleJoin.Catalog.Refinement
import CycleJoin.Catalog.SequenceRuns
import CycleJoin.Function.Gds.ShortestPathRows
import CycleJoin.Function.Gds.AllWeightedPaths
import CycleJoin.Csv.RoundTrip
import CycleJoin.Planner.CompareCycleJoin
import CycleJoin.Storage.HashIndex.Header
import CycleJoin.Common.Types.Interval
import CycleJoin.Common.ValueVector
import CycleJoin.Catalog.Conflicts
import CycleJoin.Function.Gds.CutOffWeightedPaths
import CycleJoin.Optimizer.AggKeyDependency
