import Lamellar.Lib.Segments
import Lamellar.Lib.Roster
import Lamellar.Lib.Folds
import Lamellar.Lib.Transition
import Lamellar.Lib.Pool
import Lamellar.Lib.Ring
import Lamellar.Array.Layout
import Lamellar.Array.IndexMap
import Lamellar.Array.Rdma
import Lamellar.Array.Transfer
import Lamellar.Array.Reads
import Lamellar.Array.Writes
import Lamellar.Darc.Model
import Lamellar.Darc.Steps
import Lamellar.Darc.Counts
import Lamellar.Darc.Handles
import Lamellar.Darc.Rounds
import Lamellar.Darc.Snapshot
import Lamellar.Darc.Detection
import Lamellar.Darc.Closing
import Lamellar.Darc.Lifetime
import Lamellar.Darc.Conversion
import Lamellar.GlobalRw.Model
import Lamellar.GlobalRw.Steps
import Lamellar.GlobalRw.Invariant
import Lamellar.GlobalRw.Exclusion
import Lamellar.GlobalRw.Collective
import Lamellar.Barrier.Model
import Lamellar.Barrier.Safety
import Lamellar.CommandQueue.Buffers
import Lamellar.CommandQueue.Model
import Lamellar.CommandQueue.Invariant
import Lamellar.CommandQueue.Containers
import Lamellar.CommandQueue.Sender
import Lamellar.CommandQueue.Push
import Lamellar.CommandQueue.Receiver
import Lamellar.CommandQueue.Fetches
import Lamellar.CommandQueue.Steps
import Lamellar.CommandQueue.Tasks
import Lamellar.CommandQueue.Delivery
import Lamellar.CommandQueue.Sound
import Lamellar.CommandQueue.Waiting
import Lamellar.CommandQueue.Slot
import Lamellar.CommandQueue.Clearing
import Lamellar.PoolAlloc.Model
import Lamellar.PoolAlloc.Invariant
import Lamellar.PoolAlloc.Steps
import Lamellar.PoolAlloc.Agreement
import Lamellar.Lib.Entries
import Lamellar.Team.Arch
import Lamellar.Team.Subteam
import Lamellar.Team.Accepted
import Lamellar.Batching.Batch
import Lamellar.Batching.Transfer
import Lamellar.Batching.Draining
import Lamellar.Batching.Broadcast
import Lamellar.Batching.Copies
import Lamellar.Batching.Delivery
import Lamellar.Lib.Wire
import Lamellar.Batching.Codec
import Lamellar.Batching.RoundTrip
import Lamellar.Batching.TeamRoundTrip
import Lamellar.OneSided.Model
import Lamellar.OneSided.Invariant
import Lamellar.OneSided.Steps
import Lamellar.OneSided.Lifetime
import Lamellar.Lib.SortedMap
import Lamellar.Lib.Blocks
import Lamellar.Alloc.FreeEntries
import Lamellar.Alloc.BTreeAlloc
import Lamellar.Alloc.Heap
import Lamellar.Lib.Draining
import Lamellar.Array.LocalIndex
import Lamellar.DistributedIterator.Adaptors
import Lamellar.DistributedIterator.Meaning
import Lamellar.DistributedIterator.AdaptorLaws
import Lamellar.DistributedIterator.Stepping
import Lamellar.DistributedIterator.StepBy
import Lamellar.Lib.StandardIter
import Lamellar.Lib.Binary32
import Lamellar.LocalIterator.Adaptors
import Lamellar.LocalIterator.Restarting
import Lamellar.LocalIterator.AdaptorLaws
import Lamellar.LocalIterator.Chains
import Lamellar.Consumer.Schedules
import Lamellar.Lib.Tally
import Lamellar.Lib.Word
import Lamellar.Alloc.LinearAlloc
import Lamellar.Alloc.Merging
import Lamellar.Alloc.Coalescing
import Lamellar.Alloc.FakeMalloc
import Lamellar.BatchOps.OpInput
import Lamellar.Shmem.Translation
import Lamellar.Lib.Memory
import Lamellar.Shmem.Model
import Lamellar.Memregion.Model
import Lamellar.Memregion.Views
import Lamellar.Lib.Reduction
import Lamellar.Array.Reduce
import Lamellar.Lib.While
import Lamellar.Lib.Tiling
import Lamellar.TaskGroup.Model
import Lamellar.TaskGroup.RoundTrip
import Lamellar.TaskGroup.Splitting
import Lamellar.TaskGroup.Exec
import Lamellar.Lib.BinarySearch
import Lamellar.TaskGroup.Typed
import Lamellar.TaskGroup.GroupRuns
import Lamellar.TaskGroup.Batches
import Lamellar.TaskGroup.TypedExec
import Lamellar.TaskGroup.TypedResults
import Lamellar.Alloc.ObjSlots
import Lamellar.Array.SubArray
import Lamellar.Array.LocalMaps
import Lamellar.Array.RangeHelpers
import Lamellar.Array.OutOfRange
import Lamellar.Consumer.Stealing
import Lamellar.Consumer.Workers
import Lamellar.Consumer.Runs
import Lamellar.DistributedIterator.Restarting
import Lamellar.Consumer.Collect
import Lamellar.OneSidedIterator.Model
import Lamellar.OneSidedIterator.Places
import Lamellar.OneSidedIterator.Tours
import Lamellar.OneSidedIterator.Serving
import Lamellar.OneSidedIterator.Chains
import Lamellar.OneSidedIterator.Views
import Lamellar.Lib.MemLayout
import Lamellar.BatchOps.IndexSize
import Lamellar.BatchOps.Batches
import Lamellar.Lib.MachineInt
import Lamellar.BatchOps.CompareExchange
import Lamellar.Barrier.Rounds
import Lamellar.CommandQueue.Hashing
import Lamellar.Lib.Regions
import Lamellar.Darc.Layout
import Lamellar.LocalIterator.LocalChunks
import Lamellar.Array.FromVecs
import Lamellar.Consumer.ForEach
import Lamellar.OneSided.TeamModel
import Lamellar.OneSided.TeamIds
import Lamellar.Requests.Model
import Lamellar.Requests.Invariant
import Lamellar.Requests.Launch
import Lamellar.Requests.Deliver
import Lamellar.Requests.Handles
import Lamellar.Requests.Accounted
import Lamellar.Array.ElementLocks
import Lamellar.Lib.ReadModifyWrite
import Lamellar.BatchOps.Commands
import Lamellar.Lib.Buckets
import Lamellar.BatchOps.Positions
import Lamellar.BatchOps.Calls
import Lamellar.BatchOps.Scatter
import Lamellar.BatchOps.Runs
import Lamellar.BatchOps.Linear
import Lamellar.Shmem.GroupProgress
