import Kernel.Tasks.BlockOn
import Kernel.Tasks.RwLock.Properties
import Kernel.Tasks.SemaphoreWakeups
import Kernel.Memory.PhysicalMemoryAllocator.Pieces
import Kernel.Memory.PhysicalMemoryAllocator.Init
import Kernel.Memory.VirtualAddressAllocator.Reserve
import Kernel.Kapi.Queue.Failures
import Kernel.Storage.BlockCache.Failures
import Kernel.Storage.BlockCache.ConcurrentProperties
import Kernel.Storage.Nvme.Admin
import Kernel.Storage.Nvme.Command
import Kernel.Storage.Nvme.DataPointer
import Kernel.Storage.Nvme.Interrupt
import Kernel.Memory.Heap.Headers
import Kernel.Memory.Paging.Copy
import Kernel.Memory.Paging.UnmapWalk
import Kernel.Memory.Paging.MapBounds
import Kernel.Process.Thread.RoundRobin
import Kernel.Process.Thread.Scheduler
import Kernel.Process.Exit.Threads
import Kernel.Process.Exit.Stacks
import Kernel.Process.HeapCalls
import Kernel.Process.Dispatch
import Kernel.Process.Asids
import Kernel.Ds.Lists.Sequential
import Kernel.Ds.Maps
import Kernel.Ds.DtbSearch
import Kernel.Registry.PathBuf
import Kernel.Registry.Properties
import Kernel.Fs.Fat.Lookup
import Kernel.Fs.Fat.Names
import Kernel.Fs.Fat.Volume
import Kernel.Process.Spawn
import Kernel.Process.Drop
import Kernel.Process.QueueSize
import Kernel.Process.QueueIds
import Kernel.Exception.Gic
import Kernel.Exception.Frame
import Kernel.Process.FailedAlloc
import Kernel.Bus.Pcie
import Kernel.Memory.Heap.Reachable
