import EpochKernel.Driver.Console
import EpochKernel.Driver.Echo
import EpochKernel.Driver.Modifiers
import EpochKernel.Driver.Ps2
import EpochKernel.Driver.VgaPosition
import EpochKernel.Interrupt.Handlers
import EpochKernel.Interrupt.Pic
import EpochKernel.Interrupt.Stubs
import EpochKernel.Mb2
import EpochKernel.Mem.AddrSpaceDestroy
import EpochKernel.Mem.AddrSpaceFlush
import EpochKernel.Mem.AddrSpacePlacement
import EpochKernel.Mem.AddrSpaceRealloc
import EpochKernel.Mem.AddrSpaceTrace
import EpochKernel.Mem.BootTables
import EpochKernel.Mem.KmemGrow
import EpochKernel.Mem.KmemReallocated
import EpochKernel.Mem.MemInitHeap
import EpochKernel.Mem.MemInitRegions
import EpochKernel.Mem.PageCounter
import EpochKernel.Mem.PageTablesLifetime
import EpochKernel.Mem.PageTablesRollback
import EpochKernel.Mem.PallocatorReallocated
import EpochKernel.Mem.PallocatorStride
import EpochKernel.Mem.PallocatorTiling
import EpochKernel.Mem.PhysZonesAfforded
import EpochKernel.Mem.PoolComplete
import EpochKernel.Mem.Translate
import EpochKernel.Sched.ElfFailure
import EpochKernel.Sched.Fairness
import EpochKernel.Sched.Irq
import EpochKernel.Sched.KernelStack
import EpochKernel.Sched.Semaphore
import EpochKernel.Sched.SemaphoreTable
import EpochKernel.Sched.Sleepers
import EpochKernel.Sched.ThreadMemory
import EpochKernel.Sched.ThreadTable
import EpochKernel.Sync.Spinlock
import EpochKernel.Syscall.Agreement
import EpochKernel.Time.Pit
import EpochKernel.Util.Io
import EpochKernel.Util.Positional
import EpochKernel.Util.Route
import EpochKernel.Util.StringOrder
