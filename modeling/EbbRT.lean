import EbbRT.Mem.PageAllocatorRuns
import EbbRT.Mem.EarlyMemoryRange
import EbbRT.Mem.VMemAllocator
import EbbRT.Virtio.Buffer
import EbbRT.Lib.Walk
import EbbRT.Virtio.Vring
import EbbRT.Virtio.VringRuns
import EbbRT.Virtio.UsedRing
import EbbRT.Mem.SlabTermination
import EbbRT.Mem.EarlyMapping
import EbbRT.Mem.MapTranslation
import EbbRT.Virtio.Notification
import EbbRT.Time.Clock
import EbbRT.Time.TimerRegisters
import EbbRT.Mem.SlabDestroy
import EbbRT.Mem.SlabNodeRace
import EbbRT.Mem.SlabNodes
import EbbRT.Mem.SlabBookkeeping
import EbbRT.Mem.SlabBounds
import EbbRT.Mem.PageAllocatorCanonical
import EbbRT.Mem.MemMap
import EbbRT.Ebb.EventManager
import EbbRT.Ebb.EbbAllocator
import EbbRT.Ebb.MulticoreEbb
import EbbRT.Ebb.Vectors
import EbbRT.Smp.Stacks
import EbbRT.Smp.SpinBarrier
import EbbRT.Smp.ConditionVariable
import EbbRT.Net.TcpPcb
import EbbRT.Virtio.VringContents
import EbbRT.Net.ReceivePacket
import EbbRT.Virtio.VringDecode
import EbbRT.Virtio.InFlight
import EbbRT.Virtio.VringCompletions
import EbbRT.Mem.PageAllocatorBlocks
import EbbRT.Mem.PageAllocatorAlloc
import EbbRT.Time.RepeatingTimers
import EbbRT.Mem.BootPasses
import EbbRT.Pci.Enumeration
import EbbRT.Mem.GeneralPurposeAllocator
import EbbRT.Mem.FrameLookup
import EbbRT.Acpi.Srat
import EbbRT.Mem.PageFault
import EbbRT.Mem.SlabRoots
import EbbRT.Virtio.Directions
import EbbRT.Mem.OutOfPages
import EbbRT.Virtio.VringLayout
import EbbRT.Pci.ConfigAccess
import EbbRT.Pci.Capabilities
import EbbRT.Pci.Bars
import EbbRT.Mem.MultibootMemoryMap
import EbbRT.Processor.Descriptors
import EbbRT.Processor.InterruptEntry
import EbbRT.Processor.ContextSwitch
import EbbRT.Processor.SuspendedStacks
import EbbRT.Mem.PageAllocatorLocked
import EbbRT.Smp.LockedCalls
import EbbRT.Mem.SlabEffects
import EbbRT.Mem.SlabProgress
import EbbRT.Mem.Heap
import EbbRT.Mem.HeapTenancy
import EbbRT.Mem.HeapRuns
