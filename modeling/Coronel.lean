import Coronel.Theory.Prog
import Coronel.Theory.Bytes
import Coronel.Theory.Span
import Coronel.Theory.Bump
import Coronel.Theory.BlockList
import Coronel.Theory.FreeList
import Coronel.Theory.BlockMemory
import Coronel.Theory.Stack
import Coronel.Theory.Terminal
import Coronel.Theory.Slice
import Coronel.Theory.Numeral
import Coronel.Kernel.Config
import Coronel.Kernel.Machine
import Coronel.Kernel.Allocators
import Coronel.Kernel.Paging
import Coronel.Kernel.Boot
import Coronel.Kernel.Blocks
import Coronel.Kernel.Heap
import Coronel.Kernel.UserAllocator
import Coronel.Kernel.Process
import Coronel.Kernel.MemoryManager
import Coronel.Kernel.Tlb
import Coronel.Kernel.Interrupts
import Coronel.Kernel.Pci
import Coronel.Kernel.Screen
import Coronel.Verify.Virtual
import Coronel.Verify.Regions
import Coronel.Verify.PageTables
import Coronel.Verify.Paging
import Coronel.Verify.AddressSpace
import Coronel.Verify.Directories
import Coronel.Verify.Frames
import Coronel.Verify.Physical
import Coronel.Verify.Calls
import Coronel.Verify.Blocks
import Coronel.Verify.HeapBlocks
import Coronel.Verify.Heap
import Coronel.Verify.HeapHealth
import Coronel.Verify.HeapRuns
import Coronel.Verify.HeapRequests
import Coronel.Verify.HeapGrowth
import Coronel.Verify.UserBlocks
import Coronel.Verify.Tlb
import Coronel.Verify.Interrupts
import Coronel.Verify.Pci
import Coronel.Verify.Screen
import Coronel.Verify.UserHeap
import Coronel.Verify.UserRuns
import Coronel.Verify.UserRequests
import Coronel.Verify.Access
import Coronel.Verify.Mmio
import Coronel.Verify.DirectMap
import Coronel.Verify.PhysicalBlocks
import Coronel.Verify.MemoryMap
import Coronel.Verify.Keyboard
import Coronel.Verify.Segments
import Coronel.Verify.Syscall
import Coronel.Verify.Bridges
import Coronel.Verify.PciPorts
import Coronel.Verify.UserLimit
import Coronel.Verify.HeapFit
import Coronel.Verify.HeapBare
import Coronel.Verify.HeapTeardown
import Coronel.Verify.Stdlib
import Coronel.Verify.Print
import Coronel.Verify.Colors
import Coronel.Verify.Scancodes
import Coronel.Verify.HeapFrees
import Coronel.Verify.HeapAligned
import Coronel.Verify.UserHealth
import Coronel.Verify.UserStack
import Coronel.Verify.ProcessStack
import Coronel.Verify.BootHeap
import Coronel.Verify.Watermark
import Coronel.Verify.FrameLoss
import Coronel.Verify.Uptime
import Coronel.Verify.Processes
import Coronel.Kernel.Irq
import Coronel.Verify.Irq
import Coronel.Verify.Timer
import Coronel.Verify.Atexit
import Coronel.Verify.Ilist
