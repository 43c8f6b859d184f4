import Yaos2.Cpu.Interrupts
import Yaos2.Cpu.Switching
import Yaos2.Cpu.Checkpoint
import Yaos2.Memory.HeapBounds
import Yaos2.Memory.OutOfMemory
import Yaos2.Scheduler.ExitWait
import Yaos2.Scheduler.Condition
import Yaos2.Scheduler.Sleep
import Yaos2.ExclusiveBuffer.Blocking
import Yaos2.Block.Cache
import Yaos2.Drivers.Pci
import Yaos2.Drivers.Serial
import Yaos2.Drivers.AtaPio
import Yaos2.Elf.Environment
import Yaos2.Fat.Identity
import Yaos2.Libc.Heap
import Yaos2.Libc.Unistd
import Yaos2.Libc.Closing
import Yaos2.Libc.Buffers
import Yaos2.Libc.Strings
import Yaos2.Libc.Convert
import Yaos2.Memory.BootMap
import Yaos2.Memory.Multiboot
import Yaos2.Memory.Shootdown
import Yaos2.Vfs.FileReferences
import Yaos2.Vfs.Seek
import Yaos2.Process.Free
import Yaos2.Process.Break
import Yaos2.Process.SyscallOpen
import Yaos2.Fat.Sequences
import Yaos2.Fat.Clusters
import Yaos2.Fat.NodeRead
import Yaos2.Vfs.Enumeration
