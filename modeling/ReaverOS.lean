import ReaverOS.Kernel.TimerSpec
import ReaverOS.Kernel.UnmapExact
import ReaverOS.Kernel.VmoPages
import ReaverOS.Kernel.SharedTables
import ReaverOS.Kernel.IpiQueue
import ReaverOS.Kernel.MailboxReads
import ReaverOS.Kernel.ChannelFifo
import ReaverOS.Kernel.Capabilities
import ReaverOS.Kernel.Ownership
import ReaverOS.Kernel.SyscallContext
import ReaverOS.Kernel.Preemption
import ReaverOS.Kernel.VasLocks
import ReaverOS.Thorn.ConcreteSyntax
import ReaverOS.Archive.Cpio
import ReaverOS.Elf.UseBounds
import ReaverOS.Bootinit.Relocate
import ReaverOS.Rosestd.SharedMutex
import ReaverOS.Kernel.Hpet
import ReaverOS.Kernel.LapicRuns
import ReaverOS.Kernel.BootScreen
import ReaverOS.Kernel.ChainedAllocator
import ReaverOS.Kernel.Madt
import ReaverOS.Loader.MemoryMap
import ReaverOS.Loader.VideoMode
import ReaverOS.Loader.Config
import ReaverOS.Rosestd.FromChars
import ReaverOS.Rosestd.Format
import ReaverOS.Rosestd.Cstring
