import Pastoral.Drivers.Clocks
import Pastoral.Drivers.PciBar
import Pastoral.Fs.Chmod
import Pastoral.Fs.HeaderLoop
import Pastoral.Fs.LinkCycles
import Pastoral.Fs.Locks
import Pastoral.Fs.OpenCreate
import Pastoral.Fs.PipeCapacity
import Pastoral.Fs.RamfsFile
import Pastoral.Fs.ReadBuffer
import Pastoral.Fs.Readdir
import Pastoral.Interrupts.Ioapic
import Pastoral.Lib.BitmapRuns
import Pastoral.Lib.BstRuns
import Pastoral.Lib.ElfImage
import Pastoral.Lib.Numbers
import Pastoral.Lib.PriorityHeap
import Pastoral.Mm.ForkRegions
import Pastoral.Mm.PageTableLevels
import Pastoral.Mm.Placement
import Pastoral.Mm.PmmInit
import Pastoral.Mm.PmmSearch
import Pastoral.Mm.Protection
import Pastoral.Mm.RegionLookup
import Pastoral.Mm.SlabCalls
import Pastoral.Mm.SlabReuse
import Pastoral.Sched.Choice
import Pastoral.Sched.ExecDescriptors
import Pastoral.Sched.ExecFailure
import Pastoral.Sched.Exit
import Pastoral.Sched.Groups
import Pastoral.Sched.Ids
import Pastoral.Sched.Signal
import Pastoral.Sched.Waitpid
