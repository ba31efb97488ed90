import DevOS.Lib.LinkedList
import DevOS.Lib.Tiling
import DevOS.Lib.Coalesce
import DevOS.Lib.Run
import DevOS.Lib.Bits
import DevOS.Lib.FirstMin
import DevOS.Lib.Sweep
import DevOS.Lib.RadixTree
import DevOS.Lib.RangeFill
import DevOS.Lib.Output
import DevOS.Lib.FirstMatch
import DevOS.Lib.Loop
import DevOS.Lib.Bytes
import DevOS.Lib.Region
import DevOS.Lib.Terminal
import DevOS.Include
import DevOS.Arch.E820
import DevOS.Arch.E820Sweep
import DevOS.Arch.E820Init
import DevOS.Arch.Bootmem
import DevOS.Arch.BootmemRuns
import DevOS.Arch.BootmemLedger
import DevOS.Arch.BootmemFrames
import DevOS.Arch.Pte
import DevOS.Arch.Vmm
import DevOS.Arch.VmmTree
import DevOS.Arch.VmmPage
import DevOS.Arch.VmmMap
import DevOS.Arch.VmmRange
import DevOS.Arch.VmmLeaves
import DevOS.Arch.VmmScan
import DevOS.Arch.VmmHasMapping
import DevOS.Arch.VmmInit
import DevOS.Arch.VmmHhdm
import DevOS.Arch.VmmBoot
import DevOS.Arch.VmmUser
import DevOS.Arch.VmmTouch
import DevOS.Arch.VmmEarly
import DevOS.Arch.VmmAgree
import DevOS.Arch.VmmNeeds
import DevOS.Arch.VmmCost
import DevOS.Arch.VmmIdentity
import DevOS.Arch.BootmemMapped
import DevOS.Arch.BootmemRequest
import DevOS.Arch.VmmForest
import DevOS.Arch.VmmSpaces
import DevOS.Arch.VmmDestroy
import DevOS.Arch.VmmIsolation
import DevOS.Boot.Fat
import DevOS.Boot.FatRead
import DevOS.Boot.FatCache
import DevOS.Boot.FatLookup
import DevOS.Boot.FatPath
import DevOS.Boot.FatWhole
import DevOS.Boot.FatWay
import DevOS.Boot.FatReturns
import DevOS.Boot.FatLockstep
import DevOS.Boot.FatReserved
import DevOS.Boot.FatBounds
import DevOS.Boot.FatLeak
import DevOS.Driver.EarlyVga
import DevOS.Driver.Console
import DevOS.Printk.Format
import DevOS.Printk.Pointer
import DevOS.Printk.Buffer
import DevOS.Boot.ShortName
import DevOS.Printk.Grammar
import DevOS.Printk.Integer
import DevOS.Printk.Ntoa
import DevOS.Printk.Wide
import DevOS.Mm.Buddy
import DevOS.Mm.BuddyRep
import DevOS.Mm.BuddyOps
import DevOS.Mm.BuddyMap
import DevOS.Mm.BuddyAlloc
import DevOS.Mm.BuddyInit
import DevOS.Mm.BuddyInitExact
import DevOS.Mm.BuddyRuns
import DevOS.Mm.BuddyPool
import DevOS.Mm.HandOff
import DevOS.Mm.ReadyVmm
import DevOS.Mm.OutOfMemory
import DevOS.Mm.TeardownPages
import DevOS.Mm.Teardown
import DevOS.Mm.TeardownRuns
import DevOS.Sched.Sched
import DevOS.Sched.Tasks
import DevOS.Sched.Schedule
import DevOS.Sched.Fairness
import DevOS.Sched.VirtualTime
import DevOS.Sched.Switch
import DevOS.Mm.HeldPages
import DevOS.Kernel.Memory
import DevOS.Kernel.Tasks
import DevOS.Lib.RadixAccess
import DevOS.Arch.UserAccess
import DevOS.Kernel.Privilege
import DevOS.Kernel.TasksRefine
import DevOS.Lib.Port
import DevOS.Kernel.Machine
import DevOS.Lib.Stack
import DevOS.Arch.Pic
import DevOS.Arch.Descriptors
import DevOS.Arch.Isr
import DevOS.Kernel.Hardware
import DevOS.Lib.Sgr
import DevOS.Driver.EarlyUart
