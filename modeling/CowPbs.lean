import CowPbs.Lib.Transition
import CowPbs.Lib.Scan
import CowPbs.Lib.Locks
import CowPbs.Lib.Rescan
import CowPbs.Lib.Confluence
import CowPbs.Lib.Redo
import CowPbs.Lib.LinkedRing
import CowPbs.Lib.Bytes
import CowPbs.Lib.Outcome
import CowPbs.Lib.Ownership
import CowPbs.Lib.Ring
import CowPbs.Lib.RefCount
import CowPbs.Proc
import CowPbs.Pbs
import CowPbs.ProcTable
import CowPbs.Section
import CowPbs.SetPriority
import CowPbs.Ticks
import CowPbs.SingleCpu
import CowPbs.SchedLocks
import CowPbs.WaitExit
import CowPbs.WaitFamily
import CowPbs.WaitProtocol
import CowPbs.SleepLock
import CowPbs.Cafe
import CowPbs.CafeInv
import CowPbs.CafeWasted
import CowPbs.CafeTiming
import CowPbs.CafeIdle
import CowPbs.CafeConfluence
import CowPbs.Parlor
import CowPbs.ParlorOrders
import CowPbs.ParlorSeats
import CowPbs.ParlorInv
import CowPbs.ParlorRota
import CowPbs.ParlorTiming
import CowPbs.ParlorBaton
import CowPbs.Log
import CowPbs.LogSpace
import CowPbs.LogCrash
import CowPbs.Bcache
import CowPbs.BcacheInv
import CowPbs.Fs
import CowPbs.FsLayout
import CowPbs.FsBlocks
import CowPbs.FsConsistent
import CowPbs.Pipe
import CowPbs.PipeFifo
import CowPbs.PipeWake
import CowPbs.Console
import CowPbs.ConsoleEdit
import CowPbs.Files
import CowPbs.FilesCount
import CowPbs.Virtio
import CowPbs.VirtioMatch
import CowPbs.Itable
import CowPbs.ItableInv
import CowPbs.ItableFree
import CowPbs.FsContent
import CowPbs.SharedOffset
import CowPbs.DynPriority
import CowPbs.Lib.CInt
import CowPbs.PriorityContract
import CowPbs.WakeChains
import CowPbs.Admission
import CowPbs.Lib.Prog
import CowPbs.Lib.Radix
import CowPbs.Riscv
import CowPbs.Kalloc
import CowPbs.PageTable
import CowPbs.PageMap
import CowPbs.CopyInStr
import CowPbs.Owners
import CowPbs.Uvm
import CowPbs.AddressSpace
import CowPbs.UserMemory
import CowPbs.Cow
import CowPbs.CopyOut
import CowPbs.UvmCopy
import CowPbs.Os
import CowPbs.Fork
import CowPbs.OsInv
import CowPbs.UserWrites
import CowPbs.GrowProc
import CowPbs.Lib.Overlay
import CowPbs.FsWrite
import CowPbs.FileArray
import CowPbs.FsLogged
import CowPbs.PipeRead
import CowPbs.Lib.Runs
import CowPbs.Sh
import CowPbs.ShGrammar
import CowPbs.ShParse
import CowPbs.Lib.Chain
import CowPbs.Umalloc
import CowPbs.UmallocInv
import CowPbs.UmallocRuns
import CowPbs.Lib.SlotTable
import CowPbs.FsRefs
import CowPbs.Directory
import CowPbs.FsTree
import CowPbs.Namei
import CowPbs.Exec
import CowPbs.ExecStack
import CowPbs.ExecInv
import CowPbs.Lib.Simulation
import CowPbs.OsCalls
import CowPbs.OsRuns
import CowPbs.Spinlock
import CowPbs.Uart
import CowPbs.Lib.Pattern
import CowPbs.Grep
import CowPbs.Mkfs
