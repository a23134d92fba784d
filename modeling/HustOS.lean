import HustOS.Foundations.Outcome
import HustOS.Foundations.Chain
import HustOS.Foundations.Tree
import HustOS.Foundations.Bytes
import HustOS.Foundations.Table
import HustOS.Foundations.Traced
import HustOS.Foundations.Interleave
import HustOS.Kernel
import HustOS.Proc.Sched
import HustOS.Proc.Queues
import HustOS.Proc.Steps
import HustOS.Proc.Exec
import HustOS.Proc.Run
import HustOS.Proc.Discipline
import HustOS.Proc.Identity
import HustOS.Proc.Semaphore
import HustOS.Proc.Reaping
import HustOS.Proc.DoExec
import HustOS.Proc.Lock
import HustOS.Proc.Reasons
import HustOS.Proc.WaitAny
import HustOS.Proc.Dispatch
import HustOS.Mm.Pmm
import HustOS.Mm.Vmm
import HustOS.Mm.PageTable
import HustOS.Mm.Space
import HustOS.Mm.Spaces
import HustOS.Mm.Twin
import HustOS.Mm.Ownership
import HustOS.Mm.Fork
import HustOS.Mm.FreePages
import HustOS.Mm.Isolation
import HustOS.Mm.Recycled
import HustOS.Mm.StoreFault
import HustOS.Mm.PageHeap
import HustOS.Mm.Segments
import HustOS.Mm.ForkCopy
import HustOS.Mm.BetterMalloc
import HustOS.Mm.BetterTables
import HustOS.Mm.BetterPhases
import HustOS.Mm.BetterRuns
import HustOS.Mm.BetterOwner
import HustOS.Mm.Copyout
import HustOS.Fs.Disk
import HustOS.Fs.HashTable
import HustOS.Fs.State
import HustOS.Fs.Rfs
import HustOS.Fs.Vfs
import HustOS.Fs.ProcFile
import HustOS.Fs.RfsSpec
import HustOS.Fs.Directory
import HustOS.Fs.Compaction
import HustOS.Fs.Volume
import HustOS.Fs.Invariant
import HustOS.Fs.Trans
import HustOS.Fs.Caches
import HustOS.Fs.Edits
import HustOS.Fs.Steps
import HustOS.Fs.Lookup
import HustOS.Fs.Create
import HustOS.Fs.Release
import HustOS.Fs.Write
import HustOS.Fs.Format
import HustOS.Fs.Run
import HustOS.Fs.Safety
import HustOS.Fs.FreeInode
import HustOS.Fs.RegularParents
import HustOS.Fs.MissingParents
import HustOS.Fs.FailedCalls
import HustOS.Fs.DirGrowth
import HustOS.Fs.Contents
import HustOS.Fs.Durable
import HustOS.Fs.Leak
import HustOS.Fs.Descriptors
import HustOS.Fs.BadDescriptors
import HustOS.Fs.Frame
import HustOS.Fs.OpenFiles
import HustOS.Fs.OpenCounts
import HustOS.Fs.DirHandles
import HustOS.Fs.BlockTrace
import HustOS.Fs.FileRead
import HustOS.Fs.FileWrite
import HustOS.Fs.Append
import HustOS.Fs.Deliver
import HustOS.Fs.Offsets
import HustOS.Fs.SharedOffsets
import HustOS.Fs.Cwd
import HustOS.Fs.PageTrace
import HustOS.Fs.Reopen
import HustOS.Fs.PageLedger
import HustOS.Fs.OpenCycles
import HustOS.Fs.PageSplit
import HustOS.Fs.UserWrite
import HustOS.Foundations.Leb128
import HustOS.Elf.Leb128
import HustOS.Elf.File
import HustOS.Foundations.BubbleSort
import HustOS.Elf.Backtrace
import HustOS.Foundations.Dwarf
import HustOS.Elf.LineTable
import HustOS.Elf.ErrorLine
import HustOS.Elf.Load
import HustOS.Elf.SymbolSort
import HustOS.Fs.InodeStorage
import HustOS.Foundations.Runs
import HustOS.Util.Strtok
import HustOS.Fs.PathWalk
import HustOS.Fs.CwdPaths
import HustOS.Fs.Hostfs
import HustOS.Fs.DentryCache
import HustOS.Fs.HostedRun
import HustOS.Fs.HostPath
import HustOS.Fs.MissingHost
import HustOS.Mm.PathArg
import HustOS.Elf.ExecArg
import HustOS.Boot.QueryMem
import HustOS.Boot.SpikeFile
import HustOS.Boot.FrontendSyscall
import HustOS.Proc.Barrier
import HustOS.Util.Console
import HustOS.Util.Atol
import HustOS.Proc.SemaphoreEnd
