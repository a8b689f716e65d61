import OsLabs.Lib.StateError
import OsLabs.Lib.Relational
import OsLabs.Lib.Ledger
import OsLabs.Xv6.Layout
import OsLabs.Xv6.PageTable
import OsLabs.Xv6.Kalloc
import OsLabs.Cow.Kalloc
import OsLabs.Base.Kalloc
import OsLabs.Xv6.Vm
import OsLabs.Xv6.Mapping
import OsLabs.Xv6.Unmapping
import OsLabs.Xv6.Growing
import OsLabs.Xv6.Image
import OsLabs.Xv6.Proc
import OsLabs.Xv6.Exec
import OsLabs.Xv6.System
import OsLabs.Xv6.Accounts
import OsLabs.Xv6.Lifecycle
import OsLabs.Xv6.Common
import OsLabs.Xv6.Dirs
import OsLabs.Xv6.Access
import OsLabs.Xv6.Boot
import OsLabs.Xv6.Census
import OsLabs.Cow.Vm
import OsLabs.Cow.System
import OsLabs.Cow.Sharing
import OsLabs.Cow.Refcount
import OsLabs.Cow.Tlb
import OsLabs.Cow.Family
import OsLabs.Cow.Handler
import OsLabs.Cow.Guard
import OsLabs.Cow.CorrectKalloc
import OsLabs.Lib.Tiling
import OsLabs.Malloc.Page
import OsLabs.Malloc.Alloc
import OsLabs.Malloc.Ealloc
import OsLabs.Malloc.Blocks
import OsLabs.Malloc.Mapped
import OsLabs.Base.Ptable
import OsLabs.Base.Parents
import OsLabs.Base.Kill
import OsLabs.Base.Cvar
import OsLabs.Cow.Failure
import OsLabs.Malloc.Fit
import OsLabs.Malloc.Practice
import OsLabs.Lazy.Vm
import OsLabs.Lazy.Mmap
import OsLabs.Lazy.Copy
import OsLabs.Lazy.System
import OsLabs.Lazy.Dirs
import OsLabs.Lazy.Steps
import OsLabs.Lazy.Counting
import OsLabs.Lazy.Charge
import OsLabs.Lazy.Region
import OsLabs.Lazy.Starved
import OsLabs.Lazy.Beyond
import OsLabs.Lazy.Below
import OsLabs.Lazy.Tally
import OsLabs.Malloc.FirstFit
import OsLabs.Malloc.Release
import OsLabs.Malloc.Expand
import OsLabs.Malloc.Refuse
import OsLabs.Base.Query
import OsLabs.Eager.Vm
import OsLabs.Eager.Spawn
import OsLabs.Eager.SpawnCount
import OsLabs.Cow.Spawn
import OsLabs.Cow.Smp
import OsLabs.Cow.Copies
import OsLabs.Himzu.Kalloc
import OsLabs.Himzu.Vm
import OsLabs.Himzu.Frames
import OsLabs.Lib.Simulation
import OsLabs.Fs.Log
import OsLabs.Fs.Replay
import OsLabs.Fs.Commit
import OsLabs.Fs.Atomic
import OsLabs.Fs.Crash
import OsLabs.Fs.Reserve
import OsLabs.Fs.LogWrite
import OsLabs.Fs.Progress
import OsLabs.Lib.Ring
import OsLabs.Ipc.Pipe
import OsLabs.Ipc.Fifo
import OsLabs.Ipc.Wakeup
import OsLabs.Spaces.Machine
import OsLabs.Spaces.View
import OsLabs.Spaces.Cow
import OsLabs.Spaces.Eager
import OsLabs.Spaces.Agree
import OsLabs.Spaces.Isolation
import OsLabs.Lib.Along
import OsLabs.Xv6.Waiting
import OsLabs.Spaces.Waiting
import OsLabs.Spaces.Paged
import OsLabs.Spaces.Lazy
import OsLabs.Spaces.Grown
import OsLabs.Spaces.Refinement
import OsLabs.Lib.Bytes
import OsLabs.Lib.Slots
import OsLabs.Files.Disk
import OsLabs.Files.Owner
import OsLabs.Files.Bmap
import OsLabs.Files.ReadWrite
import OsLabs.Files.Trunc
import OsLabs.Files.Spec
import OsLabs.Files.System
import OsLabs.Files.Write
import OsLabs.Files.Runs
