import Minios.Schemes.Run
import Minios.Schemes.Bytes
import Minios.Schemes.Ring
import Minios.Schemes.Rely
import Minios.Schemes.Prog
import Minios.Schemes.Trace
import Minios.Schemes.Mirror
import Minios.Schemes.Words
import Minios.Schemes.Lines
import Minios.Param
import Minios.Memmove
import Minios.Log.Script
import Minios.Log.Crash
import Minios.Log.Group
import Minios.Log.Discipline
import Minios.Log.Reserve
import Minios.Bio.Cache
import Minios.Bio.Invariant
import Minios.Bio.Lru
import Minios.Store.System
import Minios.Store.Commit
import Minios.Store.Invariant
import Minios.Store.User
import Minios.Store.Refine
import Minios.Fs.Layout
import Minios.Fs.Inode
import Minios.Schemes.Ledger
import Minios.Fs.Blocks
import Minios.Fs.Own
import Minios.Fs.Frame
import Minios.Fs.Contents
import Minios.Fs.Trunc
import Minios.Fs.Files
import Minios.Fs.Table
import Minios.Fs.Dirent
import Minios.Fs.Mkfs
import Minios.Fs.Arrays
import Minios.Fs.Short
import Minios.Fs.Sync
import Minios.Fs.Dir
import Minios.Fs.Counts
import Minios.Fs.Entries
import Minios.Fs.Safe
import Minios.Fs.Spare
import Minios.Fs.Lookup
import Minios.Fs.Locks
import Minios.Fs.Held
import Minios.Fs.Path
import Minios.Pipes.Pipe
import Minios.Pipes.Wakeup
import Minios.Pipes.Fifo
import Minios.Pipes.Read
import Minios.Procs.Proc
import Minios.Procs.Clean
import Minios.Procs.Family
import Minios.Procs.Protocol
import Minios.Procs.Wait
import Minios.Procs.Trace
import Minios.Procs.Ancestors
import Minios.Itable.Table
import Minios.Itable.Refs
import Minios.Itable.Free
import Minios.Sysfile.Calls
import Minios.Sysfile.Counts
import Minios.Sysfile.Safe
import Minios.Sysfile.Kept
import Minios.Sysfile.Reads
import Minios.Sysfile.Stored
import Minios.Sysfile.Owned
import Minios.Sysfile.Dirs
import Minios.Sysfile.Chunk
import Minios.Sysfile.Effects
import Minios.Sysfile.Create
import Minios.Sysfile.Failed
import Minios.Sched.Cpu
import Minios.Sched.Nesting
import Minios.Sched.Switch
import Minios.Sched.Exclusive
import Minios.Sched.Sleep
import Minios.Sched.Kill
import Minios.Schemes.Queue
import Minios.Console.Device
import Minios.Console.Editor
import Minios.Console.Stored
import Minios.Schemes.Radix
import Minios.Vm.Riscv
import Minios.Vm.Memory
import Minios.Vm.Table
import Minios.Vm.Maps
import Minios.Vm.Copy
import Minios.Vm.Space
import Minios.Vm.Process
import Minios.Exec.Image
import Minios.Exec.Atomic
import Minios.Exec.Grow
import Minios.Exec.Calls
import Minios.Schemes.Cycle
import Minios.Umalloc.Heap
import Minios.Umalloc.Order
import Minios.Umalloc.Calls
import Minios.Umalloc.Runs
import Minios.Umalloc.Sbrk
import Minios.Store.Room
import Minios.Uart.Tx
import Minios.Uart.Fifo
import Minios.Find.Walk
import Minios.Find.Complete
import Minios.Find.Exact
import Minios.Grep.Match
import Minios.Grep.Lines
import Minios.Xargs
