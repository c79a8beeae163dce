import MultithreadMayhem.Foundation.System
import MultithreadMayhem.Foundation.ThreadCount
import MultithreadMayhem.Foundation.BoundedQueue
import MultithreadMayhem.Foundation.Ring
import MultithreadMayhem.Pthread.Machine
import MultithreadMayhem.Pthread.Monitor
import MultithreadMayhem.Pthread.Count
import MultithreadMayhem.Buffer.Client
import MultithreadMayhem.BoundedBuffer.Code
import MultithreadMayhem.BoundedBuffer.Fifo
import MultithreadMayhem.BoundedBuffer.Progress
import MultithreadMayhem.SemBuffer.Code
import MultithreadMayhem.SemBuffer.Fifo
import MultithreadMayhem.RwLock.Code
import MultithreadMayhem.RwLock.Exclusion
import MultithreadMayhem.RwLock.Progress
import MultithreadMayhem.Kernel.Data
import MultithreadMayhem.Kernel.Frame
import MultithreadMayhem.Kernel.Code
import MultithreadMayhem.Kernel.Machine
import MultithreadMayhem.Kernel.Locks
import MultithreadMayhem.Kernel.Discipline
import MultithreadMayhem.Kernel.Roles
import MultithreadMayhem.Kernel.Plays
import MultithreadMayhem.Kernel.Stack
import MultithreadMayhem.Kernel.Invariant
import MultithreadMayhem.Kernel.Effect
import MultithreadMayhem.Kernel.Sound
import MultithreadMayhem.Kernel.Switch
import MultithreadMayhem.Kernel.Handoff
import MultithreadMayhem.Foundation.LockOrder
import MultithreadMayhem.Kernel.Deadlock
import MultithreadMayhem.Foundation.FirstMin
import MultithreadMayhem.Kernel.Scan
import MultithreadMayhem.Kernel.Dispatch
import MultithreadMayhem.Kernel.Bypass
import MultithreadMayhem.Kernel.Deeds
import MultithreadMayhem.Kernel.Boot
import MultithreadMayhem.Kernel.Parents
import MultithreadMayhem.Kernel.Parking
import MultithreadMayhem.Kernel.ExitNotice
import MultithreadMayhem.BoundedBuffer.Program
import MultithreadMayhem.Foundation.ByThread
import MultithreadMayhem.Pthread.Local
import MultithreadMayhem.BoundedBuffer.Shutdown
import MultithreadMayhem.SemBuffer.Progress
import MultithreadMayhem.SemBuffer.Workload
import MultithreadMayhem.Pthread.Solo
import MultithreadMayhem.SemBuffer.Calls
import MultithreadMayhem.BoundedBuffer.Calls
import MultithreadMayhem.Buffer.Atomic
import MultithreadMayhem.SemBuffer.Reinit
import MultithreadMayhem.BoundedBuffer.Histories
import MultithreadMayhem.SemBuffer.Histories
import MultithreadMayhem.Buffer.Interchange
import MultithreadMayhem.Kernel.Writes
import MultithreadMayhem.Foundation.Record
import MultithreadMayhem.Kernel.Event
import MultithreadMayhem.Kernel.Turn
import MultithreadMayhem.Kernel.Pids
import MultithreadMayhem.Kernel.ThreadGroups
import MultithreadMayhem.Kernel.Priorities
import MultithreadMayhem.Kernel.Lookups
import MultithreadMayhem.Kernel.PriorityStore
import MultithreadMayhem.Kernel.Kill
import MultithreadMayhem.Kernel.Slots
import MultithreadMayhem.Kernel.Edges
import MultithreadMayhem.Kernel.Tidy
import MultithreadMayhem.Kernel.Inherit
import MultithreadMayhem.Kernel.Remains
import MultithreadMayhem.Kernel.Kin
import MultithreadMayhem.Pthread.Tally
import MultithreadMayhem.RwLock.Preference
import MultithreadMayhem.RwLock.Threads
import MultithreadMayhem.Bank.Customer
import MultithreadMayhem.Parallel.LockedSum
import MultithreadMayhem.Parallel.Stats
import MultithreadMayhem.Race.Counter
import MultithreadMayhem.Kernel.Sbrk
import MultithreadMayhem.Kernel.PriorityFailure
import MultithreadMayhem.Kernel.SyscallCount
import MultithreadMayhem.Foundation.LinkedHeap
import MultithreadMayhem.SafeList.Code
import MultithreadMayhem.SafeList.Ownership
import MultithreadMayhem.SafeList.Sections
import MultithreadMayhem.SafeList.Linearizable
import MultithreadMayhem.SafeList.Memory
import MultithreadMayhem.Foundation.PageTables
import MultithreadMayhem.Kernel.ForkCall
import MultithreadMayhem.Kernel.ForkFailure
import MultithreadMayhem.Kernel.Lineage
import MultithreadMayhem.Kernel.Children
import MultithreadMayhem.Kernel.Waits
import MultithreadMayhem.Kernel.Debts
import MultithreadMayhem.Kernel.Orphans
import MultithreadMayhem.Kernel.Reaping
import MultithreadMayhem.Kernel.WaitSteps
import MultithreadMayhem.Kernel.Footprint
import MultithreadMayhem.Kernel.Dependence
import MultithreadMayhem.Kernel.DataRaces
import MultithreadMayhem.Kernel.Commute
import MultithreadMayhem.Foundation.Forest
import MultithreadMayhem.Kernel.Tree
import MultithreadMayhem.Kernel.Panics
import MultithreadMayhem.Kernel.Wakeups
import MultithreadMayhem.Kernel.Verdicts
import MultithreadMayhem.Foundation.Ranking
import MultithreadMayhem.RoundRobin.Scheduler
import MultithreadMayhem.Foundation.LifeCycle
import MultithreadMayhem.Kernel.LifeCycle
import MultithreadMayhem.Kernel.Whereabouts
